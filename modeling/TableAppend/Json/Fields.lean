import TableAppend.Json.Basic

/-!
# Reading typed values from documents

A record is written as an object, whose members may stand in any order and among others that are not
asked for, or as an array of its fields in order, where fields at the end may be missing.  A name that
is asked for may not be repeated.  `isLoadable` holds of a part of a document that can be read as
values before it is known which ones are wanted.
-/

namespace TableAppend.Json

/-- The members with one of these names, none of them twice. -/
def members? (names : List String) : Json → Option (List (String × Json))
  | .object members => do
    let readable ← members.mapM fun (name, value) => name.map fun name => (name, value)
    let known := readable.filter fun (name, _) => names.contains name
    if (known.map Prod.fst).Nodup then some known else none
  | _ => none

/-- The fields of a record, as far as they are given. -/
def fields? (names : List String) : Json → Option (List (String × Json))
  | .array items => if items.length ≤ names.length then some (names.zip items) else none
  | json => json.members? names

/-- A field that may be missing. -/
def fieldOr (fields : List (String × Json)) (name : String) (read : Json → Option α) (absent : α) :
    Option α :=
  match fields.lookup name with
  | none => some absent
  | some json => read json

/-- A field that must be given. -/
def field? (fields : List (String × Json)) (name : String) (read : Json → Option α) : Option α :=
  fields.lookup name >>= read

def string? : Json → Option String
  | .string value => value
  | _ => none

def bool? : Json → Option Bool
  | .bool value => some value
  | _ => none

def char? : Json → Option Char
  | .string (some value) =>
    match value.toList with
    | [c] => some c
    | _ => none
  | _ => none

def natural? (bound : Nat) : Json → Option Nat
  | .number value => value.natural? bound
  | _ => none

def list? (read : Json → Option α) : Json → Option (List α)
  | .array items => items.mapM read
  | _ => none

def optional? (read : Json → Option α) : Json → Option (Option α)
  | .null => some none
  | json => (read json).map some

/-- One of several names: the name as a string, or as the only member of an object, with the value
null. -/
def choice? (table : List (String × α)) : Json → Option α
  | .string (some name) => table.lookup name
  | .object [(some name, .null)] => table.lookup name
  | _ => none

mutual

/-- Every string is a text, every number is finite, and containers are nested at most `depth` deep. -/
def isLoadable (depth : Nat) : Json → Bool
  | .null => true
  | .bool _ => true
  | .number value => value.toDouble?.isSome
  | .string value => value.isSome
  | .array items => depth ≠ 0 && areLoadable (depth - 1) items
  | .object members => depth ≠ 0 && membersAreLoadable (depth - 1) members

def areLoadable (depth : Nat) : List Json → Bool
  | [] => true
  | item :: rest => isLoadable depth item && areLoadable depth rest

def membersAreLoadable (depth : Nat) : List (Option String × Json) → Bool
  | [] => true
  | (name, value) :: rest =>
    name.isSome && isLoadable depth value && membersAreLoadable depth rest

end

/-- The deepest nesting of a whole document that is loaded at once. -/
def maxDepth : Nat := 127

end TableAppend.Json
