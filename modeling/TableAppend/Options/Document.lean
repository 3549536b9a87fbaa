import TableAppend.Json.Fields
import TableAppend.Json.Reader
import TableAppend.Options.Basic

/-!
# Options as documents

Every part of the options can be read from a JSON document and written as one.  Parts that are left
out have their usual values; a document that is written has every part.
-/

namespace TableAppend

/-! ## Formats -/

def Dialect.fieldNames : List String := ["delimiter", "quote"]

def Dialect.ofJson? (json : Json) : Option Dialect := do
  let fields ← json.fields? fieldNames
  return ⟨← Json.fieldOr fields "delimiter" Json.char? commaSeparated.delimiter,
    ← Json.fieldOr fields "quote" Json.char? commaSeparated.quote⟩

def Dialect.members (dialect : Dialect) : List (String × Json) :=
  [("delimiter", .text dialect.delimiter.toString), ("quote", .text dialect.quote.toString)]

def Dialect.toJson (dialect : Dialect) : Json :=
  .record dialect.members

namespace Format

/-- The format of a kind, whose fields are in the rest of the document.  A columnar format has no
fields: other members of an object mean nothing, but an array may not have more items. -/
def ofKind? (kind : String) (rest : Json) : Option Format :=
  if kind = "delimited" then (Dialect.ofJson? rest).map .delimited
  else if kind = "columnar" then
    match rest with
    | .array (_ :: _) => none
    | _ => some .columnar
  else none

/-- The kind is a member, at any position, or the first item of an array. -/
def ofJson? (depth : Nat) (json : Json) : Option Format :=
  if json.isLoadable depth then
    match json with
    | .array (kind :: rest) => do ofKind? (← kind.string?) (.array rest)
    | .object _ => do
      let members ← json.members? ["kind"]
      ofKind? (← Json.field? members "kind" Json.string?) json
    | _ => none
  else none

def toJson : Format → Json
  | .delimited dialect => .record (("kind", .text "delimited") :: dialect.members)
  | .columnar => .record [("kind", .text "columnar")]

end Format

/-! ## Policies -/

def AntiJoin.modes : List (String × Bool) := [("none", false), ("anti_join", true)]

def BaselineScope.names : List (String × BaselineScope) :=
  [("base_file", .baseFile), ("family", .family)]

def RoutingScheme.names : List (String × RoutingScheme) :=
  [("none", .none), ("by_column", .byColumn), ("hash", .hash)]

/-- The name of a choice in a table of names. -/
def nameIn [DecidableEq α] (table : List (String × α)) (choice : α) : String :=
  ((table.find? fun (_, other) => other = choice).map Prod.fst).getD ""

namespace AntiJoin

def fieldNames : List String := ["mode", "keys", "on_all_columns", "scope"]

def ofJson? (json : Json) : Option AntiJoin := do
  let fields ← json.fields? fieldNames
  return ⟨← Json.fieldOr fields "mode" (Json.choice? modes) false,
    ← Json.fieldOr fields "keys" (Json.list? Json.string?) [],
    ← Json.fieldOr fields "on_all_columns" Json.bool? false,
    ← Json.fieldOr fields "scope" (Json.choice? BaselineScope.names) .baseFile⟩

def toJson (join : AntiJoin) : Json :=
  .record [("mode", .text (nameIn modes join.enabled)), ("keys", .texts join.keys),
    ("on_all_columns", .bool join.onAllColumns),
    ("scope", .text (nameIn BaselineScope.names join.scope))]

end AntiJoin

namespace Routing

def fieldNames : List String := ["scheme", "column", "buckets"]

def bucketCount? (json : Json) : Option UInt32 :=
  (json.natural? UInt32.size).map UInt32.ofNat

def ofJson? (json : Json) : Option Routing := do
  let fields ← json.fields? fieldNames
  return ⟨← Json.fieldOr fields "scheme" (Json.choice? RoutingScheme.names) .none,
    ← Json.fieldOr fields "column" (Json.optional? Json.string?) none,
    ← Json.fieldOr fields "buckets" (Json.optional? bucketCount?) none⟩

def toJson (routing : Routing) : Json :=
  .record [("scheme", .text (nameIn RoutingScheme.names routing.scheme)),
    ("column", .optional .text routing.column),
    ("buckets", .optional (fun count => .nat count.toNat) routing.bucketCount)]

end Routing

namespace Limits

def fieldNames : List String := ["max_rows", "max_size_bytes"]

def limit? (json : Json) : Option UInt64 :=
  (json.natural? UInt64.size).map UInt64.ofNat

def ofJson? (json : Json) : Option Limits := do
  let fields ← json.fields? fieldNames
  return ⟨← Json.fieldOr fields "max_rows" (Json.optional? limit?) Option.none,
    ← Json.fieldOr fields "max_size_bytes" (Json.optional? limit?) Option.none⟩

def limitToJson (limit : Option UInt64) : Json :=
  .optional (fun n => .nat n.toNat) limit

def toJson (limits : Limits) : Json :=
  .record [("max_rows", limitToJson limits.maxRows),
    ("max_size_bytes", limitToJson limits.maxBytes)]

end Limits

/-! ## Options -/

namespace Options

def fieldNames : List String := ["target", "format", "dedup", "partition", "rollover"]

/-- The format lies one level below the document. -/
def formatDepth : Nat := Json.maxDepth - 1

def ofJson? (json : Json) : Option Options := do
  let fields ← json.fields? fieldNames
  return ⟨⟨← Json.field? fields "target" Json.string?⟩,
    ← Json.fieldOr fields "format" (Json.optional? (Format.ofJson? formatDepth)) none,
    ← Json.fieldOr fields "dedup" AntiJoin.ofJson? .off,
    ← Json.fieldOr fields "partition" Routing.ofJson? .off,
    ← Json.fieldOr fields "rollover" Limits.ofJson? .none⟩

def ofText (text : String) : Outcome Options :=
  match Json.parse? text >>= ofJson? with
  | some options => .ok options
  | none => .error .malformedDocument

/-- Options that stand in a file. -/
def ofFile (tree : FileTree) (path : Path) : Outcome Options :=
  match tree.readText path with
  | .ok text => ofText text
  | .error fault => .error (.io fault)

def toJson (options : Options) : Json :=
  .record [("target", .text options.target.text),
    ("format", .optional Format.toJson options.format),
    ("dedup", options.antiJoin.toJson), ("partition", options.routing.toJson),
    ("rollover", options.limits.toJson)]

end Options

end TableAppend
