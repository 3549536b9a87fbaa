import TableAppend.Json.Numeral

/-!
# JSON documents

A document keeps what its text says: the order of members, repeated members, and the written form of
numbers.  A string or member name with an unpaired surrogate stands for no text and is held as
`none`; a reader of the document decides whether that matters.  `compact` and `pretty` write
documents.
-/

namespace TableAppend

inductive Json where
  | null
  | bool (value : Bool)
  | number (value : Numeral)
  | string (value : Option String)
  | array (items : List Json)
  | object (members : List (Option String × Json))

namespace Json

def text (value : String) : Json :=
  .string (some value)

def nat (value : Nat) : Json :=
  .number (.ofNat value)

/-- An object with readable member names. -/
def record (members : List (String × Json)) : Json :=
  .object (members.map fun (name, value) => (some name, value))

def texts (values : List String) : Json :=
  .array (values.map text)

def optional (write : α → Json) : Option α → Json
  | none => .null
  | some value => write value

/-! ## Writing strings -/

def hexDigit (n : Nat) : Char :=
  Nat.digitChar (n % 16)

/-- Control characters are escaped, by a letter where there is one; all other characters but the
quote and the backslash stand for themselves. -/
def escape (c : Char) : List Char :=
  if c = '"' then ['\\', '"']
  else if c = '\\' then ['\\', '\\']
  else if c = '\n' then ['\\', 'n']
  else if c = '\r' then ['\\', 'r']
  else if c = '\t' then ['\\', 't']
  else if c = '\x08' then ['\\', 'b']
  else if c = '\x0c' then ['\\', 'f']
  else if c.toNat < 0x20 then ['\\', 'u', '0', '0', hexDigit (c.toNat / 16), hexDigit c.toNat]
  else [c]

def renderString : Option String → List Char
  | some value => '"' :: value.toList.flatMap escape ++ ['"']
  | none => "\"\\ud800\"".toList

/-! ## Compact text -/

def separated (separator : List Char) : List (List Char) → List Char
  | [] => []
  | [part] => part
  | part :: rest => part ++ separator ++ separated separator rest

mutual

def render : Json → List Char
  | .null => "null".toList
  | .bool true => "true".toList
  | .bool false => "false".toList
  | .number value => value.render
  | .string value => renderString value
  | .array items => '[' :: separated [','] (renderItems items) ++ [']']
  | .object members => '\x7b' :: separated [','] (renderMembers members) ++ ['\x7d']

def renderItems : List Json → List (List Char)
  | [] => []
  | item :: rest => render item :: renderItems rest

def renderMembers : List (Option String × Json) → List (List Char)
  | [] => []
  | (name, value) :: rest => (renderString name ++ ':' :: render value) :: renderMembers rest

end

def compact (json : Json) : String :=
  String.ofList json.render

/-! ## Indented text -/

def lineBreak (depth : Nat) : List Char :=
  '\n' :: List.replicate (2 * depth) ' '

/-- The parts of a container, each on a line of its own. -/
def block (opening closing : Char) (depth : Nat) (parts : List (List Char)) : List Char :=
  match parts with
  | [] => [opening, closing]
  | parts =>
    opening :: lineBreak (depth + 1) ++ separated (',' :: lineBreak (depth + 1)) parts
      ++ lineBreak depth ++ [closing]

mutual

def renderIndented (depth : Nat) : Json → List Char
  | .array items => block '[' ']' depth (indentedItems (depth + 1) items)
  | .object members => block '\x7b' '\x7d' depth (indentedMembers (depth + 1) members)
  | .null => render .null
  | .bool value => render (.bool value)
  | .number value => render (.number value)
  | .string value => render (.string value)

def indentedItems (depth : Nat) : List Json → List (List Char)
  | [] => []
  | item :: rest => renderIndented depth item :: indentedItems depth rest

def indentedMembers (depth : Nat) : List (Option String × Json) → List (List Char)
  | [] => []
  | (name, value) :: rest =>
    (renderString name ++ [':', ' '] ++ renderIndented depth value) :: indentedMembers depth rest

end

/-- Two spaces of indentation per level. -/
def pretty (json : Json) : String :=
  String.ofList (json.renderIndented 0)

end Json

end TableAppend
