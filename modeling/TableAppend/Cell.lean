import TableAppend.Json.Fields
import TableAppend.Sha256

/-!
# Cells

The values of a table.  Two cells count as equal where keys are compared, rows are routed or text is
written exactly if their canonical texts are equal; null has none.
-/

namespace TableAppend

inductive Cell where
  | null
  | bool (value : Bool)
  | int (value : Int64)
  | double (value : Double)
  | text (value : String)
  deriving DecidableEq

namespace Cell

/-- A double that is a whole number below two to the 53 is written like that integer. -/
def canonical? : Cell → Option String
  | .null => none
  | .bool value => some (if value then "true" else "false")
  | .int value => some (toString value.toInt)
  | .double value =>
    match value.wholeNumber? with
    | some n => some (toString n)
    | none => some value.plain
  | .text value => some value

def display (cell : Cell) : String :=
  cell.canonical?.getD "null"

/-- The text of a cell in a file that has no other mark for null than the empty field. -/
def fieldText (cell : Cell) : String :=
  cell.canonical?.getD ""

def ofText? : Option String → Cell
  | none => .null
  | some value => .text value

/-- The cell that an empty field is read as null and any other field as its text. -/
def ofField (field : String) : Cell :=
  if field = "" then .null else .text field

def stableHash (cell : Cell) : UInt64 :=
  Sha256.leading64 (Utf8.encode cell.fieldText)

@[simp]
theorem canonical?_eq_none_iff (cell : Cell) : cell.canonical? = none ↔ cell = .null := by
  cases cell with
  | double value => simp only [canonical?]; split <;> simp
  | null | bool value | int value | text value => simp [canonical?]

@[simp]
theorem canonical?_ofText? (text : Option String) : (ofText? text).canonical? = text := by
  cases text <;> rfl

/-! ## JSON form -/

def ofNumeral? (n : Numeral) : Option Cell :=
  match n.integer? with
  | some i =>
    if Int64.minValue.toInt ≤ i ∧ i ≤ Int64.maxValue.toInt then some (.int (Int64.ofInt i))
    else n.toDouble?.map .double
  | none => n.toDouble?.map .double

def ofJson? : Json → Option Cell
  | .null => some .null
  | .bool value => some (.bool value)
  | .number value => ofNumeral? value
  | .string (some value) => some (.text value)
  | _ => none

/-- A double that is not finite has no number in JSON and is written as null. -/
def toJson : Cell → Json
  | .null => .null
  | .bool value => .bool value
  | .int value => .number (.ofInt value.toInt)
  | .double value => if value.isFinite then .number (.ofDouble value) else .null
  | .text value => .text value

end Cell

end TableAppend
