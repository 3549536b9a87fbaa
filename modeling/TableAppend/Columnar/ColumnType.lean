import TableAppend.Cell

/-!
# Types of stored columns

A columnar file has one type for all values of a column.  `holds` says which cells a type can hold by
their kind; whether a particular integer or text fits is found out when it is stored.
-/

namespace TableAppend

inductive ColumnType where
  | int8
  | int16
  | int32
  | int64
  | uint8
  | uint16
  | uint32
  | uint64
  | float32
  | float64
  | boolean
  | utf8
  | largeUtf8
  | date32
  deriving DecidableEq

namespace ColumnType

def all : List ColumnType :=
  [int8, int16, int32, int64, uint8, uint16, uint32, uint64, float32, float64, boolean, utf8,
    largeUtf8, date32]

def name : ColumnType → String
  | int8 => "Int8"
  | int16 => "Int16"
  | int32 => "Int32"
  | int64 => "Int64"
  | uint8 => "UInt8"
  | uint16 => "UInt16"
  | uint32 => "UInt32"
  | uint64 => "UInt64"
  | float32 => "Float32"
  | float64 => "Float64"
  | boolean => "Boolean"
  | utf8 => "Utf8"
  | largeUtf8 => "LargeUtf8"
  | date32 => "Date32"

def ofName? (name : String) : Option ColumnType :=
  all.find? fun type => type.name = name

@[simp]
theorem ofName?_name (type : ColumnType) : ofName? type.name = some type := by
  cases type <;> decide

/-- The least and the largest integer of an integer type. -/
def range? : ColumnType → Option (Int × Int)
  | int8 => some (-128, 127)
  | int16 => some (-32768, 32767)
  | int32 => some (-2147483648, 2147483647)
  | int64 => some (-9223372036854775808, 9223372036854775807)
  | uint8 => some (0, 255)
  | uint16 => some (0, 65535)
  | uint32 => some (0, 4294967295)
  | uint64 => some (0, 18446744073709551615)
  | _ => none

def isInteger (type : ColumnType) : Bool :=
  type.range?.isSome

def isText (type : ColumnType) : Bool :=
  type = utf8 || type = largeUtf8

def isNumeric (type : ColumnType) : Bool :=
  type.isInteger || type = float32 || type = float64

/-- Text columns hold every cell, as its canonical text. -/
def holds (type : ColumnType) (cell : Cell) : Bool :=
  type.isText ||
    match cell with
    | .null => true
    | .int _ => type.isNumeric
    | .double _ => type.isNumeric && !type.isInteger
    | .bool _ => type = boolean
    | .text _ => !type.isNumeric && type ≠ boolean

/-- The widest type of the same kind, in which the values of a column are first collected. -/
def widest (type : ColumnType) : ColumnType :=
  if type = boolean then boolean
  else if type.isInteger then int64
  else if type.isNumeric then float64
  else utf8

/-- The type of a column whose cells are all that is known of it. -/
def infer (cells : List Cell) : ColumnType :=
  let present := cells.filter (· ≠ .null)
  let isInt : Cell → Bool | .int _ => true | _ => false
  let isNumber : Cell → Bool | .int _ => true | .double _ => true | _ => false
  let isBool : Cell → Bool | .bool _ => true | _ => false
  if present = [] then utf8
  else if present.all isInt then int64
  else if present.all isNumber then float64
  else if present.all isBool then boolean
  else utf8

end ColumnType

end TableAppend
