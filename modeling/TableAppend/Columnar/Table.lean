import TableAppend.Batch
import TableAppend.Columnar.ColumnType
import TableAppend.Columnar.Date

/-!
# Columnar tables

A table stores each column under a type.  `encode` turns a batch into a table: a column keeps the type
that a schema gives to its name, and otherwise has the type inferred from its cells.  `decode` turns
tables of one schema back into a batch.
-/

namespace TableAppend

/-- A stored value. -/
inductive Datum where
  | null
  | integer (value : Int)
  | double (value : Double)
  | single (value : Single)
  | bool (value : Bool)
  | text (value : String)
  /-- A date, as the number of days since the first of January 1970. -/
  | day (value : Int)
  deriving DecidableEq

abbrev Schema := List (String × ColumnType)

structure Column where
  name : String
  type : ColumnType
  data : List Datum
  deriving DecidableEq

structure Table where
  columns : List Column
  deriving DecidableEq

/-! ## Encoding -/

/-- The value that a cell has in a column of a widest type. -/
def Cell.collect (column : String) (type : ColumnType) (cell : Cell) : Outcome Datum :=
  match type, cell with
  | _, .null => .ok .null
  | .int64, .int value => .ok (.integer value.toInt)
  | .float64, .int value => .ok (.double (.ofInt value.toInt))
  | .float64, .double value => .ok (.double value)
  | .boolean, .bool value => .ok (.bool value)
  | .int64, _ | .float64, _ | .boolean, _ =>
    .error (.internal (.unstorable cell.display column type.name))
  | _, _ => .ok (.text cell.fieldText)

/-- The same value in a narrower column, if it is one of its values. -/
def Datum.narrow (type : ColumnType) (datum : Datum) : Outcome Datum :=
  match datum with
  | .integer value =>
    match type.range? with
    | some (least, largest) =>
      if least ≤ value ∧ value ≤ largest then .ok datum
      else .error (.encoding (.outOfRange value type.name))
    | none => .ok datum
  | .double value => .ok (if type = .float32 then .single (.ofDouble value) else datum)
  | .text value =>
    if type = .date32 then
      match Date.parseDays? value with
      | some days => .ok (.day days)
      | none => .error (.encoding (.noDate value))
    else .ok datum
  | _ => .ok datum

/-- All cells are collected before the first one is narrowed. -/
def Column.encode (name : String) (type : ColumnType) (cells : List Cell) : Outcome Column := do
  let collected ← cells.mapM (Cell.collect name type.widest)
  let data ← collected.mapM (Datum.narrow type)
  return ⟨name, type, data⟩

/-- The type of a column: that of the schema, or the inferred one. -/
def Schema.typeOf (schema : Schema) (name : String) (cells : List Cell) : ColumnType :=
  (schema.lookup name).getD (ColumnType.infer cells)

def Table.encode (schema : Schema) (batch : Batch) : Outcome Table := do
  let columns ← batch.columns.zipIdx.mapM fun (name, index) =>
    let cells := batch.column index
    Column.encode name (schema.typeOf name cells) cells
  if columns = [] then .error (.encoding .noColumns) else return ⟨columns⟩

/-! ## Decoding -/

/-- Columns of 32 or 64 bit signed integers are read as integers, those of the other integer types as
text. -/
def Datum.toCell (type : ColumnType) : Datum → Cell
  | .null => .null
  | .integer value =>
    if type = .int64 ∨ type = .int32 then .int (Int64.ofInt value) else .text (toString value)
  | .double value => .double value
  | .single value => .double value.toDouble
  | .bool value => .bool value
  | .text value => .text value
  | .day value => .text (Date.ofDays value).render

def Column.cells (column : Column) : List Cell :=
  column.data.map (Datum.toCell column.type)

/-- The first `count` rows of columns of cells. -/
def rowsOf : Nat → List (List Cell) → List (List Cell)
  | 0, _ => []
  | count + 1, columns =>
    columns.map (fun cells => cells.headD .null) :: rowsOf count (columns.map List.tail)

namespace Table

def schema (table : Table) : Schema :=
  table.columns.map fun column => (column.name, column.type)

def names (table : Table) : List String :=
  table.columns.map Column.name

def size (table : Table) : Nat :=
  match table.columns with
  | [] => 0
  | column :: _ => column.data.length

def rows (table : Table) : List (List Cell) :=
  rowsOf table.size (table.columns.map Column.cells)

/-- The rows of several tables with the same columns. -/
def decodeAll (names : List String) (tables : List Table) : Outcome Batch :=
  Batch.ofRows names (tables.flatMap rows)

def decode (table : Table) : Outcome Batch :=
  decodeAll table.names [table]

end Table

end TableAppend
