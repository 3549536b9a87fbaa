import TableAppend.Cell
import TableAppend.Failure

/-!
# Batches of rows

A batch has named columns and rows of cells in the order of the columns.  `ofRows` and `ofRecords`
build well-formed batches: no column twice and every row as wide as the columns.
-/

namespace TableAppend

structure Batch where
  columns : List String
  rows : List (List Cell)
  deriving DecidableEq

namespace Batch

def WellFormed (batch : Batch) : Prop :=
  batch.columns.Nodup ∧ ∀ row ∈ batch.rows, row.length = batch.columns.length

def empty (columns : List String) : Batch := ⟨columns, []⟩

def size (batch : Batch) : Nat := batch.rows.length

def isEmpty (batch : Batch) : Bool := batch.rows.isEmpty

/-! ## Building -/

/-- The first name that stands in `seen` or earlier in the list. -/
def firstRepeated? (seen : List String) : List String → Option String
  | [] => none
  | name :: rest => if name ∈ seen then some name else firstRepeated? (name :: seen) rest

/-- The number and width of the first row that is not `width` wide. -/
def firstRagged? (width : Nat) (rows : List (List Cell)) : Option (Nat × Nat) :=
  (rows.zipIdx.find? fun (row, _) => row.length ≠ width).map fun (row, index) =>
    (index, row.length)

def ofRows (columns : List String) (rows : List (List Cell)) : Outcome Batch :=
  match firstRepeated? [] columns with
  | some column => .error (.setting (.duplicateColumn column))
  | none =>
    match firstRagged? columns.length rows with
    | some (index, width) => .error (.setting (.raggedRow index width columns.length))
    | none => .ok ⟨columns, rows⟩

/-- Puts the values of a record into `row`, each under its own column. -/
def fillRow (columns : List String) (row : List Cell) : List (String × Cell) → Outcome (List Cell)
  | [] => .ok row
  | (name, value) :: rest =>
    match columns.idxOf? name with
    | some index => fillRow columns (row.set index value) rest
    | none => .error (.setting (.unexpectedColumn name))

def alignRecord (columns : List String) (record : List (String × Cell)) : Outcome (List Cell) :=
  if record.length ≠ columns.length then .error (.setting .unequalRecords)
  else fillRow columns (List.replicate columns.length .null) record

/-- The first record gives the columns and their order. -/
def ofRecords : List (List (String × Cell)) → Outcome Batch
  | [] => ofRows [] []
  | first :: others => do
    let columns := first.map Prod.fst
    let rows ← others.mapM (alignRecord columns)
    ofRows columns (first.map Prod.snd :: rows)

/-! ## Looking up -/

def columnIndex? (batch : Batch) (column : String) : Option Nat :=
  batch.columns.idxOf? column

/-- The cell of a row under a column. -/
def cell? (columns : List String) (row : List Cell) (column : String) : Option Cell :=
  columns.idxOf? column >>= fun index => row[index]?

/-! ## Rearranging -/

/-- The rows with these numbers, in this order; a number past the end has no row. -/
def take (batch : Batch) (indices : List Nat) : Batch :=
  { batch with rows := indices.filterMap fun index => batch.rows[index]? }

def hasColumns (batch : Batch) (order : List String) : Bool :=
  batch.columns.length = order.length && order.all fun column => batch.columns.contains column

def cellsAt (positions : List Nat) (row : List Cell) : List Cell :=
  positions.map fun position => row[position]?.getD .null

/-- The batch with its columns in another order. -/
def project (batch : Batch) (order : List String) : Outcome Batch :=
  if batch.hasColumns order then
    let positions := order.filterMap batch.columnIndex?
    .ok ⟨order, batch.rows.map (cellsAt positions)⟩
  else .error (.internal (.projection batch.columns order))

/-- The rows of both batches under the columns of the first. -/
def concat (first second : Batch) : Outcome Batch := do
  let projected ← second.project first.columns
  return ⟨first.columns, first.rows ++ projected.rows⟩

def mapCells (f : Cell → Cell) (batch : Batch) : Batch :=
  { batch with rows := batch.rows.map (List.map f) }

/-- The cells of one column; a row without it counts as null. -/
def column (batch : Batch) (index : Nat) : List Cell :=
  batch.rows.map fun row => row[index]?.getD .null

end Batch

end TableAppend
