import TableAppend.Columnar.Footer
import TableAppend.Layout
import TableAppend.World

/-!
# Columnar files

A columnar file is read and written as a whole, with a codec that need not be at hand.  Rows are added
by writing the stored and the new rows to a temporary file, which then takes the place of the old one.
Stored column types are kept; cells that they cannot hold are found by `check` before a write.
-/

namespace TableAppend

/-- What saves tables.  It either has nothing to save, or it leaves a content and may fail after
that. -/
structure Codec where
  save : Schema → Batch → Outcome (Content × Option Failure)

namespace Codec

/-- Saves tables, in the bytes that `encoding` makes of them. -/
def standard (encoding : Table → Bytes := fun _ => columnarMark ++ columnarMark) : Codec where
  save schema batch := do
    let table ← Table.encode schema batch
    return (.table ⟨table, encoding table⟩, none)

/-- The name under which a missing codec is reported. -/
def columnarName : String := "columnar"

def require (codec : Option Codec) (purpose : String) : Outcome Codec :=
  match codec with
  | some present => .ok present
  | none => .error (.codecMissing columnarName purpose)

end Codec

namespace Columnar

def readTable (tree : FileTree) (path : Path) : Outcome Table :=
  match tree.find path with
  | .error fault => .error (.io fault)
  | .ok (_, .directory) => .error (.tableFile (.io .isDirectory))
  | .ok (_, .file (.table saved)) => .ok saved.toTable
  | .ok (_, .file (.bytes bytes)) => .error (.tableFile (Footer.fault bytes))

def rejectDelimited (path : Path) : Option Metadata → Outcome Unit
  | some (.delimited _ _) => .error (.otherFormat path .recordedAsDelimited)
  | _ => .ok ()

/-! ## Reading -/

/-- The recorded number of rows, or else the number of those in the file. -/
def countRows (tree : FileTree) (codec : Option Codec) (path : Path) (metadata : Option Metadata) :
    Outcome Nat := do
  rejectDelimited path metadata
  match metadata >>= Metadata.rowCount? with
  | some count => return count.toNat
  | none =>
    let _ ← Codec.require codec "derive row count of a file without sidecar"
    let table ← readTable tree path
    let _ ← table.decode
    return table.size

def readRows (tree : FileTree) (codec : Option Codec) (path : Path) (metadata : Option Metadata) :
    Outcome Batch := do
  rejectDelimited path metadata
  let _ ← Codec.require codec "read dedup baseline"
  (← readTable tree path).decode

/-! ## Checking -/

/-- The first cell of a column that its stored type cannot hold. -/
def misfit? (schema : Schema) (rows : Batch) (column : String × Nat) : Option (ColumnType × Cell) := do
  let type ← schema.lookup column.1
  let cell ← (rows.column column.2).find? fun cell => !type.holds cell
  return (type, cell)

/-- A cell that does not fit is reported like a column that differs. -/
def checkTypes (path : Path) (schema : Schema) (rows : Batch) : Outcome Unit :=
  let misfits := rows.columns.zipIdx.filterMap fun column =>
    (misfit? schema rows column).map fun misfit => (column.1, misfit)
  match misfits with
  | [] => .ok ()
  | (column, type, cell) :: _ =>
    .error (.otherColumns path [column ++ ": " ++ type.name] [column ++ ": " ++ cell.display])

/-- The layout of a file to which rows can be added. -/
def check (tree : FileTree) (codec : Option Codec) (path : Path) (metadata : Option Metadata)
    (rows : Batch) : Outcome Layout := do
  rejectDelimited path metadata
  let _ ← Codec.require codec "check schema of existing file"
  let table ← readTable tree path
  let stored ← table.decode
  if stored.hasColumns rows.columns then
    checkTypes path table.schema rows
    return ⟨some stored.columns, some stored, some table.schema⟩
  else .error (.otherColumns path stored.columns rows.columns)

/-! ## Writing -/

/-- All rows of a file after rows are added to it. -/
def allRows (tree : FileTree) (path : Path) (rows : Batch) (layout : Layout) : Outcome Batch :=
  match layout.columns, layout.rows with
  | none, _ => .ok rows
  | some _, some stored => stored.concat rows
  | some _, none => do
    let stored ← (← readTable tree path).decode
    stored.concat rows

/-- The types that the columns of a file have to keep. -/
def keptSchema (tree : FileTree) (path : Path) (layout : Layout) : Outcome Schema :=
  match layout.schema, layout.columns with
  | some schema, _ => .ok schema
  | none, some _ => Table.schema <$> readTable tree path
  | none, none => .ok []

/-- Saves rows at a path.  A codec that fails may leave part of a file there. -/
def save (codec : Codec) (schema : Schema) (rows : Batch) (path : Path) : Change Unit := do
  let (content, failure?) ← Change.ofOutcome (codec.save schema rows)
  Change.onTree fun tree => tree.write path content
  match failure? with
  | none => return ()
  | some failure => throw failure

/-- Removes a file, if there is one. -/
def discard (path : Path) : Change Unit :=
  modify fun world =>
    match world.tree.removeFile path with
    | .ok tree => { world with tree }
    | .error _ => world

/-- Writes rows to a new file, or the stored and the new rows in place of an existing one. -/
def write (codec : Option Codec) (path : Path) (rows : Batch) (layout : Layout) : Change Metadata := do
  let codec ← Change.ofOutcome (Codec.require codec "write table")
  let all ← Change.inspect fun world => allRows world.tree path rows layout
  let schema ← Change.inspect fun world => keptSchema world.tree path layout
  let temporary := path.besides Metadata.temporaryEnding
  try save codec schema all temporary
  catch failure =>
    discard temporary
    throw failure
  Change.onTree fun tree => tree.rename temporary path
  return .columnar (UInt64.ofNat all.size)

end Columnar

end TableAppend
