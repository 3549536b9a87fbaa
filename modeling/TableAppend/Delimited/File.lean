import TableAppend.Delimited.Reader
import TableAppend.Layout
import TableAppend.World

/-!
# Delimited files

A delimited file begins with a record of its column names.  Null and the empty text are both written
as an empty field, which is read as null.  Files are written in the dialect that is asked for and read
in the one that their metadata names.
-/

namespace TableAppend.Delimited

/-- A mark as it is stored, if it can be one. -/
def storedMark? (text : String) : Option Char :=
  match text.toList with
  | [c] => if c.val < 128 then some c else none
  | _ => none

/-- The dialect in which a file is read. -/
def storedDialect (wanted : Dialect) : Option Metadata → Dialect
  | some (.delimited delimiter quote) =>
    match storedMark? delimiter, storedMark? quote with
    | some d, some q => ⟨d, q⟩
    | _, _ => wanted
  | _ => wanted

def recordsOf (tree : FileTree) (path : Path) (dialect : Dialect) : Outcome (List RawRecord) :=
  match tree.readBytes path with
  | .ok bytes => .ok (readRecords (.ofDialect dialect) bytes)
  | .error fault => .error (.records (.io fault))

/-! ## Reading -/

/-- The number of records after the header, all of which must be text.  The first of them is read
together with the header, so a fault in it is placed at the header. -/
def countRows (tree : FileTree) (dialect : Dialect) (path : Path) (metadata : Option Metadata) :
    Outcome Nat := do
  match ← recordsOf tree path (storedDialect dialect metadata) with
  | [] => return 0
  | header :: records =>
    let _ ← records.zipIdx.mapM fun (record, index) =>
      if index = 0 then record.decode 0 header.start else record.decode (index + 1) record.start
    return records.length

/-- The column names of a file that has any record. -/
def header? (tree : FileTree) (path : Path) (dialect : Dialect) : Outcome (Option (List String)) := do
  match ← recordsOf tree path dialect with
  | [] => return none
  | header :: _ => some <$> header.decode 0 header.start

/-- A record as a row: what is missing at its end is null, and what is too much is dropped. -/
def rowOfFields (width : Nat) (fields : List String) : List Cell :=
  let cells := (fields.take width).map Cell.ofField
  cells ++ List.replicate (width - cells.length) .null

def readRows (tree : FileTree) (dialect : Dialect) (path : Path) (metadata : Option Metadata) :
    Outcome Batch := do
  match ← recordsOf tree path (storedDialect dialect metadata) with
  | [] => Batch.ofRows [] []
  | header :: records =>
    let columns ← header.decode 0 header.start
    let rows ← records.zipIdx.mapM fun (record, index) => do
      let fields ← record.decode (index + 1) record.start
      return rowOfFields columns.length fields
    Batch.ofRows columns rows

/-! ## Checking -/

def firstLine (bytes : Bytes) : List Char :=
  let line := Utf8.decodeLossy (bytes.takeWhile (· ≠ lineFeed))
  (line.reverse.dropWhile fun c => c = '\r' || c = '\n').reverse

/-- The delimiters that are recognised in a line without metadata. -/
def knownDelimiters : List Char := [',', ';', '\t', '|']

/-- The most frequent known delimiter of a line, the later one of two equally frequent ones. -/
def likelyDelimiter? (line : List Char) : Option Char :=
  let counted := knownDelimiters.map fun delimiter => (delimiter, line.count delimiter)
  let best := counted.foldl (fun best next => if best.2 ≤ next.2 then next else best) (',', 0)
  if best.2 = 0 then none else some best.1

/-- Whether the marks of a file are the wanted ones, as far as its metadata or its first line say. -/
def checkMarks (tree : FileTree) (dialect : Dialect) (path : Path) :
    Option Metadata → Outcome Unit
  | some (.delimited delimiter quote) =>
    if delimiter = dialect.delimiter.toString ∧ quote = dialect.quote.toString then .ok ()
    else .error (.otherFormat path (.otherMarks delimiter quote dialect.delimiter dialect.quote))
  | some (.columnar _) => .error (.otherFormat path .recordedAsColumnar)
  | none =>
    match tree.readBytes path with
    | .error fault => .error (.io fault)
    | .ok bytes =>
      let line := firstLine bytes
      match likelyDelimiter? line with
      | some found =>
        if found ≠ dialect.delimiter ∧ dialect.delimiter ∉ line then
          .error (.otherFormat path (.otherDelimiter found dialect.delimiter))
        else .ok ()
      | none => .ok ()

/-- The layout of a file to which rows with these columns can be added. -/
def check (tree : FileTree) (dialect : Dialect) (path : Path) (metadata : Option Metadata)
    (columns : List String) : Outcome Layout := do
  checkMarks tree dialect path metadata
  match ← header? tree path dialect with
  | none => return .new
  | some header =>
    if header.length = columns.length ∧ columns.all header.contains then return .ofColumns header
    else .error (.otherColumns path header columns)

/-! ## Writing -/

/-- Rows as a later reading returns them. -/
def storedForm (rows : Batch) : Batch :=
  rows.mapCells fun cell => if cell = .text "" then .null else cell

def rowFields (row : List Cell) : List Bytes :=
  row.map fun cell => Utf8.encode cell.fieldText

def writeRows (dialect : Dialect) (rows : Batch) : Bytes :=
  writeRecords (.ofDialect dialect) (rows.rows.map rowFields)

def writeHeader (dialect : Dialect) (columns : List String) : Bytes :=
  writeRecord (.ofDialect dialect) (columns.map Utf8.encode)

def metadataOf (dialect : Dialect) : Metadata :=
  .delimited dialect.delimiter.toString dialect.quote.toString

/-- What ends a last line that has no end. -/
def missingLineEnd (bytes : Bytes) : Bytes :=
  match bytes.getLast? with
  | some last => if last = lineFeed then [] else [lineFeed]
  | none => []

/-- Writes rows to a new file, or after the rows of an existing one. -/
def write (dialect : Dialect) (path : Path) (rows : Batch) (layout : Layout) : Change Metadata := do
  match layout.columns with
  | none =>
    Change.onTree fun tree =>
      tree.write path (.bytes (writeHeader dialect rows.columns ++ writeRows dialect rows))
  | some header =>
    Change.onTree fun tree => do
      let bytes ← tree.readBytes path
      tree.append path (missingLineEnd bytes)
    let ordered ← Change.ofOutcome (rows.project header)
    Change.onTree fun tree => tree.append path (writeRows dialect ordered)
  return metadataOf dialect

end TableAppend.Delimited
