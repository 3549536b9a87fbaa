import TableAppend.Delimited.Record
import TableAppend.Failure

/-!
# Reading records

Each byte moves an automaton one step, and the records that are complete accumulate in its state.
Reading is a fold over the bytes, so what has been read of a file's beginning does not depend on the
rest: `feed_append`.

A line feed, a carriage return or both end a record, and lines without any byte are skipped.  In a
quoted field everything but the quote is plain; after the closing quote the field goes on unquoted.
-/

namespace TableAppend.Delimited

/-- A place in a file, by the number of bytes before it and its line. -/
structure Position where
  byte : Nat
  line : Nat
  deriving DecidableEq

/-- A record whose fields need not be text, with the place where its reading began. -/
structure RawRecord where
  fields : List Bytes
  start : Position
  deriving DecidableEq

inductive Mode where
  /-- No byte of the next record has been read. -/
  | between
  | startField
  | plain
  | quoted
  /-- A quote inside a quoted field has been read: its end, or the first of two. -/
  | afterQuote
  deriving DecidableEq

/-- The field, the fields and the records so far are kept newest first. -/
structure Reader where
  mode : Mode
  field : Bytes
  fields : List Bytes
  start : Position
  here : Position
  records : List RawRecord
  deriving DecidableEq

namespace Reader

def initial : Reader := ⟨.between, [], [], ⟨0, 1⟩, ⟨0, 1⟩, []⟩

def push (reader : Reader) (mode : Mode) (byte : UInt8) : Reader :=
  { reader with mode, field := byte :: reader.field }

def endField (reader : Reader) : Reader :=
  { reader with
    mode := .startField
    field := []
    fields := reader.field.reverse :: reader.fields }

/-- The next record begins where this one ends. -/
def endRecord (reader : Reader) : Reader :=
  let ended := reader.endField
  { ended with
    mode := .between
    fields := []
    start := reader.here
    records := ⟨ended.fields.reverse, reader.start⟩ :: reader.records }

def advance (reader : Reader) (byte : UInt8) : Reader :=
  let here := reader.here
  { reader with here := ⟨here.byte + 1, if byte = lineFeed then here.line + 1 else here.line⟩ }

def isLineBreak (byte : UInt8) : Bool :=
  byte = lineFeed || byte = carriageReturn

/-- A byte that is not inside quotes and does not open them. -/
def takeOutside (marks : Marks) (reader : Reader) (byte : UInt8) : Reader :=
  if byte = marks.delimiter then reader.endField
  else if isLineBreak byte then reader.endRecord
  else reader.push .plain byte

def takeAtStart (marks : Marks) (reader : Reader) (byte : UInt8) : Reader :=
  if byte = marks.quote then { reader with mode := .quoted } else takeOutside marks reader byte

def take (marks : Marks) (reader : Reader) (byte : UInt8) : Reader :=
  match reader.mode with
  | .between => if isLineBreak byte then reader else takeAtStart marks reader byte
  | .startField => takeAtStart marks reader byte
  | .plain => takeOutside marks reader byte
  | .quoted =>
    if byte = marks.quote then { reader with mode := .afterQuote } else reader.push .quoted byte
  | .afterQuote =>
    if byte = marks.quote then reader.push .quoted byte else takeOutside marks reader byte

def step (marks : Marks) (reader : Reader) (byte : UInt8) : Reader :=
  take marks (reader.advance byte) byte

def feed (marks : Marks) (reader : Reader) (bytes : Bytes) : Reader :=
  bytes.foldl (step marks) reader

theorem feed_append (marks : Marks) (reader : Reader) (first second : Bytes) :
    reader.feed marks (first ++ second) = (reader.feed marks first).feed marks second := by
  simp [feed]

/-- The end of the bytes ends the record under way. -/
def finish (reader : Reader) : List RawRecord :=
  match reader.mode with
  | .between => reader.records.reverse
  | _ => reader.endRecord.records.reverse

end Reader

/-- A byte order mark at the very beginning is no part of the first field. -/
def byteOrderMark : Bytes := [0xEF, 0xBB, 0xBF]

def readRecords (marks : Marks) (bytes : Bytes) : List RawRecord :=
  if byteOrderMark.isPrefixOf bytes then
    let here : Position := ⟨byteOrderMark.length, 1⟩
    ({ Reader.initial with here }.feed marks (bytes.drop byteOrderMark.length)).finish
  else (Reader.initial.feed marks bytes).finish

/-! ## Records of text -/

/-- The number of the first field that is no text, with the number of its bytes that are. -/
def firstBadField? (fields : List Bytes) : Option (Nat × Nat) :=
  (fields.zipIdx.find? fun (field, _) => (Utf8.decode? field).isNone).map fun (field, index) =>
    (index, Utf8.wellFormedLength field)

/-- The fields of a record as text.  A fault names the record by `number` and the place `start`. -/
def RawRecord.decode (record : RawRecord) (number : Nat) (start : Position) :
    Outcome (List String) :=
  match record.fields.mapM Utf8.decode? with
  | some fields => .ok fields
  | none =>
    let (field, wellFormed) := (firstBadField? record.fields).getD (0, 0)
    .error (.records (.notText number start.line start.byte field wellFormed))

end TableAppend.Delimited
