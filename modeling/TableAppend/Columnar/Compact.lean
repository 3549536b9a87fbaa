import TableAppend.Text.Utf8

/-!
# Compact records

A record is a row of fields that ends with a byte of its own.  A field begins with its kind and its
distance from the field before it, or its number.  A reader that knows a field takes what it expects
there; any other field is passed over by its kind.

Only whether bytes can be read is of interest here, so reading yields no values.
-/

namespace TableAppend.Compact

inductive Fault where
  | endOfBytes
  | badData
  /-- A required field is missing, or something has a kind that cannot be passed over. -/
  | badRecord
  | unsupported
  | tooDeep
  deriving DecidableEq

def Fault.message : Fault → String
  | .endOfBytes => "end of file"
  | .badData => "bad data"
  | .badRecord => "protocol error"
  | .unsupported => "not implemented"
  | .tooDeep => "maximum skip depth reached"

structure Source where
  rest : Bytes
  /-- The value of a flag is part of the byte that begins its field.  This says that such a value has
  been read and not been used yet. -/
  hasFlag : Bool
  deriving DecidableEq

abbrev Reader := StateT Source (Except Fault)

/-! ## Single values -/

def byte : Reader UInt8 := do
  let source ← get
  match source.rest with
  | [] => throw .endOfBytes
  | first :: rest =>
    set { source with rest }
    return first

def bytes (count : Nat) : Reader Bytes := do
  let source ← get
  if source.rest.length < count then throw .endOfBytes
  set { source with rest := source.rest.drop count }
  return source.rest.take count

/-- Seven bits a byte, the lowest ones first; the last byte is the one below 128. -/
def sevenBits (shift : Nat) : Bytes → Option (UInt64 × Bytes)
  | [] => none
  | first :: rest =>
    let bits := (first &&& 0x7F).toUInt64 <<< UInt64.ofNat shift
    if first < 0x80 then some (bits, rest)
    else (sevenBits (shift + 7) rest).map fun (more, rest) => (bits ||| more, rest)

def natural : Reader Nat := do
  let source ← get
  match sevenBits 0 source.rest with
  | none => throw .endOfBytes
  | some (value, rest) =>
    set { source with rest }
    return value.toNat

/-- Zero, minus one, one, minus two and so on, by natural numbers. -/
def integer : Reader Int := do
  let code ← natural
  return if code % 2 = 0 then (code / 2 : Nat) else -((code / 2 : Nat) : Int) - 1

def number : Reader Unit := do
  let _ ← natural

def double : Reader Unit := do
  let _ ← bytes 8

def binary : Reader Unit := do
  let _ ← bytes (← natural)

def text : Reader Unit := do
  match Utf8.decode? (← bytes (← natural)) with
  | some _ => return ()
  | none => throw .badData

def small : Reader Unit := do
  let _ ← byte

def flag : Reader Unit := do
  let source ← get
  if source.hasFlag then set { source with hasFlag := false }
  else if 2 < (← byte) then throw .badData

/-! ## Fields and elements -/

inductive Kind where
  | flag
  | small
  | number
  | double
  | text
  | list
  | unsupported
  | record
  deriving DecidableEq

/-- The kind that a code stands for.  The code zero stands for none. -/
def kind (code : UInt8) : Reader (Option Kind) :=
  match code.toNat with
  | 0 => return none
  | 1 | 2 => return some .flag
  | 3 => return some .small
  | 4 | 5 | 6 => return some .number
  | 7 => return some .double
  | 8 => return some .text
  | 9 => return some .list
  | 10 | 11 => return some .unsupported
  | 12 => return some .record
  | _ => throw .badData

def largestField : Int := 32767

/-- The kind and number of the next field, unless the record ends here. -/
def field (last : Int) : Reader (Option (Kind × Int)) := do
  let header ← byte
  let found ← kind (header % 16)
  if found = some .flag then modify fun source => { source with hasFlag := true }
  let distance : Int := (header / 16).toNat
  match found with
  | none => return none
  | some kind =>
    if distance = 0 then return some (kind, (← integer).bmod 65536)
    else if largestField < last + distance then throw .badData
    else return some (kind, last + distance)

/-- The numbers of the fields up to the end of the record.  The first argument bounds how many there
are, since each of them takes a byte. -/
def fieldsFrom (read : Kind → Int → Reader Unit) : Nat → Int → Reader (List Int)
  | 0, _ => throw .endOfBytes
  | count + 1, last => do
    match ← field last with
    | none => return []
    | some (kind, number) =>
      read kind number
      return number :: (← fieldsFrom read count number)

def fields (read : Kind → Int → Reader Unit) : Reader (List Int) := do
  fieldsFrom read ((← get).rest.length + 1) 0

def times : Nat → Reader Unit → Reader Unit
  | 0, _ => return ()
  | count + 1, read => do
    read
    times count read

/-- The number of elements that a list says it has.  A large one stands after the list's first byte;
it is signed, and a list with a negative number is empty. -/
def elementCount (code : UInt8) : Reader Nat :=
  if code = 15 then do
    let count : Int := ← natural
    return (count.bmod (Nat.pow 2 32)).toNat
  else return code.toNat

/-- The elements of a list, read by their kind. -/
def elements (read : Option Kind → Reader Unit) : Reader Unit := do
  let header ← byte
  let found ← kind (header % 16)
  let count ← elementCount (header / 16)
  times count (read found)

/-- Passes over something of a kind, in which records and lists may be nested less deep than
`depth`. -/
def skip : Nat → Option Kind → Reader Unit
  | 0, _ => throw .tooDeep
  | depth + 1, found =>
    match found with
    | none => throw .badRecord
    | some .flag => flag
    | some .small => small
    | some .number => number
    | some .double => double
    | some .text => text
    | some .list => elements (skip depth)
    | some .unsupported => throw .unsupported
    | some .record => do
      let _ ← fields fun kind _ => skip depth (some kind)

def deepest : Nat := 64

/-! ## Known records -/

/-- A reader for each known field. -/
abbrev Fields := List (Int × Reader Unit)

def Fields.read (known : Fields) (kind : Kind) (number : Int) : Reader Unit :=
  match known.lookup number with
  | some read => read
  | none => skip deepest (some kind)

def list (element : Reader Unit) : Reader Unit :=
  elements fun _ => element

/-- A record that has to hold the fields with the given numbers. -/
def record (required : List Int) (known : Fields) : Reader Unit := do
  let numbers ← fields known.read
  if required.all (numbers.contains ·) then return () else throw .badRecord

/-- A record with exactly one field, and that a known one. -/
def choice (known : Fields) : Reader Unit := do
  match ← fields known.read with
  | [number] => if (known.lookup number).isSome then return () else throw .badData
  | _ => throw .badData

/-- Why the bytes cannot be read, if they cannot. -/
def fault? (read : Reader Unit) (bytes : Bytes) : Option Fault :=
  match read.run ⟨bytes, false⟩ with
  | .ok _ => none
  | .error fault => some fault

end TableAppend.Compact
