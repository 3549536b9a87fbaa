import TableAppend.Batch
import TableAppend.Text.Blank
import TableAppend.Text.Clip

/-!
# Routing rows to partitions

A routing gives each row a partition: none, or a directory named for a column and either the row's
value in it or the bucket of that value.  `buckets` splits a batch by partition and keeps the order of
the rows in each.
-/

namespace TableAppend

/-! ## Segments -/

/-- The part of a token after its first `=`, or all of it. -/
def segmentValue (token : List Char) : List Char :=
  match token.dropWhile (· ≠ '=') with
  | _ :: value => value
  | [] => token

/-- Why a token cannot name a partition's directory, if it cannot. -/
def segmentFault? (token : String) : Option SegmentFault :=
  let chars := token.toList
  let value := segmentValue chars
  if stripBlanks value = [] then some .empty
  else if '/' ∈ chars ∨ '\\' ∈ chars then some .separator
  else if Char.ofNat 0 ∈ chars then some .nullByte
  else if value = ['.'] ∨ value = ['.', '.'] then some .relative
  else none

/-- The name of a partition's directory.  It is one step down and nothing else. -/
structure Segment where
  text : String
  accepted : segmentFault? text = none
  deriving DecidableEq

/-- A rejected token is shown in at most this many bytes. -/
def shownTokenBytes : Nat := 64

def Segment.ofToken (token : String) : Outcome Segment :=
  match h : segmentFault? token with
  | none => .ok ⟨token, h⟩
  | some fault => .error (.partitionKey (clip shownTokenBytes token) fault)

/-- A partition, or `none` for rows that are not partitioned. -/
abbrev PartitionKey := Option Segment

namespace PartitionKey

def text? (key : PartitionKey) : Option String :=
  key.map Segment.text

def display (key : PartitionKey) : String :=
  key.text?.getD "<none>"

/-- The directory of a partition below `base`. -/
def directory (key : PartitionKey) (base : Path) : Path :=
  match key with
  | some segment => base.join segment.text
  | none => base

end PartitionKey

/-! ## Routings -/

inductive RoutingScheme where
  | none
  | byColumn
  | hash
  deriving DecidableEq

def RoutingScheme.display : RoutingScheme → String
  | .none => "None"
  | .byColumn => "ByColumn"
  | .hash => "Hash"

structure Routing where
  scheme : RoutingScheme
  column : Option String
  bucketCount : Option UInt32
  deriving DecidableEq

structure Bucket where
  key : PartitionKey
  rows : Batch
  deriving DecidableEq

namespace Routing

def off : Routing := ⟨.none, none, none⟩

def byColumn (column : String) : Routing := ⟨.byColumn, some column, none⟩

def hash (column : String) (bucketCount : UInt32) : Routing := ⟨.hash, some column, some bucketCount⟩

def requiredColumn (routing : Routing) : Outcome String :=
  match routing.column with
  | some column =>
    if stripBlanks column.toList = [] then
      .error (.setting (.columnRequired routing.scheme.display))
    else .ok column
  | none => .error (.setting (.columnRequired routing.scheme.display))

def requiredBuckets (routing : Routing) : Outcome UInt32 :=
  match routing.bucketCount with
  | some count => if count = 0 then .error (.setting .noBuckets) else .ok count
  | none => .error (.setting .bucketCountMissing)

def validate (routing : Routing) : Outcome Unit :=
  match routing.scheme with
  | .none => .ok ()
  | .byColumn => do
    let _ ← routing.requiredColumn
    return ()
  | .hash => do
    let _ ← routing.requiredColumn
    let _ ← routing.requiredBuckets
    return ()

def rowCell (columns : List String) (row : List Cell) (column : String) : Outcome Cell :=
  match Batch.cell? columns row column with
  | some cell => .ok cell
  | none => .error (.setting (.partitionColumnMissing column))

def nullFailure (column : String) : Failure :=
  .partitionKey "null" (.nullColumn column)

/-- The partition of a row. -/
def route (routing : Routing) (columns : List String) (row : List Cell) : Outcome PartitionKey :=
  match routing.scheme with
  | .none => .ok none
  | .byColumn => do
    let column ← routing.requiredColumn
    let cell ← rowCell columns row column
    match cell.canonical? with
    | none => .error (nullFailure column)
    | some text => some <$> Segment.ofToken (column ++ "=" ++ strip text)
  | .hash => do
    let column ← routing.requiredColumn
    let count ← routing.requiredBuckets
    let cell ← rowCell columns row column
    match cell.canonical? with
    | none => .error (nullFailure column)
    | some _ =>
      some <$> Segment.ofToken (column ++ "=" ++ toString (cell.stableHash.toNat % count.toNat))

/-- The rows of each partition, the partitions in the order of their first rows. -/
def buckets (routing : Routing) (batch : Batch) : Outcome (List Bucket) := do
  routing.validate
  let keys ← batch.rows.mapM (routing.route batch.columns)
  let routed := keys.zip batch.rows
  return keys.eraseDups.map fun key =>
    ⟨key, { batch with rows := (routed.filter (·.1 = key)).map Prod.snd }⟩

end Routing

end TableAppend
