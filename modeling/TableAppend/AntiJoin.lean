import TableAppend.Batch
import TableAppend.Key

/-!
# Dropping rows that are already stored

Candidates whose key occurs in a baseline of stored rows are dropped; the others keep their order and
their multiplicity.  Keys are compared by canonical text, so a typed cell equals the text it was
written as.
-/

namespace TableAppend

/-- Whose rows count as stored: those of the base file, or of its whole family. -/
inductive BaselineScope where
  | baseFile
  | family
  deriving DecidableEq

structure AntiJoin where
  enabled : Bool
  keys : List String
  onAllColumns : Bool
  scope : BaselineScope
  deriving DecidableEq

namespace AntiJoin

def off : AntiJoin := ⟨false, [], false, .baseFile⟩

def onKeys (keys : List String) : AntiJoin := ⟨true, keys, false, .baseFile⟩

def onEveryColumn : AntiJoin := ⟨true, [], true, .baseFile⟩

/-- The columns that make up a key: all of them where none are named. -/
def effectiveKeys (join : AntiJoin) (columns : List String) : Outcome (List String) :=
  let keys := if join.onAllColumns ∨ join.keys = [] then columns else join.keys
  if keys = [] then .error (.setting .noKeys)
  else match keys.find? fun key => !columns.contains key with
    | some key => .error (.setting (.keyNotInBatch key))
    | none => .ok keys

def keyPosition (batch : Batch) (place key : String) : Outcome Nat :=
  match batch.columnIndex? key with
  | some position => .ok position
  | none => .error (.setting (.keyNotFound key place))

/-- The keys of a batch's rows, in order. -/
def keysOf (keys : List String) (place : String) (batch : Batch) : Outcome (List Key) := do
  let positions ← keys.mapM (keyPosition batch place)
  return batch.rows.map (Key.ofRow positions)

/-- The distinct keys of the baseline.  A baseline without rows need not have the key columns, since
an empty file has no header. -/
def index (keys : List String) (baseline : List Batch) : Outcome (List Key) := do
  let found ← (baseline.filter (!·.isEmpty)).mapM (keysOf keys "baseline")
  return found.flatten.eraseDups

/-- The numbers of the candidates whose keys are not in `stored`. -/
def survivors (keys : List String) (stored : List Key) (candidates : Batch) :
    Outcome (List Nat) := do
  let found ← keysOf keys "batch" candidates
  return found.zipIdx.filterMap fun (key, number) =>
    if stored.contains key then none else some number

/-- The candidates that are not in the baseline.  The key columns are chosen among `columns`. -/
def filterAgainst (join : AntiJoin) (columns : List String) (baseline : List Batch)
    (candidates : Batch) : Outcome Batch :=
  if join.enabled then do
    let keys ← join.effectiveKeys columns
    let stored ← index keys baseline
    return candidates.take (← survivors keys stored candidates)
  else .ok candidates

def apply (join : AntiJoin) (baseline : List Batch) (candidates : Batch) : Outcome Batch :=
  join.filterAgainst candidates.columns baseline candidates

end AntiJoin

end TableAppend
