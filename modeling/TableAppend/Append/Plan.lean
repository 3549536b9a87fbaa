import TableAppend.Append.Report

/-!
# Plans

A plan tells what an append of a batch would do to the files as they are.  It prepares every partition
and writes none, so it is a function of the world.
-/

namespace TableAppend

/-- What would be done for one partition. -/
structure PlannedAction where
  key : PartitionKey
  path : Path
  basePath : Path
  storedRows : Option Nat
  candidateRows : Nat
  rowsToAppend : Nat
  creates : Bool
  antiJoined : Bool
  rolledOver : Bool
  notes : List Note
  deriving DecidableEq

def PlannedAction.ofPrepared (prepared : Prepared) : PlannedAction where
  key := prepared.key
  path := prepared.path
  basePath := prepared.basePath
  storedRows := prepared.storedRows
  candidateRows := prepared.candidateRows
  rowsToAppend := prepared.survivors.size
  creates := prepared.creates
  antiJoined := prepared.antiJoined
  rolledOver := prepared.rolledOver
  notes := prepared.remarks.notes

structure Plan where
  medium : String
  actions : List PlannedAction
  warnings : List Warning
  totalRows : Nat
  deriving DecidableEq

namespace Plan

/-- The notes of all actions, each with its partition. -/
def notes (plan : Plan) : List String :=
  plan.actions.flatMap fun action =>
    action.notes.map fun note => s!"[{action.key.display}] {note.message}"

def rowsToAppend (plan : Plan) : Nat :=
  plan.actions.foldl (fun total action => total + action.rowsToAppend) 0

/-- The files that would be written, each once. -/
def paths (plan : Plan) : List Path :=
  (plan.actions.filter (·.rowsToAppend ≠ 0)).foldl
    (fun paths action => Report.addPath paths action.path) []

end Plan

def Job.plan (job : Job) (world : World) (buckets : List Bucket) (totalRows : Nat) :
    Outcome Plan := do
  let prepared ← buckets.mapM (job.prepare world)
  return {
    medium := job.medium.name
    actions := prepared.map .ofPrepared
    warnings := prepared.flatMap fun each => each.remarks.warnings
    totalRows }

/-- What `append` would do. -/
def Appender.simulate (appender : Appender) (options : Options) (batch : Batch) (world : World) :
    Outcome Plan := do
  options.validate world.tree
  let format ← options.effectiveFormat
  let job := appender.job options format .simulated
  if batch.isEmpty then return ⟨job.medium.name, [], [], 0⟩
  let buckets ← options.routing.buckets batch
  job.plan world buckets batch.size

/-! ## Written forms -/

def PlannedAction.flags (action : PlannedAction) : List String :=
  (if action.creates then ["create"] else [])
    ++ (if action.rolledOver then ["rollover"] else [])
    ++ (if action.antiJoined then ["dedup"] else [])

def PlannedAction.summary (action : PlannedAction) : String :=
  s!"{action.path.text} <- {action.rowsToAppend} row(s) [" ++ ", ".intercalate action.flags ++ "]"

def PlannedAction.toJson (action : PlannedAction) : Json :=
  .record [("path", .text action.path.text), ("base_path", .text action.basePath.text),
    ("partition_key", .optional .text action.key.text?),
    ("existing_rows", .optional .nat action.storedRows),
    ("candidate_rows", .nat action.candidateRows), ("rows_to_append", .nat action.rowsToAppend),
    ("will_create", .bool action.creates), ("dedupe_applied", .bool action.antiJoined),
    ("rollover_applied", .bool action.rolledOver),
    ("notes", .texts (action.notes.map Note.message))]

namespace Plan

def headline (plan : Plan) : String :=
  s!"Append plan ({plan.medium}): {plan.rowsToAppend} of {plan.totalRows} rows "
    ++ s!"across {plan.actions.length} partition(s)"

/-- One line for the whole, and one for each action, warning and note. -/
def summary (plan : Plan) : String :=
  let details := plan.actions.map PlannedAction.summary
    ++ plan.warnings.map (fun warning => "warning: " ++ warning.message)
    ++ plan.notes.map (fun note => "note: " ++ note)
  String.join ((plan.headline :: details.map ("  " ++ ·)).map (· ++ "\n"))

def toJson (plan : Plan) : Json :=
  .record [("backend", .text plan.medium), ("actions", .array (plan.actions.map PlannedAction.toJson)),
    ("warnings", .texts (plan.warnings.map Warning.message)), ("notes", .texts plan.notes),
    ("total_rows", .nat plan.totalRows)]

end Plan

end TableAppend
