import TableAppend.Append.Remark
import TableAppend.Family
import TableAppend.Medium
import TableAppend.Options.Basic

/-!
# Preparing an append

All decisions about one partition are made before anything is written: which file receives the rows,
whether it has to be a new one, whether the rows fit the file, and which of them are stored already.
A real append and a simulated one prepare in the same way.  The simulated one only goes on where a
real one would fail for want of a codec, and counts rows that nobody needs to know.
-/

namespace TableAppend

inductive Mode where
  | real
  | simulated
  deriving DecidableEq

/-- What is to be done with batches, and by which means. -/
structure Job where
  options : Options
  medium : Medium
  /-- Reasons in notes are shown in at most this many bytes. -/
  noteLimit : Nat
  mode : Mode

namespace Job

/-- The outcome of a step that a simulation can leave out if the codec is missing. -/
def attempt (job : Job) (step : String) (outcome : Outcome α) : Outcome (Option α × List Note) :=
  match outcome with
  | .ok value => .ok (some value, [])
  | .error failure =>
    if job.mode = .simulated ∧ failure.isCodecMissing then
      .ok (none, [.skipped step (clip job.noteLimit failure.message)])
    else .error failure

/-! ## The file that receives rows -/

/-- The number of rows of a file, if it is known. -/
def countRows (job : Job) (world : World) (path : Path) (metadata : Option Metadata) :
    Outcome (Option Nat × List Note) :=
  let counted := job.medium.countRows world.tree path metadata
  if job.options.limits.maxRows.isSome then job.attempt "row count" counted
  else match job.mode with
    | .real => .ok (none, [])
    | .simulated =>
      match counted with
      | .ok rows => .ok (some rows, [])
      | .error failure => .ok (none, [.countUnavailable path failure])

/-- The state of a file; where there is none it has no rows. -/
def stateOf (job : Job) (world : World) (path : Path) (metadata : Option Metadata) :
    Outcome (FileState × Remarks) :=
  match world.tree.node? path with
  | some (.file content) => do
    let (rows, notes) ← job.countRows world path metadata
    let warnings := if metadata.isNone then [.metadataMissing path] else []
    return (⟨true, rows, some content.toBytes.length⟩, ⟨notes, warnings⟩)
  | _ => .ok (⟨false, some 0, some 0⟩, .none)

/-- A file that may receive rows, with what is known of it. -/
structure Located where
  path : Path
  metadata : Option Metadata
  state : FileState
  rolledOver : Bool

def observe (job : Job) (world : World) (path : Path) (rolledOver : Bool) :
    Outcome (Located × Remarks) := do
  let metadata ← world.metadata path
  let (state, remarks) ← job.stateOf world path metadata
  return (⟨path, metadata, state, rolledOver⟩, remarks)

/-- The file of the family that receives the next rows.  If the active one is full that is a new one,
which need not be checked again: there is no file yet. -/
def locate (job : Job) (world : World) (base : Path) : Outcome (Located × Remarks) := do
  let path ←
    if job.options.limits.isEnabled then Family.active world.tree base else .ok base
  let (found, remarks) ← job.observe world path false
  if found.state.present then
    match job.options.limits.check found.state with
    | .within => return (found, remarks)
    | .unknown => return (found, remarks ++ .ofWarnings [.countUnknown path])
    | .reached limit =>
      let next ← Family.target world.tree base true
      let (fresh, more) ← job.observe world next true
      return (fresh, remarks ++ .ofNotes [.rolledOver path limit] ++ more)
  else return (found, remarks)

/-- The layout of the file for the candidates, or that of a new file. -/
def layoutFor (job : Job) (world : World) (file : Located) (candidates : Batch) :
    Outcome (Layout × List Note) :=
  if file.state.present then do
    let checked := job.medium.check world.tree file.path file.metadata candidates
    let (layout, notes) ← job.attempt "schema check" checked
    return (layout.getD .new, notes)
  else .ok (.new, [])

/-! ## The rows that are not stored yet -/

/-- The files whose rows count as stored. -/
def baselineFiles (job : Job) (world : World) (base : Path) : Outcome (List Path) :=
  match job.options.antiJoin.scope with
  | .baseFile => .ok (if world.tree.isFile base then [base] else [])
  | .family => Family.members world.tree base

/-- The rows of all files, unless one of them cannot be read for want of a codec. -/
def readAll (job : Job) (world : World) : List Path → Outcome (Option (List Batch) × List Note)
  | [] => .ok (some [], [])
  | file :: rest => do
    let metadata ← world.metadata file
    let stored := job.medium.readRows world.tree file metadata
    let (rows?, notes) ← job.attempt "dedup baseline read" stored
    match rows? with
    | none => return (none, notes)
    | some rows =>
      let (others, more) ← job.readAll world rest
      return (others.map (rows :: ·), notes ++ more)

/-- The candidates to be written, and whether they were compared with stored rows. -/
def survivors (job : Job) (world : World) (base : Path) (candidates : Batch) :
    Outcome ((Batch × Bool) × List Note) :=
  let join := job.options.antiJoin
  if join.enabled then do
    let _ ← join.effectiveKeys candidates.columns
    let files ← job.baselineFiles world base
    let (baseline?, notes) ← job.readAll world files
    match baseline? with
    | none => return ((candidates, false), notes)
    | some baseline => return ((← join.apply baseline candidates, true), notes)
  else .ok ((candidates, false), [])

/-- A simulation tells where a real append would fail to write. -/
def writeWarnings (job : Job) (path : Path) (rows : Batch) : List Warning :=
  match job.medium.unwritable? with
  | some reason =>
    if job.mode = .simulated ∧ ¬ rows.isEmpty then [.unwritable path reason] else []
  | none => []

/-! ## All decisions together -/

end Job

structure Prepared where
  key : PartitionKey
  basePath : Path
  path : Path
  present : Bool
  storedRows : Option Nat
  candidateRows : Nat
  survivors : Batch
  layout : Layout
  rolledOver : Bool
  antiJoined : Bool
  remarks : Remarks

/-- Whether writing creates the file. -/
def Prepared.creates (prepared : Prepared) : Bool :=
  !prepared.present && !prepared.survivors.isEmpty

def Job.prepare (job : Job) (world : World) (bucket : Bucket) : Outcome Prepared := do
  let base := job.options.basePath bucket.key
  let (file, found) ← job.locate world base
  let candidates := job.medium.storedForm bucket.rows
  let (layout, checked) ← job.layoutFor world file candidates
  let ((survivors, antiJoined), compared) ← job.survivors world base candidates
  let warnings := job.writeWarnings file.path survivors
  return {
    key := bucket.key
    basePath := base
    path := file.path
    present := file.state.present
    storedRows := file.state.rows
    candidateRows := bucket.rows.size
    survivors, layout, antiJoined
    rolledOver := file.rolledOver
    remarks := found ++ .ofNotes checked ++ .ofNotes compared ++ .ofWarnings warnings }

end TableAppend
