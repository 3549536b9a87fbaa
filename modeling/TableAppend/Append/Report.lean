import TableAppend.Append.Preparation
import TableAppend.Json.Basic

/-!
# Appending

The partitions of a batch are prepared and written one after the other.  The first failure stops the
append; what was written before stays, and the failure names it.  Metadata is recorded after the rows
are written, and nothing at all is written for a partition of which no row survives.
-/

namespace TableAppend

/-- What was done for one partition. -/
structure Action where
  path : Path
  partition : Option String
  rowsWritten : Nat
  rowsDropped : Nat
  created : Bool
  rolledOver : Bool
  antiJoined : Bool
  deriving DecidableEq

structure Report where
  /-- The files that were written, each once. -/
  written : List Path
  actions : List Action
  deriving DecidableEq

namespace Report

def empty : Report := ⟨[], []⟩

def addPath (paths : List Path) (path : Path) : List Path :=
  if paths.any path.same then paths else paths ++ [path]

def add (report : Report) (action : Action) : Report where
  written := if action.rowsWritten = 0 then report.written else addPath report.written action.path
  actions := report.actions ++ [action]

def rowsWritten (report : Report) : Nat :=
  report.actions.foldl (fun total action => total + action.rowsWritten) 0

end Report

namespace Prepared

def action (prepared : Prepared) : Action where
  path := prepared.path
  partition := prepared.key.text?
  rowsWritten := prepared.survivors.size
  rowsDropped := prepared.candidateRows - prepared.survivors.size
  created := prepared.creates
  rolledOver := prepared.rolledOver
  antiJoined := prepared.antiJoined

/-- Writes the rows of a prepared partition and then its metadata. -/
def commit (prepared : Prepared) (job : Job) : Change Action := do
  if !prepared.survivors.isEmpty then
    Change.makeDirectories (prepared.key.directory job.options.baseDirectory)
    let metadata ← job.medium.write prepared.path prepared.survivors prepared.layout
    World.recordMetadata prepared.path metadata
  return prepared.action

end Prepared

namespace Job

def process (job : Job) (bucket : Bucket) : Change Action := do
  let prepared ← Change.inspect fun world => job.prepare world bucket
  prepared.commit job

def processAll (job : Job) (report : Report) : List Bucket → Change Report
  | [] => return report
  | bucket :: rest => do
    let action ← ExceptT.adapt (Failure.atPartition report.written bucket.key.display)
      (job.process bucket)
    job.processAll (report.add action) rest

end Job

/-- The means by which batches are appended. -/
structure Appender where
  codec : Option Codec
  noteLimit : Nat

namespace Appender

def job (appender : Appender) (options : Options) (format : Format) (mode : Mode) : Job :=
  ⟨options, .ofFormat format appender.codec, appender.noteLimit, mode⟩

def append (appender : Appender) (options : Options) (batch : Batch) : Change Report := do
  Change.inspect fun world => options.validate world.tree
  let format ← Change.ofOutcome options.effectiveFormat
  if batch.isEmpty then return .empty
  let buckets ← Change.ofOutcome (options.routing.buckets batch)
  (appender.job options format .real).processAll .empty buckets

end Appender

/-! ## Written form -/

def Action.toJson (action : Action) : Json :=
  .record [("path", .text action.path.text), ("partition_key", .optional .text action.partition),
    ("rows_written", .nat action.rowsWritten), ("rows_dropped", .nat action.rowsDropped),
    ("created", .bool action.created), ("rollover_applied", .bool action.rolledOver),
    ("dedupe_applied", .bool action.antiJoined)]

def Report.toJson (report : Report) : Json :=
  .record [("written", .texts (report.written.map Path.text)),
    ("actions", .array (report.actions.map Action.toJson))]

end TableAppend
