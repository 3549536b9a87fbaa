import TableAppend.Append.Report
import TableAppend.Proofs.Append.Commit
import TableAppend.Proofs.World.Kept

/-!
# Worlds without a ledger

Where metadata stand in files they go on doing so: no change begins a ledger, whether or not it
succeeds.
-/

namespace TableAppend

namespace Change

variable {α β : Type}

/-- The change begins no ledger. -/
def StaysInFiles (change : Change α) : Prop :=
  ∀ world, world.ledger = none → (run change world).2.ledger = none

theorem StaysInFiles.bind {change : Change α} {next : α → Change β} (hchange : change.StaysInFiles)
    (hnext : ∀ value, (next value).StaysInFiles) : (change >>= next).StaysInFiles := by
  intro world hworld
  have hbetween := hchange world hworld
  rw [run_bind]
  rcases hrun : run change world with ⟨failure | value, between⟩
  · rwa [hrun] at hbetween
  · rw [hrun] at hbetween
    exact hnext value between hbetween

theorem staysInFiles_pure (value : α) : (pure value : Change α).StaysInFiles :=
  fun _ hworld => hworld

theorem staysInFiles_ofOutcome (outcome : Outcome α) : (ofOutcome outcome).StaysInFiles :=
  fun _ hworld => hworld

theorem staysInFiles_inspect (question : World → Outcome α) : (inspect question).StaysInFiles :=
  fun _ hworld => hworld

theorem staysInFiles_throw (failure : Failure) : (throw failure : Change α).StaysInFiles :=
  fun _ hworld => hworld

theorem staysInFiles_onTree (change : FileTree → Except IoFault FileTree) :
    (onTree change).StaysInFiles := by
  intro world hworld
  rw [run_onTree]
  split <;> exact hworld

theorem staysInFiles_makeDirectories (path : Path) : (makeDirectories path).StaysInFiles := by
  intro world hworld
  rw [run_makeDirectories]
  exact hworld

theorem StaysInFiles.tryCatch {change : Change α} {handle : Failure → Change α}
    (hchange : change.StaysInFiles) (hhandle : ∀ failure, (handle failure).StaysInFiles) :
    (MonadExcept.tryCatch change handle).StaysInFiles := by
  intro world hworld
  have hbetween := hchange world hworld
  have hwhole := run_tryCatch change handle world
  rw [hwhole]
  rcases hrun : run change world with ⟨failure | value, between⟩
  · rw [hrun] at hbetween
    exact hhandle failure between hbetween
  · rwa [hrun] at hbetween

theorem StaysInFiles.adapt {change : Change α} (hchange : change.StaysInFiles)
    (adapt : Failure → Failure) : StaysInFiles (ExceptT.adapt adapt change) :=
  hchange

theorem staysInFiles_replace (path : Path) (content : Content) :
    (replace path content).StaysInFiles :=
  (staysInFiles_onTree _).bind fun _ => staysInFiles_onTree _

end Change

open Change

theorem Delimited.staysInFiles_write (dialect : Dialect) (path : Path) (rows : Batch)
    (layout : Layout) : (write dialect path rows layout).StaysInFiles := by
  rw [write]
  cases layout.columns with
  | none => exact (staysInFiles_onTree _).bind fun _ => staysInFiles_pure _
  | some header =>
    exact (staysInFiles_onTree _).bind fun _ => (staysInFiles_ofOutcome _).bind fun _ =>
      (staysInFiles_onTree _).bind fun _ => staysInFiles_pure _

theorem Columnar.staysInFiles_discard (path : Path) : (discard path).StaysInFiles := by
  intro world hworld
  rw [run_discard]
  exact hworld

theorem Columnar.staysInFiles_save (codec : Codec) (schema : Schema) (rows : Batch) (path : Path) :
    (save codec schema rows path).StaysInFiles := by
  refine (staysInFiles_ofOutcome _).bind fun (content, failure?) =>
    (staysInFiles_onTree _).bind fun _ => ?_
  cases failure? with
  | none => exact staysInFiles_pure _
  | some failure => exact staysInFiles_throw _

theorem Columnar.staysInFiles_write (codec : Option Codec) (path : Path) (rows : Batch)
    (layout : Layout) : (write codec path rows layout).StaysInFiles :=
  (staysInFiles_ofOutcome _).bind fun _ => (staysInFiles_inspect _).bind fun _ =>
    (staysInFiles_inspect _).bind fun _ => ((staysInFiles_save _ _ _ _).tryCatch fun _ =>
      (staysInFiles_discard _).bind fun _ => staysInFiles_throw _).bind fun _ =>
        (staysInFiles_onTree _).bind fun _ => staysInFiles_pure _

theorem Medium.staysInFiles_write (medium : Medium) (path : Path) (rows : Batch) (layout : Layout) :
    (medium.write path rows layout).StaysInFiles :=
  match medium with
  | .delimited dialect => Delimited.staysInFiles_write dialect path rows layout
  | .columnar codec => Columnar.staysInFiles_write codec path rows layout

theorem World.staysInFiles_recordMetadata (path : Path) (metadata : Metadata) :
    (recordMetadata path metadata).StaysInFiles := by
  intro world hworld
  have hrun : run (recordMetadata path metadata) world = _ :=
    recordMetadata_of_files hworld path metadata
  rw [hrun]
  exact staysInFiles_replace _ _ world hworld

theorem Prepared.staysInFiles_commit (prepared : Prepared) (job : Job) :
    (prepared.commit job).StaysInFiles := by
  rw [commit]
  split
  · exact (staysInFiles_makeDirectories _).bind fun _ => (Medium.staysInFiles_write _ _ _ _).bind
      fun _ => (World.staysInFiles_recordMetadata _ _).bind fun _ => staysInFiles_pure _
  · exact staysInFiles_pure _

theorem Job.staysInFiles_process (job : Job) (bucket : Bucket) :
    (job.process bucket).StaysInFiles :=
  (staysInFiles_inspect _).bind fun prepared => prepared.staysInFiles_commit job

theorem Job.staysInFiles_processAll (job : Job) (buckets : List Bucket) (report : Report) :
    (job.processAll report buckets).StaysInFiles := by
  induction buckets generalizing report with
  | nil => exact staysInFiles_pure _
  | cons bucket rest ih =>
    exact ((job.staysInFiles_process bucket).adapt _).bind fun action => ih (report.add action)

theorem Appender.staysInFiles_append (appender : Appender) (options : Options) (batch : Batch) :
    (appender.append options batch).StaysInFiles := by
  refine (staysInFiles_inspect _).bind fun _ => (staysInFiles_ofOutcome _).bind fun format => ?_
  cases batch.isEmpty with
  | true => exact staysInFiles_pure _
  | false => exact (staysInFiles_ofOutcome _).bind fun buckets => Job.staysInFiles_processAll _ _ _

end TableAppend
