import TableAppend.Proofs.Append.Causes
import TableAppend.Proofs.Append.Committable
import TableAppend.Proofs.Append.Runs
import TableAppend.Proofs.World.Kept

/-!
# Appends that fail

An append fails before the first partition, or at one partition after it has written those before.
The failure of the partition is then the failure of the append, together with the files that have been
written.
-/

namespace TableAppend

open Change (run)
open FileTree (KeptBut)

namespace Change

variable {world after : World} {failure : Failure}

theorem run_makeDirectories_eq_error_iff {path : Path} :
    run (makeDirectories path) world = (.error failure, after) ↔
      ∃ fault tree, world.tree.makeDirectories path = (.error fault, tree) ∧
        failure = .io fault ∧ after = { world with tree } := by
  rw [run_makeDirectories]
  rcases world.tree.makeDirectories path with ⟨fault | ⟨⟩, tree⟩
  · simp [Except.mapError, eq_comm]
  · simp [Except.mapError]

end Change

open Change (run_bind_eq_error_iff run_ofOutcome_eq_error_iff run_inspect_eq_error_iff)

namespace Prepared

/-- The rows of a partition are in place, but its metadata cannot be recorded. -/
def Unrecorded (prepared : Prepared) (job : Job) (world written : World) (failure : Failure)
    (after : World) : Prop :=
  prepared.survivors.isEmpty = false ∧ ∃ tree metadata,
    world.tree.makeDirectories (job.options.directoryOf prepared.key) = (.ok (), tree) ∧
    run (job.medium.write prepared.path prepared.survivors prepared.layout) { world with tree } =
      (.ok metadata, written) ∧
    run (World.recordMetadata prepared.path metadata) written = (.error failure, after)

variable {prepared : Prepared} {job : Job} {world after : World} {failure : Failure}

/-- Writing a partition fails in making its directory, in writing its rows or in recording its
metadata. -/
theorem commit_eq_error_iff :
    run (prepared.commit job) world = (.error failure, after) ↔
      prepared.survivors.isEmpty = false ∧
        (run (Change.makeDirectories (job.options.directoryOf prepared.key)) world =
            (.error failure, after) ∨
          ∃ tree, world.tree.makeDirectories (job.options.directoryOf prepared.key) = (.ok (), tree) ∧
            (run (job.medium.write prepared.path prepared.survivors prepared.layout)
                { world with tree } = (.error failure, after) ∨
              ∃ metadata written,
                run (job.medium.write prepared.path prepared.survivors prepared.layout)
                  { world with tree } = (.ok metadata, written) ∧
                run (World.recordMetadata prepared.path metadata) written =
                  (.error failure, after))) := by
  cases hrows : prepared.survivors.isEmpty with
  | true =>
    rw [run_commit_of_isEmpty hrows]
    simp
  | false =>
    have hcommit : prepared.commit job = (do
        Change.makeDirectories (job.options.directoryOf prepared.key)
        let metadata ← job.medium.write prepared.path prepared.survivors prepared.layout
        World.recordMetadata prepared.path metadata
        return prepared.action) := by
      rw [commit, hrows]
      rfl
    rw [hcommit, run_bind_eq_error_iff]
    constructor
    · rintro (hmakes | ⟨⟨⟩, made, hmakes, hrest⟩)
      · exact ⟨rfl, .inl hmakes⟩
      · obtain ⟨tree, htree, rfl⟩ := Change.run_makeDirectories_eq_ok_iff.mp hmakes
        refine ⟨rfl, .inr ⟨tree, htree, ?_⟩⟩
        rcases run_bind_eq_error_iff.mp hrest with hwrite | ⟨metadata, written, hwritten, hlast⟩
        · exact .inl hwrite
        · refine .inr ⟨metadata, written, hwritten, ?_⟩
          rcases run_bind_eq_error_iff.mp hlast with hrecord | ⟨⟨⟩, recorded, -, hresult⟩
          · exact hrecord
          · simp at hresult
    · rintro ⟨-, hmakes | ⟨tree, htree, hrest⟩⟩
      · exact .inl hmakes
      · refine .inr ⟨(), _, Change.run_makeDirectories_eq_ok_iff.mpr ⟨tree, htree, rfl⟩,
          run_bind_eq_error_iff.mpr ?_⟩
        rcases hrest with hwrite | ⟨metadata, written, hwritten, hrecord⟩
        · exact .inl hwrite
        · exact .inr ⟨metadata, written, hwritten, run_bind_eq_error_iff.mpr (.inl hrecord)⟩

/-! ### What is kept -/

variable {name : String} (hname : job.options.target.fileName? = some name)
  (htarget : job.options.target.Descends) (hworld : world.tree.WellFormed)
  (hpath : prepared.path.LiesIn (job.options.place prepared.key))

include hname htarget hworld hpath

/-- A partition that is written changes its own files only, and none if it has no rows. -/
theorem keptBut_of_commit {action : Action}
    (hrun : run (prepared.commit job) world = (.ok action, after)) :
    KeptBut (if action.rowsWritten = 0 then [] else action.path.places) world.tree after.tree := by
  obtain rfl := action_of_commit hrun
  cases hrows : prepared.survivors.isEmpty with
  | true =>
    rw [run_commit_of_isEmpty hrows, Prod.mk.injEq] at hrun
    exact hrun.2 ▸ .refl hworld _
  | false =>
    have hsize : prepared.action.rowsWritten ≠ 0 := by
      rw [Batch.isEmpty, List.isEmpty_eq_false_iff] at hrows
      exact mt List.length_eq_zero_iff.mp hrows
    obtain ⟨tree, metadata, written, hmakes, hwritten, hrecorded, -⟩ :=
      (commit_eq_ok_iff hrows).mp hrun
    have hmade := (directoryMade_of_commit hname htarget hworld hmakes).1
    have hwrite := @Medium.keptBut_of_write { world with tree } _ _ _ _ hmade.wellFormed hpath _ _ _
      hwritten
    have hrecord := World.keptBut_of_recordMetadata hwrite.wellFormed hpath hrecorded
    rw [if_neg hsize]
    refine (hmade.keptBut _).trans ((hwrite.mono ?_).trans (hrecord.mono ?_))
    · simp [action, Path.places, Path.auxiliaries]
    · simp [action, Path.places]

/-- A partition that cannot be written has at most its own files changed, and its data file only if
its rows are in place and its metadata could not be recorded. -/
theorem keptBut_of_commit_error (hfits : ∀ header, prepared.layout.columns = some header →
      (∃ ordered, prepared.survivors.project header = .ok ordered) ∧
        ∃ content, world.tree.node? prepared.path = some (.file content))
    (hrun : run (prepared.commit job) world = (.error failure, after)) :
    KeptBut prepared.path.auxiliaries world.tree after.tree ∨
      ∃ written, prepared.Unrecorded job world written failure after ∧
        KeptBut prepared.path.places world.tree written.tree ∧
        KeptBut prepared.path.auxiliaries written.tree after.tree := by
  obtain ⟨hrows, hmakes | ⟨tree, hmakes, hwrite | ⟨metadata, written, hwritten, hrecord⟩⟩⟩ :=
    commit_eq_error_iff.mp hrun
  · left
    obtain ⟨fault, tree, htree, -, rfl⟩ := Change.run_makeDirectories_eq_error_iff.mp hmakes
    have hkept := FileTree.keptBut_of_makeDirectories hworld
      (Options.descends_directoryOf hname htarget prepared.key)
    rw [htree] at hkept
    exact hkept.mono (List.nil_subset _)
  · left
    have hmade := (directoryMade_of_commit hname htarget hworld hmakes).1
    have hkept := @Medium.keptBut_of_write_error { world with tree } _ _ _ _ hmade.wellFormed hpath
      _ _ _ (fun header hheader => (hfits header hheader).imp_right fun ⟨content, hcontent⟩ =>
        ⟨content, (hmade.node?_in hworld hpath).trans hcontent⟩) hwrite
    exact (hmade.keptBut _).trans (hkept.mono (by simp [Path.auxiliaries]))
  · right
    have hmade := (directoryMade_of_commit hname htarget hworld hmakes).1
    have hkept := @Medium.keptBut_of_write { world with tree } _ _ _ _ hmade.wellFormed hpath _ _ _
      hwritten
    refine ⟨written, ⟨hrows, tree, metadata, hmakes, hwritten, hrecord⟩,
      (hmade.keptBut _).trans (hkept.mono ?_),
      World.keptBut_of_recordMetadata_error hkept.wellFormed hpath hrecord⟩
    simp [Path.places, Path.auxiliaries]

end Prepared

namespace Job

variable {job : Job} {world after : World} {failure : Failure}

/-- Rows that are added to a file fit its columns, and the file is there. -/
theorem project_of_prepare {name : String} (hname : job.options.target.fileName? = some name)
    (htarget : job.options.target.Descends) (hworld : world.tree.WellFormed)
    (hmode : job.mode = .real) {bucket : Bucket} (hcolumns : bucket.rows.columns.Nodup)
    {prepared : Prepared} (hprepared : job.prepare world bucket = .ok prepared) :
    ∀ header, prepared.layout.columns = some header →
      (∃ ordered, prepared.survivors.project header = .ok ordered) ∧
        ∃ content, world.tree.node? prepared.path = some (.file content) := by
  obtain ⟨-, -, hnode⟩ := prepare_spec hname htarget hworld hprepared
  obtain ⟨hsurvivors, hfits, hnew⟩ := fits_of_prepare hmode hprepared
  intro header hheader
  obtain ⟨hlength, hcontained⟩ := hfits header hheader
  rw [← hsurvivors] at hcolumns hlength hcontained
  constructor
  · rw [Batch.project, if_pos (Batch.hasColumns_of_contained hcolumns hlength hcontained)]
    exact ⟨_, rfl⟩
  · cases hthere : prepared.present with
    | true => exact hnode hthere
    | false =>
      rw [hnew hthere] at hheader
      contradiction

theorem process_eq_error_iff {bucket : Bucket} :
    run (job.process bucket) world = (.error failure, after) ↔
      (job.prepare world bucket = .error failure ∧ after = world) ∨
        ∃ prepared, job.prepare world bucket = .ok prepared ∧
          run (prepared.commit job) world = (.error failure, after) := by
  rw [process, run_bind_eq_error_iff, run_inspect_eq_error_iff]
  apply or_congr_right
  constructor
  · rintro ⟨prepared, between, hprepared, hcommit⟩
    obtain ⟨hprepared, rfl⟩ := Change.run_inspect_eq_ok_iff.mp hprepared
    exact ⟨prepared, hprepared, hcommit⟩
  · rintro ⟨prepared, hprepared, hcommit⟩
    exact ⟨prepared, world, Change.run_inspect_eq_ok_iff.mpr ⟨hprepared, rfl⟩, hcommit⟩

/-- The partitions before the one that fails are written as they would be on their own. -/
theorem processAll_eq_error_iff {buckets : List Bucket} {report : Report} :
    run (job.processAll report buckets) world = (.error failure, after) ↔
      ∃ done bucket rest last middle cause, buckets = done ++ bucket :: rest ∧
        run (job.processAll report done) world = (.ok last, middle) ∧
        run (job.process bucket) middle = (.error cause, after) ∧
        failure = .atPartition last.written bucket.key.display cause := by
  induction buckets generalizing world report with
  | nil =>
    constructor
    · intro hrun
      rw [processAll, Change.run_pure] at hrun
      simp at hrun
    · rintro ⟨done, bucket, rest, last, middle, cause, hbuckets, -⟩
      simp at hbuckets
  | cons bucket rest ih =>
    rw [processAll, run_bind_eq_error_iff, run_adapt]
    constructor
    · rintro (hrun | ⟨action, between, hrun, hrest⟩)
      · rcases hprocess : run (job.process bucket) world with ⟨cause | action, left⟩
        · rw [hprocess, Prod.mk.injEq] at hrun
          obtain ⟨hfailure, rfl⟩ := hrun
          exact ⟨[], bucket, rest, report, world, cause, rfl, rfl, hprocess,
            (Except.error.inj hfailure).symm⟩
        · rw [hprocess] at hrun
          simp [Except.mapError] at hrun
      · rcases hprocess : run (job.process bucket) world with ⟨cause | found, left⟩
        · rw [hprocess] at hrun
          simp [Except.mapError] at hrun
        · rw [hprocess, Prod.mk.injEq] at hrun
          obtain ⟨hfound, rfl⟩ := hrun
          obtain rfl := Except.ok.inj hfound
          obtain ⟨done, other, others, last, middle, cause, rfl, hdone, hother, hfailure⟩ :=
            ih.mp hrest
          exact ⟨bucket :: done, other, others, last, middle, cause, rfl,
            processAll_cons_eq_ok_iff.mpr ⟨_, _, hprocess, hdone⟩, hother, hfailure⟩
    · rintro ⟨done, other, others, last, middle, cause, hbuckets, hdone, hother, rfl⟩
      cases done with
      | nil =>
        rw [List.nil_append, List.cons.injEq] at hbuckets
        obtain ⟨rfl, rfl⟩ := hbuckets
        obtain ⟨rfl, rfl⟩ := Change.run_pure_eq_ok_iff.mp hdone
        left
        rw [hother]
        rfl
      | cons first done =>
        rw [List.cons_append, List.cons.injEq] at hbuckets
        obtain ⟨rfl, rfl⟩ := hbuckets
        obtain ⟨action, between, hprocess, hrest⟩ := processAll_cons_eq_ok_iff.mp hdone
        refine .inr ⟨action, between, by rw [hprocess]; rfl, ?_⟩
        exact ih.mpr ⟨done, other, others, last, middle, cause, rfl, hrest, hother, rfl⟩

end Job

/-- Why an append does not get to any partition. -/
inductive Options.Rejects (options : Options) (batch : Batch) (tree : FileTree)
    (failure : Failure) : Prop
  | invalid (hfailure : options.validate tree = .error failure)
  | unformatted (hvalid : options.validate tree = .ok ())
      (hfailure : options.effectiveFormat = .error failure)
  | unrouted {format : Format} (hvalid : options.validate tree = .ok ())
      (hformat : options.effectiveFormat = .ok format) (hrows : batch.isEmpty = false)
      (hfailure : options.routing.buckets batch = .error failure)

/-- An append is rejected, or it has no rows, or it gets to the partitions of its batch. -/
theorem Options.rejects_or_reaches (options : Options) (batch : Batch) (tree : FileTree) :
    (∃ failure, options.Rejects batch tree failure) ∨
      (∃ format, options.validate tree = .ok () ∧ options.effectiveFormat = .ok format ∧
        batch.isEmpty = true) ∨
      ∃ format buckets, options.Reaches batch tree format buckets := by
  rcases hvalid : options.validate tree with failure | ⟨⟨⟩⟩
  · exact .inl ⟨failure, .invalid hvalid⟩
  rcases hformat : options.effectiveFormat with failure | format
  · exact .inl ⟨failure, .unformatted hvalid hformat⟩
  rcases hrows : batch.isEmpty with _ | _
  · rcases hbuckets : options.routing.buckets batch with failure | buckets
    · exact .inl ⟨failure, .unrouted hvalid hformat hrows hbuckets⟩
    · exact .inr (.inr ⟨format, buckets, hvalid, hformat, hrows, hbuckets⟩)
  · exact .inr (.inl ⟨format, rfl, rfl, rfl⟩)

/-- Whether an append is rejected depends on the files only as the check of its options does. -/
theorem Options.Rejects.congr {options : Options} {batch : Batch} {first second : FileTree}
    {failure : Failure} (hrejects : options.Rejects batch first failure)
    (hvalidate : options.validate second = options.validate first) :
    options.Rejects batch second failure := by
  cases hrejects with
  | invalid hfailure => exact .invalid (hvalidate.trans hfailure)
  | unformatted hvalid hfailure => exact .unformatted (hvalidate.trans hvalid) hfailure
  | unrouted hvalid hformat hrows hfailure =>
    exact .unrouted (hvalidate.trans hvalid) hformat hrows hfailure

namespace Appender

variable {appender : Appender} {options : Options} {batch : Batch} {world after : World}
  {failure : Failure}

theorem run_append_of_rejects (hrejects : options.Rejects batch world.tree failure) :
    run (appender.append options batch) world = (.error failure, world) := by
  rw [append, Change.run_bind, Change.run_inspect]
  cases hrejects with
  | invalid hfailure => rw [hfailure]
  | unformatted hvalid hfailure =>
    rw [hvalid]
    dsimp only
    rw [Change.run_bind, Change.run_ofOutcome, hfailure]
  | @unrouted format hvalid hformat hrows hfailure =>
    rw [hvalid]
    dsimp only
    rw [Change.run_bind, Change.run_ofOutcome, hformat, hrows]
    change run (Change.ofOutcome (options.routing.buckets batch) >>= fun buckets =>
      (appender.job options format .real).processAll .empty buckets) world = _
    rw [Change.run_bind, Change.run_ofOutcome, hfailure]

/-- An append fails before the first partition or at one of them. -/
theorem append_eq_error_iff :
    run (appender.append options batch) world = (.error failure, after) ↔
      (options.Rejects batch world.tree failure ∧ after = world) ∨
        ∃ format buckets, options.Reaches batch world.tree format buckets ∧
          run ((appender.job options format .real).processAll .empty buckets) world =
            (.error failure, after) := by
  constructor
  · intro hrun
    rcases options.rejects_or_reaches batch world.tree with ⟨cause, hrejects⟩ |
      ⟨format, hvalid, hformat, hrows⟩ | ⟨format, buckets, hreaches⟩
    · rw [run_append_of_rejects hrejects, Prod.mk.injEq, Except.error.injEq] at hrun
      exact .inl ⟨hrun.1 ▸ hrejects, hrun.2.symm⟩
    · rw [run_append_of_isEmpty hvalid hformat hrows] at hrun
      simp at hrun
    · exact .inr ⟨format, buckets, hreaches, run_append_of_reaches hreaches ▸ hrun⟩
  · rintro (⟨hrejects, rfl⟩ | ⟨format, buckets, hreaches, hrun⟩)
    · exact run_append_of_rejects hrejects
    · rw [run_append_of_reaches hreaches, hrun]

end Appender

end TableAppend
