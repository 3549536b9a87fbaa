import TableAppend.Proofs.Append.Interrupted

/-!
# Files that a failed append has changed

A failure lists the files that have been written before it.  A file is changed without being listed
exactly where its rows are in place and its metadata cannot be recorded, since a file is listed only
after both.
-/

namespace TableAppend

open Change (run)
open FileTree (KeptBut)

/-- The file at a place has come, gone or changed. -/
def World.FileChanged (before after : World) (place : Location) : Prop :=
  after.tree.get? place ≠ before.tree.get? place ∧
    ¬ (before.tree.get? place = none ∧ after.tree.get? place = some .directory)

theorem World.mem_of_fileChanged {before after : World} {places : List Location}
    (hkept : KeptBut places before.tree after.tree) {place : Location}
    (hchanged : before.FileChanged after place) : place ∈ places := by
  by_contra hplace
  rcases hkept.get?_eq place hplace with hsame | hnew
  · exact hchanged.1 hsame
  · exact hchanged.2 hnew

theorem Failure.subset_writtenPaths_atPartition (written : List Path) (partition : String)
    (cause : Failure) : written ⊆ (atPartition written partition cause).writtenPaths := by
  cases written with
  | nil => exact List.nil_subset _
  | cons path rest => exact List.Subset.refl _

theorem Prepared.Unrecorded.isCause {prepared : Prepared} {job : Job}
    {world written after : World} {failure : Failure}
    (hunrecorded : prepared.Unrecorded job world written failure after) :
    failure.isCause = true := by
  obtain ⟨-, tree, metadata, -, -, hrecord⟩ := hunrecorded
  cases hledger : written.ledger with
  | some ledger =>
    rw [World.recordMetadata_of_ledger hledger] at hrecord
    simp at hrecord
  | none =>
    rw [World.recordMetadata_of_files hledger, Change.replace] at hrecord
    rcases Change.run_bind_eq_error_iff.mp hrecord with hwrite | ⟨⟨⟩, first, -, hrename⟩
    · obtain ⟨fault, -, rfl, -⟩ := Change.run_onTree_eq_error_iff.mp hwrite
      rfl
    · obtain ⟨fault, -, rfl, -⟩ := Change.run_onTree_eq_error_iff.mp hrename
      rfl

namespace Appender

variable {appender : Appender} {options : Options} {batch : Batch} {world after : World}
  {failure : Failure}

/-- The append fails while it writes the partition with this file. -/
inductive Abandons (appender : Appender) (options : Options) (batch : Batch) (world : World) :
    Path → Prop
  | intro {format : Format} {done rest : List Bucket} {bucket : Bucket} {report : Report}
      {middle left : World} {prepared : Prepared} {cause : Failure}
      (hreaches : options.Reaches batch world.tree format (done ++ bucket :: rest))
      (hdone : run ((appender.job options format .real).processAll .empty done) world =
        (.ok report, middle))
      (hprepared : (appender.job options format .real).prepare middle bucket = .ok prepared)
      (hcommit : run (prepared.commit (appender.job options format .real)) middle =
        (.error cause, left)) :
      Abandons appender options batch world prepared.path

/-- The append fails to record the metadata of this file, after it has put the rows in place, which
are there in `written`. -/
inductive LeavesUnrecorded (appender : Appender) (options : Options) (batch : Batch)
    (world written : World) : Path → Prop
  | intro {format : Format} {done rest : List Bucket} {bucket : Bucket} {report : Report}
      {middle left : World} {prepared : Prepared} {cause : Failure}
      (hreaches : options.Reaches batch world.tree format (done ++ bucket :: rest))
      (hdone : run ((appender.job options format .real).processAll .empty done) world =
        (.ok report, middle))
      (hprepared : (appender.job options format .real).prepare middle bucket = .ok prepared)
      (hunrecorded : prepared.Unrecorded (appender.job options format .real) middle written cause
        left) :
      LeavesUnrecorded appender options batch world written prepared.path

variable (hworld : world.tree.WellFormed) (htarget : options.target.Descends)

include hworld htarget

/-- Where metadata cannot be recorded, the file is not listed and keeps its new rows. -/
theorem LeavesUnrecorded.not_listed {written : World} {path : Path}
    (hleaves : appender.LeavesUnrecorded options batch world written path)
    (hrun : run (appender.append options batch) world = (.error failure, after)) :
    (∀ listed ∈ failure.writtenPaths, listed.location ≠ path.location) ∧
      ∃ content, written.tree.get? path.location = some (.file content) ∧
        after.tree.get? path.location = some (.file content) := by
  cases hleaves with
  | @intro format done rest bucket report middle left prepared cause hreaches hdone hprepared
      hunrecorded =>
    obtain ⟨name, hname⟩ := exists_fileName?_of_validate hreaches.valid
    obtain ⟨actions, rfl, hactions, hkept⟩ := @Job.actions_of_processAll
      (appender.job options format .real) _ _ hname htarget hworld _ _ _ _ hdone
    obtain ⟨hkey, hpath, -⟩ := @Job.prepare_spec (appender.job options format .real) _ _ hname
      htarget hkept.wellFormed _ _ hprepared
    have hcause := hunrecorded.isCause
    obtain ⟨hrows, tree, metadata, hmakes, hwritten, hrecord⟩ := hunrecorded
    have hcommit := Prepared.commit_eq_error_iff.mpr
      ⟨hrows, .inr ⟨tree, hmakes, .inr ⟨metadata, written, hwritten, hrecord⟩⟩⟩
    have hfails := (run_append_of_reaches hreaches).trans (Job.processAll_eq_error_iff.mpr
      ⟨done, bucket, rest, _, middle, cause, rfl, hdone,
        Job.process_eq_error_iff.mpr (.inr ⟨prepared, hprepared, hcommit⟩), rfl⟩)
    rw [hrun, Prod.mk.injEq, Except.error.injEq] at hfails
    obtain ⟨rfl, rfl⟩ := hfails
    have hseparate := Routing.separate_buckets hreaches.routed options
    rw [List.map_append, Job.Separate, List.pairwise_append] at hseparate
    refine ⟨?_, ?_⟩
    · rw [(Failure.writtenPaths_atPartition hcause).1,
        Report.written_eq_map (Job.paths_pairwise hseparate.1 hactions)]
      intro listed hlisted hsame
      obtain ⟨action, haction, rfl⟩ := List.mem_map.mp hlisted
      obtain ⟨found, hfound, -, hlies⟩ :=
        Outcome.exists_of_forall₂ hactions (List.mem_of_mem_filter haction)
      have hplace := congrArg List.dropLast hsame
      rw [hlies.dropLast_location, hpath.dropLast_location] at hplace
      refine (hseparate.2.2 found.key (List.mem_map_of_mem hfound) bucket.key ?_).1
        (hplace ▸ List.prefix_refl _)
      simp
    · rw [← hkey] at hpath
      obtain ⟨data, content, hplaced, rfl⟩ :=
        @Prepared.exists_placed_of_written prepared (appender.job options format .real) _ _
          hname htarget hkept.wellFormed hpath _ _ _ hmakes hwritten
      have hget := hplaced.get?_data
      have hlast := World.keptBut_of_recordMetadata_error hplaced.put.wellFormed hpath hrecord
      refine ⟨content, hget, ?_⟩
      rcases hlast.get?_eq _ hpath.location_notMem_auxiliaries with hsame | ⟨hnone, -⟩
      · exact hsame.trans hget
      · rw [hget] at hnone
        contradiction

/-- A file that a failed append has changed is listed by the failure, or stands beside one that is
listed or was being written, or holds rows whose metadata could not be recorded.  The last kind of
file is never listed. -/
theorem changed_files_of_error (hcolumns : batch.columns.Nodup)
    (hrun : run (appender.append options batch) world = (.error failure, after)) :
    (∀ place, world.FileChanged after place →
      (∃ path ∈ failure.writtenPaths, place ∈ path.places) ∨
        (∃ path, appender.Abandons options batch world path ∧ place ∈ path.auxiliaries) ∨
        ∃ path written, appender.LeavesUnrecorded options batch world written path ∧
          place = path.location) ∧
    ∀ path written, appender.LeavesUnrecorded options batch world written path →
      (∀ listed ∈ failure.writtenPaths, listed.location ≠ path.location) ∧
        ∃ content, written.tree.get? path.location = some (.file content) ∧
          after.tree.get? path.location = some (.file content) := by
  refine ⟨?_, fun path written hleaves => hleaves.not_listed hworld htarget hrun⟩
  intro place hchanged
  rcases append_eq_error_iff.mp hrun with ⟨-, rfl⟩ | ⟨format, buckets, hreaches, hprocess⟩
  · exact absurd rfl hchanged.1
  obtain ⟨done, bucket, rest, report, middle, cause, rfl, hdone, hbucket, rfl⟩ :=
    Job.processAll_eq_error_iff.mp hprocess
  obtain ⟨name, hname⟩ := exists_fileName?_of_validate hreaches.valid
  obtain ⟨actions, rfl, hactions, hkept⟩ := @Job.actions_of_processAll
    (appender.job options format .real) _ _ hname htarget hworld _ _ _ _ hdone
  have hseparate := Routing.separate_buckets hreaches.routed options
  rw [List.map_append, Job.Separate, List.pairwise_append] at hseparate
  have hwritten := Report.written_eq_map (Job.paths_pairwise hseparate.1 hactions)
  -- What the partitions before have changed is listed.
  have hlisted : ∀ {places}, KeptBut places middle.tree after.tree →
      (∃ path ∈ (Failure.atPartition (actions.foldl Report.add .empty).written bucket.key.display
        cause).writtenPaths, place ∈ path.places) ∨ place ∈ places := by
    intro places hafter
    have hall := World.mem_of_fileChanged
      ((hkept.mono (List.subset_append_left _ places)).trans
        (hafter.mono (List.subset_append_right _ _))) hchanged
    rcases List.mem_append.mp hall with hbefore | hnow
    · obtain ⟨action, haction, hplace⟩ := List.mem_flatMap.mp hbefore
      refine .inl ⟨action.path, Failure.subset_writtenPaths_atPartition _ _ _ ?_, hplace⟩
      rw [hwritten]
      exact List.mem_map_of_mem haction
    · exact .inr hnow
  rcases Job.process_eq_error_iff.mp hbucket with ⟨-, rfl⟩ | ⟨prepared, hprepared, hcommit⟩
  · exact .inl ((hlisted (.refl hkept.wellFormed [])).resolve_right List.not_mem_nil)
  obtain ⟨hkey, hpath, -⟩ := @Job.prepare_spec (appender.job options format .real) _ _ hname
    htarget hkept.wellFormed _ _ hprepared
  rw [← hkey] at hpath
  have hbatch : bucket.rows.columns.Nodup := by
    rw [(Routing.mem_bucket hreaches.routed (List.mem_append_right _ List.mem_cons_self)).1]
    exact hcolumns
  have hfits := @Job.project_of_prepare (appender.job options format .real) _ _ hname htarget
    hkept.wellFormed rfl _ hbatch _ hprepared
  have habandons : appender.Abandons options batch world prepared.path :=
    .intro hreaches hdone hprepared hcommit
  rcases @Prepared.keptBut_of_commit_error _ (appender.job options format .real) _ _ _ _ hname htarget
    hkept.wellFormed hpath hfits hcommit with hleft | ⟨written, hunrecorded, hrows, hlast⟩
  · exact (hlisted hleft).imp_right fun hplace => .inl ⟨prepared.path, habandons, hplace⟩
  · rcases hlisted (hrows.trans (hlast.mono (List.subset_cons_self _ _))) with hbefore | hplace
    · exact .inl hbefore
    rcases List.mem_cons.mp hplace with hdata | hbeside
    · exact .inr (.inr ⟨prepared.path, written, .intro hreaches hdone hprepared hunrecorded, hdata⟩)
    · exact .inr (.inl ⟨prepared.path, habandons, hbeside⟩)

omit hworld htarget in
/-- A directory has the name of the metadata file, so that the rows are in place without metadata. -/
theorem changed_files_of_error_at_directory :
    let appender : Appender := ⟨none, 200⟩
    let options := Options.ofTarget ⟨"p.csv"⟩
    let batch : Batch := ⟨["id"], [[.int 1]]⟩
    let world : World := ⟨FileTree.empty.set ["p.csv.meta"] .directory, none⟩
    world.tree.WellFormed ∧ options.target.Descends ∧ batch.columns.Nodup ∧ ∃ failure after,
      run (appender.append options batch) world = (.error failure, after) ∧
      failure.writtenPaths = [] ∧ world.FileChanged after ["p.csv"] ∧
      ((∃ path, appender.Abandons options batch world path ∧ ["p.csv"] ∈ path.auxiliaries) ∨
        ∃ path written, appender.LeavesUnrecorded options batch world written path ∧
          ["p.csv"] = path.location) := by
  intro appender options batch world
  have hworld : world.tree.WellFormed :=
    FileTree.wellFormed_empty.set (by decide) (by decide) (by decide)
  have hlist : (run (appender.append options batch) world).1.toOption.isNone = true ∧
      (run (appender.append options batch) world).2.tree.get? ["p.csv"] ≠
        world.tree.get? ["p.csv"] ∧
      (run (appender.append options batch) world).2.tree.get? ["p.csv"] ≠ some .directory := by
    decide +kernel
  have hpaths : ∀ failure, (run (appender.append options batch) world).1 = .error failure →
      failure.writtenPaths = [] := by
    have hfailure : (run (appender.append options batch) world).1 =
        .error (.io .isDirectory) := by
      decide +kernel
    intro failure hother
    obtain rfl := Except.error.inj (hother.symm.trans hfailure)
    rfl
  rcases hrun : run (appender.append options batch) world with ⟨failure | report, after⟩
  · rw [hrun] at hlist hpaths
    have hchanged : world.FileChanged after ["p.csv"] := ⟨hlist.2.1, fun h => hlist.2.2 h.2⟩
    have hnone := hpaths failure rfl
    have hcases := (changed_files_of_error hworld (by decide) (by decide) hrun).1 _ hchanged
    rw [hnone] at hcases
    exact ⟨hworld, by decide, by decide, failure, after, rfl, hnone, hchanged,
      hcases.resolve_left (by simp)⟩
  · rw [hrun] at hlist
    cases hlist.1

end Appender

end TableAppend
