import TableAppend.Proofs.Append.Committable
import TableAppend.Proofs.Append.Failing
import TableAppend.Proofs.Append.Rearranging

/-!
# Appends that stop at a partition

An append that comes to a partition that cannot be prepared, or whose table the codec fails to save,
has written the partitions before it and nothing of this one.  What it leaves is therefore what an
append of the rows of those partitions alone leaves, and its failure names their files.
-/

namespace TableAppend

open Change (run run_bind_eq_error_iff run_bind_eq_ok_iff)
open FileTree (KeptBut)
open Outcome (FailsWithin Plain plain_ok plain_error_iff)

/-! ## What a codec may fail with -/

/-- The failures of a codec are its own and say nothing of files that an append has written. -/
def Codec.FailsPlainly (codec : Codec) : Prop :=
  ∀ schema rows, (codec.save schema rows).Plain ∧
    ∀ content failure, codec.save schema rows = .ok (content, some failure) →
      failure.isCause = true

theorem Cell.plain_collect (column : String) (type : ColumnType) (cell : Cell) :
    (cell.collect column type).Plain := by
  rw [Cell.collect.eq_def]
  split <;> first | exact plain_ok _ | exact plain_error_iff.mpr rfl

theorem Datum.plain_narrow (type : ColumnType) (datum : Datum) : (datum.narrow type).Plain := by
  rw [Datum.narrow.eq_def]
  split
  · split
    · split
      · exact plain_ok _
      · exact plain_error_iff.mpr rfl
    · exact plain_ok _
  · exact plain_ok _
  · split
    · split
      · exact plain_ok _
      · exact plain_error_iff.mpr rfl
    · exact plain_ok _
  · exact plain_ok _

theorem Table.plain_encode (schema : Schema) (rows : Batch) : (encode schema rows).Plain := by
  refine FailsWithin.bind (FailsWithin.mapM fun column => ?_) fun columns => ?_
  · exact (FailsWithin.mapM (Cell.plain_collect _ _)).bind fun _ =>
      (FailsWithin.mapM (Datum.plain_narrow _)).bind fun _ => plain_ok _
  · split
    · exact plain_error_iff.mpr rfl
    · exact plain_ok _

theorem Codec.failsPlainly_standard {encoding : Table → Bytes} :
    (Codec.standard encoding).FailsPlainly := by
  intro schema rows
  refine ⟨FailsWithin.bind (Table.plain_encode schema rows) fun _ => plain_ok _, ?_⟩
  intro content failure hsave
  obtain ⟨table, -, hresult⟩ := Outcome.bind_eq_ok_iff.mp hsave
  simp at hresult

theorem Columnar.isCause_of_save_error {codec : Codec} (hcodec : codec.FailsPlainly)
    {schema : Schema} {rows : Batch} {path : Path} {world after : World} {failure : Failure}
    (hrun : run (save codec schema rows path) world = (.error failure, after)) :
    failure.isCause = true := by
  rcases failure_of_save_error hrun with (hsave | ⟨content, hsave⟩) | ⟨fault, rfl⟩
  · exact (hcodec schema rows).1 failure hsave
  · exact (hcodec schema rows).2 content failure hsave
  · rfl

/-! ## One partition -/

/-- A partition stops an append: it cannot be prepared, or the codec fails to save its table.  The
temporary files at some places may then be gone. -/
inductive Job.Stops (job : Job) (world : World) (bucket : Bucket) (cause : Failure) :
    List Location → Prop
  | unprepared (hfailure : job.prepare world bucket = .error cause) : Stops job world bucket cause []
  | unsaved {prepared : Prepared} {codec : Codec} {tree : FileTree} {all : Batch} {schema : Schema}
      {left : World} (hprepared : job.prepare world bucket = .ok prepared)
      (hrows : prepared.survivors.isEmpty = false)
      (hmade : world.tree.makeDirectories (job.options.directoryOf prepared.key) = (.ok (), tree))
      (hmedium : job.medium = .columnar (some codec))
      (hall : Columnar.allRows tree prepared.path prepared.survivors prepared.layout = .ok all)
      (hschema : Columnar.keptSchema tree prepared.path prepared.layout = .ok schema)
      (hsave : run (Columnar.save codec schema all
        (prepared.path.besides Metadata.temporaryEnding)) { world with tree } =
          (.error cause, left)) :
      Stops job world bucket cause [(prepared.path.besides Metadata.temporaryEnding).location]

/-- The same files and metadata, except that directories may have been made where there was nothing
and that the files at some places may be gone. -/
structure World.SameFiles (gone : List Location) (before after : World) : Prop where
  ledger : after.ledger = before.ledger
  kept : KeptBut gone before.tree after.tree
  gone : ∀ place ∈ gone, after.tree.get? place = before.tree.get? place ∨
    after.tree.get? place = none

namespace Job

variable {job : Job} {world : World} {name : String}
  (hname : job.options.target.fileName? = some name) (htarget : job.options.target.Descends)
  (hworld : world.tree.WellFormed)

include hname htarget hworld

/-- A partition that stops an append leaves all files as they were. -/
theorem Stops.exists_process {bucket : Bucket} {cause : Failure} {gone : List Location}
    (hstops : job.Stops world bucket cause gone) :
    ∃ after, run (job.process bucket) world = (.error cause, after) ∧
      world.SameFiles gone after := by
  cases hstops with
  | unprepared hfailure =>
    exact ⟨world, process_eq_error_iff.mpr (.inl ⟨hfailure, rfl⟩), rfl, .refl hworld [], by simp⟩
  | @unsaved prepared codec tree all schema left hprepared hrows hmakes hmedium hall hschema hsave =>
    obtain ⟨hkey, hpath, -⟩ := prepare_spec hname htarget hworld hprepared
    rw [← hkey] at hpath
    have hmade := (Prepared.directoryMade_of_commit hname htarget hworld hmakes).1
    have hscratch := hpath.temporary
    obtain ⟨hkept, hledger, hgone⟩ := @Columnar.discarded_of_save_error { world with tree } _ _ _ _ _
      _ hmade.wellFormed hscratch.1 hsave
    have hwrite : run (job.medium.write prepared.path prepared.survivors prepared.layout)
        { world with tree } = (.error cause, (run (Columnar.discard
          (prepared.path.besides Metadata.temporaryEnding)) left).2) := by
      rw [hmedium]
      exact Columnar.run_write_of_save_error hall hschema hsave
    have hcommit := Prepared.commit_eq_error_iff.mpr ⟨hrows, .inr ⟨tree, hmakes, .inl hwrite⟩⟩
    refine ⟨_, process_eq_error_iff.mpr (.inr ⟨prepared, hprepared, hcommit⟩), hledger,
      (hmade.keptBut _).trans hkept, ?_⟩
    simp only [List.mem_singleton, forall_eq]
    rcases hgone with hnone | hsame
    · exact .inr hnone
    · left
      rw [hsame]
      exact hmade.get?_in hscratch

omit hname htarget hworld in
theorem Stops.isCause (hcodec : ∀ codec, job.medium = .columnar (some codec) → codec.FailsPlainly)
    {bucket : Bucket} {cause : Failure} {gone : List Location}
    (hstops : job.Stops world bucket cause gone) : cause.isCause = true := by
  cases hstops with
  | unprepared hfailure => exact job.plain_prepare world bucket cause hfailure
  | @unsaved prepared codec tree all schema left _ _ _ hmedium _ _ hsave =>
    exact Columnar.isCause_of_save_error (hcodec codec hmedium) hsave

/-- What is done for each partition is done in its directory, and other files are kept. -/
theorem actions_of_processAll {after : World} {buckets : List Bucket} {report last : Report}
    (hrun : run (job.processAll report buckets) world = (.ok last, after)) :
    ∃ actions, last = actions.foldl Report.add report ∧
      List.Forall₂ (fun bucket action => action.partition = bucket.key.text? ∧
        action.path.LiesIn (job.options.place bucket.key)) buckets actions ∧
      KeptBut ((actions.filter fun action => action.rowsWritten ≠ 0).flatMap
        fun action => action.path.places) world.tree after.tree := by
  induction buckets generalizing world report with
  | nil =>
    obtain ⟨rfl, rfl⟩ := Change.run_pure_eq_ok_iff.mp hrun
    exact ⟨[], rfl, .nil, .refl hworld _⟩
  | cons bucket rest ih =>
    obtain ⟨action, between, hprocess, hrest⟩ := processAll_cons_eq_ok_iff.mp hrun
    obtain ⟨prepared, hprepared, hcommit⟩ := process_eq_ok_iff.mp hprocess
    obtain ⟨hkey, hpath, -⟩ := prepare_spec hname htarget hworld hprepared
    rw [← hkey] at hpath
    have hkept := Prepared.keptBut_of_commit hname htarget hworld hpath hcommit
    obtain rfl := Prepared.action_of_commit hcommit
    obtain ⟨actions, hlast, hactions, hothers⟩ := ih hkept.wellFormed hrest
    refine ⟨prepared.action :: actions, hlast,
      .cons ⟨congrArg PartitionKey.text? hkey, hkey ▸ hpath⟩ hactions, ?_⟩
    by_cases hrows : prepared.action.rowsWritten = 0
    · rw [if_pos hrows] at hkept
      rw [List.filter_cons_of_neg (by simpa using hrows)]
      exact (hkept.mono (List.nil_subset _)).trans hothers
    · rw [if_neg hrows] at hkept
      rw [List.filter_cons_of_pos (by simpa using hrows), List.flatMap_cons]
      exact (hkept.mono (List.subset_append_left _ _)).trans
        (hothers.mono (List.subset_append_right _ _))

omit hname htarget hworld in
theorem partitions_eq {options : Options} {buckets : List Bucket} {actions : List Action}
    (hactions : List.Forall₂ (fun bucket action => action.partition = bucket.key.text? ∧
      action.path.LiesIn (options.place bucket.key)) buckets actions) :
    actions.map Action.partition = buckets.map fun bucket => bucket.key.text? := by
  induction hactions with
  | nil => rfl
  | cons hfirst hothers ih => rw [List.map_cons, List.map_cons, hfirst.1, ih]

omit hname htarget hworld in
/-- Files of separate partitions have different paths. -/
theorem paths_pairwise {options : Options} {buckets : List Bucket} {actions : List Action}
    (hseparate : Separate options (buckets.map Bucket.key))
    (hactions : List.Forall₂ (fun bucket action => action.partition = bucket.key.text? ∧
      action.path.LiesIn (options.place bucket.key)) buckets actions) :
    (actions.map Action.path).Pairwise fun first second => first.same second = false := by
  induction hactions with
  | nil => exact .nil
  | @cons bucket action rest others hfirst hothers ih =>
    rw [List.map_cons, Separate, List.pairwise_cons] at hseparate
    rw [List.map_cons, List.pairwise_cons]
    refine ⟨?_, ih hseparate.2⟩
    intro path hpath
    obtain ⟨other, hother, rfl⟩ := List.mem_map.mp hpath
    obtain ⟨found, hfound, -, hlies⟩ := Outcome.exists_of_forall₂ hothers hother
    rw [Bool.eq_false_iff]
    intro hsame
    have hplace := congrArg List.dropLast (Path.location_eq_of_same hsame)
    rw [hfirst.2.dropLast_location, hlies.dropLast_location] at hplace
    exact (hseparate.1 found.key (List.mem_map_of_mem hfound)).1 (hplace ▸ List.prefix_refl _)

end Job

/-! ## The paths of a report -/

namespace Report

theorem foldl_addPath_eq_append {paths others : List Path}
    (hdistinct : (paths ++ others).Pairwise fun first second => first.same second = false) :
    others.foldl addPath paths = paths ++ others := by
  induction others generalizing paths with
  | nil => simp
  | cons path rest ih =>
    have hnew : addPath paths path = paths ++ [path] := by
      rw [addPath, if_neg]
      rw [List.any_eq_true]
      rintro ⟨old, hold, hsame⟩
      have hnot := (List.pairwise_append.mp hdistinct).2.2 old hold path List.mem_cons_self
      rw [Path.same_comm, hnot] at hsame
      contradiction
    rw [List.foldl_cons, hnew, ih (by simpa using hdistinct)]
    simp

/-- Where all paths are different, the written ones are those of the actions that wrote rows. -/
theorem written_eq_map {actions : List Action}
    (hdistinct : (actions.map Action.path).Pairwise fun first second => first.same second = false) :
    (actions.foldl add .empty).written =
      (actions.filter fun action => action.rowsWritten ≠ 0).map Action.path := by
  have hwritten : ((actions.filter fun action => action.rowsWritten ≠ 0).map Action.path).Pairwise
      fun first second => first.same second = false :=
    hdistinct.sublist (List.filter_sublist.map _)
  rw [written_foldl_add, ← List.foldl_map]
  exact foldl_addPath_eq_append hwritten

end Report

/-! ## A whole append -/

/-- An append stops when some partitions are written: none if its rows cannot be routed, and those
before the one that stops it. -/
inductive Appender.Stops (appender : Appender) (options : Options) (batch : Batch) (world : World) :
    List Bucket → Failure → List Location → Prop
  | unrouted {format : Format} {failure : Failure} (hvalid : options.validate world.tree = .ok ())
      (hformat : options.effectiveFormat = .ok format) (hrows : batch.isEmpty = false)
      (hfailure : options.routing.buckets batch = .error failure) :
      Stops appender options batch world [] failure []
  | stopped {format : Format} {done rest : List Bucket} {bucket : Bucket} {report : Report}
      {middle : World} {cause : Failure} {gone : List Location}
      (hreaches : options.Reaches batch world.tree format (done ++ bucket :: rest))
      (hdone : run ((appender.job options format .real).processAll .empty done) world =
        (.ok report, middle))
      (hstops : (appender.job options format .real).Stops middle bucket cause gone) :
      Stops appender options batch world done
        (.atPartition report.written bucket.key.display cause) gone

theorem Failure.writtenPaths_atPartition {written : List Path} {partition : String}
    {cause : Failure} (hcause : cause.isCause = true) :
    (atPartition written partition cause).writtenPaths = written ∧
      (written = [] → (atPartition written partition cause).isCause = true) := by
  cases written with
  | nil => exact ⟨writtenPaths_of_isCause hcause, fun _ => hcause⟩
  | cons path rest => exact ⟨rfl, by simp⟩

namespace Appender

variable {appender : Appender} {options : Options} {batch : Batch} {world : World}

/-- The rows of the first partitions are appended as they are together with the others. -/
theorem append_restrict {format : Format} {done rest : List Bucket} {report : Report}
    {middle : World} (hreaches : options.Reaches batch world.tree format (done ++ rest))
    (hdone : run ((appender.job options format .real).processAll .empty done) world =
      (.ok report, middle)) :
    run (appender.append options (options.routing.restrict (done.map Bucket.key) batch)) world =
      (.ok report, middle) := by
  have hbuckets := Routing.buckets_restrict hreaches.routed
  refine append_eq_ok_iff.mpr ⟨format, hreaches.valid, hreaches.format, ?_⟩
  cases hempty : (options.routing.restrict (done.map Bucket.key) batch).isEmpty with
  | false => exact .inr ⟨rfl, done, hbuckets, hdone⟩
  | true =>
    have hnothing : done = [] := by
      rw [Batch.isEmpty, List.isEmpty_iff] at hempty
      obtain ⟨-, keys, hkeys, hsplit⟩ := Routing.buckets_eq_ok_iff.mp hbuckets
      rw [hempty, List.forall₂_nil_left_iff] at hkeys
      rw [hsplit, hkeys]
      rfl
    subst hnothing
    obtain ⟨hreport, hmiddle⟩ := Change.run_pure_eq_ok_iff.mp hdone
    exact .inl ⟨rfl, hreport.symm, hmiddle⟩

/-- An append that stops leaves what an append of the rows before leaves that succeeds, and its failure
names the files that have been written. -/
theorem Stops.commits_prefix (hworld : world.tree.WellFormed) (htarget : options.target.Descends)
    (hcodec : ∀ codec, appender.codec = some codec → codec.FailsPlainly) {done : List Bucket}
    {failure : Failure} {gone : List Location}
    (hstops : appender.Stops options batch world done failure gone) :
    ∃ report middle after,
      run (appender.append options (options.routing.restrict (done.map Bucket.key) batch)) world =
        (.ok report, middle) ∧
      run (appender.append options batch) world = (.error failure, after) ∧
      middle.SameFiles gone after ∧
      failure.writtenPaths = report.written ∧
      (report.written = [] → failure.isCause = true) ∧
      report.actions.map Action.partition = done.map (fun bucket => bucket.key.text?) ∧
      report.written = (report.actions.filter fun action => action.rowsWritten ≠ 0).map Action.path ∧
      report.written.Pairwise fun first second => first.same second = false := by
  cases hstops with
  | unrouted hvalid hformat hrows hfailure =>
    have hcause := (options.routing.bare_buckets batch).plain failure hfailure
    have hnothing : (options.routing.restrict ([].map Bucket.key) batch).isEmpty = true := by
      rw [Batch.isEmpty, List.isEmpty_iff]
      refine List.filter_eq_nil_iff.mpr fun row _ => ?_
      cases hroute : options.routing.route batch.columns row <;>
        simp [Routing.leadsTo, hroute, Except.toOption]
    refine ⟨.empty, world, world, append_eq_ok_iff.mpr
      ⟨_, hvalid, hformat, .inl ⟨hnothing, rfl, rfl⟩⟩,
      run_append_of_rejects (.unrouted hvalid hformat hrows hfailure),
      ⟨rfl, .refl hworld [], by simp⟩, Failure.writtenPaths_of_isCause hcause, fun _ => hcause, rfl,
      rfl, .nil⟩
  | @stopped format done rest bucket report middle cause gone hreaches hdone hstops =>
    obtain ⟨name, hname⟩ := exists_fileName?_of_validate hreaches.valid
    obtain ⟨actions, rfl, hactions, hkept⟩ := @Job.actions_of_processAll
      (appender.job options format .real) _ _ hname htarget hworld _ _ _ _ hdone
    have hmedium : ∀ codec, (appender.job options format .real).medium = .columnar (some codec) →
        codec.FailsPlainly := by
      intro codec hmedium
      cases format with
      | delimited dialect => cases hmedium
      | columnar => exact hcodec codec (Medium.columnar.inj hmedium)
    have hcause := hstops.isCause hmedium
    obtain ⟨after, hprocess, hsame⟩ := @Job.Stops.exists_process
      (appender.job options format .real) _ _ hname htarget hkept.wellFormed _ _ _ hstops
    have hrun := Job.processAll_eq_error_iff.mpr
      ⟨done, bucket, rest, _, middle, cause, rfl, hdone, hprocess, rfl⟩
    have hseparate := Routing.separate_buckets hreaches.routed options
    rw [List.map_append, Job.Separate, List.pairwise_append] at hseparate
    have hdistinct := Job.paths_pairwise hseparate.1 hactions
    have hwritten := Report.written_eq_map hdistinct
    obtain ⟨hpaths, hplain⟩ := @Failure.writtenPaths_atPartition
      (actions.foldl Report.add .empty).written bucket.key.display cause hcause
    refine ⟨_, middle, after, append_restrict hreaches hdone,
      (run_append_of_reaches hreaches).trans hrun, hsame, hpaths, hplain, ?_, ?_, ?_⟩
    · rw [Report.actions_foldl_add]
      exact Job.partitions_eq hactions
    · rw [hwritten, Report.actions_foldl_add]
      rfl
    · rw [hwritten]
      exact hdistinct.sublist (List.filter_sublist.map _)

/-- Whether an append stops at a partition is found out by writing those before it. -/
theorem exists_stops {format : Format} {done rest : List Bucket} {bucket : Bucket}
    (hreaches : options.Reaches batch world.tree format (done ++ bucket :: rest))
    (hdone : (run ((appender.job options format .real).processAll .empty done)
      world).1.toOption.isSome = true)
    (hprepare : ((appender.job options format .real).prepare (run ((appender.job options format
      .real).processAll .empty done) world).2 bucket).toOption.isNone = true) :
    ∃ failure, appender.Stops options batch world done failure [] := by
  rcases hrun : run ((appender.job options format .real).processAll .empty done) world with
    ⟨failure | report, middle⟩
  · rw [hrun] at hdone
    cases hdone
  · rw [hrun] at hprepare
    cases hbucket : (appender.job options format .real).prepare middle bucket with
    | ok prepared =>
      rw [hbucket] at hprepare
      cases hprepare
    | error cause => exact ⟨_, .stopped hreaches hrun (.unprepared hbucket)⟩

/-- The second of two partitions has a file with another header. -/
theorem Stops.commits_prefix_of_other_header :
    let appender : Appender := ⟨some .standard, 200⟩
    let options : Options := { Options.ofTarget ⟨"rows.csv"⟩ with routing := .byColumn "kind" }
    let batch : Batch := ⟨["kind", "id"], [[.text "a", .int 1], [.text "b", .int 2]]⟩
    let world : World := ⟨(FileTree.empty.set ["kind=b"] .directory).set ["kind=b", "rows.csv"]
      (.file (.bytes (Utf8.encode "other\n"))), none⟩
    world.tree.WellFormed ∧ options.target.Descends ∧ ∃ done failure,
      done.length = 1 ∧ appender.Stops options batch world done failure [] ∧
      ∃ report middle after,
        run (appender.append options (options.routing.restrict (done.map Bucket.key) batch)) world =
          (.ok report, middle) ∧
        run (appender.append options batch) world = (.error failure, after) ∧
        middle.SameFiles [] after ∧ failure.writtenPaths = report.written := by
  intro appender options batch world
  have hdirectory : (FileTree.empty.set ["kind=b"] .directory).WellFormed :=
    FileTree.wellFormed_empty.set (by decide) (by decide) (by decide)
  have hworld : world.tree.WellFormed := hdirectory.set (by decide) (by decide) (by decide)
  obtain ⟨failure, hstops⟩ := @exists_stops appender options batch world
    (.delimited .commaSeparated) [⟨some ⟨"kind=a", by decide⟩, ⟨["kind", "id"],
      [[.text "a", .int 1]]⟩⟩] [] ⟨some ⟨"kind=b", by decide⟩, ⟨["kind", "id"],
      [[.text "b", .int 2]]⟩⟩
    ⟨by decide +kernel, by decide +kernel, rfl, by decide +kernel⟩ (by decide +kernel)
    (by decide +kernel)
  have hcodec : ∀ codec, appender.codec = some codec → codec.FailsPlainly := by
    rintro codec ⟨⟩
    exact Codec.failsPlainly_standard
  obtain ⟨report, middle, after, hprefix, hrun, hsame, hpaths, -⟩ :=
    Stops.commits_prefix hworld (by decide) hcodec hstops
  exact ⟨hworld, by decide, _, failure, rfl, hstops, report, middle, after, hprefix, hrun, hsame,
    hpaths⟩

end Appender

end TableAppend
