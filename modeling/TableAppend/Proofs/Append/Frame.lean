import TableAppend.Proofs.Append.Reordering

/-!
# What an append leaves alone

An append does to each partition what it would do to it alone, and of that it changes the one file that
receives rows, the metadata of that file, temporary files beside these two, and missing directories on
the way.  Bytes that stand in a delimited file with a header stay where they are.
-/

namespace TableAppend

open Change (run)
open FileTree (DirectoryMade FilePut)
open TableAppend.Path (LiesIn)
open World (Agree SameBelow)

/-! ## One partition -/

/-- Recording metadata sets at most the metadata file and removes at most its temporary form. -/
theorem World.get?_of_recordMetadata {world after : World} (hworld : world.tree.WellFormed)
    {path : Path} {place : Location} (hpath : path.LiesIn place) {metadata : Metadata}
    (hrun : (recordMetadata path metadata).run world = (.ok (), after)) {other : Location}
    (hother : other ∉ path.auxiliaries) : after.tree.get? other = world.tree.get? other := by
  simp only [Path.auxiliaries, List.mem_cons, List.not_mem_nil, or_false, not_or] at hother
  cases hledger : world.ledger with
  | some ledger =>
    rw [recordMetadata_of_ledger hledger, Prod.mk.injEq] at hrun
    rw [← hrun.2]
  | none =>
    obtain ⟨-, -, tree, hput, rfl⟩ := exists_filePut_of_recordMetadata hledger hworld hpath hrun
    rw [hput.get?_eq, if_neg hother.2.1, if_neg (mt List.mem_singleton.mp hother.2.2)]

namespace Prepared

variable {prepared : Prepared} {job : Job} {world after : World} {action : Action} {name : String}

theorem rowsWritten_action_ne_zero_iff :
    prepared.action.rowsWritten ≠ 0 ↔ prepared.survivors.isEmpty = false := by
  rw [Batch.isEmpty, List.isEmpty_eq_false_iff]
  exact not_congr List.length_eq_zero_iff

section

variable (hname : job.options.target.fileName? = some name)
  (htarget : job.options.target.Descends) (hworld : world.tree.WellFormed)
  (hpath : prepared.path.LiesIn (job.options.place prepared.key))
  (hrows : prepared.survivors.isEmpty = false)
  (hrun : run (prepared.commit job) world = (.ok action, after))

include hname htarget hworld hpath hrows hrun

/-- Away from the file that receives rows and what stands beside it, nothing but the directories on the
way is new. -/
theorem get?_of_commit {other : Location} (hother : other ∉ prepared.path.places) :
    after.tree.get? other =
      if other <+: job.options.place prepared.key then some .directory else world.tree.get? other := by
  obtain ⟨tree, data, content, metadata, hplaced, hrecorded⟩ :=
    exists_placed_of_commit hname htarget hworld hpath hrows hrun
  rw [Path.places, List.mem_cons, not_or] at hother
  rw [World.get?_of_recordMetadata hplaced.put.wellFormed hpath hrecorded hother.2,
    hplaced.get?_other hother.1 fun hsame => hother.2 (hsame ▸ List.mem_cons_self)]

omit hpath in
theorem passable_of_commit : world.tree.Passable (job.options.place prepared.key) := by
  obtain ⟨tree, metadata, written, hmakes, -, -, -⟩ := (commit_eq_ok_iff hrows).mp hrun
  exact (directoryMade_of_commit hname htarget hworld hmakes).1.passable

/-- In a ledger only the entry of the file that receives rows is new. -/
theorem lookup_of_commit {other : Path} (hother : prepared.path.same other = false) :
    after.ledger.map (fun ledger => ledger.lookup other) =
      world.ledger.map (fun ledger => ledger.lookup other) := by
  obtain ⟨tree, data, content, metadata, hplaced, hrecorded⟩ :=
    exists_placed_of_commit hname htarget hworld hpath hrows hrun
  cases hledger : world.ledger with
  | none =>
    obtain ⟨-, -, last, -, rfl⟩ := @World.exists_filePut_of_recordMetadata _
      { world with tree := data } hledger _ hplaced.put.wellFormed _ hpath _ hrecorded
    exact congrArg _ hledger
  | some ledger =>
    rw [@World.recordMetadata_of_ledger { world with tree := data } _ hledger,
      Prod.mk.injEq] at hrecorded
    rw [← hrecorded.2]
    simp only [Option.map_some, Ledger.lookup_record, hother, Bool.false_eq_true, ↓reduceIte]

/-- Rows are written after the bytes of a file that has a header. -/
theorem exists_added_of_commit {content : Content}
    (hold : world.tree.node? prepared.path = some (.file content)) {dialect : Dialect}
    (hmedium : job.medium = .delimited dialect) (hheader : prepared.layout.columns.isSome = true) :
    ∃ added, after.tree.node? prepared.path = some (.file (.bytes (content.toBytes ++ added))) := by
  obtain ⟨tree, data, stored, metadata, hplaced, hrecorded⟩ :=
    exists_placed_of_commit hname htarget hworld hpath hrows hrun
  obtain ⟨header, hheader⟩ := Option.isSome_iff_exists.mp hheader
  have hstores := hplaced.stores
  rw [hmedium, Medium.Stores, hheader] at hstores
  obtain ⟨-, found, ordered, hfound, -, rfl⟩ := hstores
  rw [hplaced.made.node?_in hworld hpath, hold, Option.some.injEq, Node.file.injEq] at hfound
  subst hfound
  have hlast := (@World.keptBut_of_recordMetadata { world with tree := data } _ _ _ _
    hplaced.put.wellFormed hpath hrecorded).wellFormed
  refine ⟨Delimited.missingLineEnd content.toBytes ++ Delimited.writeRows dialect ordered,
    (FileTree.node?_eq_file_iff hlast hpath.1).mpr ⟨hplaced.reachable, ?_⟩⟩
  rw [World.get?_of_recordMetadata hplaced.put.wellFormed hpath hrecorded
    hpath.location_notMem_auxiliaries, hplaced.get?_data, Delimited.addedBytes, List.append_assoc]

end

end Prepared

/-- A file with a record is taken to have a header, to which the rows are fitted. -/
theorem Delimited.isSome_columns_of_check {tree : FileTree} {dialect : Dialect} {path : Path}
    {content : Content} (hnode : tree.node? path = some (.file content))
    (hrecords : readRecords (.ofDialect dialect) content.toBytes ≠ []) {metadata : Option Metadata}
    {columns : List String} {layout : Layout}
    (hcheck : check tree dialect path metadata columns = .ok layout) :
    layout.columns.isSome = true := by
  obtain ⟨-, ⟨hnone, -⟩ | ⟨header, -, -, -, rfl⟩⟩ := check_eq_ok_iff.mp hcheck
  · exact absurd ((header?_eq_none_iff (FileTree.readBytes_of_node? hnode)).mp hnone) hrecords
  · rfl

theorem Job.isSome_columns_of_prepare {job : Job} (hmode : job.mode = .real) {dialect : Dialect}
    (hmedium : job.medium = .delimited dialect) {world : World} {bucket : Bucket}
    {prepared : Prepared} (hprepared : job.prepare world bucket = .ok prepared) {content : Content}
    (hnode : world.tree.node? prepared.path = some (.file content))
    (hrecords : Delimited.readRecords (.ofDialect dialect) content.toBytes ≠ []) :
    prepared.layout.columns.isSome = true := by
  have hpresent := present_of_node? hprepared hnode
  obtain ⟨metadata, -, hcheck⟩ := check_of_prepare hmode hprepared hpresent
  rw [hmedium] at hcheck
  exact Delimited.isSome_columns_of_check hnode hrecords hcheck

/-! ## All partitions -/

theorem Report.rowsWritten_eq_zero_iff {report : Report} :
    report.rowsWritten = 0 ↔ ∀ action ∈ report.actions, action.rowsWritten = 0 := by
  have hsum : ∀ (actions : List Action) (total : ℕ),
      actions.foldl (fun total action => total + action.rowsWritten) total = 0 ↔
        total = 0 ∧ ∀ action ∈ actions, action.rowsWritten = 0 := by
    intro actions
    induction actions with
    | nil => simp
    | cons action rest ih =>
      intro total
      rw [List.foldl_cons, ih, Nat.add_eq_zero_iff, List.forall_mem_cons, and_assoc]
  rw [rowsWritten, hsum, eq_self, true_and]

theorem Job.eq_of_processAll {job : Job} {world after : World} {buckets : List Bucket}
    {report : Report} {actions : List Action}
    (hrun : run (job.processAll report buckets) world = (.ok (actions.foldl Report.add report), after))
    (hnone : ∀ action ∈ actions, action.rowsWritten = 0) : after = world := by
  induction buckets generalizing report world actions with
  | nil => exact (Change.run_pure_eq_ok_iff.mp hrun).2
  | cons bucket rest ih =>
    obtain ⟨action, between, hprocess, hrest⟩ := processAll_cons_eq_ok_iff.mp hrun
    obtain ⟨prepared, -, hcommit⟩ := process_eq_ok_iff.mp hprocess
    obtain rfl := Prepared.action_of_commit hcommit
    obtain ⟨done, -, hactions, -⟩ := settles_of_processAll hrest
    rw [Report.actions_foldl_add, Report.add, List.append_assoc, List.append_cancel_left_eq,
      List.singleton_append] at hactions
    subst hactions
    rw [List.forall_mem_cons] at hnone
    have hempty : prepared.survivors.isEmpty = true := by
      by_contra hsome
      exact Prepared.rowsWritten_action_ne_zero_iff.mpr (Bool.not_eq_true _ ▸ hsome) hnone.1
    rw [Prepared.run_commit_of_isEmpty hempty, Prod.mk.injEq] at hcommit
    exact (ih hrest hnone.2).trans hcommit.2.symm

/-- What is written for a partition alone, and the files of it are then as after the whole append. -/
structure Job.WrittenAlone (job : Job) (world after : World) (bucket : Bucket) (prepared : Prepared)
    (left : World) : Prop where
  prepare : job.prepare world bucket = .ok prepared
  commit : run (prepared.commit job) world = (.ok prepared.action, left)
  key : prepared.key = bucket.key
  liesIn : prepared.path.LiesIn (job.options.place prepared.key)
  agree : Agree (job.options.place prepared.key) left after

namespace Appender

variable {appender : Appender} {options : Options} {batch : Batch} {world after : World}
  {report : Report}

/-- An append told by what it does to each partition alone. -/
structure Divides (appender : Appender) (options : Options) (batch : Batch) (world : World)
    (report : Report) (after : World) (format : Format) (buckets : List Bucket) : Prop where
  reaches : options.Reaches batch world.tree format buckets
  run_eq : run ((appender.job options format .real).processAll .empty buckets) world =
    (.ok report, after)
  report_eq : report = report.actions.foldl Report.add .empty
  left : (appender.job options format .real).LeftBy world world buckets report.actions after
  each : List.Forall₂ (fun bucket action => ∃ prepared left,
    (appender.job options format .real).WrittenAlone world after bucket prepared left ∧
      action = prepared.action) buckets report.actions
  written : report.written = (report.actions.filter fun action => action.rowsWritten ≠ 0).map
    Action.path

theorem divides_of_append (hworld : world.tree.WellFormed) (htarget : options.target.Descends)
    (hrun : run (appender.append options batch) world = (.ok report, after)) :
    (batch.isEmpty = true ∧ report = .empty ∧ after = world) ∨
      ∃ format buckets, appender.Divides options batch world report after format buckets := by
  obtain ⟨format, hvalid, hformat, hcases⟩ := append_eq_ok_iff.mp hrun
  refine hcases.imp_right ?_
  rintro ⟨hrows, buckets, hbuckets, hprocess⟩
  set job := appender.job options format .real with hjob
  obtain ⟨name, hname⟩ : ∃ name, job.options.target.fileName? = some name :=
    exists_fileName?_of_validate hvalid
  have hseparate := Routing.separate_buckets hbuckets options
  have halone := @Job.each_of_processAll job _ hname htarget _ _ _
    hworld hworld _ _ _ hseparate (fun _ _ => SameBelow.refl _ _) (fun _ _ h => h) hprocess
  obtain ⟨actions, other, hother, hleft⟩ := @Job.processAll_of_each
    job _ hname htarget _ _ hworld hworld _ .empty hseparate
    (fun _ _ => SameBelow.refl _ _) (fun _ _ h => h) halone
  rw [hprocess, Prod.mk.injEq, Except.ok.injEq] at hother
  obtain ⟨hreport, rfl⟩ := hother
  obtain rfl : report.actions = actions := by rw [hreport, Report.actions_foldl_add]; rfl
  have heach : List.Forall₂ (fun bucket action => ∃ prepared left,
      job.WrittenAlone world after bucket prepared left ∧
        action = prepared.action) buckets report.actions := by
    refine hleft.each.imp ?_
    rintro bucket action ⟨left, hdone, hagree⟩
    obtain ⟨prepared, hprepared, hcommit⟩ := Job.process_eq_ok_iff.mp hdone
    obtain ⟨hkey, hpath, -⟩ := @Job.prepare_spec job _ _ hname htarget hworld _ _ hprepared
    obtain rfl := Prepared.action_of_commit hcommit
    rw [← hkey] at hpath hagree
    exact ⟨prepared, left, ⟨hprepared, hcommit, hkey, hpath, hagree⟩, rfl⟩
  refine ⟨format, buckets, ⟨hvalid, hformat, hrows, hbuckets⟩, hprocess, hreport, hleft, heach, ?_⟩
  rw [hreport, Report.written_eq_map, ← hreport]
  refine Job.paths_pairwise hseparate (heach.imp ?_)
  rintro bucket action ⟨prepared, left, halone, rfl⟩
  exact ⟨congrArg PartitionKey.text? halone.key, halone.key ▸ halone.liesIn⟩

namespace Divides

variable {format : Format} {buckets : List Bucket}
  (hdivides : appender.Divides options batch world report after format buckets)

include hdivides

theorem exists_alone {action : Action} (haction : action ∈ report.actions) :
    ∃ bucket ∈ buckets, ∃ prepared left,
      (appender.job options format .real).WrittenAlone world after bucket prepared left ∧
        action = prepared.action :=
  Outcome.exists_of_forall₂ hdivides.each haction

theorem exists_alone_of_mem {bucket : Bucket} (hbucket : bucket ∈ buckets) :
    ∃ prepared left,
      (appender.job options format .real).WrittenAlone world after bucket prepared left ∧
        prepared.action ∈ report.actions := by
  obtain ⟨action, haction, prepared, left, halone, rfl⟩ :=
    Outcome.exists_of_forall₂ hdivides.each.flip hbucket
  exact ⟨prepared, left, halone, haction⟩

theorem mem_written {prepared : Prepared} (haction : prepared.action ∈ report.actions)
    (hrows : prepared.survivors.isEmpty = false) : prepared.path ∈ report.written := by
  rw [hdivides.written]
  exact List.mem_map_of_mem (List.mem_filter.mpr
    ⟨haction, decide_eq_true (Prepared.rowsWritten_action_ne_zero_iff.mpr hrows)⟩)

theorem exists_alone_of_written {path : Path} (hpath : path ∈ report.written) :
    ∃ bucket ∈ buckets, ∃ prepared left,
      (appender.job options format .real).WrittenAlone world after bucket prepared left ∧
        prepared.survivors.isEmpty = false ∧ path = prepared.path := by
  rw [hdivides.written] at hpath
  obtain ⟨action, haction, rfl⟩ := List.mem_map.mp hpath
  obtain ⟨hmem, hrows⟩ := List.mem_filter.mp haction
  obtain ⟨bucket, hbucket, prepared, left, halone, rfl⟩ := hdivides.exists_alone hmem
  exact ⟨bucket, hbucket, prepared, left, halone,
    Prepared.rowsWritten_action_ne_zero_iff.mp (of_decide_eq_true hrows), rfl⟩

theorem exists_fileName? :
    ∃ name, (appender.job options format .real).options.target.fileName? = some name :=
  exists_fileName?_of_validate hdivides.reaches.valid

variable (hworld : world.tree.WellFormed) (htarget : options.target.Descends)

include hworld htarget

/-- A directory that was not there leads to a file that is written. -/
theorem get?_eq_of_notMem {place : Location}
    (hplace : ∀ path ∈ report.written, place ∉ path.places) :
    after.tree.get? place = world.tree.get? place ∨
      world.tree.get? place = none ∧ after.tree.get? place = some .directory ∧
        ∃ path ∈ report.written, place <+: path.location := by
  obtain ⟨name, hname⟩ := hdivides.exists_fileName?
  have hdown : (appender.job options format .real).options.target.Descends := htarget
  -- What a partition with rows does on the way to its file, in whatever world it is written.
  have hway : ∀ {bucket prepared left}, prepared.action ∈ report.actions →
      (appender.job options format .real).WrittenAlone world after bucket prepared left →
      prepared.survivors.isEmpty = false → place <+: options.place prepared.key →
      after.tree.get? place = some .directory →
      after.tree.get? place = world.tree.get? place ∨
        world.tree.get? place = none ∧ after.tree.get? place = some .directory ∧
          ∃ path ∈ report.written, place <+: path.location := by
    intro bucket prepared left haction halone hrows hupper hafter
    have hpassable := Prepared.passable_of_commit hname hdown hworld hrows halone.commit
    cases hbefore : world.tree.get? place with
    | none =>
      refine .inr ⟨rfl, hafter, prepared.path, hdivides.mem_written haction hrows, ?_⟩
      obtain ⟨file, -, hlocation⟩ := halone.liesIn.2
      exact hupper.trans (hlocation ▸ List.prefix_append _ _)
    | some node =>
      cases node with
      | directory => exact .inl hafter
      | file content => exact absurd hbefore (hpassable place hupper content)
  by_cases hbelow : ∃ bucket ∈ buckets, options.place bucket.key <+: place
  · obtain ⟨bucket, hbucket, hbelow⟩ := hbelow
    obtain ⟨prepared, left, halone, haction⟩ := hdivides.exists_alone_of_mem hbucket
    rw [← halone.key] at hbelow
    have hsame := halone.agree.get?_eq place hbelow
    cases hrows : prepared.survivors.isEmpty with
    | true =>
      have hcommit := halone.commit
      rw [Prepared.run_commit_of_isEmpty hrows, Prod.mk.injEq] at hcommit
      exact .inl (hcommit.2 ▸ hsame)
    | false =>
      rw [Prepared.get?_of_commit hname hdown hworld halone.liesIn hrows halone.commit
        (hplace _ (hdivides.mem_written haction hrows))] at hsame
      split at hsame
      · exact hway haction halone hrows ‹_› hsame
      · exact .inl hsame
  · simp only [not_exists, not_and] at hbelow
    by_cases henters : ∃ bucket ∈ buckets,
        (appender.job options format .real).Enters world bucket place
    · have hafter := hdivides.left.entered place hbelow henters
      obtain ⟨bucket, hbucket, action, other, hrun, hwritten, hupper⟩ := henters
      obtain ⟨prepared, left, halone, haction⟩ := hdivides.exists_alone_of_mem hbucket
      obtain ⟨same, hsame, hcommit⟩ := Job.process_eq_ok_iff.mp hrun
      obtain rfl := Prepared.action_of_commit hcommit
      obtain rfl : prepared = same := by rw [halone.prepare, Except.ok.injEq] at hsame; exact hsame
      exact hway haction halone (Prepared.rowsWritten_action_ne_zero_iff.mp hwritten)
        (halone.key ▸ hupper) hafter
    · exact .inl (hdivides.left.spared place hbelow henters)

theorem lookup_eq_of_written {path : Path}
    (hpath : ∀ written ∈ report.written, written.same path = false) :
    after.ledger.map (fun ledger => ledger.lookup path) =
      world.ledger.map (fun ledger => ledger.lookup path) := by
  obtain ⟨name, hname⟩ := hdivides.exists_fileName?
  have hdown : (appender.job options format .real).options.target.Descends := htarget
  by_cases hbelow : ∃ bucket ∈ buckets, options.place bucket.key <+: path.location
  · obtain ⟨bucket, hbucket, hbelow⟩ := hbelow
    obtain ⟨prepared, left, halone, haction⟩ := hdivides.exists_alone_of_mem hbucket
    rw [← halone.key] at hbelow
    refine (halone.agree.lookup_eq path hbelow).trans ?_
    cases hrows : prepared.survivors.isEmpty with
    | true =>
      have hcommit := halone.commit
      rw [Prepared.run_commit_of_isEmpty hrows, Prod.mk.injEq] at hcommit
      rw [hcommit.2]
    | false =>
      exact Prepared.lookup_of_commit hname hdown hworld halone.liesIn hrows halone.commit
        (hpath _ (hdivides.mem_written haction hrows))
  · simp only [not_exists, not_and] at hbelow
    exact hdivides.left.lookup_eq path hbelow

theorem exists_added {dialect : Dialect} (hdialect : format = .delimited dialect) {path : Path}
    (hpath : path ∈ report.written) {old : Bytes} (hold : world.tree.readBytes path = .ok old)
    (hrecords : Delimited.readRecords (.ofDialect dialect) old ≠ []) :
    ∃ added, after.tree.readBytes path = .ok (old ++ added) := by
  obtain ⟨name, hname⟩ := hdivides.exists_fileName?
  have hdown : (appender.job options format .real).options.target.Descends := htarget
  have hmedium : (appender.job options format .real).medium = .delimited dialect := by
    rw [hdialect]; rfl
  obtain ⟨bucket, hbucket, prepared, left, halone, hrows, rfl⟩ := hdivides.exists_alone_of_written hpath
  obtain ⟨content, hnode⟩ := FileTree.exists_node?_of_readBytes hold
  obtain rfl : content.toBytes = old := by
    rw [FileTree.readBytes_of_node? hnode, Except.ok.injEq] at hold
    exact hold
  have hheader := Job.isSome_columns_of_prepare rfl hmedium halone.prepare hnode hrecords
  obtain ⟨added, hleft⟩ := Prepared.exists_added_of_commit hname hdown hworld halone.liesIn hrows
    halone.commit hnode hmedium hheader
  have hwell := (Prepared.confined_of_commit hname hdown hworld halone.liesIn halone.commit).wellFormed
  rw [← halone.agree.node?_eq hwell hdivides.left.wellFormed halone.liesIn] at hleft
  exact ⟨added, FileTree.readBytes_of_node? hleft⟩

omit hworld htarget in
theorem eq_of_rowsWritten (hnone : report.rowsWritten = 0) : after = world := by
  have hrun := hdivides.run_eq
  rw [hdivides.report_eq] at hrun
  exact Job.eq_of_processAll hrun (Report.rowsWritten_eq_zero_iff.mp hnone)

end Divides

/-- An append changes the files that it names, their metadata and the temporary files beside these two,
and makes directories that lead to them.  A delimited file that has a header keeps its bytes at the
beginning, and where no row is left to be written nothing at all is changed. -/
theorem append_changes_only_written (appender : Appender) (options : Options) (batch : Batch)
    (world : World) (hworld : world.tree.WellFormed) (htarget : options.target.Descends)
    (report : Report) (after : World)
    (hrun : run (appender.append options batch) world = (.ok report, after)) :
    (∀ place, (∀ path ∈ report.written, place ∉ path.places) →
      after.tree.get? place = world.tree.get? place ∨
        world.tree.get? place = none ∧ after.tree.get? place = some .directory ∧
          ∃ path ∈ report.written, place <+: path.location) ∧
    (∀ path : Path, (∀ written ∈ report.written, written.same path = false) →
      after.ledger.map (fun ledger => ledger.lookup path) =
        world.ledger.map fun ledger => ledger.lookup path) ∧
    (∀ dialect, options.effectiveFormat = .ok (.delimited dialect) →
      ∀ path ∈ report.written, ∀ old, world.tree.readBytes path = .ok old →
        Delimited.readRecords (.ofDialect dialect) old ≠ [] →
          ∃ added, after.tree.readBytes path = .ok (old ++ added)) ∧
    (report.rowsWritten = 0 → after = world) := by
  rcases divides_of_append hworld htarget hrun with ⟨-, rfl, rfl⟩ | ⟨format, buckets, hdivides⟩
  · exact ⟨fun _ _ => .inl rfl, fun _ _ => rfl, fun _ _ path hpath => absurd hpath List.not_mem_nil,
      fun _ => rfl⟩
  · refine ⟨fun place hplace => hdivides.get?_eq_of_notMem hworld htarget hplace,
      fun path hpath => hdivides.lookup_eq_of_written hworld htarget hpath, ?_,
      hdivides.eq_of_rowsWritten⟩
    intro dialect hdialect path hpath old hold hrecords
    have hformat : format = .delimited dialect :=
      Except.ok.inj (hdivides.reaches.format.symm.trans hdialect)
    exact hdivides.exists_added hworld htarget hformat hpath hold hrecords

/-- A header without a line end in one partition, and another partition that has no directory yet. -/
theorem append_changes_only_written_of_two_partitions :
    let appender : Appender := ⟨some .standard, 200⟩
    let options : Options := { Options.ofTarget ⟨"rows.csv"⟩ with routing := .byColumn "kind" }
    let batch : Batch := ⟨["kind", "id"], [[.text "a", .int 1], [.text "b", .int 2]]⟩
    let world : World := ⟨(FileTree.empty.set ["kind=a"] .directory).set ["kind=a", "rows.csv"]
      (.file (.bytes (Utf8.encode "id,kind"))), none⟩
    world.tree.WellFormed ∧ options.target.Descends ∧ ∃ report after,
      run (appender.append options batch) world = (.ok report, after) ∧
      (∀ place, (∀ path ∈ report.written, place ∉ path.places) →
        after.tree.get? place = world.tree.get? place ∨
          world.tree.get? place = none ∧ after.tree.get? place = some .directory ∧
            ∃ path ∈ report.written, place <+: path.location) ∧
      (∀ path : Path, (∀ written ∈ report.written, written.same path = false) →
        after.ledger.map (fun ledger => ledger.lookup path) =
          world.ledger.map fun ledger => ledger.lookup path) ∧
      (∀ dialect, options.effectiveFormat = .ok (.delimited dialect) →
        ∀ path ∈ report.written, ∀ old, world.tree.readBytes path = .ok old →
          Delimited.readRecords (.ofDialect dialect) old ≠ [] →
            ∃ added, after.tree.readBytes path = .ok (old ++ added)) ∧
      (report.rowsWritten = 0 → after = world) := by
  intro appender options batch world
  have hdirectory : (FileTree.empty.set ["kind=a"] .directory).WellFormed :=
    FileTree.wellFormed_empty.set (by decide) (by decide) (by decide)
  have hworld : world.tree.WellFormed := hdirectory.set (by decide) (by decide) (by decide)
  have hsucceeds : (run (appender.append options batch) world).1.toOption.isSome = true := by
    decide +kernel
  rcases hrun : run (appender.append options batch) world with ⟨failure | report, after⟩
  · rw [hrun] at hsucceeds
    cases hsucceeds
  · exact ⟨hworld, by decide, report, after, rfl,
      append_changes_only_written appender options batch world hworld (by decide) report after hrun⟩

end Appender

end TableAppend
