import TableAppend.Proofs.Append.Frame
import TableAppend.Proofs.Append.Sequence
import TableAppend.Proofs.ColumnOrder

/-!
# Appending columns in another order

Where a file has columns, rows are put under these before they are written.  A batch with its columns
in another order is therefore appended to the same effect wherever the files that receive rows have
columns already.
-/

namespace TableAppend

open Change (run run_bind_eq_ok_iff run_onTree_eq_ok_iff run_ofOutcome_eq_ok_iff run_pure_eq_ok_iff
  run_inspect_eq_ok_iff)
open FileTree (destination)

/-! ## Writing -/

section Writing

variable {path : Path} {rows : Batch} {layout : Layout} {order : List String}
  {metadata : Metadata} {world after : World} (horder : order.Perm rows.columns)
  (hcolumns : layout.columns.isSome = true)

include horder hcolumns

theorem Delimited.write_under {dialect : Dialect}
    (hrun : run (write dialect path rows layout) world = (.ok metadata, after)) :
    run (write dialect path (rows.under order) layout) world = (.ok metadata, after) := by
  obtain ⟨header, hheader⟩ := Option.isSome_iff_exists.mp hcolumns
  rw [write, hheader] at hrun ⊢
  obtain ⟨⟨⟩, ended, hended, hrun⟩ := run_bind_eq_ok_iff.mp hrun
  obtain ⟨ordered, same, hproject, hrun⟩ := run_bind_eq_ok_iff.mp hrun
  obtain ⟨hordered, hsame⟩ := run_ofOutcome_eq_ok_iff.mp hproject
  exact run_bind_eq_ok_iff.mpr ⟨(), ended, hended, run_bind_eq_ok_iff.mpr ⟨ordered, same,
    run_ofOutcome_eq_ok_iff.mpr ⟨Batch.project_under horder hordered, hsame⟩, hrun⟩⟩

theorem Columnar.allRows_under {tree : FileTree} {all : Batch}
    (hall : allRows tree path rows layout = .ok all) :
    allRows tree path (rows.under order) layout = .ok all := by
  obtain ⟨header, hheader⟩ := Option.isSome_iff_exists.mp hcolumns
  rw [allRows, hheader] at hall ⊢
  cases hstored : layout.rows with
  | some stored =>
    rw [hstored] at hall
    exact Batch.concat_under horder hall
  | none =>
    rw [hstored] at hall
    obtain ⟨table, htable, hall⟩ := Outcome.bind_eq_ok_iff.mp hall
    obtain ⟨stored, hdecode, hconcat⟩ := Outcome.bind_eq_ok_iff.mp hall
    exact Outcome.bind_eq_ok_iff.mpr ⟨table, htable, Outcome.bind_eq_ok_iff.mpr
      ⟨stored, hdecode, Batch.concat_under horder hconcat⟩⟩

theorem Columnar.write_under {codec : Option Codec}
    (hrun : run (write codec path rows layout) world = (.ok metadata, after)) :
    run (write codec path (rows.under order) layout) world = (.ok metadata, after) := by
  obtain ⟨present, all, schema, content, hpresent, hall, hrest⟩ := write_eq_ok_iff_moves.mp hrun
  exact write_eq_ok_iff_moves.mpr ⟨present, all, schema, content, hpresent,
    allRows_under horder hcolumns hall, hrest⟩

theorem Medium.write_under {medium : Medium}
    (hrun : run (medium.write path rows layout) world = (.ok metadata, after)) :
    run (medium.write path (rows.under order) layout) world = (.ok metadata, after) := by
  cases medium with
  | delimited dialect => exact Delimited.write_under horder hcolumns hrun
  | columnar codec => exact Columnar.write_under horder hcolumns hrun

end Writing

/-! ## One partition -/

namespace Prepared

/-- The same decisions about the rows with their columns in another order. -/
def under (prepared : Prepared) (order : List String) : Prepared :=
  { prepared with survivors := prepared.survivors.under order }

variable {prepared : Prepared} {order : List String}

theorem action_under : (prepared.under order).action = prepared.action := by
  simp only [action, under, Batch.size_under, creates, Batch.isEmpty_under]

theorem commit_under {job : Job} {world after : World} {action : Action}
    (horder : order.Perm prepared.survivors.columns)
    (hcolumns : prepared.survivors.isEmpty = false → prepared.layout.columns.isSome = true)
    (hrun : run (prepared.commit job) world = (.ok action, after)) :
    run ((prepared.under order).commit job) world = (.ok action, after) := by
  have hempty : (prepared.under order).survivors.isEmpty = prepared.survivors.isEmpty :=
    Batch.isEmpty_under _ _
  cases hrows : prepared.survivors.isEmpty with
  | true =>
    rw [run_commit_of_isEmpty hrows] at hrun
    rwa [run_commit_of_isEmpty (hempty.trans hrows), action_under]
  | false =>
    obtain ⟨tree, metadata, written, hmakes, hwritten, hrecorded, rfl⟩ :=
      (commit_eq_ok_iff hrows).mp hrun
    exact (commit_eq_ok_iff (hempty.trans hrows)).mpr ⟨tree, metadata, written, hmakes,
      Medium.write_under horder (hcolumns hrows) hwritten, hrecorded, action_under.symm⟩

end Prepared

namespace Job

variable {job : Job} {world : World} {order : List String}

theorem survivors_under {base : Path} {candidates survivors : Batch} {antiJoined : Bool}
    {notes : List Note} (horder : order.Perm candidates.columns)
    (hsurvivors : job.survivors world base candidates = .ok ((survivors, antiJoined), notes)) :
    job.survivors world base (candidates.under order) =
      .ok ((survivors.under order, antiJoined), notes) := by
  rw [Job.survivors] at hsurvivors ⊢
  cases henabled : job.options.antiJoin.enabled with
  | false =>
    rw [henabled, if_neg Bool.false_ne_true] at hsurvivors
    obtain ⟨⟨rfl, rfl⟩, rfl⟩ := by simpa using hsurvivors
    rw [if_neg Bool.false_ne_true]
  | true =>
    rw [henabled, if_pos rfl] at hsurvivors
    rw [if_pos rfl]
    obtain ⟨keys, hkeys, hsurvivors⟩ := Outcome.bind_eq_ok_iff.mp hsurvivors
    obtain ⟨others, hothers, -⟩ := AntiJoin.exists_effectiveKeys_of_perm horder hkeys
    obtain ⟨files, hfiles, hsurvivors⟩ := Outcome.bind_eq_ok_iff.mp hsurvivors
    obtain ⟨⟨baseline?, told⟩, hread, hsurvivors⟩ := Outcome.bind_eq_ok_iff.mp hsurvivors
    refine Outcome.bind_eq_ok_iff.mpr ⟨others, hothers, Outcome.bind_eq_ok_iff.mpr
      ⟨files, hfiles, Outcome.bind_eq_ok_iff.mpr ⟨_, hread, ?_⟩⟩⟩
    cases baseline? with
    | none =>
      obtain ⟨⟨rfl, rfl⟩, rfl⟩ := by simpa using hsurvivors
      rfl
    | some baseline =>
      obtain ⟨kept, hkept, hresult⟩ := Outcome.bind_eq_ok_iff.mp hsurvivors
      obtain ⟨⟨rfl, rfl⟩, rfl⟩ := by simpa using hresult
      exact Outcome.bind_eq_ok_iff.mpr
        ⟨_, AntiJoin.apply_under henabled horder hkept, rfl⟩

theorem layoutFor_under (hreal : job.mode = .real) {file : Located} {candidates : Batch}
    {layout : Layout} {notes : List Note} (hcolumns : candidates.columns.Nodup)
    (horder : order.Perm candidates.columns)
    (hlayout : job.layoutFor world file candidates = .ok (layout, notes)) :
    job.layoutFor world file (candidates.under order) = .ok (layout, notes) := by
  rw [layoutFor_real_eq_ok_iff hreal] at hlayout ⊢
  exact hlayout.imp_right (Or.imp_right (And.imp_right
    (Medium.check_under hcolumns horder)))

/-- The order of the columns makes no difference to any decision. -/
theorem prepare_under (hreal : job.mode = .real) {bucket : Bucket}
    (hcolumns : bucket.rows.columns.Nodup) (horder : order.Perm bucket.rows.columns)
    {prepared : Prepared} (hprepared : job.prepare world bucket = .ok prepared) :
    job.prepare world (bucket.under order) = .ok (prepared.under order) := by
  obtain ⟨file, found, layout, checked, survivors, antiJoined, compared, hlocate, hlayout,
    hsurvivors, rfl⟩ := prepare_eq_ok_iff.mp hprepared
  have hstored : (job.medium.storedForm bucket.rows).columns = bucket.rows.columns :=
    Medium.columns_storedForm _ _
  refine prepare_eq_ok_iff.mpr ⟨file, found, layout, checked, survivors.under order, antiJoined,
    compared, hlocate, ?_, ?_, ?_⟩
  · rw [Bucket.under, Medium.storedForm_under]
    exact layoutFor_under hreal (hstored ▸ hcolumns) (hstored ▸ horder) hlayout
  · rw [Bucket.under, Medium.storedForm_under]
    exact survivors_under (hstored ▸ horder) hsurvivors
  · have hwarnings : job.writeWarnings file.path (survivors.under order) =
        job.writeWarnings file.path survivors := by
      simp only [writeWarnings, Batch.isEmpty_under]
    rw [hwarnings]
    simp only [Prepared.under, Bucket.under, Batch.size_under]

end Job

/-! ## Files with columns -/

/-- A file has columns that are read: a header, or those of a table. -/
def Medium.HasColumns (medium : Medium) (tree : FileTree) (path : Path) : Prop :=
  match medium with
  | .delimited dialect => ∃ header, Delimited.header? tree path dialect = .ok (some header)
  | .columnar _ => ∃ table, Columnar.readTable tree path = .ok table

namespace Medium

variable {medium : Medium} {tree after : FileTree} {path : Path}

theorem HasColumns.exists_node? (hhas : medium.HasColumns tree path) :
    ∃ content, tree.node? path = some (.file content) := by
  cases medium with
  | delimited dialect =>
    obtain ⟨header, hheader⟩ := hhas
    exact Delimited.exists_node?_of_header? hheader
  | columnar codec =>
    obtain ⟨table, htable⟩ := hhas
    obtain ⟨encoded, hnode⟩ := Columnar.exists_node?_of_readTable htable
    exact ⟨.table ⟨table, encoded⟩, hnode⟩

theorem HasColumns.congr (hhas : medium.HasColumns tree path) {content : Content}
    (hbefore : tree.node? path = some (.file content))
    (hafter : after.node? path = some (.file content)) : medium.HasColumns after path := by
  cases medium with
  | delimited dialect =>
    obtain ⟨header, hheader⟩ := hhas
    refine ⟨header, ?_⟩
    rw [Delimited.header?, Delimited.recordsOf_of_node? hafter,
      ← Delimited.recordsOf_of_node? hbefore]
    exact hheader
  | columnar codec =>
    obtain ⟨table, htable⟩ := hhas
    exact ⟨table, (Columnar.readTable_of_node? hafter).trans
      ((Columnar.readTable_of_node? hbefore).symm.trans htable)⟩

/-- What is checked has its columns in the layout. -/
theorem HasColumns.isSome_columns (hhas : medium.HasColumns tree path)
    {metadata : Option Metadata} {rows : Batch} {layout : Layout}
    (hcheck : medium.check tree path metadata rows = .ok layout) :
    layout.columns.isSome = true := by
  cases medium with
  | delimited dialect =>
    obtain ⟨header, hheader⟩ := hhas
    obtain ⟨-, ⟨hnone, -⟩ | ⟨found, -, -, -, rfl⟩⟩ := Delimited.check_eq_ok_iff.mp hcheck
    · exact absurd (hheader.symm.trans hnone) (by simp)
    · rfl
  | columnar codec =>
    obtain ⟨-, -, table, -, stored, -, -, -, rfl⟩ := Columnar.check_eq_ok_iff.mp hcheck
    rfl

end Medium

namespace Job

variable {job : Job} {name : String} {order : List String}

/-- A file that has columns keeps them while other partitions are written. -/
theorem hasColumns_of_commit {world after : World} {prepared : Prepared} {action : Action}
    {last : String} (hlast : prepared.path.fileName? = some last)
    (hrun : run (prepared.commit job) world = (.ok action, after)) {path : Path}
    (hapart : (destination path).dropLast ≠ (destination prepared.path).dropLast)
    (hhas : job.medium.HasColumns world.tree path) : job.medium.HasColumns after.tree path := by
  obtain ⟨content, hnode⟩ := hhas.exists_node?
  exact hhas.congr hnode (Prepared.node?_of_commit hlast hrun hapart hnode)

/-- A file that has columns is there and has been checked. -/
theorem isSome_columns_of_hasColumns (hreal : job.mode = .real) {world : World} {bucket : Bucket}
    {prepared : Prepared} (hprepared : job.prepare world bucket = .ok prepared)
    (hhas : job.medium.HasColumns world.tree prepared.path) :
    prepared.layout.columns.isSome = true := by
  obtain ⟨file, found, layout, checked, survivors, antiJoined, compared, hlocate, hlayout, -, rfl⟩ :=
    prepare_eq_ok_iff.mp hprepared
  obtain ⟨content, hnode⟩ := hhas.exists_node?
  obtain ⟨-, seen, hstate⟩ := exists_stateOf_of_locate hlocate
  obtain ⟨rows, notes, -, hfound⟩ := countRows_of_stateOf hstate hnode
  rcases ((layoutFor_real_eq_ok_iff hreal).mp hlayout).2 with ⟨habsent, -⟩ | ⟨-, hcheck⟩
  · simp [hfound] at habsent
  · exact hhas.isSome_columns hcheck

/-- Partitions are written to the same effect with the columns of their rows in another order.  Each is
prepared in the world that the ones before have left, in which its file still has the columns that it
had at the start. -/
theorem Performs.under (hname : job.options.target.fileName? = some name) (hreal : job.mode = .real)
    {world after : World} {buckets : List Bucket} {done : List Prepared}
    (hrows : ∀ bucket ∈ buckets, bucket.rows.columns.Nodup ∧ order.Perm bucket.rows.columns)
    (hapart : (buckets.map Bucket.key).Pairwise Apart)
    (hhas : ∀ prepared ∈ done, prepared.survivors.isEmpty = false →
      job.medium.HasColumns world.tree prepared.path)
    (hperforms : job.Performs world buckets done after) :
    job.Performs world (buckets.map fun bucket => bucket.under order)
      (done.map fun prepared => prepared.under order) after := by
  induction hperforms with
  | nothing world => exact .nothing world
  | @next world between after bucket rest prepared done hprepared hcommit hrest ih =>
    obtain ⟨hnodup, horder⟩ := hrows bucket List.mem_cons_self
    rw [List.map_cons, List.pairwise_cons] at hapart
    refine .next (prepare_under hreal hnodup horder hprepared) ?_
      (ih (fun other hother => hrows other (List.mem_cons_of_mem _ hother)) hapart.2 ?_)
    · have hsurvivors := (fits_of_prepare hreal hprepared).1
      rw [Prepared.action_under]
      exact Prepared.commit_under (hsurvivors ▸ horder) (fun hempty =>
        isSome_columns_of_hasColumns hreal hprepared (hhas prepared List.mem_cons_self hempty)) hcommit
    · intro other hother hempty
      obtain ⟨last, hlast, hdestination⟩ := destination_of_prepare hname hprepared
      obtain ⟨bucket', hbucket', last', -, hdestination'⟩ := hrest.exists_bucket hname hother
      refine hasColumns_of_commit hlast hcommit ?_ (hhas other (List.mem_cons_of_mem _ hother) hempty)
      rw [hdestination, hdestination', List.dropLast_concat, List.dropLast_concat]
      exact (destination_directoryOf_ne (hapart.1 _ (List.mem_map_of_mem hbucket'))).symm

end Job

namespace Appender

/-- Where the files that receive rows have columns already, the order of the columns of a batch makes no
difference, neither to the report nor to anything that is left. -/
theorem append_of_other_column_order {appender : Appender} {options : Options} {batch : Batch}
    {world after : World} {report : Report} (hbatch : batch.isEmpty = false → batch.WellFormed)
    {order : List String} (horder : order.Perm batch.columns)
    (hrun : run (appender.append options batch) world = (.ok report, after))
    (hhas : ∀ format, options.effectiveFormat = .ok format → ∀ action ∈ report.actions,
      action.rowsWritten ≠ 0 →
        (Medium.ofFormat format appender.codec).HasColumns world.tree action.path) :
    ∃ permuted, batch.project order = .ok permuted ∧
      run (appender.append options permuted) world = (.ok report, after) := by
  refine ⟨batch.under order, Batch.project_of_perm horder, ?_⟩
  obtain ⟨format, hvalid, hformat, hcases⟩ := append_eq_ok_iff.mp hrun
  refine append_eq_ok_iff.mpr ⟨format, hvalid, hformat, ?_⟩
  rw [Batch.isEmpty_under]
  refine hcases.imp_right ?_
  rintro ⟨hsome, buckets, hbuckets, hprocess⟩
  obtain ⟨name, hname⟩ := exists_fileName?_of_validate hvalid
  obtain ⟨done, hdone, rfl⟩ := Job.processAll_eq_ok_iff.mp hprocess
  have hjob : (appender.job options format .real).options.target.fileName? = some name := hname
  have hrows : ∀ bucket ∈ buckets,
      bucket.rows.columns.Nodup ∧ order.Perm bucket.rows.columns := by
    intro bucket hbucket
    have hsame := (Routing.mem_bucket hbuckets hbucket).1
    exact ⟨hsame ▸ (hbatch hsome).1, hsame ▸ horder⟩
  have hunder := hdone.under hjob rfl hrows (Routing.apart_buckets hbuckets) fun prepared hmem hempty => by
    refine hhas format hformat prepared.action ?_ (Prepared.rowsWritten_action_ne_zero_iff.mpr hempty)
    rw [Report.actions_foldl_add]
    exact List.mem_append_right _ (List.mem_map_of_mem hmem)
  refine ⟨hsome, _, Routing.buckets_under (hbatch hsome) horder hbuckets,
    Job.processAll_eq_ok_iff.mpr ⟨_, hunder, ?_⟩⟩
  rw [List.map_map]
  congr 1
  exact List.map_congr_left fun prepared _ => Prepared.action_under.symm

/-- Rows that are compared by all columns, one of which is stored already. -/
theorem append_of_other_column_order_of_two_rows :
    let appender : Appender := ⟨none, 200⟩
    let options := { Options.ofTarget ⟨"p.csv"⟩ with antiJoin := .onEveryColumn }
    let world : World := ⟨⟨[(["p.csv"], .file (.bytes (Utf8.encode "id,name\n1,a\n")))]⟩, none⟩
    let batch : Batch := ⟨["id", "name"], [[.int 1, .text "a"], [.int 2, .text "b"]]⟩
    ∃ report after permuted, run (appender.append options batch) world = (.ok report, after) ∧
      batch.project ["name", "id"] = .ok permuted ∧
        run (appender.append options permuted) world = (.ok report, after) := by
  intro appender options world batch
  let report : Report := ⟨[⟨"p.csv"⟩], [⟨⟨"p.csv"⟩, none, 1, 1, false, false, true⟩]⟩
  have hrun : run (appender.append options batch) world =
      (.ok report, (run (appender.append options batch) world).2) :=
    Prod.ext (by decide +kernel) rfl
  have hformat : options.effectiveFormat = .ok (.delimited .commaSeparated) := by decide +kernel
  have horder : ["name", "id"].Perm batch.columns := by decide
  obtain ⟨permuted, hpermuted, hsame⟩ := append_of_other_column_order
    (fun _ => ⟨by decide, by decide⟩) horder hrun fun format hfound action hmem _ => by
      rw [hformat, Except.ok.injEq] at hfound
      rw [← hfound, List.mem_singleton.mp hmem]
      exact ⟨["id", "name"], by decide +kernel⟩
  exact ⟨report, _, permuted, hrun, hpermuted, hsame⟩

end Appender

end TableAppend
