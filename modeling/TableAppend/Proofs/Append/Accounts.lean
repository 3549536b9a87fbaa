import TableAppend.Proofs.Append.Frame
import TableAppend.Proofs.Append.Intact
import TableAppend.Proofs.Keys

/-!
# What an append accounts for

Every row of a batch is in the bucket of one partition.  There it is dropped if the baseline has its
key, and else it comes after the rows of the file to which the action points.  Which rows a file has is
told by reading it, and so is the baseline.
-/

namespace TableAppend

open Batch (keyOn keysOn)
open Change (run)
open Delimited (Keeps metadataOf storedForm)
open Family (Base)
open FileTree (Reachable)
open TableAppend.Path (LiesIn)
open World (Agree)

/-! ## Rows in stored form -/

namespace Delimited

theorem size_storedForm (batch : Batch) : (storedForm batch).size = batch.size :=
  List.length_map _

/-- Keys decide the same about rows and about their stored forms. -/
theorem unmatched_storedForm (keys : List String) (batch : Batch) (stored : List Key) :
    (storedForm batch).unmatched (keyOn keys batch.columns) stored =
      storedForm (batch.unmatched (fun row => keyOn keys batch.columns (row.map Cell.stored))
        stored) := by
  simp only [storedForm_eq, Batch.mapCells, Batch.unmatched, List.filter_map]
  congr 2
  refine List.filter_congr fun row _ => ?_
  rw [Function.comp_apply, keyOn_stored]

/-- Writing a row and writing its stored form is the same. -/
theorem rowsUnder_storedForm (batch : Batch) (header : List String) :
    ((storedForm batch).rowsUnder header).map (List.map Cell.stored) =
      (batch.rowsUnder header).map (List.map Cell.stored) := by
  simp only [storedForm_eq, Batch.mapCells, Batch.rowsUnder, List.map_map]
  refine List.map_congr_left fun row _ => ?_
  simp only [Function.comp_apply, List.map_map]
  refine List.map_congr_left fun column _ => ?_
  rw [Function.comp_apply, Function.comp_apply, Batch.cell?_map]
  cases Batch.cell? batch.columns row column with
  | none => rfl
  | some cell => exact cell.stored_kept

end Delimited

/-! ## What there is to account for -/

namespace Job

/-- The rows of a file, read in the marks that its metadata name. -/
def rowsOf (job : Job) (world : World) (path : Path) : Outcome Batch := do
  job.medium.readRows world.tree path (← world.metadata path)

/-- The rows at a path.  Where there is no file, there are none. -/
def rowsAt (job : Job) (world : World) (path : Path) (columns : List String) : Outcome Batch :=
  if world.tree.isFile path then job.rowsOf world path else .ok (.empty columns)

/-- The rows of a bucket that are not stored yet: those whose keys, once they are stored, are not keys
of the baseline. -/
inductive Fresh (job : Job) (world : World) (bucket : Bucket) : Batch → Prop
  | all (hoff : job.options.antiJoin.enabled = false) : Fresh job world bucket bucket.rows
  | compared {keys : List String} {files : List Path} {tables : List Batch}
      (hon : job.options.antiJoin.enabled = true)
      (hkeys : job.options.antiJoin.effectiveKeys bucket.rows.columns = .ok keys)
      (hfiles : job.baselineFiles world (job.options.basePath bucket.key) = .ok files)
      (htables : List.Forall₂ (fun file table => job.rowsOf world file = .ok table) files tables) :
      Fresh job world bucket (bucket.rows.unmatched
        (fun row => keyOn keys bucket.rows.columns (row.map Cell.stored))
        (tables.flatMap (keysOn keys)))

/-- An action tells what has become of the rows of a bucket. -/
structure Accounts (job : Job) (world after : World) (bucket : Bucket) (action : Action) : Prop where
  partition : action.partition = bucket.key.text?
  counted : action.rowsWritten + action.rowsDropped = bucket.rows.size
  undropped : job.options.antiJoin.enabled = false → action.rowsDropped = 0
  created : action.created = true ↔
    world.tree.isFile action.path = false ∧ after.tree.isFile action.path = true
  rows : ∃ fresh old, job.Fresh world bucket fresh ∧ action.rowsWritten = fresh.size ∧
    job.rowsAt world action.path bucket.rows.columns = .ok old ∧
    (fresh.isEmpty = false → old.columns.Perm bucket.rows.columns) ∧
    job.rowsAt after action.path bucket.rows.columns = .ok
      ⟨old.columns, old.rows ++ (fresh.rowsUnder old.columns).map (List.map Cell.stored)⟩

/-! ## Reading -/

variable {job : Job}

theorem rowsAt_congr {first second : World} (hfirst : first.ledger = none)
    (hsecond : second.ledger = none) {path : Path}
    (hnode : second.tree.node? path = first.tree.node? path)
    (hmetadata : second.tree.node? (Metadata.path path) = first.tree.node? (Metadata.path path))
    (columns : List String) : job.rowsAt second path columns = job.rowsAt first path columns := by
  have hknown : second.metadata path = first.metadata path := by
    rw [World.metadata, World.metadata, hfirst, hsecond]
    exact World.storedMetadata_congr hmetadata
  have hfile : second.tree.isFile path = first.tree.isFile path := by
    rw [FileTree.isFile, FileTree.isFile, hnode]
  rw [rowsAt, rowsAt, hfile]
  split
  · rename_i hthere
    obtain ⟨content, hcontent⟩ := FileTree.isFile_iff.mp hthere
    simp only [rowsOf, hknown, Medium.readRows_congr hcontent (hnode.trans hcontent)]
  · rfl

theorem exists_tables_of_readAll (hmode : job.mode = .real) {world : World} {files : List Path}
    {result : Option (List Batch) × List Note} (hread : job.readAll world files = .ok result) :
    ∃ tables, result.1 = some tables ∧
      List.Forall₂ (fun file table => job.rowsOf world file = .ok table) files tables := by
  induction files generalizing result with
  | nil =>
    rw [← Except.ok.inj hread]
    exact ⟨[], rfl, .nil⟩
  | cons file rest ih =>
    obtain ⟨metadata, hmetadata, hread⟩ := Outcome.bind_eq_ok_iff.mp hread
    obtain ⟨read, hattempt, hread⟩ := Outcome.bind_eq_ok_iff.mp hread
    obtain ⟨table, htable, rfl⟩ := (attempt_real_eq_ok_iff hmode).mp hattempt
    obtain ⟨others, hothers, hresult⟩ := Outcome.bind_eq_ok_iff.mp hread
    obtain ⟨tables, htables, heach⟩ := ih hothers
    refine ⟨table :: tables, ?_, .cons (Outcome.bind_eq_ok_iff.mpr ⟨metadata, hmetadata, htable⟩)
      heach⟩
    rw [← Except.ok.inj hresult]
    exact congrArg (Option.map (table :: ·)) htables

/-- The base file counts as stored in every scope. -/
theorem mem_baselineFiles {world : World} {base : Path} (hbase : world.tree.isFile base = true)
    {files : List Path} (hfiles : job.baselineFiles world base = .ok files) : base ∈ files := by
  rw [baselineFiles] at hfiles
  split at hfiles
  · rw [if_pos hbase, Except.ok.injEq] at hfiles
    exact hfiles ▸ List.mem_singleton_self _
  · obtain ⟨numbered, -, hmembers⟩ := Outcome.bind_eq_ok_iff.mp hfiles
    rw [if_pos hbase] at hmembers
    rw [← Except.ok.inj hmembers]
    exact List.mem_map.mpr ⟨(0, base), List.mem_mergeSort.mpr (by simp), rfl⟩

/-! ## Rows that are not stored yet -/

variable {dialect : Dialect} {world : World} {bucket : Bucket} {prepared : Prepared}

theorem Fresh.size_le {fresh : Batch} (hfresh : job.Fresh world bucket fresh) :
    fresh.size ≤ bucket.rows.size := by
  cases hfresh with
  | all => exact Nat.le_refl _
  | compared => exact List.length_filter_le _ _

theorem Fresh.eq_of_off {fresh : Batch} (hfresh : job.Fresh world bucket fresh)
    (hoff : job.options.antiJoin.enabled = false) : fresh = bucket.rows := by
  cases hfresh with
  | all => rfl
  | compared hon =>
    rw [hoff] at hon
    cases hon

/-- The rows that survive are the stored forms of those that are not stored yet. -/
theorem exists_fresh_of_prepare (hjob : job.Delimits dialect)
    (hprepared : job.prepare world bucket = .ok prepared) :
    ∃ fresh, job.Fresh world bucket fresh ∧ prepared.survivors = storedForm fresh := by
  obtain ⟨file, found, layout, checked, survivors, antiJoined, compared, -, -, hsurvivors, rfl⟩ :=
    prepare_eq_ok_iff.mp hprepared
  rw [Job.survivors, hjob.medium] at hsurvivors
  dsimp only at hsurvivors ⊢
  split at hsurvivors
  · rename_i hon
    obtain ⟨keys, hkeys, hsurvivors⟩ := Outcome.bind_eq_ok_iff.mp hsurvivors
    obtain ⟨files, hfiles, hsurvivors⟩ := Outcome.bind_eq_ok_iff.mp hsurvivors
    obtain ⟨⟨baseline?, notes⟩, hread, hsurvivors⟩ := Outcome.bind_eq_ok_iff.mp hsurvivors
    obtain ⟨tables, rfl, htables⟩ := exists_tables_of_readAll hjob.mode hread
    obtain ⟨result, happly, hresult⟩ := Outcome.bind_eq_ok_iff.mp hsurvivors
    obtain ⟨same, stored, positions, hsame, hstored, hpositions, rfl⟩ :=
      (AntiJoin.apply_eq_ok_iff hon).mp happly
    obtain rfl := Except.ok.inj (hsame.symm.trans hkeys)
    obtain ⟨hsurvivors, -⟩ := Prod.mk.inj (Prod.mk.inj (Except.ok.inj hresult)).1
    refine ⟨_, .compared hon hkeys hfiles htables, ?_⟩
    rw [← hsurvivors, AntiJoin.unmatched_index hpositions hstored]
    exact Delimited.unmatched_storedForm same bucket.rows _
  · rename_i hoff
    obtain ⟨hsurvivors, -⟩ := Prod.mk.inj (Prod.mk.inj (Except.ok.inj hsurvivors)).1
    exact ⟨_, .all (Bool.eq_false_iff.mpr hoff), hsurvivors.symm⟩

/-! ## One partition -/

section Reading

variable (hmedium : job.medium = .delimited dialect) (hworld : world.tree.WellFormed)
  (hledger : world.ledger = none) {base : Base} {path : Path} {file : String}
  (hlies : path.LiesIn base.place) (hfile : path.location = base.place ++ [file])

include hmedium hworld hledger hlies hfile

/-- The table that a file keeps is read from it. -/
theorem rowsOf_of_keeping (hpath : Reachable path) (hmetadata : Reachable (Metadata.path path))
    {recorded : Dialect} {bytes : Bytes} {table : Batch}
    (hkeeping : base.Keeping world.tree file recorded bytes table) :
    job.rowsOf world path = .ok table := by
  have hbytes := FileTree.readBytes_of_node?
    ((FileTree.node?_eq_file_iff hworld hlies.1).mpr ⟨hpath, hfile ▸ hkeeping.data⟩)
  have hbeside := hlies.metadata_location hfile
  have hnode := (FileTree.node?_eq_file_iff hworld (Path.liesIn_metadata hlies).1).mpr
    ⟨hmetadata, hbeside ▸ hkeeping.metadata⟩
  have hparsed : Metadata.ofText? (metadataOf recorded).toText = some (metadataOf recorded) :=
    Metadata.ofText?_toText _
  refine Outcome.bind_eq_ok_iff.mpr ⟨_, World.metadata_of_node? hledger hnode, ?_⟩
  rw [hmedium, hparsed]
  exact hkeeping.keeps.readRows_eq hbytes (Delimited.storedDialect_recorded hkeeping.valid)

theorem rowsAt_of_keeping (hpath : Reachable path) (hmetadata : Reachable (Metadata.path path))
    {recorded : Dialect} {bytes : Bytes} {table : Batch}
    (hkeeping : base.Keeping world.tree file recorded bytes table) (columns : List String) :
    job.rowsAt world path columns = .ok table := by
  have hthere : world.tree.isFile path = true :=
    (FileTree.isFile_iff_get? hworld hlies.1).mpr ⟨hpath, _, hfile ▸ hkeeping.data⟩
  rw [rowsAt, if_pos hthere]
  exact rowsOf_of_keeping hmedium hworld hledger hlies hfile hpath hmetadata hkeeping

end Reading

section Accounting

variable (hjob : job.Delimits dialect) {name : String}
  (hname : job.options.target.fileName? = some name) (htarget : job.options.target.Descends)
  (hintact : world.Intact job.options.target hname htarget) (hbucket : bucket.rows.Storable)
  (hprepared : job.prepare world bucket = .ok prepared)

include hname htarget hintact hprepared

/-- A prepared file is taken to be there exactly if it is. -/
theorem present_eq_isFile : prepared.present = world.tree.isFile prepared.path := by
  rw [Bool.eq_iff_iff, FileTree.isFile_iff]
  exact ⟨(prepare_spec hname htarget hintact.wellFormed hprepared).2.2,
    fun ⟨content, hnode⟩ => present_of_node? hprepared hnode⟩

include hjob

/-- Rows are read from a file to which none come: the base file has been compared, and a sibling can
receive rows. -/
theorem exists_rowsAt_of_idle (hrows : bucket.rows.isEmpty = false)
    (hidle : prepared.survivors.isEmpty = true) :
    ∃ old, job.rowsAt world prepared.path bucket.rows.columns = .ok old := by
  have hpresent := present_eq_isFile hname htarget hintact hprepared
  cases hthere : world.tree.isFile prepared.path with
  | false => exact ⟨_, if_neg (by rw [hthere]; exact Bool.false_ne_true)⟩
  | true =>
    rw [hthere] at hpresent
    let base := job.options.family hname htarget bucket.key
    have hlies : prepared.path.LiesIn base.place :=
      (prepare_spec hname htarget hintact.wellFormed hprepared).2.1
    obtain ⟨file, hkin, hfile, hfinds⟩ :=
      exists_finds_of_prepare hname htarget hprepared
    replace hfile : prepared.path.location = base.place ++ [file] := hfile
    cases hfinds with
    | base hpath =>
      rw [hpath] at hthere ⊢
      rw [rowsAt, if_pos hthere]
      obtain ⟨fresh, hfresh, hsurvivors⟩ := exists_fresh_of_prepare hjob hprepared
      cases hfresh with
      | all =>
        have hempty := job.medium.isEmpty_storedForm bucket.rows
        rw [hjob.medium] at hempty
        rw [hsurvivors] at hidle
        exact absurd (hempty.symm.trans hidle) (by rw [hrows]; exact Bool.false_ne_true)
      | compared hon hkeys hfiles htables =>
        obtain ⟨table, -, htable⟩ := Outcome.exists_of_forall₂ htables.flip
          (mem_baselineFiles hthere hfiles)
        exact ⟨table, htable⟩
    | sibling hother hmetadata =>
      obtain ⟨hreachable, hbeside⟩ := get?_of_isFile_metadata hintact.wellFormed hlies hfile hmetadata
      obtain ⟨recorded, old, table, hkeeping, hnode⟩ := exists_keeping hintact.wellFormed hprepared
        hlies hfile (hintact.intact bucket.key _ hkin) hpresent ((if_neg hother).mpr hbeside)
      exact ⟨table, rowsAt_of_keeping hjob.medium hintact.wellFormed hintact.ledger hlies hfile
        ((FileTree.node?_eq_file_iff hintact.wellFormed hlies.1).mp hnode).1 hreachable hkeeping _⟩
    | fresh hother habsent =>
      rw [habsent] at hpresent
      cases hpresent

include hbucket

/-- Rows that are written come after those that the file had. -/
theorem exists_rowsAt_of_rows (hrows : prepared.survivors.isEmpty = false) {action : Action}
    {left : World} (hcommit : run (prepared.commit job) world = (.ok action, left)) :
    ∃ old, job.rowsAt world prepared.path bucket.rows.columns = .ok old ∧
      old.columns.Perm bucket.rows.columns ∧
        job.rowsAt left prepared.path bucket.rows.columns = .ok ⟨old.columns, old.rows ++
          (prepared.survivors.rowsUnder old.columns).map (List.map Cell.stored)⟩ := by
  have hpresent := present_eq_isFile hname htarget hintact hprepared
  have hsurvivors := storable_survivors hjob hbucket hprepared
  have hcolumns := (fits_of_prepare hjob.mode hprepared).1
  let base := job.options.family hname htarget bucket.key
  obtain ⟨hkey, hlies, -⟩ := prepare_spec hname htarget hintact.wellFormed hprepared
  obtain ⟨file, hkin, hfile, hfinds⟩ :=
    exists_finds_of_prepare hname htarget hprepared
  have hplace : job.options.place prepared.key = base.place := by rw [hkey]; rfl
  rw [← hkey] at hlies hfile
  have hleft := intact_of_process hjob hname htarget hintact hbucket
  rw [process_eq_ok_iff.mpr ⟨prepared, hprepared, hcommit⟩] at hleft
  have hadmits := Prepared.admits_of_commit hlies hname htarget hintact.wellFormed hintact.ledger
    hrows hcommit
  obtain ⟨content, metadata, hwritten⟩ := Prepared.exists_written_of_commit hname htarget
    hintact.wellFormed hlies hintact.ledger hrows hcommit hfile
  obtain ⟨tree, hmade, hstores⟩ := hwritten.stores
  have hdata := hwritten.data
  have hbeside := hwritten.metadata
  rw [hplace] at hlies hfile hdata hbeside
  have hcontinues := continues_of_admits hintact.wellFormed hlies hfile hfinds hadmits
  obtain ⟨rfl, bytes, table, rfl, hkeeps, hadds⟩ := exists_adds_of_stores hjob hintact.wellFormed
    hintact.ledger hbucket hprepared hplace hlies hfile (hintact.intact bucket.key file hkin)
    hcontinues hmade hstores
  have hlast : job.rowsAt left prepared.path bucket.rows.columns = .ok table :=
    @rowsAt_of_keeping job dialect left hjob.medium hleft.wellFormed hleft.ledger base _ _ hlies hfile
      hwritten.reachable.1 hwritten.reachable.2 _ _ _ ⟨hjob.valid, hdata, hkeeps, hbeside⟩ _
  cases hadds with
  | new habsent =>
    refine ⟨.empty bucket.rows.columns, if_neg ?_, .refl _, ?_⟩
    · rw [← hpresent, habsent]
      exact Bool.false_ne_true
    · rw [hlast, ← Batch.rowsUnder_self hsurvivors.wellFormed, hcolumns]
      rfl
  | @more old before hthere hkeeping hperm =>
    obtain ⟨content, hnode⟩ := FileTree.isFile_iff.mp (hpresent.symm.trans hthere)
    refine ⟨before, rowsAt_of_keeping hjob.medium hintact.wellFormed hintact.ledger hlies hfile
      ((FileTree.node?_eq_file_iff hintact.wellFormed hlies.1).mp hnode).1 (hcontinues hthere).2
      hkeeping _, hcolumns ▸ hperm, hlast⟩

/-- Whether or not there are rows to be written, the file has those afterwards that it had before, and
then the surviving ones. -/
theorem exists_rowsAt_of_commit (hrows : bucket.rows.isEmpty = false) {action : Action} {left : World}
    (hcommit : run (prepared.commit job) world = (.ok action, left)) :
    ∃ old, job.rowsAt world prepared.path bucket.rows.columns = .ok old ∧
      (prepared.survivors.isEmpty = false → old.columns.Perm bucket.rows.columns) ∧
        job.rowsAt left prepared.path bucket.rows.columns = .ok ⟨old.columns, old.rows ++
          (prepared.survivors.rowsUnder old.columns).map (List.map Cell.stored)⟩ := by
  cases hidle : prepared.survivors.isEmpty with
  | true =>
    obtain ⟨old, hold⟩ := exists_rowsAt_of_idle hjob hname htarget hintact hprepared hrows hidle
    rw [Prepared.run_commit_of_isEmpty hidle, Prod.mk.injEq] at hcommit
    have hnone : prepared.survivors.rows = [] := List.isEmpty_iff.mp hidle
    refine ⟨old, hold, fun hsome => Bool.noConfusion hsome, ?_⟩
    rw [← hcommit.2, hold, Batch.rowsUnder, hnone, List.map_nil, List.map_nil, List.append_nil]
  | false =>
    obtain ⟨old, hold, hperm, hlast⟩ := exists_rowsAt_of_rows hjob hname htarget hintact hbucket
      hprepared hidle hcommit
    exact ⟨old, hold, fun _ => hperm, hlast⟩

omit hjob hbucket in
/-- A file is created exactly if there was none and then there is one. -/
theorem creates_iff_of_commit {action : Action} {left : World}
    (hcommit : run (prepared.commit job) world = (.ok action, left)) (hleft : left.tree.WellFormed) :
    prepared.creates = true ↔
      world.tree.isFile prepared.path = false ∧ left.tree.isFile prepared.path = true := by
  rw [Prepared.creates, present_eq_isFile hname htarget hintact hprepared, Bool.and_eq_true,
    Bool.not_eq_true', Bool.not_eq_true']
  refine and_congr_right fun habsent => ?_
  cases hidle : prepared.survivors.isEmpty with
  | true =>
    rw [Prepared.run_commit_of_isEmpty hidle, Prod.mk.injEq] at hcommit
    rw [← hcommit.2, habsent]
    exact iff_of_false (by decide) (by decide)
  | false =>
    obtain ⟨hkey, hlies, -⟩ := prepare_spec hname htarget hintact.wellFormed hprepared
    obtain ⟨file, -, hfile⟩ := hlies.2
    rw [← hkey] at hlies hfile
    obtain ⟨content, metadata, hwritten⟩ := Prepared.exists_written_of_commit hname htarget
      hintact.wellFormed hlies hintact.ledger hidle hcommit hfile
    exact ⟨fun _ => (FileTree.isFile_iff_get? hleft hlies.1).mpr
      ⟨hwritten.reachable.1, content, hfile ▸ hwritten.data⟩, fun _ => rfl⟩

omit hprepared

/-- The action of a partition accounts for its bucket, as far as the partition's own directory tells. -/
theorem accounts_of_alone {after left : World} (hrows : bucket.rows.isEmpty = false)
    (halone : job.WrittenAlone world after bucket prepared left) (hafter : after.tree.WellFormed)
    (hledger : after.ledger = none) : job.Accounts world after bucket prepared.action := by
  have hprepared := halone.prepare
  have hleft := intact_of_process hjob hname htarget hintact hbucket
  rw [process_eq_ok_iff.mpr ⟨prepared, hprepared, halone.commit⟩] at hleft
  have hnode : after.tree.node? prepared.path = left.tree.node? prepared.path :=
    halone.agree.node?_eq hleft.wellFormed hafter halone.liesIn
  have hsame := @rowsAt_congr job left after hleft.ledger hledger prepared.path hnode
    (halone.agree.node?_eq hleft.wellFormed hafter (Path.liesIn_metadata halone.liesIn))
  obtain ⟨fresh, hfresh, hsurvivors⟩ := exists_fresh_of_prepare hjob hprepared
  have hsize : prepared.survivors.size = fresh.size := by
    rw [hsurvivors, Delimited.size_storedForm]
  have hcandidates : prepared.candidateRows = bucket.rows.size := by
    obtain ⟨file, found, layout, checked, survivors, antiJoined, compared, -, -, -, rfl⟩ :=
      prepare_eq_ok_iff.mp hprepared
    rfl
  have hle := hfresh.size_le
  constructor
  · exact congrArg PartitionKey.text? halone.key
  · change prepared.survivors.size + (prepared.candidateRows - prepared.survivors.size) = _
    omega
  · intro hoff
    change prepared.candidateRows - prepared.survivors.size = 0
    rw [hfresh.eq_of_off hoff] at hsize
    omega
  · have hcreates := creates_iff_of_commit hname htarget hintact hprepared halone.commit
      hleft.wellFormed
    rwa [FileTree.isFile, FileTree.isFile, ← hnode] at hcreates
  · obtain ⟨old, hold, hperm, hlast⟩ := exists_rowsAt_of_commit hjob hname htarget hintact hbucket
      hprepared hrows halone.commit
    rw [← hsame, hsurvivors, Delimited.rowsUnder_storedForm] at hlast
    have hempty : (storedForm fresh).isEmpty = fresh.isEmpty :=
      (Medium.delimited dialect).isEmpty_storedForm fresh
    rw [hsurvivors, hempty] at hperm
    exact ⟨fresh, old, hfresh, hsize, hold, hperm, hlast⟩

end Accounting

end Job

/-! ## All partitions -/

theorem Report.rowsWritten_eq_sum (report : Report) :
    report.rowsWritten = (report.actions.map Action.rowsWritten).sum := by
  have hfold : ∀ (actions : List Action) (total : ℕ), actions.foldl
      (fun total action => total + action.rowsWritten) total =
        total + (actions.map Action.rowsWritten).sum := by
    intro actions
    induction actions with
    | nil => simp
    | cons action rest ih =>
      intro total
      rw [List.foldl_cons, ih, List.map_cons, List.sum_cons, Nat.add_assoc]
  rw [rowsWritten, hfold, Nat.zero_add]

/-- Each row of the buckets is written or dropped. -/
theorem Job.sum_counted {job : Job} {world after : World} {buckets : List Bucket}
    {actions : List Action} (haccounts : List.Forall₂ (job.Accounts world after) buckets actions) :
    (actions.map Action.rowsWritten).sum + (actions.map Action.rowsDropped).sum =
      (buckets.map fun bucket => bucket.rows.size).sum := by
  induction haccounts with
  | nil => rfl
  | cons hfirst _ ih =>
    simp only [List.map_cons, List.sum_cons]
    have hcounted := hfirst.counted
    omega

namespace Appender

variable {appender : Appender} {options : Options} {batch : Batch} {world after : World}
  {report : Report} {dialect : Dialect}

theorem accounts_of_append (hformat : options.effectiveFormat = .ok (.delimited dialect))
    (hbatch : batch.Storable) {name : String} (hname : options.target.fileName? = some name)
    (htarget : options.target.Descends) (hintact : world.Intact options.target hname htarget)
    (hrun : run (appender.append options batch) world = (.ok report, after)) :
    ∃ buckets, options.routing.buckets batch = .ok buckets ∧
      List.Forall₂ ((appender.job options (.delimited dialect) .real).Accounts world after) buckets
        report.actions := by
  have hafter : (run (appender.append options batch) world).2.Intact options.target hname htarget :=
    intact_of_append hname htarget hbatch hformat hintact
  rw [hrun] at hafter
  obtain ⟨format, hvalid, hsame, -⟩ := append_eq_ok_iff.mp hrun
  obtain ⟨hmarks, hrouting⟩ := validated_of_validate hvalid hformat
  have hjob : (appender.job options (.delimited dialect) .real).Delimits dialect :=
    ⟨rfl, rfl, hmarks⟩
  rcases divides_of_append hintact.wellFormed htarget hrun with ⟨hempty, rfl, rfl⟩ |
    ⟨format, buckets, hdivides⟩
  · have hnone : batch.rows = [] := List.isEmpty_iff.mp hempty
    refine ⟨[], Routing.buckets_eq_ok_iff.mpr ⟨hrouting, [], ?_, rfl⟩, .nil⟩
    rw [hnone]
    exact .nil
  · obtain rfl : format = .delimited dialect :=
      Except.ok.inj (hdivides.reaches.format.symm.trans hformat)
    refine ⟨buckets, hdivides.reaches.routed, ?_⟩
    have heach := (List.forall₂_and_left buckets report.actions).mpr
      ⟨fun bucket (hbucket : bucket ∈ buckets) => hbucket, hdivides.each⟩
    refine heach.imp ?_
    rintro bucket action ⟨hbucket, prepared, left, halone, rfl⟩
    have hrows : bucket.rows.isEmpty = false :=
      List.isEmpty_eq_false_iff.mpr (Routing.mem_bucket hdivides.reaches.routed hbucket).2.1
    exact @Job.accounts_of_alone (appender.job options (.delimited dialect) .real) dialect world
      bucket prepared hjob name hname htarget hintact
      (Routing.storable_bucket hbatch hdivides.reaches.routed hbucket) after left hrows halone
      hafter.wellFormed hafter.ledger

/-- After any appends to a delimited target, an append that succeeds loses no row and reports what it has
done: each bucket has its action, in order; all rows are written or dropped; and the file of a bucket
has the rows that it had before and then those of the bucket that are not stored yet. -/
theorem append_accounts_for_rows (appender : Appender) (options : Options) (batch : Batch)
    (world : World) (happended : World.Appended options.target world)
    (htarget : options.target.Descends) (dialect : Dialect)
    (hformat : options.effectiveFormat = .ok (.delimited dialect)) (hbatch : batch.Storable)
    (report : Report) (after : World)
    (hrun : run (appender.append options batch) world = (.ok report, after)) :
    ∃ buckets, options.routing.buckets batch = .ok buckets ∧
      List.Forall₂ ((appender.job options (.delimited dialect) .real).Accounts world after) buckets
        report.actions ∧
      report.rowsWritten + (report.actions.map Action.rowsDropped).sum = batch.size := by
  obtain ⟨format, hvalid, -⟩ := append_eq_ok_iff.mp hrun
  obtain ⟨name, hname⟩ := exists_fileName?_of_validate hvalid
  obtain ⟨buckets, hbuckets, haccounts⟩ := accounts_of_append hformat hbatch hname htarget
    (happended.intact hname htarget) hrun
  refine ⟨buckets, hbuckets, haccounts, ?_⟩
  rw [Report.rowsWritten_eq_sum, Job.sum_counted haccounts, Routing.sum_size_buckets hbuckets]

/-- A partition with one row that is stored already and one that is not, and a new partition. -/
theorem append_accounts_for_rows_of_two_partitions :
    let appender : Appender := ⟨none, 200⟩
    let options : Options := { Options.ofTarget ⟨"rows.csv"⟩ with
      antiJoin := .onKeys ["id"], routing := .byColumn "kind" }
    let first : Batch := ⟨["id", "kind"], [[.int 1, .text "a"]]⟩
    let batch : Batch := ⟨["kind", "id"],
      [[.text "a", .int 1], [.text "b", .int 1], [.text "a", .int 2]]⟩
    let world := (run (appender.append options first) ⟨.empty, none⟩).2
    World.Appended options.target world ∧ ∃ report after buckets,
      run (appender.append options batch) world = (.ok report, after) ∧
      options.routing.buckets batch = .ok buckets ∧
      List.Forall₂ ((appender.job options (.delimited .commaSeparated) .real).Accounts world after)
        buckets report.actions ∧
      report.rowsWritten + (report.actions.map Action.rowsDropped).sum = batch.size := by
  intro appender options first batch world
  have hformat : options.effectiveFormat = .ok (.delimited .commaSeparated) := by decide +kernel
  have hfirst : first.Storable := ⟨⟨by decide, by decide⟩, by decide, by decide⟩
  have hbatch : batch.Storable := ⟨⟨by decide, by decide⟩, by decide, by decide⟩
  have happended : World.Appended options.target world := .next .start appender rfl hformat hfirst
  have hsucceeds : (run (appender.append options batch) world).1.toOption.isSome = true := by
    decide +kernel
  obtain ⟨report, after, hrun⟩ : ∃ report after, run (appender.append options batch) world =
      (.ok report, after) := by
    rcases hrun : run (appender.append options batch) world with ⟨failure | report, after⟩
    · rw [hrun] at hsucceeds
      cases hsucceeds
    · exact ⟨report, after, rfl⟩
  obtain ⟨buckets, hbuckets, haccounts, htotal⟩ := append_accounts_for_rows appender options batch
    world happended (by decide) .commaSeparated hformat hbatch _ after hrun
  exact ⟨happended, report, after, buckets, hrun, hbuckets, haccounts, htotal⟩

end Appender

end TableAppend
