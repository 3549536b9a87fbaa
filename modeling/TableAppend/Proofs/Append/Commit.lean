import TableAppend.Append.Report
import TableAppend.Proofs.Append.Preparation
import TableAppend.Proofs.Family.Members
import TableAppend.Proofs.World.MediumWriting

/-!
# Writing what has been prepared

The partitions of a batch are written one after the other, each confined to its own directory, so a
later one is prepared as if the earlier ones had not been written.
-/

namespace TableAppend

open Change (run run_bind_eq_ok_iff run_pure_eq_ok_iff run_inspect_eq_ok_iff)
open TableAppend.Path (LiesIn)
open World (Confined)

/-! ## One partition -/

theorem Change.run_makeDirectories (path : Path) (world : World) :
    run (Change.makeDirectories path) world =
      ((world.tree.makeDirectories path).1.mapError .io,
        { world with tree := (world.tree.makeDirectories path).2 }) := by
  rcases hmade : world.tree.makeDirectories path with ⟨fault | ⟨⟩, tree⟩ <;>
    simp [run, Change.makeDirectories, hmade, ExceptT.run, ExceptT.mk, StateT.run,
      Except.mapError]

theorem Change.run_makeDirectories_eq_ok_iff {path : Path} {world after : World} {value : Unit} :
    run (Change.makeDirectories path) world = (.ok value, after) ↔
      ∃ tree, world.tree.makeDirectories path = (.ok (), tree) ∧ after = { world with tree } := by
  rw [run_makeDirectories]
  rcases world.tree.makeDirectories path with ⟨fault | ⟨⟩, tree⟩
  · simp [Except.mapError]
  · simp [eq_comm, Except.mapError]

namespace Prepared

variable {prepared : Prepared} {job : Job} {world after : World} {action : Action}

theorem run_commit_of_isEmpty (hempty : prepared.survivors.isEmpty = true) (world : World) :
    run (prepared.commit job) world = (.ok prepared.action, world) := by
  rw [commit, hempty]
  rfl

theorem commit_of_rows (hrows : prepared.survivors.isEmpty = false) :
    prepared.commit job = (do
      Change.makeDirectories (job.options.directoryOf prepared.key)
      let metadata ← job.medium.write prepared.path prepared.survivors prepared.layout
      World.recordMetadata prepared.path metadata
      return prepared.action) := by
  rw [commit, hrows]
  rfl

theorem commit_eq_ok_iff (hrows : prepared.survivors.isEmpty = false) :
    run (prepared.commit job) world = (.ok action, after) ↔
      ∃ tree metadata written,
        world.tree.makeDirectories (job.options.directoryOf prepared.key) = (.ok (), tree) ∧
        run (job.medium.write prepared.path prepared.survivors prepared.layout)
          { world with tree } = (.ok metadata, written) ∧
        run (World.recordMetadata prepared.path metadata) written = (.ok (), after) ∧
        action = prepared.action := by
  rw [commit_of_rows hrows]
  constructor
  · intro hrun
    obtain ⟨⟨⟩, made, hmade, hrest⟩ := run_bind_eq_ok_iff.mp hrun
    obtain ⟨tree, htree, rfl⟩ := Change.run_makeDirectories_eq_ok_iff.mp hmade
    obtain ⟨metadata, written, hwritten, hlast⟩ := run_bind_eq_ok_iff.mp hrest
    obtain ⟨⟨⟩, recorded, hrecorded, hresult⟩ := run_bind_eq_ok_iff.mp hlast
    obtain ⟨rfl, rfl⟩ := run_pure_eq_ok_iff.mp hresult
    exact ⟨tree, metadata, written, htree, hwritten, hrecorded, rfl⟩
  · rintro ⟨tree, metadata, written, htree, hwritten, hrecorded, rfl⟩
    refine run_bind_eq_ok_iff.mpr ⟨(), { world with tree },
      Change.run_makeDirectories_eq_ok_iff.mpr ⟨tree, htree, rfl⟩, ?_⟩
    exact run_bind_eq_ok_iff.mpr ⟨metadata, written, hwritten,
      run_bind_eq_ok_iff.mpr ⟨(), after, hrecorded, run_pure_eq_ok_iff.mpr ⟨rfl, rfl⟩⟩⟩

theorem action_of_commit (hrun : run (prepared.commit job) world = (.ok action, after)) :
    action = prepared.action := by
  cases hrows : prepared.survivors.isEmpty with
  | true =>
    rw [run_commit_of_isEmpty hrows, Prod.mk.injEq, Except.ok.injEq] at hrun
    exact hrun.1.symm
  | false =>
    obtain ⟨-, -, -, -, -, -, haction⟩ := (commit_eq_ok_iff hrows).mp hrun
    exact haction

variable {name : String} (hname : job.options.target.fileName? = some name)
  (htarget : job.options.target.Descends) (hworld : world.tree.WellFormed)

include hname htarget hworld

theorem directoryMade_of_commit {tree : FileTree} {key : PartitionKey}
    (hmade : world.tree.makeDirectories (job.options.directoryOf key) = (.ok (), tree)) :
    FileTree.DirectoryMade world.tree tree (job.options.place key) ∧
      FileTree.IsUsable (job.options.directoryOf key) := by
  have hdescends := Options.descends_directoryOf hname htarget key
  exact FileTree.directoryMade_of_makeDirectories hworld hdescends
    (Options.trimmed_directoryOf hname key).2 hmade

/-- Writing a partition changes only what lies in its directory. -/
theorem confined_of_commit (hpath : prepared.path.LiesIn (job.options.place prepared.key))
    (hrun : run (prepared.commit job) world = (.ok action, after)) :
    Confined (job.options.place prepared.key) world after := by
  cases hrows : prepared.survivors.isEmpty with
  | true =>
    rw [run_commit_of_isEmpty hrows, Prod.mk.injEq] at hrun
    exact hrun.2 ▸ Confined.refl hworld
  | false =>
    obtain ⟨tree, metadata, written, hmade, hwritten, hrecorded, -⟩ :=
      (commit_eq_ok_iff hrows).mp hrun
    have hdirectory :=
      World.confined_of_directoryMade (directoryMade_of_commit hname htarget hworld hmade).1
    have hwrite := Medium.confined_of_write hdirectory.wellFormed hpath hwritten
    have hrecord := World.confined_of_recordMetadata hwrite.wellFormed hpath hrecorded
    exact (hdirectory.trans hwrite).trans hrecord

end Prepared

/-- The rows of a partition are in place, and nothing has become of their metadata yet. -/
structure Prepared.Placed (prepared : Prepared) (job : Job) (before tree data : FileTree)
    (content : Content) (metadata : Metadata) : Prop where
  made : FileTree.DirectoryMade before tree (job.options.place prepared.key)
  stores : job.medium.Stores tree prepared.path prepared.survivors prepared.layout content metadata
  admits : tree.Admits prepared.path
  put : FileTree.FilePut tree data prepared.path.location content
    ((job.medium.scratch prepared.path).map Path.location)

namespace Prepared

section Placed

variable {prepared : Prepared} {job : Job} {before tree data : FileTree} {content : Content}
  {metadata : Metadata} (hplaced : prepared.Placed job before tree data content metadata)

include hplaced

theorem Placed.reachable : FileTree.Reachable prepared.path :=
  ⟨hplaced.admits.usable, hplaced.admits.endsInName⟩

theorem Placed.get?_data : data.get? prepared.path.location = some (.file content) := by
  rw [hplaced.put.get?_eq, if_pos rfl]

theorem Placed.get?_other {other : Location} (hother : other ≠ prepared.path.location)
    (htemporary : other ≠ (prepared.path.besides Metadata.temporaryEnding).location) :
    data.get? other = if other <+: job.options.place prepared.key then some .directory
      else before.get? other := by
  rw [hplaced.put.get?_eq, if_neg hother,
    if_neg fun hmem => htemporary (Medium.location_of_mem_scratch hmem), hplaced.made.get?_eq]

theorem Placed.isDirectoryAt : data.isDirectoryAt (job.options.place prepared.key) = true :=
  (hplaced.put.isDirectoryAt_eq _).trans hplaced.made.isDirectoryAt

end Placed

variable {prepared : Prepared} {job : Job} {world after : World} {action : Action} {name : String}
  (hname : job.options.target.fileName? = some name)
  (htarget : job.options.target.Descends) (hworld : world.tree.WellFormed)
  (hpath : prepared.path.LiesIn (job.options.place prepared.key))

include hname htarget hworld hpath

/-- Rows that have been written in the directory that was made for them are in place. -/
theorem exists_placed_of_written {tree : FileTree} {metadata : Metadata} {written : World}
    (hmakes : world.tree.makeDirectories (job.options.directoryOf prepared.key) = (.ok (), tree))
    (hwritten : run (job.medium.write prepared.path prepared.survivors prepared.layout)
      { world with tree } = (.ok metadata, written)) :
    ∃ data content, prepared.Placed job world.tree tree data content metadata ∧
      written = { world with tree := data } := by
  have hmade := (directoryMade_of_commit hname htarget hworld hmakes).1
  obtain ⟨data, content, hstores, hadmits, -, hput, rfl⟩ := @Medium.filePut_of_write
    { world with tree } _ _ _ _ _ _ hmade.wellFormed hpath _ hwritten
  exact ⟨data, content, ⟨hmade, hstores, hadmits, hput⟩, rfl⟩

/-- A partition with rows is written by putting them in place and recording their metadata. -/
theorem exists_placed_of_commit (hrows : prepared.survivors.isEmpty = false)
    (hrun : run (prepared.commit job) world = (.ok action, after)) :
    ∃ tree data content metadata, prepared.Placed job world.tree tree data content metadata ∧
      run (World.recordMetadata prepared.path metadata) { world with tree := data } =
        (.ok (), after) := by
  obtain ⟨tree, metadata, written, hmakes, hwritten, hrecorded, -⟩ := (commit_eq_ok_iff hrows).mp hrun
  obtain ⟨data, content, hplaced, rfl⟩ :=
    exists_placed_of_written hname htarget hworld hpath hmakes hwritten
  exact ⟨tree, data, content, metadata, hplaced, hrecorded⟩

end Prepared

/-- What a partition's directory holds after rows have been written to one of its files: the file and
its metadata file are new, temporary files are gone, and all else is as before. -/
structure Prepared.Written (prepared : Prepared) (job : Job) (before after : World) (file : String)
    (content : Content) (metadata : Metadata) : Prop where
  ledger : after.ledger = none
  reachable : FileTree.Reachable prepared.path ∧ FileTree.Reachable (Metadata.path prepared.path)
  stores : ∃ tree, FileTree.DirectoryMade before.tree tree (job.options.place prepared.key) ∧
    job.medium.Stores tree prepared.path prepared.survivors prepared.layout content metadata
  data : after.tree.get? (job.options.place prepared.key ++ [file]) = some (.file content)
  metadata : after.tree.get? (job.options.place prepared.key ++ [file ++ Metadata.ending]) =
    some (.file (.bytes (Utf8.encode metadata.toText)))
  temporaries : ∀ ending ∈ ["", Metadata.ending],
    before.tree.get? (job.options.place prepared.key ++
        [file ++ ending ++ Metadata.temporaryEnding]) = none →
      after.tree.get? (job.options.place prepared.key ++
        [file ++ ending ++ Metadata.temporaryEnding]) = none
  others : ∀ other, (∀ ending ∈ Family.endings, other ≠ file ++ ending) →
    after.tree.get? (job.options.place prepared.key ++ [other]) =
      before.tree.get? (job.options.place prepared.key ++ [other])

/-- The nodes of a directory in which rows and then their metadata have been put. -/
theorem FileTree.get?_of_filePuts {before tree data after : FileTree} {path : Path} {place : Location}
    {content recorded : Content} {gone : List Location} (hmade : DirectoryMade before tree place)
    (hput : FilePut tree data path.location content gone)
    (hlast : FilePut data after (Metadata.path path).location recorded
      [((Metadata.path path).besides Metadata.temporaryEnding).location])
    (hpath : path.LiesIn place) {file : String} (hfile : path.location = place ++ [file])
    (other : String) : after.get? (place ++ [other]) =
      if other = file ++ Metadata.ending then some (.file recorded)
      else if other = file ++ (Metadata.ending ++ Metadata.temporaryEnding) then none
      else if other = file then some (.file content)
      else if place ++ [other] ∈ gone then none
      else before.get? (place ++ [other]) := by
  have hbelow : ¬ place ++ [other] <+: place := by
    intro hupper
    simpa using hupper.length_le
  rw [hlast.get?_eq, hput.get?_eq, hmade.get?_eq, if_neg hbelow, hpath.metadata_location hfile,
    hpath.metadata_temporary_location hfile, hfile]
  simp only [List.append_cancel_left_eq, List.cons.injEq, and_true, List.mem_singleton]

namespace Prepared

variable {prepared : Prepared} {job : Job} {world after : World} {action : Action} {name : String}
  (hname : job.options.target.fileName? = some name)
  (htarget : job.options.target.Descends) (hworld : world.tree.WellFormed)

include hname htarget hworld

theorem exists_written_of_commit (hpath : prepared.path.LiesIn (job.options.place prepared.key))
    (hledger : world.ledger = none) (hrows : prepared.survivors.isEmpty = false)
    (hrun : run (prepared.commit job) world = (.ok action, after)) {file : String}
    (hfile : prepared.path.location = job.options.place prepared.key ++ [file]) :
    ∃ content metadata, prepared.Written job world after file content metadata := by
  obtain ⟨tree, data, content, metadata, hplaced, hrecorded⟩ :=
    exists_placed_of_commit hname htarget hworld hpath hrows hrun
  obtain ⟨-, hadmits, last, hlast, rfl⟩ := @World.exists_filePut_of_recordMetadata _
    { world with tree := data } hledger _ hplaced.put.wellFormed _ hpath _ hrecorded
  have hget := FileTree.get?_of_filePuts hplaced.made hplaced.put hlast hpath hfile
  have hne : ∀ ending : String, ending ≠ "" → file ≠ file ++ ending :=
    fun ending hending hsame => hending (String.append_eq_left_iff.mp hsame.symm)
  refine ⟨content, metadata, hledger, ⟨hplaced.reachable, hadmits.usable, hadmits.endsInName⟩,
    ⟨tree, hplaced.made, hplaced.stores⟩, ?_, ?_, ?_, ?_⟩
  · rw [hget, if_neg (hne _ (by decide)), if_neg (hne _ (by decide)), if_pos rfl]
  · rw [hget, if_pos rfl]
  · intro ending hending hnone
    rw [String.append_assoc] at hnone ⊢
    simp only [List.mem_cons, List.not_mem_nil, or_false] at hending
    rcases hending with rfl | rfl
    · rw [hget, if_neg (mt (String.append_right_inj file).mp (by decide)),
        if_neg (mt (String.append_right_inj file).mp (by decide)),
        if_neg (Ne.symm (hne _ (by decide))), hnone, ite_self]
    · rw [hget, if_neg (mt (String.append_right_inj file).mp (by decide)), if_pos rfl]
  · intro other hother
    have hfileNe := hother "" (by decide)
    rw [String.append_empty] at hfileNe
    rw [hget, if_neg (hother _ (by decide)), if_neg (hother _ (by decide)), if_neg hfileNe, if_neg]
    intro hmem
    have hsame := List.append_cancel_left
      ((Medium.location_of_mem_scratch hmem).trans (hpath.temporary_location hfile))
    exact hother _ (by decide) (List.cons.inj hsame).1

end Prepared

namespace Job

variable {job : Job} {world after : World} {name : String}
  (hname : job.options.target.fileName? = some name) (htarget : job.options.target.Descends)
  (hworld : world.tree.WellFormed)

include hname htarget hworld

theorem prepare_spec {bucket : Bucket} {prepared : Prepared}
    (hprepared : job.prepare world bucket = .ok prepared) :
    prepared.key = bucket.key ∧ prepared.path.LiesIn (job.options.place bucket.key) ∧
      (prepared.present = true → ∃ content, world.tree.node? prepared.path = some (.file content)) := by
  obtain ⟨file, found, layout, checked, survivors, antiJoined, compared, hlocate, -, -, rfl⟩ :=
    prepare_eq_ok_iff.mp hprepared
  have hbase := Options.basePath_liesIn hname htarget bucket.key
  exact ⟨rfl, locate_spec hworld hbase hlocate⟩

omit hname htarget hworld in
theorem process_eq_ok_iff {bucket : Bucket} {action : Action} :
    run (job.process bucket) world = (.ok action, after) ↔
      ∃ prepared, job.prepare world bucket = .ok prepared ∧
        run (prepared.commit job) world = (.ok action, after) := by
  rw [process, run_bind_eq_ok_iff]
  constructor
  · rintro ⟨prepared, between, hprepared, hcommit⟩
    obtain ⟨hprepared, rfl⟩ := run_inspect_eq_ok_iff.mp hprepared
    exact ⟨prepared, hprepared, hcommit⟩
  · rintro ⟨prepared, hprepared, hcommit⟩
    exact ⟨prepared, world, run_inspect_eq_ok_iff.mpr ⟨hprepared, rfl⟩, hcommit⟩

omit hname htarget hworld in
/-- What is prepared can be told by its parts, and so can the world that its writing leaves. -/
theorem exists_commit {bucket : Bucket} {key : PartitionKey} {path : Path} {survivors : Batch}
    {layout : Layout} {rolledOver : Bool}
    (hprepared : (job.prepare world bucket).toOption.map (fun prepared =>
      (prepared.key, prepared.path, prepared.survivors, prepared.layout, prepared.rolledOver)) =
        some (key, path, survivors, layout, rolledOver))
    (hrows : survivors.isEmpty = false) {tree : FileTree} {metadata : Metadata}
    (hmakes : world.tree.makeDirectories (job.options.directoryOf key) = (.ok (), tree))
    (hwritten : (run (job.medium.write path survivors layout) { world with tree }).1 = .ok metadata)
    (hrecorded : (run (World.recordMetadata path metadata)
      (run (job.medium.write path survivors layout) { world with tree }).2).1 = .ok ()) :
    ∃ prepared, job.prepare world bucket = .ok prepared ∧
      (prepared.key = key ∧ prepared.path = path ∧ prepared.survivors = survivors ∧
        prepared.layout = layout ∧ prepared.rolledOver = rolledOver) ∧
      run (prepared.commit job) world = (.ok prepared.action,
        (run (World.recordMetadata path metadata)
          (run (job.medium.write path survivors layout) { world with tree }).2).2) := by
  obtain ⟨prepared, hfound, hsame⟩ := Option.map_eq_some_iff.mp hprepared
  simp only [Prod.mk.injEq] at hsame
  obtain ⟨rfl, rfl, rfl, rfl, rfl⟩ := hsame
  exact ⟨prepared, Outcome.eq_ok_of_toOption hfound, ⟨rfl, rfl, rfl, rfl, rfl⟩,
    (Prepared.commit_eq_ok_iff hrows).mpr
      ⟨tree, metadata, _, hmakes, Prod.ext hwritten rfl, Prod.ext hrecorded rfl, rfl⟩⟩

theorem confined_of_process {bucket : Bucket} {action : Action}
    (hrun : run (job.process bucket) world = (.ok action, after)) :
    Confined (job.options.place bucket.key) world after := by
  obtain ⟨prepared, hprepared, hcommit⟩ := process_eq_ok_iff.mp hrun
  obtain ⟨hkey, hpath, -⟩ := prepare_spec hname htarget hworld hprepared
  rw [← hkey] at hpath ⊢
  exact Prepared.confined_of_commit hname htarget hworld hpath hcommit

/-! ## All partitions -/

omit hname htarget hworld in
theorem run_adapt {α : Type} (adapt : Failure → Failure) (change : Change α) (world : World) :
    run (ExceptT.adapt adapt change) world =
      ((run change world).1.mapError adapt, (run change world).2) :=
  rfl

omit hname htarget hworld in
theorem processAll_cons_eq_ok_iff {bucket : Bucket} {rest : List Bucket} {report last : Report} :
    run (job.processAll report (bucket :: rest)) world = (.ok last, after) ↔
      ∃ action between, run (job.process bucket) world = (.ok action, between) ∧
        run (job.processAll (report.add action) rest) between = (.ok last, after) := by
  rw [processAll, run_bind_eq_ok_iff]
  simp only [run_adapt, Prod.mk.injEq]
  constructor
  · rintro ⟨action, between, ⟨hresult, hbetween⟩, hrest⟩
    refine ⟨action, between, ?_, hrest⟩
    rcases hrun : run (job.process bucket) world with ⟨failure | found, left⟩
    · simp [hrun, Except.mapError] at hresult
    · simp only [hrun, Except.mapError, Except.ok.injEq] at hresult hbetween
      rw [hresult, hbetween]
  · rintro ⟨action, between, hrun, hrest⟩
    exact ⟨action, between, by simp [hrun, Except.mapError], hrest⟩

/-- Two partitions with directories of their own. -/
def Apart (first second : PartitionKey) : Prop :=
  ∃ left right, first = some left ∧ second = some right ∧ left ≠ right

omit hname htarget hworld in
theorem Apart.symm {first second : PartitionKey} (hapart : Apart first second) :
    Apart second first := by
  obtain ⟨left, right, hleft, hright, hne⟩ := hapart
  exact ⟨right, left, hright, hleft, hne.symm⟩

omit hname htarget hworld in
theorem apart_of_nodup {keys : List PartitionKey} (hkeys : keys.Nodup)
    (hkind : keys = [none] ∨ none ∉ keys) : keys.Pairwise Apart := by
  rcases hkind with rfl | hnone
  · exact List.pairwise_singleton _ _
  · apply List.Pairwise.imp_of_mem _ (List.nodup_iff_pairwise_ne.mp hkeys)
    intro first second hfirst hsecond hne
    cases first with
    | none => exact absurd hfirst hnone
    | some left =>
      cases second with
      | none => exact absurd hsecond hnone
      | some right => exact ⟨left, right, rfl, rfl, fun hsame => hne (by rw [hsame])⟩

/-- Partitions none of which lies in the directory of another. -/
def Separate (options : Options) (keys : List PartitionKey) : Prop :=
  keys.Pairwise fun first second =>
    ¬ options.place first <+: options.place second ∧
      ¬ options.place second <+: options.place first

omit hname htarget hworld in
theorem separate_of_apart {options : Options} {keys : List PartitionKey}
    (hkeys : keys.Pairwise Apart) : Separate options keys := by
  refine hkeys.imp fun hapart => ?_
  obtain ⟨left, right, rfl, rfl, hne⟩ := hapart
  exact ⟨Options.not_prefix_place hne, Options.not_prefix_place hne.symm⟩

end Job

end TableAppend
