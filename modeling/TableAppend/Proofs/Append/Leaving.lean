import TableAppend.Proofs.Append.Locating

/-!
# What an attempt to write a partition leaves

Writing a partition may fail before its rows are in place, or between them and their metadata.  In the
first case no file is different.  In the second one the rows are in place and nothing has become of the
metadata, and never will: what was in the way of the metadata file stays there.
-/

namespace TableAppend

open Change (run)
open FileTree (Admits DirectoryMade FilePut KeptBut Reachable)
open TableAppend.Path (LiesIn)

/-- The place of metadata is not that of rows or of a temporary file. -/
theorem Path.LiesIn.location_metadata_notMem {path : Path} {place : Location}
    (hpath : path.LiesIn place) :
    (Metadata.path path).location ∉ [path.location,
      (path.besides Metadata.temporaryEnding).location,
      ((Metadata.path path).besides Metadata.temporaryEnding).location] := by
  obtain ⟨-, name, -, hlocation⟩ := id hpath
  have hdata := hpath.location_notMem_auxiliaries
  simp only [Path.auxiliaries, List.mem_cons, List.not_mem_nil, or_false, not_or] at hdata
  simp only [List.mem_cons, List.not_mem_nil, or_false, not_or]
  refine ⟨fun hsame => hdata.2.1 hsame.symm, ?_,
    fun hsame => (Path.liesIn_metadata hpath).location_temporary_ne hsame.symm⟩
  rw [hpath.metadata_location hlocation, hpath.temporary_location hlocation]
  intro hsame
  have hnames := (List.cons.inj (List.append_cancel_left hsame)).1
  rw [String.append_right_inj] at hnames
  exact absurd hnames (by decide)

/-- What there is after an attempt to write a partition. -/
inductive Prepared.Leaves (prepared : Prepared) (job : Job) (world after : World) : Prop
  | kept (hkept : KeptBut [(prepared.path.besides Metadata.temporaryEnding).location] world.tree
      after.tree) : Leaves prepared job world after
  | stored {tree : FileTree} {content : Content} {metadata : Metadata}
      (hreachable : Reachable prepared.path)
      (hmade : DirectoryMade world.tree tree (job.options.place prepared.key))
      (hstores : job.medium.Stores tree prepared.path prepared.survivors prepared.layout content
        metadata)
      (hkept : KeptBut prepared.path.places world.tree after.tree)
      (hdata : after.tree.get? prepared.path.location = some (.file content))
      (hrecorded : (world.tree.Admits (Metadata.path prepared.path) ∧
          world.tree.Admits ((Metadata.path prepared.path).besides Metadata.temporaryEnding) ∧
          after.tree.get? (Metadata.path prepared.path).location =
            some (.file (.bytes (Utf8.encode metadata.toText)))) ∨
        ((∀ other, after.tree.get? (Metadata.path prepared.path).location = some (.file other) ↔
            world.tree.get? (Metadata.path prepared.path).location = some (.file other)) ∧
          ¬ (after.tree.Admits (Metadata.path prepared.path) ∧
            after.tree.Admits ((Metadata.path prepared.path).besides Metadata.temporaryEnding)))) :
      Leaves prepared job world after

namespace Prepared

variable {prepared : Prepared} {job : Job}

theorem Placed.keptBut {before tree data : FileTree} {content : Content} {metadata : Metadata}
    (hplaced : prepared.Placed job before tree data content metadata) :
    KeptBut [prepared.path.location, (prepared.path.besides Metadata.temporaryEnding).location]
      before data := by
  refine (hplaced.made.keptBut _).trans (hplaced.put.keptBut.mono ?_)
  refine List.cons_subset_cons _ fun other hother => ?_
  rw [Medium.location_of_mem_scratch hother]
  exact List.mem_singleton_self _

variable {world after : World} {content : Content} {metadata : Metadata} {tree data : FileTree}
  (hpath : prepared.path.LiesIn (job.options.place prepared.key))
  (hplaced : prepared.Placed job world.tree tree data content metadata)

include hpath hplaced

theorem leaves_of_recorded (hledger : world.ledger = none)
    (hrecord : run (World.recordMetadata prepared.path metadata) { world with tree := data } =
      (.ok (), after)) : prepared.Leaves job world after := by
  have hmetadata := Path.liesIn_metadata hpath
  obtain ⟨htemporary, hadmits, last, hput, rfl⟩ := @World.exists_filePut_of_recordMetadata _
    { world with tree := data } hledger _ hplaced.put.wellFormed _ hpath _ hrecord
  have hlocation := hpath.location_notMem_auxiliaries
  simp only [Path.auxiliaries, List.mem_cons, List.not_mem_nil, or_false, not_or] at hlocation
  have hkept : KeptBut prepared.path.places world.tree last := by
    refine (hplaced.keptBut.mono ?_).trans (hput.keptBut.mono ?_)
    · simp [Path.places, Path.auxiliaries]
    · simp [Path.places, Path.auxiliaries]
  have hdata : last.get? prepared.path.location = some (.file content) := by
    rw [hput.get?_eq, if_neg hlocation.2.1, if_neg (by simpa using hlocation.2.2),
      hplaced.get?_data]
  have hbeside : last.get? (Metadata.path prepared.path).location =
      some (.file (.bytes (Utf8.encode metadata.toText))) := by
    rw [hput.get?_eq, if_pos rfl]
  exact .stored hplaced.reachable hplaced.made hplaced.stores hkept hdata (.inl
    ⟨(hplaced.admits_iff hmetadata).mp hadmits, (hplaced.admits_iff hmetadata.temporary).mp htemporary,
      hbeside⟩)

theorem leaves_of_unrecorded (hledger : world.ledger = none) {failure : Failure}
    (hrecord : run (World.recordMetadata prepared.path metadata) { world with tree := data } =
      (.error failure, after)) : prepared.Leaves job world after := by
  have hmetadata := Path.liesIn_metadata hpath
  have hrun : run (Change.replace (Metadata.path prepared.path)
      (.bytes (Utf8.encode metadata.toText))) { world with tree := data } = (.error failure, after) :=
    (@World.recordMetadata_of_files { world with tree := data } hledger prepared.path
      metadata).symm.trans hrecord
  have hlast := @Change.keptBut_of_replace_error { world with tree := data } _ _ _ _ _
    hplaced.put.wellFormed hmetadata hrun
  have hkept : KeptBut [prepared.path.location,
      (prepared.path.besides Metadata.temporaryEnding).location,
      ((Metadata.path prepared.path).besides Metadata.temporaryEnding).location] world.tree
        after.tree :=
    (hplaced.keptBut.mono (by simp)).trans (hlast.mono (by simp))
  have hlocation := hpath.location_notMem_auxiliaries
  simp only [Path.auxiliaries, List.mem_cons, List.not_mem_nil, or_false, not_or] at hlocation
  have hdata : after.tree.get? prepared.path.location = some (.file content) :=
    (hlast.file_iff (by simpa using hlocation.2.2)).mpr hplaced.get?_data
  have hnever : ¬ (after.tree.Admits (Metadata.path prepared.path) ∧
      after.tree.Admits ((Metadata.path prepared.path).besides Metadata.temporaryEnding)) := by
    rintro ⟨hadmits, htemporary⟩
    have hsucceeds : data.Admits (Metadata.path prepared.path) ∧
        data.Admits ((Metadata.path prepared.path).besides Metadata.temporaryEnding) := by
      rcases @Change.left_of_replace_error { world with tree := data } _ _ _ _ _
        hplaced.put.wellFormed hmetadata hrun with hsame | ⟨last, hput, hsame⟩
      · rw [hsame] at hadmits htemporary
        exact ⟨hadmits, htemporary⟩
      · rw [hsame] at hadmits htemporary
        exact ⟨(hput.admits_iff _).mp hadmits, (hput.admits_iff _).mp htemporary⟩
    obtain ⟨other, hother⟩ := (@record_succeeds_iff { world with tree := data } _
      hplaced.put.wellFormed hledger hplaced.isDirectoryAt prepared.path hpath metadata).mpr hsucceeds
    rw [hrecord] at hother
    simp at hother
  exact .stored hplaced.reachable hplaced.made hplaced.stores (hkept.mono (by
    simp [Path.places, Path.auxiliaries])) hdata (.inr
      ⟨fun other => hkept.file_iff hpath.location_metadata_notMem, hnever⟩)

omit hplaced

variable {name : String} (hname : job.options.target.fileName? = some name)
  (htarget : job.options.target.Descends) (hworld : world.tree.WellFormed)

include hname htarget hworld

/-- Where the rows are in place, their metadata are recorded or cannot be. -/
theorem leaves_of_written (hledger : world.ledger = none) {written : World}
    (hmakes : world.tree.makeDirectories (job.options.directoryOf prepared.key) = (.ok (), tree))
    (hwritten : run (job.medium.write prepared.path prepared.survivors prepared.layout)
      { world with tree } = (.ok metadata, written)) {outcome : Outcome Unit}
    (hrecord : run (World.recordMetadata prepared.path metadata) written = (outcome, after)) :
    prepared.Leaves job world after := by
  obtain ⟨data, content, hplaced, rfl⟩ :=
    exists_placed_of_written hname htarget hworld hpath hmakes hwritten
  cases outcome with
  | ok value => exact leaves_of_recorded hpath hplaced hledger hrecord
  | error failure => exact leaves_of_unrecorded hpath hplaced hledger hrecord

/-- Where rows have been written with their metadata, these could be recorded. -/
theorem admits_of_commit (hledger : world.ledger = none)
    (hrows : prepared.survivors.isEmpty = false) {action : Action}
    (hrun : run (prepared.commit job) world = (.ok action, after)) :
    world.tree.Admits (Metadata.path prepared.path) ∧
      world.tree.Admits ((Metadata.path prepared.path).besides Metadata.temporaryEnding) := by
  obtain ⟨tree, data, content, metadata, hplaced, hrecord⟩ :=
    exists_placed_of_commit hname htarget hworld hpath hrows hrun
  exact (record_succeeds_iff_of_placed hledger hpath hplaced).mp ⟨after, hrecord⟩

/-- Whether or not a partition is written, its files are left in one of these ways. -/
theorem leaves_of_commit (hledger : world.ledger = none)
    (hfits : ∀ header, prepared.layout.columns = some header →
      (∃ ordered, prepared.survivors.project header = .ok ordered) ∧
        ∃ content, world.tree.node? prepared.path = some (.file content))
    {outcome : Outcome Action} (hrun : run (prepared.commit job) world = (outcome, after)) :
    prepared.Leaves job world after := by
  cases outcome with
  | ok action =>
    cases hrows : prepared.survivors.isEmpty with
    | true =>
      rw [run_commit_of_isEmpty hrows, Prod.mk.injEq] at hrun
      exact .kept (hrun.2 ▸ .refl hworld _)
    | false =>
      obtain ⟨tree, metadata, written, hmakes, hwritten, hrecord, -⟩ :=
        (commit_eq_ok_iff hrows).mp hrun
      exact leaves_of_written hpath hname htarget hworld hledger hmakes hwritten hrecord
  | error failure =>
    obtain ⟨-, hmakes | ⟨tree, hmakes, hwrite | ⟨metadata, written, hwritten, hrecord⟩⟩⟩ :=
      commit_eq_error_iff.mp hrun
    · obtain ⟨fault, tree, htree, -, rfl⟩ := Change.run_makeDirectories_eq_error_iff.mp hmakes
      have hkept := FileTree.keptBut_of_makeDirectories hworld
        (Options.descends_directoryOf hname htarget prepared.key)
      rw [htree] at hkept
      exact .kept (hkept.mono (List.nil_subset _))
    · have hmade := (directoryMade_of_commit hname htarget hworld hmakes).1
      have hkept := @Medium.keptBut_of_write_error { world with tree } _ _ _ _ hmade.wellFormed hpath
        _ _ _ (fun header hheader => (hfits header hheader).imp_right fun ⟨content, hcontent⟩ =>
          ⟨content, (hmade.node?_in hworld hpath).trans hcontent⟩) hwrite
      exact .kept ((hmade.keptBut _).trans hkept)
    · exact leaves_of_written hpath hname htarget hworld hledger hmakes hwritten hrecord

end Prepared

end TableAppend
