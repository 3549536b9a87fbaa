import TableAppend.Proofs.FileTree.Writable
import TableAppend.Proofs.World.Region

/-!
# Writing files

A file is put in its place directly or under a temporary name first.  `FilePut` says what either way
leaves, and `replace_eq_ok_iff` when the second one succeeds.
-/

namespace TableAppend

open FileTree (Admits destination)

/-! ## A file in its place -/

namespace FileTree

/-- The change of a tree in which a file comes to a location.  The files at some temporary locations
beside it are gone. -/
structure FilePut (before after : FileTree) (place : Location) (content : Content)
    (gone : List Location) : Prop where
  notDirectory : ∀ other, other = place ∨ other ∈ gone → before.get? other ≠ some .directory
  wellFormed : after.WellFormed
  get?_eq : ∀ other, after.get? other =
    if other = place then some (.file content) else if other ∈ gone then none else before.get? other
  namesIn_eq : ∀ here, here ≠ place.dropLast → after.namesIn here = before.namesIn here

variable {tree : FileTree}

theorem filePut_set (htree : tree.WellFormed) {place : Location}
    (hnames : ∀ name ∈ place, Path.IsName name)
    (habove : tree.isDirectoryAt place.dropLast = true)
    (hplace : tree.get? place ≠ some .directory) (content : Content) :
    FilePut tree (tree.set place (.file content)) place content [] := by
  have hne : place ≠ [] := by
    rintro rfl
    exact hplace rfl
  refine ⟨?_, htree.set hnames habove hplace, ?_, ?_⟩
  · rintro other (rfl | hgone)
    · exact hplace
    · contradiction
  · intro other
    rw [get?_set _ _ _ _ hne]
    simp
  · intro here hhere
    exact namesIn_set _ (Ne.symm hhere)

theorem filePut_of_write (htree : tree.WellFormed) {path : Path} (hpath : path.Descends)
    {content : Content} {after : FileTree} (hwrite : tree.write path content = .ok after) :
    FilePut tree after path.location content [] := by
  obtain ⟨hadmits, habove, rfl⟩ := (write_eq_ok_iff htree hpath).mp hwrite
  exact filePut_set htree (fun name hname => Path.isName_of_mem_location hname) habove
    hadmits.notDirectory content

/-- No directory comes or goes. -/
theorem FilePut.directory_iff {before after : FileTree} {place : Location} {content : Content}
    {gone : List Location} (hput : FilePut before after place content gone) (other : Location) :
    after.get? other = some .directory ↔ before.get? other = some .directory := by
  have hnot := hput.notDirectory other
  rw [hput.get?_eq]
  split
  · rename_i hplace
    simpa using hnot (.inl hplace)
  · split
    · rename_i hgone
      simpa using hnot (.inr hgone)
    · rfl

theorem FilePut.isDirectoryAt_eq {before after : FileTree} {place : Location} {content : Content}
    {gone : List Location} (hput : FilePut before after place content gone) (other : Location) :
    after.isDirectoryAt other = before.isDirectoryAt other := by
  rw [Bool.eq_iff_iff, isDirectoryAt_iff, isDirectoryAt_iff, hput.directory_iff]

/-- What a file leaves that is moved from a temporary place to its own one. -/
theorem filePut_move {written : FileTree} {scratch place : Location} {content : Content}
    (hwritten : FilePut tree written scratch content []) (hne : scratch ≠ place)
    (hbeside : scratch.dropLast = place.dropLast) (hnames : ∀ name ∈ place, Path.IsName name)
    (habove : tree.isDirectoryAt place.dropLast = true)
    (hplace : tree.get? place ≠ some .directory) :
    FilePut tree ((written.eraseNode scratch).set place (.file content)) place content
      [scratch] := by
  have hplaceNe : place ≠ [] := by
    rintro rfl
    exact hplace rfl
  have hscratch : written.get? scratch = some (.file content) := by
    rw [hwritten.get?_eq, if_pos rfl]
  have hscratchNe : scratch ≠ [] := by
    rintro rfl
    simp at hscratch
  have herased : (written.eraseNode scratch).WellFormed := by
    apply hwritten.wellFormed.eraseNode_file
    rw [hscratch]
    simp
  have hget : ∀ other, (written.eraseNode scratch).get? other =
      if other = scratch then none else tree.get? other := by
    intro other
    by_cases hnil : other = []
    · subst hnil
      rw [if_neg (Ne.symm hscratchNe)]
      rfl
    · rw [get?_eraseNode _ _ _ hnil]
      split
      · rfl
      · rename_i hother
        rw [hwritten.get?_eq, if_neg hother, if_neg (by simp)]
  have hdirectory : (written.eraseNode scratch).isDirectoryAt place.dropLast = true := by
    rw [isDirectoryAt_iff] at habove ⊢
    rw [hget, if_neg, habove]
    intro heq
    have hlength := congrArg List.length (hbeside.trans heq)
    have hpositive := List.length_pos_iff.mpr hscratchNe
    rw [List.length_dropLast] at hlength
    omega
  refine ⟨?_, herased.set hnames hdirectory ?_, ?_, ?_⟩
  · rintro other (rfl | hgone)
    · exact hplace
    · rw [List.mem_singleton] at hgone
      exact hgone ▸ hwritten.notDirectory scratch (.inl rfl)
  · rw [hget, if_neg (Ne.symm hne)]
    exact hplace
  · intro other
    rw [get?_set _ _ _ _ hplaceNe, hget]
    simp
  · intro here hhere
    rw [namesIn_set _ (Ne.symm hhere), namesIn_eraseNode (hbeside ▸ Ne.symm hhere),
      hwritten.namesIn_eq here (hbeside ▸ hhere)]

end FileTree

/-! ## By way of a temporary file -/

theorem Path.LiesIn.temporary {path : Path} {place : Location} (hpath : path.LiesIn place) :
    (path.besides Metadata.temporaryEnding).LiesIn place :=
  hpath.besides (by decide) (by decide)

/-- A file whose name is longer stands beside the other one. -/
theorem append_name_ne {name : String} {beside : Location} {ending : String}
    (hending : 0 < ending.length) :
    beside ++ [name ++ ending] ≠ beside ++ [name] := by
  intro hsame
  have hlength := congrArg String.length (List.cons.inj (List.append_cancel_left hsame)).1
  rw [String.length_append] at hlength
  omega

theorem FileTree.destination_temporary_ne {name : String} {path : Path}
    (hname : path.fileName? = some name) :
    destination (path.besides Metadata.temporaryEnding) ≠ destination path := by
  obtain ⟨beside, hpath⟩ := exists_destination hname
  obtain ⟨htemporary, -⟩ := @destination_besides _ _ beside hname hpath Metadata.temporaryEnding
    (by decide) (by decide)
  rw [hpath, htemporary]
  exact append_name_ne (by decide)

theorem Path.LiesIn.location_temporary_ne {path : Path} {place : Location}
    (hpath : path.LiesIn place) :
    (path.besides Metadata.temporaryEnding).location ≠ path.location := by
  obtain ⟨hdescends, name, hname, -⟩ := id hpath
  rw [← FileTree.destination_of_descends hpath.temporary.1,
    ← FileTree.destination_of_descends hdescends]
  exact FileTree.destination_temporary_ne hname

namespace Change

variable {world after : World} {path : Path} {place : Location} {content : Content}

theorem run_onTree_eq_ok_iff {change : FileTree → Except IoFault FileTree} {value : Unit} :
    run (onTree change) world = (.ok value, after) ↔
      ∃ tree, change world.tree = .ok tree ∧ after = { world with tree } := by
  rw [run_onTree]
  cases change world.tree with
  | error fault => simp
  | ok tree => simp [eq_comm]

/-- The outcome of two changes in a row. -/
theorem run_bind_eq_ok_iff {α β : Type} {change : Change α} {next : α → Change β} {result : β} :
    run (change >>= next) world = (.ok result, after) ↔
      ∃ value between, run change world = (.ok value, between) ∧
        run (next value) between = (.ok result, after) := by
  rw [run_bind]
  rcases run change world with ⟨_ | value, between⟩
  · simp
  · simp

/-- The tree that is left when a file takes its place from a temporary one. -/
def replaced (tree : FileTree) (path : Path) (content : Content) : FileTree :=
  let scratch := (path.besides Metadata.temporaryEnding).location
  ((tree.set scratch (.file content)).eraseNode scratch).set path.location (.file content)

/-- A file is replaced exactly if it can be written under its own name and under the temporary one. -/
theorem replace_eq_ok_iff_writable {name : String} (hname : path.fileName? = some name) :
    run (replace path content) world = (.ok (), after) ↔
      world.tree.Writable (path.besides Metadata.temporaryEnding) ∧ world.tree.Writable path ∧
        after = { world with
          tree := world.tree.moved (destination (path.besides Metadata.temporaryEnding))
            (destination path) content } := by
  have hmoves := @FileTree.write_and_rename_iff world.tree after.tree path content
    (path.besides Metadata.temporaryEnding) (FileTree.destination_temporary_ne hname)
  constructor
  · intro hrun
    obtain ⟨⟨⟩, saved, hwrite, hrename⟩ := run_bind_eq_ok_iff.mp hrun
    obtain ⟨between, hbetween, rfl⟩ := run_onTree_eq_ok_iff.mp hwrite
    obtain ⟨last, hlast, rfl⟩ := run_onTree_eq_ok_iff.mp hrename
    obtain ⟨hscratch, hwritable, htree⟩ := hmoves.mp ⟨between, hbetween, hlast⟩
    exact ⟨hscratch, hwritable, congrArg (World.mk · world.ledger) htree⟩
  · rintro ⟨hscratch, hwritable, rfl⟩
    obtain ⟨between, hbetween, hlast⟩ := hmoves.mpr ⟨hscratch, hwritable, rfl⟩
    exact run_bind_eq_ok_iff.mpr ⟨(), _, run_onTree_eq_ok_iff.mpr ⟨_, hbetween, rfl⟩,
      run_onTree_eq_ok_iff.mpr ⟨_, hlast, rfl⟩⟩

theorem replace_eq_ok_iff (htree : world.tree.WellFormed) (hpath : path.LiesIn place) :
    run (replace path content) world = (.ok (), after) ↔
      world.tree.Admits (path.besides Metadata.temporaryEnding) ∧ world.tree.Admits path ∧
        world.tree.isDirectoryAt place = true ∧
          after = { world with tree := replaced world.tree path content } := by
  have hscratch := hpath.temporary
  obtain ⟨-, name, hname, -⟩ := id hpath
  rw [replace_eq_ok_iff_writable hname, FileTree.writable_iff_admits htree hscratch.1,
    FileTree.writable_iff_admits htree hpath.1, hscratch.dropLast_location, hpath.dropLast_location,
    FileTree.destination_of_descends hscratch.1, FileTree.destination_of_descends hpath.1]
  constructor
  · rintro ⟨⟨hscratchAdmits, hdirectory⟩, ⟨hadmits, -⟩, hafter⟩
    exact ⟨hscratchAdmits, hadmits, hdirectory, hafter⟩
  · rintro ⟨hscratchAdmits, hadmits, hdirectory, hafter⟩
    exact ⟨⟨hscratchAdmits, hdirectory⟩, ⟨hadmits, hdirectory⟩, hafter⟩

theorem filePut_replaced {tree : FileTree} (htree : tree.WellFormed) (hpath : path.LiesIn place)
    (hscratchAdmits : tree.Admits (path.besides Metadata.temporaryEnding))
    (hadmits : tree.Admits path) (hdirectory : tree.isDirectoryAt place = true) :
    FileTree.FilePut tree (replaced tree path content) path.location content
      [(path.besides Metadata.temporaryEnding).location] := by
  have hscratch := hpath.temporary
  have hwrite := (@FileTree.write_eq_ok_iff _ htree _ hscratch.1 content _).mpr
    ⟨hscratchAdmits, hscratch.dropLast_location.symm ▸ hdirectory, rfl⟩
  refine FileTree.filePut_move (FileTree.filePut_of_write htree hscratch.1 hwrite)
    hpath.location_temporary_ne ?_ (fun name hname => Path.isName_of_mem_location hname) ?_
    hadmits.notDirectory
  · rw [hscratch.dropLast_location, hpath.dropLast_location]
  · rwa [hpath.dropLast_location]

/-- Where a file has been replaced, both of its names were free for files, and it has been put. -/
theorem exists_filePut_of_replace (htree : world.tree.WellFormed) (hpath : path.LiesIn place)
    (hrun : run (replace path content) world = (.ok (), after)) :
    world.tree.Admits (path.besides Metadata.temporaryEnding) ∧ world.tree.Admits path ∧
      ∃ tree, FileTree.FilePut world.tree tree path.location content
        [(path.besides Metadata.temporaryEnding).location] ∧ after = { world with tree } := by
  obtain ⟨hscratch, hadmits, hdirectory, rfl⟩ := (replace_eq_ok_iff htree hpath).mp hrun
  exact ⟨hscratch, hadmits, _, filePut_replaced htree hpath hscratch hadmits hdirectory, rfl⟩

end Change

end TableAppend
