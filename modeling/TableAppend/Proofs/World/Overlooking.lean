import TableAppend.Proofs.FileTree.Spelling
import TableAppend.Proofs.World.Concurring
import TableAppend.Proofs.World.Missing

/-!
# Metadata files from which nothing can be read

A metadata file whose text is not that of metadata tells as little as none.  Two worlds of which the
second one lacks such files know the same of every data file.  When metadata are recorded they replace
what cannot be read, and the worlds then differ in fewer files.
-/

namespace TableAppend

open Change (run run_bind)
open FileTree (Skirts Step destination steps)

/-! ## Ways along directories -/

namespace FileTree

variable {tree : FileTree} {places : Set Location} {path parent outer : Path} {name : String}
  {here : Location}

/-- A way along directories keeps away from files. -/
theorem skirts_of_walk (hwalk : tree.walk [] (steps path) = .ok here)
    (hhere : tree.isDirectoryAt here = true)
    (hplaces : ∀ place ∈ places, tree.isDirectoryAt place = false) : Skirts places path := by
  rintro way ⟨more, hmore⟩ hmem
  rw [← hmore] at hwalk
  obtain ⟨between, hbetween, hrest⟩ := exists_of_walk_append hwalk
  have hdirectory : tree.isDirectoryAt between = true := by
    cases more with
    | nil =>
      obtain rfl := Except.ok.inj hrest
      exact hhere
    | cons next later => exact isDirectoryAt_of_walk_cons hrest
  rw [eq_of_walk hbetween, hplaces _ hmem] at hdirectory
  contradiction

namespace Skirts

theorem join (houter : Skirts places outer) (hname : Path.IsName name)
    (hnot : destination outer ++ [name] ∉ places) : Skirts places (outer.join name) := by
  intro way hway
  rw [Path.steps_join _ hname] at hway
  rcases List.prefix_concat_iff.mp hway with rfl | habove
  · rw [List.foldl_concat]
    exact hnot
  · exact houter way habove

/-- The way to a file is that to its parent but for the last name. -/
theorem of_parent (hname : path.fileName? = some name) (hparent : path.parent? = some parent)
    (hskirts : Skirts places parent) (hnot : destination path ∉ places) : Skirts places path := by
  obtain ⟨idle, junk, hsteps, hidle, hjunk⟩ := exists_steps_parent hname hparent
  rintro way ⟨more, hmore⟩ hmem
  -- Steps that stay come before the name or after it, and lead nowhere else.
  have hstay : ∀ {stays front rest : List Step}, movesOf stays = [] → stays = front ++ rest →
      ∀ start, front.foldl Step.target start = start := by
    rintro _ front rest hnone rfl start
    rw [movesOf_append, List.append_eq_nil_iff] at hnone
    rw [← foldl_target_movesOf, hnone.1]
    rfl
  have hplace := hsteps
  rw [hsteps, List.append_assoc] at hmore
  rcases List.append_eq_append_iff.mp hmore with ⟨rest, hfront, -⟩ | ⟨rest, rfl, hafter⟩
  · exact hskirts way ⟨rest, hfront.symm⟩ hmem
  rw [List.foldl_append] at hmem
  rcases List.append_eq_append_iff.mp hafter.symm with ⟨later, hbefore, -⟩ | ⟨later, rfl, hlast⟩
  · rw [hstay hidle hbefore] at hmem
    exact hskirts _ (List.prefix_refl _) hmem
  cases later with
  | nil =>
    rw [List.append_nil, hstay hidle (List.append_nil _).symm] at hmem
    exact hskirts _ (List.prefix_refl _) hmem
  | cons next later =>
    rw [List.cons_append, List.cons.injEq] at hlast
    obtain ⟨rfl, hjunkParts⟩ := hlast
    refine hnot ?_
    rw [destination, hplace, List.append_assoc, List.foldl_append, List.foldl_append,
      List.foldl_cons, hstay hjunk (List.append_nil _).symm]
    rwa [List.foldl_append, List.foldl_cons, hstay hjunk hjunkParts] at hmem

end Skirts

end FileTree

/-! ## Worlds that know the same -/

namespace World

/-- The second world lacks metadata files, and nothing can be read from them in the first one. -/
structure Overlooks (lost : Set Location) (full bare : World) : Prop where
  lacks : World.Lacks lost full bare
  unread : ∀ place ∈ lost, ∀ content, full.tree.get? place = some (.file content) →
    ∃ text, Utf8.decode? content.toBytes = some text ∧ Metadata.ofText? text = none

namespace Overlooks

variable {lost kept : Set Location} {full bare after later : World} {path : Path} {name : String}
  (hoverlooks : Overlooks lost full bare)

include hoverlooks

/-- Nothing is known where a metadata file is overlooked. -/
theorem metadata_eq_none (hlost : destination (Metadata.path path) ∈ lost) :
    full.metadata path = .ok none := by
  by_cases hfile : full.tree.isFile (Metadata.path path) = true
  · obtain ⟨content, hnode⟩ := FileTree.isFile_iff.mp hfile
    obtain ⟨text, htext, hnone⟩ :=
      hoverlooks.unread _ hlost content (FileTree.get?_of_node? hnode)
    rw [metadata_of_file hoverlooks.lacks.files hnode, htext]
    exact congrArg Except.ok hnone
  · rw [metadata, hoverlooks.lacks.files]
    dsimp only
    rw [storedMetadata, if_neg hfile]

theorem metadata_eq (path : Path) : bare.metadata path = full.metadata path := by
  by_cases hlost : destination (Metadata.path path) ∈ lost
  · calc
      bare.metadata path = .ok none := hoverlooks.lacks.metadata_eq_none hlost
      _ = full.metadata path := (hoverlooks.metadata_eq_none hlost).symm
  · exact hoverlooks.lacks.metadata_eq hlost

theorem sameAt (hpath : destination path ∉ lost) : SameAt full bare path :=
  ⟨hoverlooks.lacks.tree.node?_eq hpath, hoverlooks.metadata_eq path⟩

theorem of_get?_eq (hlacks : World.Lacks kept after later) (hkept : kept ⊆ lost)
    (hget : ∀ place ∈ kept, after.tree.get? place = full.tree.get? place) :
    Overlooks kept after later :=
  ⟨hlacks, fun place hplace content hcontent =>
    hoverlooks.unread place (hkept hplace) content ((hget place hplace).symm.trans hcontent)⟩

theorem of_alongside (halong : Alongside lost lost full bare after later) :
    Overlooks lost after later :=
  hoverlooks.of_get?_eq ⟨halong.ledger.trans hoverlooks.lacks.files,
    halong.bareLedger.trans hoverlooks.lacks.bareFiles, halong.lacks⟩ subset_rfl halong.get?_eq

/-- What is moved to the place of a metadata file is overlooked no more. -/
theorem rename (habove : ∀ way, way <+: (steps path).dropLast → way.foldl Step.target [] ∉ lost)
    {scratch : Path} (hscratch : Skirts lost scratch) :
    (Change.onTree fun tree => tree.rename scratch path).Agrees full bare
      fun after later => ∃ kept ⊆ lost, Overlooks kept after later := by
  have honto := hoverlooks.lacks.tree.alike_rename_onto hscratch habove
  rw [Change.Agrees, Change.run_onTree, Change.run_onTree]
  cases hrename : full.tree.rename scratch path with
  | error fault =>
    rw [hrename] at honto
    rw [honto.eq_error]
    exact ⟨rfl, lost, subset_rfl, hoverlooks⟩
  | ok last =>
    rw [hrename] at honto
    obtain ⟨final, hfinal, hlast⟩ := honto.exists_of_ok
    rw [hfinal]
    refine ⟨rfl, _, Set.sdiff_subset, hoverlooks.of_get?_eq
      ⟨hoverlooks.lacks.files, hoverlooks.lacks.bareFiles, hlast⟩ Set.sdiff_subset
      fun place hplace => ?_⟩
    exact FileTree.get?_rename (Change.ne_destination hscratch hplace.1) hplace.2 hrename

/-- Recorded metadata take the place of what cannot be read, or cannot be recorded in either world. -/
theorem recordMetadata (hname : path.fileName? = some name) (hskirts : Skirts lost path)
    (htemporary : Skirts lost ((Metadata.path path).besides Metadata.temporaryEnding))
    (metadata : Metadata) :
    (World.recordMetadata path metadata).Agrees full bare
      fun after later => ∃ kept ⊆ lost, Overlooks kept after later := by
  obtain ⟨parent, hparent⟩ := Path.exists_parent?_of_fileName? hname
  have habove : ∀ way, way <+: (steps (Metadata.path path)).dropLast →
      way.foldl Step.target [] ∉ lost := by
    rw [Metadata.path, FileTree.steps_besides hname hparent (Path.isName_append
      (Path.isName_of_fileName? hname) (by decide) (by decide)), List.dropLast_concat]
    exact hskirts.parent hparent
  obtain ⟨hsame, halong, -⟩ := Change.concurs_write (subset_refl lost) htemporary
    (.bytes (Utf8.encode metadata.toText)) full bare hoverlooks.lacks.tree trivial
  have hwritten : (Change.onTree fun tree => tree.write
      ((Metadata.path path).besides Metadata.temporaryEnding)
        (.bytes (Utf8.encode metadata.toText))).Agrees full bare (Overlooks lost) :=
    ⟨hsame, hoverlooks.of_alongside halong⟩
  have hreplaced := hwritten.bind (fun _ _ hleft => ⟨lost, subset_rfl, hleft⟩)
    fun _ after later _ hbetween => hbetween.rename habove htemporary
  rw [Change.Agrees, recordMetadata_of_files hoverlooks.lacks.files,
    recordMetadata_of_files hoverlooks.lacks.bareFiles, Change.replace]
  exact hreplaced

/-- What is written and then recorded goes alike, wherever it fails. -/
theorem write_and_record (hname : path.fileName? = some name) (hskirts : Skirts lost path)
    (htemporary : Skirts lost ((Metadata.path path).besides Metadata.temporaryEnding))
    {write : Change Metadata} {ensured : FileTree → Prop}
    (hwrite : write.Concurs lost lost Change.anyTree ensured) {α : Type} (value : α) :
    Change.Agrees (do
        World.recordMetadata path (← write)
        return value) full bare
      fun after later => ∃ kept ⊆ lost, Overlooks kept after later := by
  obtain ⟨hsame, halong, -⟩ := hwrite full bare hoverlooks.lacks.tree trivial
  have hwritten : write.Agrees full bare (Overlooks lost) := ⟨hsame, hoverlooks.of_alongside halong⟩
  refine hwritten.bind (fun _ _ hleft => ⟨lost, subset_rfl, hleft⟩)
    fun metadata after later _ hbetween => ?_
  exact (hbetween.recordMetadata hname hskirts htemporary metadata).bind (fun _ _ hleft => hleft)
    fun _ _ _ _ hleft => Change.agrees_pure value hleft

end Overlooks

end World

end TableAppend
