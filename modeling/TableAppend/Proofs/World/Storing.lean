import TableAppend.Proofs.FileTree.Writable
import TableAppend.Proofs.Metadata
import TableAppend.Proofs.World.Sparing

/-!
# Storing files

Rows and their metadata are stored by putting files at the ends of paths.  Nothing else changes and no
directory comes or goes, so what has been stored is read back, and where something has been stored it
can be stored again.
-/

namespace TableAppend

open FileTree (destination Writable SameDirectories)
open Change (run)

namespace FileTree

variable {tree before between after : FileTree} {path : Path} {content : Content}

/-- A file is put at the end of a path, by way of temporary files. -/
structure Puts (before after : FileTree) (path : Path) (content : Content) (scratch : List Path) :
    Prop where
  node? : after.node? path = some (.file content)
  same : SameDirectories before after
  get?_eq : ∀ place, place ≠ destination path →
    (∀ temporary ∈ scratch, place ≠ destination temporary) → after.get? place = before.get? place
  gone : ∀ temporary ∈ scratch, destination temporary ≠ destination path →
    after.get? (destination temporary) = none

theorem Writable.puts_set (hwritable : tree.Writable path) (content : Content) :
    Puts tree (tree.set (destination path) (.file content)) path content [] where
  node? := hwritable.node?_set content
  same := sameDirectories_set hwritable.destination_ne hwritable.notDirectory content
  get?_eq _ hplace _ := get?_set_other _ _ _ _ hplace
  gone _ hmem := absurd hmem List.not_mem_nil

theorem Writable.puts_moved (hwritable : tree.Writable path) {scratch : Path}
    (hscratch : tree.Writable scratch) (content : Content) :
    Puts tree (tree.moved (destination scratch) (destination path) content) path content
      [scratch] where
  node? := node?_moved hscratch hwritable content
  same := sameDirectories_moved hscratch hwritable content
  get?_eq _ hplace htemporary :=
    get?_moved (htemporary scratch (List.mem_singleton_self _)) hplace content
  gone temporary hmem hne := by
    obtain rfl := List.mem_singleton.mp hmem
    rw [FileTree.moved, get?_set_other _ _ _ _ hne, get?_eraseNode _ _ _ hscratch.destination_ne,
      if_pos rfl]

end FileTree

open FileTree (Puts)

variable {world after : World} {path : Path} {name : String} {rows : Batch} {layout : Layout}
  {content : Content} {metadata : Metadata}

/-! ## Writing rows -/

/-- The tree after a medium has put a content at a path. -/
def Medium.put (medium : Medium) (tree : FileTree) (path : Path) (content : Content) : FileTree :=
  match medium with
  | .delimited _ => tree.set (destination path) (.file content)
  | .columnar _ =>
    tree.moved (destination (path.besides Metadata.temporaryEnding)) (destination path) content

namespace Medium

variable {medium : Medium}

/-- Rows can be written where the file and its temporary forms can be written.  Where there is a file
already that is known beforehand. -/
theorem write_eq_ok_iff_writable (hname : path.fileName? = some name)
    (hadds : layout.columns.isSome = true → world.tree.Writable path) :
    run (medium.write path rows layout) world = (.ok metadata, after) ↔
      world.tree.Writable path ∧ (∀ temporary ∈ medium.scratch path, world.tree.Writable temporary) ∧
        ∃ content, medium.Stores world.tree path rows layout content metadata ∧
          after = { world with tree := medium.put world.tree path content } := by
  cases medium with
  | delimited dialect =>
    cases hlayout : layout.columns with
    | none =>
      constructor
      · intro hrun
        obtain ⟨hwritable, rfl, rfl⟩ := (Delimited.write_new_eq_ok_iff_writable hlayout).mp hrun
        refine ⟨hwritable, fun _ hmem => absurd hmem List.not_mem_nil, _, ⟨rfl, ?_⟩, rfl⟩
        rw [hlayout]
      · rintro ⟨hwritable, -, content, ⟨rfl, hcontent⟩, rfl⟩
        rw [hlayout] at hcontent
        obtain rfl := hcontent
        exact (Delimited.write_new_eq_ok_iff_writable hlayout).mpr ⟨hwritable, rfl, rfl⟩
    | some header =>
      have hwritable := hadds (by rw [hlayout]; rfl)
      constructor
      · intro hrun
        obtain ⟨content, hnode⟩ := Delimited.exists_node?_of_write_added hlayout hrun
        obtain ⟨ordered, hordered, rfl, rfl⟩ :=
          (Delimited.write_added_eq_ok_iff_writable hlayout hwritable hnode).mp hrun
        refine ⟨hwritable, fun _ hmem => absurd hmem List.not_mem_nil, _, ⟨rfl, ?_⟩, rfl⟩
        rw [hlayout]
        exact ⟨content, ordered, hnode, hordered, rfl⟩
      · rintro ⟨-, -, content, ⟨rfl, hcontent⟩, rfl⟩
        rw [hlayout] at hcontent
        obtain ⟨old, ordered, hnode, hordered, rfl⟩ := hcontent
        exact (Delimited.write_added_eq_ok_iff_writable hlayout hwritable hnode).mpr
          ⟨ordered, hordered, rfl, rfl⟩
  | columnar codec =>
    rw [write, Columnar.write_eq_ok_iff_moves]
    constructor
    · rintro ⟨present, all, schema, content, hcodec, hall, hschema, hsave, hmetadata, hreplace⟩
      obtain ⟨hscratch, hwritable, rfl⟩ := (Change.replace_eq_ok_iff_writable hname).mp hreplace
      exact ⟨hwritable, fun temporary hmem => List.mem_singleton.mp hmem ▸ hscratch, content,
        ⟨present, all, schema, hcodec, hall, hschema, hsave, hmetadata⟩, rfl⟩
    · rintro ⟨hwritable, hscratch, content,
        ⟨present, all, schema, hcodec, hall, hschema, hsave, hmetadata⟩, rfl⟩
      exact ⟨present, all, schema, content, hcodec, hall, hschema, hsave, hmetadata,
        (Change.replace_eq_ok_iff_writable hname).mpr
          ⟨hscratch _ (List.mem_singleton_self _), hwritable, rfl⟩⟩

theorem puts_put {tree : FileTree} (hwritable : tree.Writable path)
    (hscratch : ∀ temporary ∈ medium.scratch path, tree.Writable temporary) (content : Content) :
    Puts tree (medium.put tree path content) path content (medium.scratch path) := by
  cases medium with
  | delimited dialect => exact hwritable.puts_set content
  | columnar codec => exact hwritable.puts_moved (hscratch _ (List.mem_singleton_self _)) content

end Medium

/-! ## Recording metadata -/

namespace World

theorem recordMetadata_eq_ok_iff_writable (hledger : world.ledger = none)
    (hname : (Metadata.path path).fileName? = some name) :
    run (recordMetadata path metadata) world = (.ok (), after) ↔
      world.tree.Writable ((Metadata.path path).besides Metadata.temporaryEnding) ∧
        world.tree.Writable (Metadata.path path) ∧
          after = { world with
            tree := world.tree.moved
              (destination ((Metadata.path path).besides Metadata.temporaryEnding))
              (destination (Metadata.path path)) (.bytes (Utf8.encode metadata.toText)) } := by
  rw [recordMetadata_of_files hledger]
  exact Change.replace_eq_ok_iff_writable hname

end World

/-! ## Rows with their metadata -/

theorem FileTree.exists_distinct (hname : path.fileName? = some name) :
    destination (Metadata.path path) ≠ destination path ∧
      destination ((Metadata.path path).besides Metadata.temporaryEnding) ≠ destination path ∧
        (Metadata.path path).fileName? = some (name ++ Metadata.ending) := by
  obtain ⟨beside, hpath, -, hmetadata, htemporary⟩ := exists_destinations hname
  refine ⟨?_, ?_, (destination_besides hname hpath (by decide) (by decide)).2⟩
  · rw [hpath, hmetadata]
    exact append_name_ne (by decide)
  · rw [hpath, htemporary, String.append_assoc]
    exact append_name_ne (by decide)

namespace Medium

variable {medium : Medium} {tree before : FileTree}

/-- The files that come, change or go where rows are stored. -/
def files (medium : Medium) (path : Path) : List Path :=
  path :: Metadata.path path :: (Metadata.path path).besides Metadata.temporaryEnding ::
    medium.scratch path

theorem forall_mem_files_iff {holds : Path → Prop} :
    (∀ file ∈ medium.files path, holds file) ↔
      holds path ∧ holds (Metadata.path path) ∧
        holds ((Metadata.path path).besides Metadata.temporaryEnding) ∧
          ∀ temporary ∈ medium.scratch path, holds temporary := by
  rw [files, List.forall_mem_cons, List.forall_mem_cons, List.forall_mem_cons]

/-- The tree after a content has been put at a path and its metadata have been recorded. -/
def store (medium : Medium) (tree : FileTree) (path : Path) (content : Content)
    (metadata : Metadata) : FileTree :=
  (medium.put tree path content).moved
    (destination ((Metadata.path path).besides Metadata.temporaryEnding))
    (destination (Metadata.path path)) (.bytes (Utf8.encode metadata.toText))

/-- A content stands at a path with its metadata, and something else could be stored there. -/
structure Holds (medium : Medium) (tree : FileTree) (path : Path) (content : Content)
    (metadata : Metadata) : Prop where
  data : tree.node? path = some (.file content)
  recorded : tree.node? (Metadata.path path) =
    some (.file (.bytes (Utf8.encode metadata.toText)))
  writable : ∀ file ∈ medium.files path, tree.Writable file

namespace Holds

theorem metadata_eq (hholds : medium.Holds world.tree path content metadata)
    (hledger : world.ledger = none) : world.metadata path = .ok (some metadata) := by
  rw [World.metadata_of_node? hledger hholds.recorded, metadata.ofText?_toText]

/-- What is done elsewhere does not matter as long as directories stay. -/
theorem of_stay {after : FileTree} (hholds : medium.Holds before path content metadata)
    (hstay : FileTree.DirectoriesStay before after) (hget : ∀ file ∈ medium.files path,
      after.get? (destination file) = before.get? (destination file)) :
    medium.Holds after path content metadata where
  data := hstay.node?_eq hholds.data
    ((hget path List.mem_cons_self).trans (FileTree.get?_of_node? hholds.data))
  recorded := hstay.node?_eq hholds.recorded
    ((hget _ (List.mem_cons_of_mem _ List.mem_cons_self)).trans
      (FileTree.get?_of_node? hholds.recorded))
  writable file hfile := by
    have hwritable := hholds.writable file hfile
    refine hwritable.of_stay hstay ?_
    rw [FileTree.isDirectoryAt, hget file hfile]
    exact hwritable.notDirectory

end Holds

section store

variable (hname : path.fileName? = some name)
  (hwritable : ∀ file ∈ medium.files path, tree.Writable file)

include hwritable

theorem puts_store (content : Content) (metadata : Metadata) :
    Puts tree (medium.put tree path content) path content (medium.scratch path) ∧
      Puts (medium.put tree path content) (medium.store tree path content metadata)
        (Metadata.path path) (.bytes (Utf8.encode metadata.toText))
        [(Metadata.path path).besides Metadata.temporaryEnding] := by
  obtain ⟨hpath, hmetadata, htemporary, hscratch⟩ := forall_mem_files_iff.mp hwritable
  have hput := puts_put hpath hscratch content
  exact ⟨hput, (hmetadata.of_same hput.same).puts_moved (htemporary.of_same hput.same) _⟩

theorem sameDirectories_store (content : Content) (metadata : Metadata) :
    SameDirectories tree (medium.store tree path content metadata) := by
  obtain ⟨hput, hrecorded⟩ := puts_store hwritable content metadata
  exact hput.same.trans hrecorded.same

theorem get?_store {place : Location} (hplace : ∀ file ∈ medium.files path, place ≠ destination file)
    (content : Content) (metadata : Metadata) :
    (medium.store tree path content metadata).get? place = tree.get? place := by
  obtain ⟨hput, hrecorded⟩ := puts_store hwritable content metadata
  obtain ⟨hpath, hmetadata, htemporary, hscratch⟩ := forall_mem_files_iff.mp hplace
  rw [hrecorded.get?_eq place hmetadata fun temporary hmem =>
      List.mem_singleton.mp hmem ▸ htemporary, hput.get?_eq place hpath hscratch]

include hname

theorem holds_store (content : Content) (metadata : Metadata) :
    medium.Holds (medium.store tree path content metadata) path content metadata := by
  obtain ⟨hput, hrecorded⟩ := puts_store hwritable content metadata
  obtain ⟨hmetadata, htemporary, -⟩ := FileTree.exists_distinct hname
  refine ⟨?_, hrecorded.node?, fun file hfile =>
    (hwritable file hfile).of_same (sameDirectories_store hwritable content metadata)⟩
  refine hrecorded.same.stay.node?_eq hput.node? ?_
  rw [hrecorded.get?_eq _ hmetadata.symm fun temporary hmem =>
    List.mem_singleton.mp hmem ▸ htemporary.symm]
  exact FileTree.get?_of_node? hput.node?

/-- No other files come than these two. -/
theorem file_of_store {place : Location} {found content : Content} {metadata : Metadata}
    (hfound : (medium.store tree path content metadata).get? place = some (.file found)) :
    place = destination path ∨ place = destination (Metadata.path path) ∨
      tree.get? place = some (.file found) := by
  obtain ⟨hput, hrecorded⟩ := puts_store hwritable content metadata
  obtain ⟨hmetadata, htemporary, hmetadataName⟩ := FileTree.exists_distinct hname
  by_cases hdata : place = destination path
  · exact .inl hdata
  by_cases hrecord : place = destination (Metadata.path path)
  · exact .inr (.inl hrecord)
  refine .inr (.inr ?_)
  by_cases hscratch : place = destination ((Metadata.path path).besides Metadata.temporaryEnding)
  · have hgone := hrecorded.gone _ (List.mem_singleton_self _)
      (FileTree.destination_temporary_ne hmetadataName)
    rw [hscratch, hgone] at hfound
    exact absurd hfound (by simp)
  rw [hrecorded.get?_eq place hrecord fun temporary hmem =>
    List.mem_singleton.mp hmem ▸ hscratch] at hfound
  by_cases hother : ∃ temporary ∈ medium.scratch path, place = destination temporary
  · obtain ⟨temporary, hmem, hsame⟩ := hother
    have hgone := hput.gone temporary hmem (hsame ▸ hdata)
    rw [hsame, hgone] at hfound
    exact absurd hfound (by simp)
  · have hothers := hput.get?_eq place hdata fun temporary hmem hsame =>
      hother ⟨temporary, hmem, hsame⟩
    exact hothers ▸ hfound

end store

/-- Rows and their metadata can be stored exactly where the files can be written. -/
theorem write_and_record_iff (hname : path.fileName? = some name) (hledger : world.ledger = none)
    (hadds : layout.columns.isSome = true → world.tree.Writable path) :
    (∃ metadata written, run (medium.write path rows layout) world = (.ok metadata, written) ∧
        run (World.recordMetadata path metadata) written = (.ok (), after)) ↔
      (∀ file ∈ medium.files path, world.tree.Writable file) ∧
        ∃ content metadata, medium.Stores world.tree path rows layout content metadata ∧
          after = ⟨medium.store world.tree path content metadata, none⟩ := by
  obtain ⟨-, -, hmetadataName⟩ := FileTree.exists_distinct hname
  constructor
  · rintro ⟨metadata, written, hwrite, hrecord⟩
    obtain ⟨hwritable, hscratch, content, hstores, rfl⟩ :=
      (write_eq_ok_iff_writable hname hadds).mp hwrite
    have hfiles : (World.mk (medium.put world.tree path content) world.ledger).ledger = none :=
      hledger
    obtain ⟨htemporary, hmetadata, rfl⟩ :=
      (World.recordMetadata_eq_ok_iff_writable hfiles hmetadataName).mp hrecord
    have hback := (puts_put hwritable hscratch content).same
    have hreturn : ∀ {file : Path}, (medium.put world.tree path content).Writable file →
        world.tree.Writable file := fun hfile =>
      hfile.of_same fun place => (hback place).symm
    exact ⟨forall_mem_files_iff.mpr ⟨hwritable, hreturn hmetadata, hreturn htemporary, hscratch⟩,
      content, metadata, hstores, by rw [hledger]; rfl⟩
  · rintro ⟨hwritable, content, metadata, hstores, rfl⟩
    obtain ⟨hpath, hmetadata, htemporary, hscratch⟩ := forall_mem_files_iff.mp hwritable
    have hput := puts_put hpath hscratch content
    have hfiles : (World.mk (medium.put world.tree path content) world.ledger).ledger = none :=
      hledger
    exact ⟨metadata, _, (write_eq_ok_iff_writable hname hadds).mpr
      ⟨hpath, hscratch, content, hstores, rfl⟩,
      (World.recordMetadata_eq_ok_iff_writable hfiles hmetadataName).mpr
        ⟨htemporary.of_same hput.same, hmetadata.of_same hput.same, by rw [hledger]; rfl⟩⟩

end Medium

end TableAppend
