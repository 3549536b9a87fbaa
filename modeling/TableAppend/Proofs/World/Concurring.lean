import TableAppend.Proofs.Append.Commit
import TableAppend.Proofs.FileTree.Skirting
import TableAppend.Proofs.World.Staying

/-!
# Changes that go alike in two worlds

Of two worlds the second one lacks some files of the first.  A change whose paths keep away from these
has the same outcome in both, also where it fails, and it touches none of the files that are set apart.
What is known of the first tree before and after the change is part of the statement, since a file can
only be moved without harm to others if it is one.
-/

namespace TableAppend

open FileTree (Alike DirectoriesStay Skirts destination)

/-! ## Trees -/

namespace FileTree

variable {tree after : FileTree} {path source : Path} {content : Content} {bytes : Bytes}

theorem directoriesStay_removeFile (hremove : tree.removeFile path = .ok after) :
    DirectoriesStay tree after := by
  obtain ⟨there, content, hfind, rfl⟩ := removeFile_eq_ok_iff_find.mp hremove
  obtain ⟨rfl, hget⟩ := eq_of_find hfind
  refine (sameDirectories_eraseNode ?_).stay
  rw [Bool.eq_false_iff, ne_eq, isDirectoryAt_iff, hget]
  simp

theorem isFile_write (hwrite : tree.write path content = .ok after) : after.isFile path = true := by
  obtain ⟨hwritable, rfl⟩ := write_eq_ok_iff_writable.mp hwrite
  exact isFile_iff.mpr ⟨content, hwritable.node?_set content⟩

theorem isFile_append (happend : tree.append path bytes = .ok after) : after.isFile path = true := by
  have hstay := directoriesStay_append happend
  obtain ⟨there, content, hfind, rfl⟩ := append_eq_ok_iff_find.mp happend
  obtain ⟨rfl, hget⟩ := eq_of_find hfind
  have hne : destination path ≠ [] := by
    intro hroot
    rw [hroot] at hget
    simp at hget
  have hnode : tree.node? path = some (.file content) := by rw [node?, hfind]
  exact isFile_iff.mpr ⟨_, hstay.node?_eq hnode (get?_set_same _ _ _ hne)⟩

theorem isFile_rename (hsource : tree.isFile source = true)
    (hrename : tree.rename source path = .ok after) : after.isFile path = true := by
  obtain ⟨content, hnode⟩ := isFile_iff.mp hsource
  have hstay := directoriesStay_rename_of_file hnode hrename
  obtain ⟨start, origin, node, there, -, hfind, hplace, hends, -, rfl⟩ :=
    rename_eq_ok_iff_place.mp hrename
  obtain ⟨rfl, rfl⟩ : destination source = origin ∧ .file content = node := by
    simpa using (find_eq_of_node? hnode).symm.trans hfind
  have hget : (if there = destination source then tree else
      (tree.eraseNode (destination source)).set there (.file content)).get? there =
        some (.file content) := by
    split
    · rename_i hthere
      rw [hthere, get?_of_node? hnode]
    · exact get?_set_same _ _ _ (eq_of_place hplace).2
  exact isFile_iff.mpr ⟨content, by rw [node?, hstay.find_of_place hplace hget (.inr hends)]⟩

end FileTree

/-! ## Worlds side by side -/

namespace World

variable {lost apart : Set Location} {full bare after later last final : World}

/-- Two worlds have changed alike, and files that are set apart are as they were. -/
structure Alongside (lost apart : Set Location) (full bare after later : World) : Prop where
  lacks : FileTree.Lacks lost after.tree later.tree
  ledger : after.ledger = full.ledger
  bareLedger : later.ledger = bare.ledger
  stay : DirectoriesStay full.tree after.tree
  get?_eq : ∀ place ∈ apart, after.tree.get? place = full.tree.get? place

theorem Alongside.refl (hlacks : FileTree.Lacks lost full.tree bare.tree) :
    Alongside lost apart full bare full bare :=
  ⟨hlacks, rfl, rfl, .refl _, fun _ _ => rfl⟩

theorem Alongside.trans (hfirst : Alongside lost apart full bare after later)
    (hsecond : Alongside lost apart after later last final) :
    Alongside lost apart full bare last final where
  lacks := hsecond.lacks
  ledger := hsecond.ledger.trans hfirst.ledger
  bareLedger := hsecond.bareLedger.trans hfirst.bareLedger
  stay := hfirst.stay.trans hsecond.stay
  get?_eq place hplace := (hsecond.get?_eq place hplace).trans (hfirst.get?_eq place hplace)

end World

open World (Alongside)

namespace Change

variable {α β : Type} {lost apart : Set Location} {given between ensured : FileTree → Prop}
  {path source : Path}

/-- Nothing is known of a tree. -/
def anyTree : FileTree → Prop :=
  fun _ => True

/-- In two worlds of which the second one lacks some files the change has the same outcome and leaves
such worlds.  If it succeeds, more is known of the first one than before. -/
def Concurs (change : Change α) (lost apart : Set Location) (given ensured : FileTree → Prop) : Prop :=
  ∀ full bare : World, FileTree.Lacks lost full.tree bare.tree → given full.tree →
    (run change bare).1 = (run change full).1 ∧
      Alongside lost apart full bare (run change full).2 (run change bare).2 ∧
        ∀ value, (run change full).1 = .ok value → ensured (run change full).2.tree

theorem Concurs.bind {change : Change α} {next : α → Change β}
    (hchange : change.Concurs lost apart given between)
    (hnext : ∀ value, (next value).Concurs lost apart between ensured) :
    (change >>= next).Concurs lost apart given ensured := by
  intro full bare hlacks hgiven
  obtain ⟨hsame, halong, hbetween⟩ := hchange full bare hlacks hgiven
  rw [run_bind, run_bind]
  rcases hfull : run change full with ⟨result, after⟩
  rcases hbare : run change bare with ⟨other, later⟩
  rw [hfull, hbare] at hsame halong
  rw [hfull] at hbetween
  obtain rfl : other = result := hsame
  cases other with
  | error failure => exact ⟨rfl, halong, fun value hvalue => by cases hvalue⟩
  | ok value =>
    obtain ⟨hresult, hmore, hensured⟩ := hnext value after later halong.lacks (hbetween value rfl)
    exact ⟨hresult, halong.trans hmore, hensured⟩

theorem concurs_pure (value : α) : (pure value : Change α).Concurs lost apart given given :=
  fun _ _ hlacks hgiven => ⟨rfl, .refl hlacks, fun _ _ => hgiven⟩

theorem concurs_throw (failure : Failure) :
    (throw failure : Change α).Concurs lost apart given ensured :=
  fun _ _ hlacks _ => ⟨rfl, .refl hlacks, fun value hvalue => by cases hvalue⟩

theorem concurs_ofOutcome (outcome : Outcome α) :
    (ofOutcome outcome).Concurs lost apart given given :=
  fun _ _ hlacks hgiven => ⟨rfl, .refl hlacks, fun _ _ => hgiven⟩

theorem concurs_inspect {question : World → Outcome α} (hquestion : ∀ full bare : World,
      FileTree.Lacks lost full.tree bare.tree → question bare = question full) :
    (inspect question).Concurs lost apart given given :=
  fun full bare hlacks hgiven => ⟨hquestion full bare hlacks, .refl hlacks, fun _ _ => hgiven⟩

/-- What is done about a failure begins with a tree of which nothing is known. -/
theorem Concurs.tryCatch {change : Change α} {handle : Failure → Change α}
    (hchange : change.Concurs lost apart given ensured)
    (hhandle : ∀ failure, (handle failure).Concurs lost apart anyTree ensured) :
    (MonadExcept.tryCatch change handle).Concurs lost apart given ensured := by
  intro full bare hlacks hgiven
  obtain ⟨hsame, halong, hensured⟩ := hchange full bare hlacks hgiven
  have hrun := run_tryCatch change handle
  rw [hrun full, hrun bare]
  rcases hfull : run change full with ⟨result, after⟩
  rcases hbare : run change bare with ⟨other, later⟩
  rw [hfull, hbare] at hsame halong
  rw [hfull] at hensured
  obtain rfl : other = result := hsame
  cases other with
  | ok value => exact ⟨rfl, halong, hensured⟩
  | error failure =>
    obtain ⟨hresult, hmore, hlast⟩ := hhandle failure after later halong.lacks trivial
    exact ⟨hresult, halong.trans hmore, hlast⟩

/-! ## Changes of the tree -/

theorem concurs_onTree {change : FileTree → Except IoFault FileTree}
    (halike : ∀ full bare, FileTree.Lacks lost full bare → Alike lost (change full) (change bare))
    (hkeeps : ∀ tree after, given tree → change tree = .ok after → DirectoriesStay tree after ∧
      (∀ place ∈ apart, after.get? place = tree.get? place) ∧ ensured after) :
    (onTree change).Concurs lost apart given ensured := by
  intro full bare hlacks hgiven
  have hboth := halike _ _ hlacks
  rw [run_onTree, run_onTree]
  cases hfull : change full.tree with
  | error fault =>
    rw [hfull] at hboth
    rw [hboth.eq_error]
    exact ⟨rfl, .refl hlacks, fun value hvalue => by cases hvalue⟩
  | ok after =>
    rw [hfull] at hboth
    obtain ⟨later, hlater, hstill⟩ := hboth.exists_of_ok
    obtain ⟨hstay, hget, hensured⟩ := hkeeps _ _ hgiven hfull
    rw [hlater]
    exact ⟨rfl, ⟨hstill, rfl, rfl, hstay, hget⟩, fun _ _ => hensured⟩

variable (hsub : lost ⊆ apart) (hskirts : Skirts apart path)

include hskirts

theorem ne_destination {place : Location} (hplace : place ∈ apart) : place ≠ destination path :=
  fun hsame => hskirts.destination_notMem (hsame ▸ hplace)

include hsub

theorem concurs_write (content : Content) :
    (onTree fun tree => tree.write path content).Concurs lost apart anyTree
      fun tree => tree.isFile path = true :=
  concurs_onTree (fun _ _ hlacks => hlacks.alike_write (hskirts.mono hsub) content)
    fun _ _ _ hwrite => ⟨FileTree.directoriesStay_write hwrite,
      fun _ hplace => FileTree.get?_write (ne_destination hskirts hplace) hwrite,
      FileTree.isFile_write hwrite⟩

theorem concurs_append (bytes : Bytes) :
    (onTree fun tree => tree.append path bytes).Concurs lost apart anyTree
      fun tree => tree.isFile path = true :=
  concurs_onTree (fun _ _ hlacks => hlacks.alike_append (hskirts.mono hsub) bytes)
    fun _ _ _ happend => ⟨FileTree.directoriesStay_append happend,
      fun _ hplace => FileTree.get?_append (ne_destination hskirts hplace) happend,
      FileTree.isFile_append happend⟩

theorem concurs_rename (hsource : Skirts apart source) :
    (onTree fun tree => tree.rename source path).Concurs lost apart
      (fun tree => tree.isFile source = true) fun tree => tree.isFile path = true := by
  refine concurs_onTree (fun _ _ hlacks => hlacks.alike_rename (hskirts.mono hsub) (hsource.mono hsub))
    fun tree after hfile hrename => ⟨?_, fun _ hplace => ?_, FileTree.isFile_rename hfile hrename⟩
  · obtain ⟨content, hnode⟩ := FileTree.isFile_iff.mp hfile
    exact FileTree.directoriesStay_rename_of_file hnode hrename
  · exact FileTree.get?_rename (ne_destination hsource hplace) (ne_destination hskirts hplace) hrename

theorem concurs_makeDirectories : (makeDirectories path).Concurs lost apart anyTree anyTree := by
  intro full bare hlacks _
  obtain ⟨hresult, hstill⟩ := hlacks.alike_makeDirectories (hskirts.mono hsub)
  rw [run_makeDirectories, run_makeDirectories, hresult]
  refine ⟨rfl, ⟨hstill, rfl, rfl, FileTree.directoriesStay_makeEach rfl, fun place hplace => ?_⟩,
    fun _ _ => trivial⟩
  exact FileTree.get?_makeEach fun other hother =>
    ne_destination (hskirts.of_mem_ancestors hother) hplace

end Change

open Change (Concurs anyTree concurs_pure concurs_throw concurs_ofOutcome concurs_inspect
  concurs_onTree concurs_write concurs_append concurs_rename ne_destination)

/-! ## Writing a data file -/

section Writing

variable {lost apart : Set Location} {path : Path} (hsub : lost ⊆ apart) (hskirts : Skirts apart path)

include hsub hskirts

theorem Delimited.concurs_write (dialect : Dialect) (rows : Batch) (layout : Layout) :
    (write dialect path rows layout).Concurs lost apart anyTree
      fun tree => tree.isFile path = true := by
  rw [write]
  cases layout.columns with
  | none => exact (Change.concurs_write hsub hskirts _).bind fun _ => concurs_pure _
  | some header =>
    have hend : (Change.onTree fun tree => do
        let bytes ← tree.readBytes path
        tree.append path (missingLineEnd bytes)).Concurs lost apart anyTree anyTree := by
      refine concurs_onTree (fun full bare hlacks => ?_) fun tree after _ hafter => ?_
      · rw [hlacks.readBytes_eq (hskirts.mono hsub)]
        cases full.readBytes path with
        | error fault => exact .failed fault
        | ok bytes => exact hlacks.alike_append (hskirts.mono hsub) _
      · obtain ⟨bytes, -, happend⟩ := FileTree.exists_of_bind_eq_ok hafter
        exact ⟨FileTree.directoriesStay_append happend,
          fun _ hplace => FileTree.get?_append (ne_destination hskirts hplace) happend, trivial⟩
    exact hend.bind fun _ => (concurs_ofOutcome _).bind fun _ =>
      (concurs_append hsub hskirts _).bind fun _ => concurs_pure _

theorem Columnar.concurs_save (codec : Codec) (schema : Schema) (rows : Batch) :
    (save codec schema rows path).Concurs lost apart anyTree
      fun tree => tree.isFile path = true := by
  refine (concurs_ofOutcome _).bind fun saved => ?_
  obtain ⟨content, failure?⟩ := saved
  refine (Change.concurs_write hsub hskirts content).bind fun _ => ?_
  cases failure? with
  | none => exact concurs_pure _
  | some failure => exact concurs_throw failure

theorem Columnar.concurs_discard : (discard path).Concurs lost apart anyTree anyTree := by
  intro full bare hlacks _
  have hboth := hlacks.alike_removeFile (hskirts.mono hsub)
  rw [run_discard, run_discard]
  refine ⟨rfl, ?_, fun _ _ => trivial⟩
  cases hfull : full.tree.removeFile path with
  | error fault =>
    rw [hfull] at hboth
    rw [hboth.eq_error]
    exact .refl hlacks
  | ok after =>
    rw [hfull] at hboth
    obtain ⟨later, hlater, hstill⟩ := hboth.exists_of_ok
    rw [hlater]
    exact ⟨hstill, rfl, rfl, FileTree.directoriesStay_removeFile hfull,
      fun _ hplace => FileTree.get?_removeFile (ne_destination hskirts hplace) hfull⟩

theorem Columnar.concurs_write
    (htemporary : Skirts apart (path.besides Metadata.temporaryEnding)) (codec : Option Codec)
    (rows : Batch) (layout : Layout) : (write codec path rows layout).Concurs lost apart anyTree
      fun tree => tree.isFile path = true := by
  have htable : ∀ full bare : World, FileTree.Lacks lost full.tree bare.tree →
      readTable bare.tree path = readTable full.tree path := by
    intro full bare hlacks
    rw [readTable, readTable, hlacks.find_eq (hskirts.mono hsub)]
  refine (concurs_ofOutcome _).bind fun present =>
    (concurs_inspect fun full bare hlacks => ?_).bind fun all =>
      (concurs_inspect fun full bare hlacks => ?_).bind fun schema =>
        ((concurs_save hsub htemporary present schema all).tryCatch fun failure =>
          (concurs_discard hsub htemporary).bind fun _ => concurs_throw failure).bind fun _ =>
            (concurs_rename hsub hskirts htemporary).bind fun _ => concurs_pure _
  · rw [allRows, allRows, htable full bare hlacks]
  · rw [keptSchema, keptSchema, htable full bare hlacks]

/-- Rows are written alike if neither the path nor its temporary form touches what is set apart. -/
theorem Medium.concurs_write (medium : Medium)
    (htemporary : Skirts apart (path.besides Metadata.temporaryEnding)) (rows : Batch)
    (layout : Layout) : (medium.write path rows layout).Concurs lost apart anyTree
      fun tree => tree.isFile path = true := by
  cases medium with
  | delimited dialect => exact Delimited.concurs_write hsub hskirts dialect rows layout
  | columnar codec => exact Columnar.concurs_write hsub hskirts htemporary codec rows layout

end Writing

end TableAppend
