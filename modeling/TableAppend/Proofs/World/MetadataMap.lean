import TableAppend.Proofs.FileTree.Entries
import TableAppend.Proofs.World.Counterpart

/-!
# Metadata files as a map

Whatever is recorded and read in whichever order, metadata files answer like a map from data files to
metadata.  The metadata files of different data files have different names, and no temporary file has
the name of a metadata file, so `Maps` is preserved by each call and `answers_eq` follows by induction
on the calls.  A data file is known by its place; plain paths have the same place only if they are the
same path.
-/

namespace TableAppend

open Change (run)
open FileTree (SameDirectories checkPath destination moves useFault?)

/-! ## Paths of data files -/

namespace Path

/-- A path that does not use the current directory or go up. -/
def IsPlain (path : Path) : Prop :=
  ∀ component ∈ path.components, component ≠ .here ∧ component ≠ .up

theorem foldl_target_names (names : List String) (here : Location) :
    (names.map FileTree.Step.down).foldl FileTree.Step.target here = here ++ names := by
  induction names generalizing here with
  | nil => simp
  | cons name rest ih =>
    rw [List.map_cons, List.foldl_cons, ih]
    simp [FileTree.Step.target]

/-- A plain path is read as the names on the way to its place. -/
theorem IsPlain.components_eq {path : Path} (hplain : path.IsPlain) : path.components =
    (if path.isRooted then [.root] else []) ++ (destination path).map Component.name := by
  have hfront : path.components =
      (if path.isRooted then [.root] else []) ++ path.pieces.filterMap componentOfPiece? := by
    have hall := hplain
    rw [IsPlain, components] at hall
    rw [components]
    cases hrooted : path.isRooted with
    | true => rfl
    | false =>
      by_cases hhere : path.pieces.head? = some "."
      · simp only [hrooted, Bool.false_eq_true, if_false, hhere, if_true] at hall
        exact absurd rfl (hall .here List.mem_cons_self).1
      · simp [hhere]
  have hread : ∀ component ∈ path.pieces.filterMap componentOfPiece?,
      component ∈ Set.range Component.name := by
    intro component hmem
    have hup := (hplain component (hfront ▸ List.mem_append_right _ hmem)).2
    obtain ⟨piece, -, hpiece⟩ := List.mem_filterMap.mp hmem
    rw [componentOfPiece?] at hpiece
    split at hpiece
    · contradiction
    · split at hpiece
      · exact absurd (Option.some.inj hpiece).symm hup
      · exact ⟨piece, Option.some.inj hpiece⟩
  obtain ⟨names, hnames⟩ : path.pieces.filterMap componentOfPiece? ∈
      Set.range (List.map Component.name) := by
    rw [Set.range_list_map]
    exact hread
  have hmoves : moves path = names.map .down := by
    rw [FileTree.moves_eq, hfront, ← hnames, List.filterMap_append, List.filterMap_map]
    have hdown : FileTree.moveOf? ∘ Component.name = some ∘ FileTree.Step.down := rfl
    rw [hdown, ← List.filterMap_map, List.filterMap_some]
    cases path.isRooted <;> rfl
  rw [hfront, ← hnames, FileTree.destination_eq_moves, hmoves, foldl_target_names, List.nil_append]

/-- Plain paths that are all relative, or all begin at the root, lead to one place only if they are the
same. -/
theorem IsPlain.destination_eq_iff {path other : Path} (hpath : path.IsPlain) (hother : other.IsPlain)
    (hrooted : path.isRooted = other.isRooted) :
    destination path = destination other ↔ path.same other = true := by
  refine ⟨fun hsame => ?_, FileTree.destination_eq_of_same⟩
  rw [same, hpath.components_eq, hother.components_eq, hsame, hrooted, decide_eq_true_eq]

/-- Why metadata cannot be recorded for a data file, if it cannot: the temporary form of the metadata file
has the longest name. -/
def recordFault? (path : Path) : Option IoFault :=
  useFault? ((Metadata.path path).besides Metadata.temporaryEnding)
    (path.fileName?.getD "" ++ (Metadata.ending ++ Metadata.temporaryEnding))

end Path

/-! ## Data files with metadata -/

/-- Metadata of a data file can be kept in files: its directory is there, and no other directory has a
name that is needed. -/
structure FileTree.Houses (tree : FileTree) (path : Path) : Prop where
  named : ∃ name, path.fileName? = some name
  directory : tree.isDirectory path.directory = true
  metadata : tree.isDirectoryAt (destination (Metadata.path path)) = false
  temporary :
    tree.isDirectoryAt (destination ((Metadata.path path).besides Metadata.temporaryEnding)) = false

namespace FileTree.Houses

variable {tree after : FileTree} {path : Path} (hpath : tree.Houses path)

include hpath

theorem of_same (hsame : SameDirectories tree after) : after.Houses path where
  named := hpath.named
  directory := hsame.stay.isDirectory hpath.directory
  metadata := (hsame _).trans hpath.metadata
  temporary := (hsame _).trans hpath.temporary

/-- The metadata file and its temporary form are entries of the directory of the data file. -/
theorem exists_entries : ∃ name outer, path.fileName? = some name ∧
    moves outer = moves path.directory ∧ Path.IsName (name ++ Metadata.ending) ∧
      Path.IsName (name ++ (Metadata.ending ++ Metadata.temporaryEnding)) ∧
        Metadata.path path = outer.join (name ++ Metadata.ending) ∧
          (Metadata.path path).besides Metadata.temporaryEnding =
            outer.join (name ++ (Metadata.ending ++ Metadata.temporaryEnding)) := by
  obtain ⟨name, hname⟩ := hpath.named
  obtain ⟨parent, hparent⟩ := Path.exists_parent?_of_fileName? hname
  have hmoves := Path.moves_directory hname
  rw [FileTree.moves_of_parent hname hparent] at hmoves
  have hisName := Path.isName_of_fileName? hname
  refine ⟨name, parent, hname, List.append_inj_left' hmoves rfl,
    Path.isName_append hisName (by decide) (by decide),
    Path.isName_append hisName (by decide) (by decide), Path.besides_of_parent hname hparent _, ?_⟩
  rw [FileTree.besides_metadata hname, Path.besides_of_parent hname hparent]

/-- Metadata is read from the metadata file of a data file exactly if the path to it can be used. -/
theorem node?_metadata_iff {node : Node} : tree.node? (Metadata.path path) = some node ↔
    tree.get? (destination (Metadata.path path)) = some node ∧
      useFault? (Metadata.path path) (path.fileName?.getD "" ++ Metadata.ending) = none := by
  obtain ⟨name, outer, hname, hmoves, hmetadata, -, hjoin, -⟩ := hpath.exists_entries
  rw [hjoin, FileTree.destination_join_of_moves hmoves hmetadata, hname, Option.getD_some,
    FileTree.node?_join_iff hpath.directory hmoves hmetadata]
  exact ⟨fun hstands => ⟨hstands.get?_eq, hstands.usable⟩, fun ⟨hget, husable⟩ => ⟨hget, husable⟩⟩

/-- Where the temporary form of a metadata file can be used, both can be written. -/
theorem writable_of_recordFault? (hfault : path.recordFault? = none) :
    tree.Writable (Metadata.path path) ∧
      tree.Writable ((Metadata.path path).besides Metadata.temporaryEnding) ∧
        useFault? (Metadata.path path) (path.fileName?.getD "" ++ Metadata.ending) = none := by
  obtain ⟨name, outer, hname, hmoves, hmetadata, htemporary, hfirst, hsecond⟩ := hpath.exists_entries
  have hnot := hpath.metadata
  have hfree := hpath.temporary
  rw [hfirst, FileTree.destination_join_of_moves hmoves hmetadata] at hnot
  rw [hsecond, FileTree.destination_join_of_moves hmoves htemporary] at hfree
  rw [Path.recordFault?, hsecond, hname, Option.getD_some] at hfault
  rw [hsecond, hfirst, hname, Option.getD_some]
  have hshorter : useFault? (outer.join (name ++ Metadata.ending)) (name ++ Metadata.ending) = none := by
    rw [← String.append_assoc] at hfault htemporary
    exact FileTree.useFault?_of_longer hmetadata htemporary hfault
  exact ⟨(FileTree.writable_join_iff hpath.directory hmoves hmetadata).mpr ⟨hshorter, hnot⟩,
    (FileTree.writable_join_iff hpath.directory hmoves htemporary).mpr ⟨hfault, hfree⟩, hshorter⟩

end FileTree.Houses

/-- The tree after metadata has been recorded for a data file. -/
def FileTree.withRecord (tree : FileTree) (path : Path) (metadata : Metadata) : FileTree :=
  tree.moved (destination ((Metadata.path path).besides Metadata.temporaryEnding))
    (destination (Metadata.path path)) (.bytes (Utf8.encode metadata.toText))

/-- A record is written in full, or nothing is written. -/
theorem World.run_recordMetadata_of_houses {world : World} {path : Path}
    (hpath : world.tree.Houses path) (hledger : world.ledger = none) (metadata : Metadata) :
    run (recordMetadata path metadata) world = match path.recordFault? with
      | some fault => (.error (.io fault), world)
      | none => (.ok (), { world with tree := world.tree.withRecord path metadata }) := by
  obtain ⟨name, outer, hname, hmoves, hmetadata, htemporary, hfirst, hsecond⟩ := hpath.exists_entries
  cases hfault : path.recordFault? with
  | some fault =>
    rw [Path.recordFault?, hsecond, hname, Option.getD_some] at hfault
    have hwrite := FileTree.write_join_eq_error hpath.directory hmoves htemporary hfault
      (.bytes (Utf8.encode metadata.toText))
    rw [recordMetadata_of_files hledger, Change.replace, Change.run_bind, Change.run_onTree,
      hsecond, hwrite]
  | none =>
    obtain ⟨hwritable, hscratch, -⟩ := hpath.writable_of_recordFault? hfault
    have hlast : (Metadata.path path).fileName? = some (name ++ Metadata.ending) := by
      rw [hfirst, Path.fileName?_join _ hmetadata]
    exact (recordMetadata_eq_ok_iff_writable hledger hlast).mpr ⟨hscratch, hwritable, rfl⟩

/-! ## Calls -/

/-- One use of the metadata of data files. -/
inductive MetadataCall where
  | write (path : Path) (metadata : Metadata)
  | read (path : Path)

inductive MetadataAnswer where
  | written (outcome : Outcome Unit)
  | found (outcome : Outcome (Option Metadata))
  deriving DecidableEq

/-- Metadata by the place of the data file. -/
abbrev MetadataMap := Location → Option Metadata

namespace MetadataCall

def path : MetadataCall → Path
  | write path _ => path
  | read path => path

/-- What a world answers, and the world after it. -/
def onWorld (world : World) : MetadataCall → MetadataAnswer × World
  | write path metadata =>
    let (outcome, after) := run (World.recordMetadata path metadata) world
    (.written outcome, after)
  | read path => (.found (world.metadata path), world)

/-- What a map answers, and the map after it.  Where nothing has been recorded it answers with what was
known at the `start`.  A path can be too long to be used; nothing is recorded or found for it then. -/
def onMap (start : World) (map : MetadataMap) : MetadataCall → MetadataAnswer × MetadataMap
  | write path metadata =>
    match path.recordFault? with
    | none => (.written (.ok ()), Function.update map (destination path) (some metadata))
    | some fault => (.written (.error (.io fault)), map)
  | read path =>
    match map (destination path) with
    | some metadata =>
      (.found (.ok (if checkPath (Metadata.path path) = .ok () then some metadata else none)), map)
    | none => (.found (start.metadata path), map)

theorem onWorld_write (world : World) (path : Path) (metadata : Metadata) :
    onWorld world (write path metadata) =
      (.written (run (World.recordMetadata path metadata) world).1,
        (run (World.recordMetadata path metadata) world).2) :=
  rfl

theorem onWorld_read (world : World) (path : Path) :
    onWorld world (read path) = (.found (world.metadata path), world) :=
  rfl

theorem onMap_write (start : World) (map : MetadataMap) (path : Path) (metadata : Metadata) :
    onMap start map (write path metadata) = match path.recordFault? with
      | none => (.written (.ok ()), Function.update map (destination path) (some metadata))
      | some fault => (.written (.error (.io fault)), map) := by
  unfold onMap
  with_reducible rfl

theorem onMap_read (start : World) (map : MetadataMap) (path : Path) :
    onMap start map (read path) = match map (destination path) with
      | some metadata =>
        (.found (.ok (if checkPath (Metadata.path path) = .ok () then some metadata else none)), map)
      | none => (.found (start.metadata path), map) := by
  unfold onMap
  with_reducible rfl

/-- The answers to calls one after the other, and the state after them. -/
def answers {State : Type} (answer : State → MetadataCall → MetadataAnswer × State) (state : State) :
    List MetadataCall → List MetadataAnswer × State
  | [] => ([], state)
  | call :: rest =>
    let (first, between) := answer state call
    let (others, after) := answers answer between rest
    (first :: others, after)

end MetadataCall

/-! ## What is kept -/

/-- The metadata files of a world are what a map says, and all other files are those of the tree at the
start. -/
structure Maps (start : FileTree) (map : MetadataMap) (world : World) : Prop where
  ledger_eq : world.ledger = none
  same : SameDirectories start world.tree
  recorded : ∀ path, start.Houses path → ∀ metadata, map (destination path) = some metadata →
    world.tree.get? (destination (Metadata.path path)) =
      some (.file (.bytes (Utf8.encode metadata.toText)))
  /-- No temporary file remains. -/
  gone : ∀ path, start.Houses path → (map (destination path)).isSome →
    world.tree.get? (destination ((Metadata.path path).besides Metadata.temporaryEnding)) = none
  fits : ∀ path, start.Houses path → (map (destination path)).isSome →
    (path.fileName?.getD "" ++ Metadata.ending).utf8ByteSize ≤ FileTree.longestName
  others : ∀ place, (∀ path, start.Houses path → (map (destination path)).isSome →
    place ≠ destination (Metadata.path path) ∧
      place ≠ destination ((Metadata.path path).besides Metadata.temporaryEnding)) →
    world.tree.get? place = start.get? place

/-- Nothing is stored about a data file without a metadata file. -/
theorem World.storedMetadata_of_get?_eq_none {tree : FileTree} {path : Path}
    (hnone : tree.get? (destination (Metadata.path path)) = none) :
    storedMetadata tree path = .ok none := by
  have hfile : ¬tree.isFile (Metadata.path path) = true := by
    intro hfile
    obtain ⟨content, hcontent⟩ := FileTree.isFile_iff.mp hfile
    exact Option.some_ne_none _ ((FileTree.get?_of_node? hcontent).symm.trans hnone)
  rw [storedMetadata, if_neg hfile]

theorem maps_start (tree : FileTree) : Maps tree (fun _ => none) ⟨tree, none⟩ where
  ledger_eq := rfl
  same := .refl tree
  recorded _ _ _ hmap := by contradiction
  gone _ _ hmap := by contradiction
  fits _ _ hmap := by contradiction
  others _ _ := rfl

namespace Maps

variable {start : FileTree} {map : MetadataMap} {world : World} {path other : Path}
  (hmaps : Maps start map world) (hpath : start.Houses path)

section Apart

variable (hother : start.Houses other)

omit hmaps

include hpath hother

/-- Different data files have nothing in common that is written for them. -/
theorem places_ne (hne : destination path ≠ destination other) :
    destination (Metadata.path path) ≠ destination (Metadata.path other) ∧
      destination (Metadata.path path) ≠
        destination ((Metadata.path other).besides Metadata.temporaryEnding) ∧
      destination ((Metadata.path path).besides Metadata.temporaryEnding) ≠
        destination (Metadata.path other) ∧
      destination ((Metadata.path path).besides Metadata.temporaryEnding) ≠
        destination ((Metadata.path other).besides Metadata.temporaryEnding) := by
  obtain ⟨name, hname⟩ := hpath.named
  obtain ⟨last, hlast⟩ := hother.named
  exact ⟨(Path.destination_metadata_eq_iff hname hlast).not.mpr hne,
    Path.destination_metadata_ne_temporary hname hlast,
    (Path.destination_metadata_ne_temporary hlast hname).symm,
    (Path.destination_temporary_eq_iff hname hlast).not.mpr hne⟩

/-- Whatever the path to a data file, it has the same files. -/
theorem places_eq (hsame : destination path = destination other) :
    destination (Metadata.path other) = destination (Metadata.path path) ∧
      destination ((Metadata.path other).besides Metadata.temporaryEnding) =
        destination ((Metadata.path path).besides Metadata.temporaryEnding) ∧
          other.fileName? = path.fileName? := by
  obtain ⟨name, hname⟩ := hpath.named
  obtain ⟨last, hlast⟩ := hother.named
  refine ⟨(Path.destination_metadata_eq_iff hlast hname).mpr hsame.symm,
    (Path.destination_temporary_eq_iff hlast hname).mpr hsame.symm, ?_⟩
  rw [Path.destination_directory hlast, Path.destination_directory hname] at hsame
  rw [hlast, hname, (List.cons.inj (List.append_inj' hsame rfl).2).1]

end Apart

include hmaps hpath

/-- What is read about a data file. -/
theorem metadata_eq : world.metadata path = match map (destination path) with
    | some metadata => .ok (if checkPath (Metadata.path path) = .ok () then some metadata else none)
    | none => (World.mk start none).metadata path := by
  have hnow := hpath.of_same hmaps.same
  cases hmap : map (destination path) with
  | some metadata =>
    have hget := hmaps.recorded path hpath metadata hmap
    have hfits := hmaps.fits path hpath (by rw [hmap]; rfl)
    dsimp only
    split
    · rename_i hcheck
      have hnode := hnow.node?_metadata_iff.mpr
        ⟨hget, FileTree.useFault?_eq_none_iff.mpr ⟨hcheck, hfits⟩⟩
      rw [World.metadata_of_node? hmaps.ledger_eq hnode, metadata.ofText?_toText]
    · rename_i hcheck
      have hfile : ¬world.tree.isFile (Metadata.path path) = true := by
        intro hfile
        obtain ⟨content, hcontent⟩ := FileTree.isFile_iff.mp hfile
        exact hcheck (FileTree.useFault?_eq_none_iff.mp (hnow.node?_metadata_iff.mp hcontent).2).1
      rw [World.metadata, hmaps.ledger_eq]
      dsimp only
      rw [World.storedMetadata, if_neg hfile]
  | none =>
    have hget : world.tree.get? (destination (Metadata.path path)) =
        start.get? (destination (Metadata.path path)) := by
      refine hmaps.others _ fun other hother hsome => ?_
      have hne : destination path ≠ destination other := by
        intro hsame
        rw [← hsame, hmap] at hsome
        contradiction
      obtain ⟨hfirst, hsecond, -, -⟩ := places_ne hpath hother hne
      exact ⟨hfirst, hsecond⟩
    have hnode : world.tree.node? (Metadata.path path) = start.node? (Metadata.path path) := by
      apply Option.ext
      intro node
      rw [hnow.node?_metadata_iff, hpath.node?_metadata_iff, hget]
    have hstart : (World.mk start none).metadata path = World.storedMetadata start path := rfl
    dsimp only
    rw [World.metadata, hmaps.ledger_eq, hstart]
    exact World.storedMetadata_congr hnode

/-- Recording metadata for a data file. -/
theorem record (hfault : path.recordFault? = none) (metadata : Metadata) :
    Maps start (Function.update map (destination path) (some metadata))
      { world with tree := world.tree.withRecord path metadata } := by
  obtain ⟨hwritable, hscratch, husable⟩ :=
    (hpath.of_same hmaps.same).writable_of_recordFault? hfault
  obtain ⟨name, hname⟩ := hpath.named
  have hput : FileTree.Puts world.tree (world.tree.withRecord path metadata) _ _ _ :=
    hwritable.puts_moved hscratch (.bytes (Utf8.encode metadata.toText))
  have hdirect := (Path.destination_metadata_ne_temporary hname hname).symm
  have hupdate : ∀ place, Function.update map (destination path) (some metadata) place =
      if place = destination path then some metadata else map place :=
    fun place => Function.update_apply map _ _ place
  have hkept : ∀ place, place ≠ destination (Metadata.path path) →
      place ≠ destination ((Metadata.path path).besides Metadata.temporaryEnding) →
        (world.tree.withRecord path metadata).get? place = world.tree.get? place :=
    fun place hfirst hsecond => FileTree.get?_moved hsecond hfirst _
  refine ⟨hmaps.ledger_eq, hmaps.same.trans hput.same, fun other hother found hfound => ?_,
    fun other hother hsome => ?_, fun other hother hsome => ?_, fun place hplace => ?_⟩
  · rw [hupdate] at hfound
    split at hfound
    · rename_i hsame
      rw [(places_eq hpath hother hsame.symm).1, ← Option.some.inj hfound]
      exact FileTree.get?_of_node? hput.node?
    · rename_i hne
      obtain ⟨hfirst, hsecond, -, -⟩ := places_ne hother hpath hne
      rw [hkept _ hfirst hsecond]
      exact hmaps.recorded other hother found hfound
  · rw [hupdate] at hsome
    split at hsome
    · rename_i hsame
      rw [(places_eq hpath hother hsame.symm).2.1]
      exact hput.gone _ (List.mem_singleton_self _) hdirect
    · rename_i hne
      obtain ⟨-, -, hthird, hfourth⟩ := places_ne hother hpath hne
      rw [hkept _ hthird hfourth]
      exact hmaps.gone other hother hsome
  · rw [hupdate] at hsome
    split at hsome
    · rename_i hsame
      rw [(places_eq hpath hother hsame.symm).2.2]
      exact (FileTree.useFault?_eq_none_iff.mp husable).2
    · exact hmaps.fits other hother hsome
  · have hself := hplace path hpath (by rw [hupdate, if_pos rfl]; rfl)
    rw [hkept place hself.1 hself.2]
    refine hmaps.others place fun other hother hsome => hplace other hother ?_
    rw [hupdate]
    split
    · rfl
    · exact hsome

end Maps

/-! ## All calls -/

namespace MetadataCall

variable {start : FileTree} {map : MetadataMap} {world : World}

/-- One call is answered as by a map. -/
theorem onWorld_of_maps (hmaps : Maps start map world) {call : MetadataCall}
    (hcall : start.Houses call.path) :
    (onWorld world call).1 = (onMap ⟨start, none⟩ map call).1 ∧
      Maps start (onMap ⟨start, none⟩ map call).2 (onWorld world call).2 := by
  cases call with
  | read path =>
    have hcall : start.Houses path := hcall
    rw [onWorld_read, onMap_read, hmaps.metadata_eq hcall]
    cases map (destination path) with
    | some metadata => exact ⟨rfl, hmaps⟩
    | none => exact ⟨rfl, hmaps⟩
  | write path metadata =>
    have hcall : start.Houses path := hcall
    rw [onWorld_write, onMap_write,
      World.run_recordMetadata_of_houses (hcall.of_same hmaps.same) hmaps.ledger_eq metadata]
    cases hfault : path.recordFault? with
    | some fault => exact ⟨rfl, hmaps⟩
    | none => exact ⟨rfl, hmaps.record hcall hfault metadata⟩

/-- Any calls, one after the other, are answered as by a map. -/
theorem answers_of_maps {calls : List MetadataCall} (hcalls : ∀ call ∈ calls, start.Houses call.path)
    (hmaps : Maps start map world) :
    (answers onWorld world calls).1 = (answers (onMap ⟨start, none⟩) map calls).1 ∧
      Maps start (answers (onMap ⟨start, none⟩) map calls).2 (answers onWorld world calls).2 := by
  induction calls generalizing map world with
  | nil => exact ⟨rfl, hmaps⟩
  | cons call rest ih =>
    rw [List.forall_mem_cons] at hcalls
    obtain ⟨hanswer, hbetween⟩ := onWorld_of_maps hmaps hcalls.1
    obtain ⟨hanswers, hafter⟩ := ih hcalls.2 hbetween
    rw [answers, answers]
    dsimp only
    rw [hanswer, hanswers]
    exact ⟨rfl, hafter⟩

/-- Metadata files answer any calls, one after the other, like a map that is empty at the start; in the
end they hold what the map says, no temporary file remains of what has been recorded, and no other file
has changed.  Nothing is found at the start where there is no metadata file, and data files at one place
have the same path if their paths are plain. -/
theorem answers_of_files {calls : List MetadataCall} (hcalls : ∀ call ∈ calls, start.Houses call.path) :
    (answers onWorld ⟨start, none⟩ calls).1 = (answers (onMap ⟨start, none⟩) (fun _ => none) calls).1 ∧
      Maps start (answers (onMap ⟨start, none⟩) (fun _ => none) calls).2
        (answers onWorld ⟨start, none⟩ calls).2 ∧
      (∀ path, start.get? (destination (Metadata.path path)) = none →
        (World.mk start none).metadata path = .ok none) ∧
      ∀ path other : Path, path.IsPlain → other.IsPlain → path.isRooted = other.isRooted →
        (destination path = destination other ↔ path.same other = true) := by
  obtain ⟨hanswers, hafter⟩ := answers_of_maps hcalls (maps_start start)
  exact ⟨hanswers, hafter, fun path => World.storedMetadata_of_get?_eq_none,
    fun path other => Path.IsPlain.destination_eq_iff⟩

theorem answers_of_files_overwritten :
    (∀ call ∈ [write ⟨"d/p.csv"⟩ (.delimited ";" "\""), write ⟨"d/p.csv"⟩ (.columnar 18446744073709551615),
        read ⟨"d//p.csv"⟩, read ⟨"d/q.csv"⟩],
      FileTree.Houses ⟨[(["d"], .directory)]⟩ call.path) ∧
      (answers onWorld ⟨⟨[(["d"], .directory)]⟩, none⟩
        [write ⟨"d/p.csv"⟩ (.delimited ";" "\""), write ⟨"d/p.csv"⟩ (.columnar 18446744073709551615),
          read ⟨"d//p.csv"⟩, read ⟨"d/q.csv"⟩]).1 =
        [.written (.ok ()), .written (.ok ()), .found (.ok (some (.columnar 18446744073709551615))),
          .found (.ok none)] := by
  have hhouses : ∀ call ∈ [write ⟨"d/p.csv"⟩ (.delimited ";" "\""),
      write ⟨"d/p.csv"⟩ (.columnar 18446744073709551615), read ⟨"d//p.csv"⟩, read ⟨"d/q.csv"⟩],
      FileTree.Houses ⟨[(["d"], .directory)]⟩ call.path := by
    simp only [List.forall_mem_cons, List.not_mem_nil, false_imp_iff, implies_true, and_true]
    exact ⟨⟨⟨"p.csv", by decide +kernel⟩, by decide +kernel, by decide +kernel, by decide +kernel⟩,
      ⟨⟨"p.csv", by decide +kernel⟩, by decide +kernel, by decide +kernel, by decide +kernel⟩,
      ⟨⟨"p.csv", by decide +kernel⟩, by decide +kernel, by decide +kernel, by decide +kernel⟩,
      ⟨⟨"q.csv", by decide +kernel⟩, by decide +kernel, by decide +kernel, by decide +kernel⟩⟩
  refine ⟨hhouses, (answers_of_files hhouses).1.trans ?_⟩
  decide +kernel

end MetadataCall

end TableAppend
