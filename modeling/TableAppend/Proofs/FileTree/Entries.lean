import TableAppend.Proofs.FileTree.Spelling
import TableAppend.Proofs.Path.Destinations

/-!
# What stands in a directory

A path that leads into a directory and then to a name finds what stands there under this name, however
the directory is written, unless the path or the name is too long.
-/

namespace TableAppend

open FileTree (Step destination moves movesOf steps)

/-! ## Paths into a directory -/

namespace Path

theorem text_join_append {outer : Path} {name more : String} (hname : IsName name)
    (hfull : IsName (name ++ more)) :
    (outer.join (name ++ more)).text = (outer.join name).text ++ more := by
  have hhead : ∀ {last : String}, IsName last → last.toList.head? ≠ some '/' :=
    fun hlast h => hlast.2.2.2 (List.mem_of_head? h)
  rw [join, join, if_neg (hhead hname), if_neg (hhead hfull)]
  split <;> simp only [String.append_assoc]

/-- A path goes into its directory and then to its name. -/
theorem moves_directory {path : Path} {name : String} (hname : path.fileName? = some name) :
    moves path = moves path.directory ++ [.down name] := by
  obtain ⟨parent, hparent⟩ := exists_parent?_of_fileName? hname
  rw [FileTree.moves_of_parent hname hparent]
  rcases directory_cases hparent with ⟨-, heq⟩ | ⟨rfl, heq⟩ <;> rw [heq]
  rfl

end Path

/-! ## Entries -/

namespace FileTree

variable {tree : FileTree} {directory outer path parent : Path} {name file : String} {node : Node}

/-- Why a path that ends in a name cannot be used, if it cannot. -/
def useFault? (path : Path) (name : String) : Option IoFault :=
  match checkPath path with
  | .error fault => some fault
  | .ok () => if longestName < name.utf8ByteSize then some .nameTooLong else none

theorem useFault?_eq_none_iff : useFault? path name = none ↔
    checkPath path = .ok () ∧ name.utf8ByteSize ≤ longestName := by
  rw [useFault?]
  cases checkPath path with
  | error fault => simp
  | ok value => simp

/-- A node stands in a directory under a name, and the path to it can be used. -/
structure Stands (tree : FileTree) (directory path : Path) (name : String) (node : Node) : Prop where
  get?_eq : tree.get? (destination directory ++ [name]) = some node
  usable : useFault? path name = none

/-- Ways that differ in steps that stay lead to the same directories. -/
theorem walk_movesOf_directory {way : List Step} {here there : Location}
    (hthere : tree.isDirectoryAt there = true) :
    tree.walk here (movesOf way) = .ok there ↔ tree.walk here way = .ok there := by
  induction way generalizing here with
  | nil => exact Iff.rfl
  | cons next rest ih =>
    by_cases hstay : next = .stay
    · subst hstay
      have hhere : tree.walk here rest = .ok there → tree.isDirectoryAt here = true := by
        intro hwalk
        cases rest with
        | nil => exact Except.ok.inj hwalk ▸ hthere
        | cons later more => exact isDirectoryAt_of_walk_cons hwalk
      have hmoves : movesOf (.stay :: rest) = movesOf rest := rfl
      rw [hmoves, ih]
      constructor
      · intro hwalk
        have hdirectory := hhere hwalk
        have hsome : (tree.get? here).isSome = true := by rw [isDirectoryAt_iff.mp hdirectory]; rfl
        exact (walk_stay_eq_ok_iff hsome).mpr ⟨hdirectory, hwalk⟩
      · intro hwalk
        have hdirectory := isDirectoryAt_of_walk_cons hwalk
        have hsome : (tree.get? here).isSome = true := by rw [isDirectoryAt_iff.mp hdirectory]; rfl
        exact ((walk_stay_eq_ok_iff hsome).mp hwalk).2
    · have hmoves : movesOf (next :: rest) = next :: movesOf rest :=
        List.filter_cons_of_pos (decide_eq_true hstay)
      rw [hmoves, walk_cons, walk_cons]
      split
      · split
        · exact ih
        · exact Iff.rfl
      · exact Iff.rfl

theorem destination_join_of_moves (hmoves : moves outer = moves directory)
    (hname : Path.IsName name) : destination (outer.join name) = destination directory ++ [name] := by
  rw [destination_join outer hname, destination_eq_moves, hmoves, ← destination_eq_moves]

section Entries

variable (hdirectory : tree.isDirectory directory = true)

include hdirectory

/-- The directory is reached by any way to it. -/
theorem walk_into (hmoves : moves outer = moves directory) :
    tree.walk [] (steps outer) = .ok (destination directory) ∧
      tree.isDirectoryAt (destination directory) = true := by
  obtain ⟨-, hwalk, hget, -⟩ :=
    node?_eq_some_iff_walk.mp (isDirectory_iff.mp hdirectory)
  have hthere := isDirectoryAt_iff.mpr hget
  refine ⟨?_, hthere⟩
  rwa [← walk_movesOf_directory hthere, ← moves, hmoves, moves, walk_movesOf_directory hthere]

/-- Where an entry of a directory is or comes, if it can be used. -/
theorem place_join (hmoves : moves outer = moves directory) (hname : Path.IsName name)
    (otherwise : IoFault) : tree.place (outer.join name) otherwise =
      match useFault? (outer.join name) name with
      | some fault => .error fault
      | none => .ok (destination directory ++ [name]) := by
  obtain ⟨hwalk, hthere⟩ := walk_into hdirectory hmoves
  rw [place_eq, useFault?]
  cases checkPath (outer.join name) with
  | error fault => rfl
  | ok value =>
    rw [Path.steps_join outer hname, List.dropLast_concat, List.getLast?_concat, hwalk]
    dsimp only
    rw [step, if_pos hthere]
    split <;> rfl

/-- What an entry of a directory is, whatever way is taken to the directory. -/
theorem node?_join_iff (hmoves : moves outer = moves directory) (hname : Path.IsName name) :
    tree.node? (outer.join name) = some node ↔ tree.Stands directory (outer.join name) name node := by
  obtain ⟨hwalk, hthere⟩ := walk_into hdirectory hmoves
  have hends := Path.endsInSeparator_join outer hname
  have hdown : ∀ there, tree.walk [] (steps (outer.join name)) = .ok there ↔
      name.utf8ByteSize ≤ longestName ∧ (tree.get? (destination directory ++ [name])).isSome ∧
        destination directory ++ [name] = there := by
    intro there
    rw [Path.steps_join outer hname, walk_append, hwalk, ok_bind, walk_down_eq_ok_iff, hthere, walk]
    simp
  constructor
  · intro hnode
    obtain ⟨hcheck, hwhole, hget, -⟩ := node?_eq_some_iff_walk.mp hnode
    obtain ⟨hshort, -, hlast⟩ := (hdown _).mp hwhole
    rw [← hlast] at hget
    exact ⟨hget, useFault?_eq_none_iff.mpr ⟨hcheck, hshort⟩⟩
  · rintro ⟨hget, husable⟩
    obtain ⟨hcheck, hshort⟩ := useFault?_eq_none_iff.mp husable
    have hwhole := (hdown _).mpr ⟨hshort, by rw [hget]; rfl, rfl⟩
    exact node?_eq_some_iff_find.mpr
      ⟨_, find_eq_ok_iff_walk.mpr ⟨hcheck, hwhole, hget, .inr hends⟩⟩

theorem writable_join_iff (hmoves : moves outer = moves directory) (hname : Path.IsName name) :
    tree.Writable (outer.join name) ↔ useFault? (outer.join name) name = none ∧
      tree.isDirectoryAt (destination directory ++ [name]) = false := by
  have hends := Path.endsInSeparator_join outer hname
  have hplace := place_join hdirectory hmoves hname
  constructor
  · intro hwritable
    have hwhole := hwritable.place .busy
    rw [hplace] at hwhole
    split at hwhole
    · contradiction
    · rename_i husable
      exact ⟨husable, Except.ok.inj hwhole ▸ hwritable.notDirectory⟩
  · rintro ⟨husable, hnot⟩
    rw [husable] at hplace
    have hdestination := (eq_of_place (hplace .busy)).1
    exact ⟨fun otherwise => hdestination ▸ hplace otherwise, hends, hdestination ▸ hnot⟩

/-- A file cannot be written where its path cannot be used. -/
theorem write_join_eq_error (hmoves : moves outer = moves directory) (hname : Path.IsName name)
    {fault : IoFault} (hfault : useFault? (outer.join name) name = some fault) (content : Content) :
    tree.write (outer.join name) content = .error fault := by
  have hplace := place_join hdirectory hmoves hname .isDirectory
  rw [hfault] at hplace
  rw [write, hplace]
  rfl

/-- What stands beside a path under another name. -/
theorem node?_withFileName_iff (hname : path.fileName? = some name)
    (hmoves : moves path = moves directory ++ [.down name]) (hfile : Path.IsName file) :
    tree.node? (path.withFileName file) = some node ↔
      tree.Stands directory (path.withFileName file) file node := by
  obtain ⟨parent, hparent⟩ := Path.exists_parent?_of_fileName? hname
  rw [moves_of_parent hname hparent] at hmoves
  rw [Path.withFileName_of_parent hname hparent]
  exact node?_join_iff hdirectory (List.append_inj_left' hmoves rfl) hfile

/-- What a search of the directory finds under a name. -/
theorem node?_entry_iff {listed : Path} (hlisted : directory.listed? = some listed)
    (hname : Path.IsName name) : tree.node? (listed.entry name) = some node ↔
      tree.Stands directory (listed.entry name) name node := by
  rw [Path.entry_eq_join]
  exact node?_join_iff hdirectory ((Path.moves_entryBase listed).trans (Path.moves_listed? hlisted)) hname

/-- What stands beside it. -/
theorem node?_besides_entry_iff {listed : Path} (hlisted : directory.listed? = some listed)
    (hname : Path.IsName name) {ending : String} (hfull : Path.IsName (name ++ ending)) :
    tree.node? ((listed.entry name).besides ending) = some node ↔
      tree.Stands directory ((listed.entry name).besides ending) (name ++ ending) node := by
  have hentry := Path.fileName?_entry listed hname
  have hmoves : moves (listed.entry name) = moves directory ++ [.down name] := by
    rw [Path.entry_eq_join, moves, Path.steps_join _ hname, movesOf_append, ← moves,
      Path.moves_entryBase, Path.moves_listed? hlisted]
    rfl
  rw [Path.besides, hentry, Option.getD_some]
  exact node?_withFileName_iff hdirectory hentry hmoves hfull

end Entries

/-- A path that leads to something under a name leads there through a directory. -/
theorem isDirectory_directory (hname : path.fileName? = some name)
    (hnode : tree.node? path = some node) : tree.isDirectory path.directory = true := by
  obtain ⟨parent, hparent⟩ := Path.exists_parent?_of_fileName? hname
  rw [isDirectory_iff]
  rcases Path.directory_cases hparent with ⟨htext, heq⟩ | ⟨-, heq⟩ <;> rw [heq]
  · obtain ⟨hcheck, -⟩ := node?_eq_some_iff_walk.mp hnode
    obtain ⟨here, hwalk, hhere⟩ := exists_walk_parent hname hparent hnode
    exact node?_eq_some_iff_find.mpr ⟨here, find_eq_ok_iff_walk.mpr
      ⟨checkPath_parent hname hparent htext hcheck, hwalk, isDirectoryAt_iff.mp hhere, .inl rfl⟩⟩
  · rfl

/-- Where a longer name can be used, its beginning can be used as well. -/
theorem useFault?_of_longer {more : String} (hname : Path.IsName name)
    (hfull : Path.IsName (name ++ more))
    (husable : useFault? (outer.join (name ++ more)) (name ++ more) = none) :
    useFault? (outer.join name) name = none := by
  rw [useFault?_eq_none_iff, Path.checkPath_eq_ok_iff] at husable ⊢
  obtain ⟨⟨hnull, -, hfits⟩, hshort⟩ := husable
  rw [Path.utf8ByteSize_join _ hfull.2.2.2, String.utf8ByteSize_append] at hfits
  rw [String.utf8ByteSize_append] at hshort
  refine ⟨⟨?_, text_join_ne_empty hname outer, ?_⟩, by omega⟩
  · intro hmem
    rw [Path.text_join_append hname hfull, String.toList_append] at hnull
    exact hnull (List.mem_append_left _ hmem)
  · rw [Path.utf8ByteSize_join _ hname.2.2.2]
    omega

end FileTree

end TableAppend
