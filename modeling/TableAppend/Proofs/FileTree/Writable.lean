import TableAppend.Proofs.FileTree.Missing
import TableAppend.Proofs.Path.Listing

/-!
# Trees in which directories stay

A path leads through directories, so it leads where it led before as long as these stay.  What can be
written once can therefore be read and written again, also by paths with upward steps.
-/

namespace TableAppend.FileTree

variable {tree before after : FileTree} {path : Path} {name : String} {here there : Location}
  {content : Content}

/-- All directories of the first tree are there in the second one. -/
def DirectoriesStay (before after : FileTree) : Prop :=
  ∀ place, before.isDirectoryAt place = true → after.isDirectoryAt place = true

/-- Two trees with the same directories. -/
def SameDirectories (before after : FileTree) : Prop :=
  ∀ place, after.isDirectoryAt place = before.isDirectoryAt place

theorem SameDirectories.refl (tree : FileTree) : SameDirectories tree tree :=
  fun _ => rfl

theorem SameDirectories.trans {first second third : FileTree} (hfirst : SameDirectories first second)
    (hsecond : SameDirectories second third) : SameDirectories first third :=
  fun place => (hsecond place).trans (hfirst place)

theorem SameDirectories.stay (hsame : SameDirectories before after) : DirectoriesStay before after :=
  fun place hplace => (hsame place).trans hplace

/-! ## Walking where directories stay -/

theorem walk_append (here : Location) (way more : List Step) :
    tree.walk here (way ++ more) = tree.walk here way >>= fun there => tree.walk there more := by
  induction way generalizing here with
  | nil => rfl
  | cons next rest ih =>
    rw [List.cons_append, walk_cons, walk_cons]
    split
    · split
      · exact ih _
      · rfl
    · rfl

namespace DirectoriesStay

theorem trans {first second third : FileTree} (hfirst : DirectoriesStay first second)
    (hsecond : DirectoriesStay second third) : DirectoriesStay first third :=
  fun place hplace => hsecond place (hfirst place hplace)

variable (hstay : DirectoriesStay before after)

include hstay

theorem step {next : Step} (hstep : before.step here next = .ok there) :
    after.step here next = .ok there := by
  have hhere := (target_of_step hstep).2
  unfold FileTree.step at hstep ⊢
  rw [if_pos hhere] at hstep
  rw [if_pos (hstay here hhere)]
  exact hstep

/-- Every node on a way but the last one is a directory. -/
theorem walk {way : List Step} (hwalk : before.walk here way = .ok there)
    (hthere : (after.get? there).isSome = true) : after.walk here way = .ok there := by
  induction way generalizing here with
  | nil => exact hwalk
  | cons next rest ih =>
    rw [walk_cons] at hwalk ⊢
    split at hwalk
    case h_2 => contradiction
    case h_1 between hbetween =>
      split at hwalk
      case isFalse => contradiction
      case isTrue =>
        have hnext : (after.get? between).isSome = true := by
          cases rest with
          | nil => exact (Except.ok.inj hwalk) ▸ hthere
          | cons later rest =>
            rw [walk_cons] at hwalk
            split at hwalk
            case h_2 => contradiction
            case h_1 hlater =>
              have hdirectory := hstay between (target_of_step hlater).2
              rw [isDirectoryAt_iff.mp hdirectory]
              rfl
        rw [hstay.step hbetween]
        dsimp only
        rw [if_pos hnext]
        exact ih hwalk

theorem place {otherwise : IoFault} (hplace : before.place path otherwise = .ok there) :
    after.place path otherwise = .ok there := by
  obtain ⟨hcheck, above, name, hwalk, hlast, hstep⟩ := place_eq_ok_iff_walk.mp hplace
  have habove := hstay above (target_of_step hstep).2
  refine place_eq_ok_iff_walk.mpr
    ⟨hcheck, above, name, hstay.walk hwalk ?_, hlast, hstay.step hstep⟩
  rw [isDirectoryAt_iff.mp habove]
  rfl

theorem isDirectory (hdirectory : before.isDirectory path = true) :
    after.isDirectory path = true := by
  rw [isDirectory_iff, node?_eq_some_iff_walk] at hdirectory ⊢
  obtain ⟨hcheck, hwalk, hget, hends⟩ := hdirectory
  have hthere := isDirectoryAt_iff.mp (hstay _ (isDirectoryAt_iff.mpr hget))
  exact ⟨hcheck, hstay.walk hwalk (by rw [hthere]; rfl), hthere, hends⟩

/-- A file is found where it was found before, whatever it contains now. -/
theorem node?_eq {other : Content} (hnode : before.node? path = some (.file content))
    (hget : after.get? (destination path) = some (.file other)) :
    after.node? path = some (.file other) := by
  obtain ⟨hcheck, hwalk, -, hends⟩ := node?_eq_some_iff_walk.mp hnode
  exact node?_eq_some_iff_walk.mpr ⟨hcheck, hstay.walk hwalk (by rw [hget]; rfl), hget,
    .inr (hends.resolve_left (by simp))⟩

/-- What stands where a path can be placed is found. -/
theorem find_of_place {otherwise : IoFault} (hplace : before.place path otherwise = .ok there)
    {node : Node} (hget : after.get? there = some node)
    (hends : node = .directory ∨ endsInSeparator path = false) :
    after.find path = .ok (there, node) := by
  obtain ⟨hcheck, above, name, hwalk, hlast, hstep⟩ := place_eq_ok_iff_walk.mp hplace
  obtain ⟨init, hinit⟩ := List.getLast?_eq_some_iff.mp hlast
  rw [hinit, List.dropLast_concat] at hwalk
  have habove := isDirectoryAt_iff.mp (hstay above (target_of_step hstep).2)
  have hway : after.walk [] (steps path) = .ok there := by
    rw [hinit, walk_append, hstay.walk hwalk (by rw [habove]; rfl), ok_bind, walk_cons,
      hstay.step hstep]
    dsimp only
    rw [hget]
    rfl
  exact find_eq_ok_iff_walk.mpr ⟨hcheck, hway, hget, hends⟩

end DirectoriesStay

/-! ## Files that can be written -/

/-- A file can be put at the end of a path, in place of the one that is there. -/
structure Writable (tree : FileTree) (path : Path) : Prop where
  place : ∀ otherwise, tree.place path otherwise = .ok (destination path)
  endsInName : endsInSeparator path = false
  notDirectory : tree.isDirectoryAt (destination path) = false

theorem place_eq_ok {first : IoFault} (hplace : tree.place path first = .ok there)
    (otherwise : IoFault) : tree.place path otherwise = .ok (destination path) := by
  rw [← (eq_of_place hplace).1]
  exact place_eq_ok_iff_walk.mpr (place_eq_ok_iff_walk.mp hplace)

theorem Writable.destination_ne (hwritable : tree.Writable path) : destination path ≠ [] :=
  (eq_of_place (hwritable.place .isDirectory)).2

theorem Writable.of_stay (hwritable : before.Writable path) (hstay : DirectoriesStay before after)
    (hnot : after.isDirectoryAt (destination path) = false) : after.Writable path :=
  ⟨fun otherwise => hstay.place (hwritable.place otherwise), hwritable.endsInName, hnot⟩

theorem Writable.of_same (hwritable : before.Writable path) (hsame : SameDirectories before after) :
    after.Writable path :=
  hwritable.of_stay hsame.stay ((hsame _).trans hwritable.notDirectory)

theorem write_eq_ok_iff_writable :
    tree.write path content = .ok after ↔
      tree.Writable path ∧ after = tree.set (destination path) (.file content) := by
  rw [write_eq_ok_iff_place]
  constructor
  · rintro ⟨there, hplace, hends, rfl⟩
    obtain rfl := (eq_of_place hplace).1
    rw [not_or, Bool.not_eq_true, Bool.not_eq_true] at hends
    exact ⟨⟨place_eq_ok hplace, hends.1, hends.2⟩, rfl⟩
  · rintro ⟨hwritable, rfl⟩
    refine ⟨_, hwritable.place _, ?_, rfl⟩
    rw [not_or, Bool.not_eq_true, Bool.not_eq_true]
    exact ⟨hwritable.endsInName, hwritable.notDirectory⟩

/-- Without upward steps a file can be put where the directory above is there and none stands in its
place. -/
theorem writable_iff_admits (htree : tree.WellFormed) (hpath : path.Descends) :
    tree.Writable path ↔
      tree.Admits path ∧ tree.isDirectoryAt path.location.dropLast = true := by
  constructor
  · intro hwritable
    obtain ⟨hadmits, habove, -⟩ := (@write_eq_ok_iff tree htree path hpath (.bytes []) _).mp
      (write_eq_ok_iff_writable.mpr ⟨hwritable, rfl⟩)
    exact ⟨hadmits, habove⟩
  · rintro ⟨hadmits, habove⟩
    exact (write_eq_ok_iff_writable.mp ((@write_eq_ok_iff tree htree path hpath (.bytes []) _).mpr
      ⟨hadmits, habove, rfl⟩)).1

theorem isDirectoryAt_of_node? (hnode : tree.node? path = some (.file content)) :
    tree.isDirectoryAt (destination path) = false := by
  rw [isDirectoryAt, get?_of_node? hnode]
  rfl

/-- A file that is found can be written: no step comes after its name. -/
theorem writable_of_node? (hname : path.fileName? = some name)
    (hnode : tree.node? path = some (.file content)) : tree.Writable path := by
  have hnot := isDirectoryAt_of_node? hnode
  obtain ⟨front, hsplit, -, -⟩ := Path.fileName?_eq_some hname
  obtain ⟨junk, hpieces, hjunk, -⟩ := Path.splitLast?_eq_some hsplit
  have hsteps : steps path = front.filterMap Step.ofPiece? ++
      .down name :: junk.filterMap Step.ofPiece? := by
    rw [steps, hpieces, List.filterMap_append, List.filterMap_cons,
      Path.ofPiece?_name (Path.isName_of_fileName? hname)]
  obtain ⟨hcheck, hwalk, -, hends⟩ := node?_eq_some_iff_walk.mp hnode
  rw [hsteps] at hwalk
  obtain ⟨above, habove, hlast⟩ := exists_of_walk_append hwalk
  rw [walk_cons] at hlast
  split at hlast
  case h_2 => contradiction
  case h_1 between hbetween =>
    split at hlast
    case isFalse => contradiction
    case isTrue =>
      have hidle : destination path = between :=
        (eq_of_walk hlast).trans (foldl_target_idle hjunk between)
      cases hrest : junk.filterMap Step.ofPiece? with
      | nil =>
        rw [hrest] at hsteps
        have hplace : tree.place path .isDirectory = .ok (destination path) := by
          refine place_eq_ok_iff_walk.mpr ⟨hcheck, above, name, ?_, ?_, hidle ▸ hbetween⟩
          · rwa [hsteps, List.dropLast_concat]
          · rw [hsteps, List.getLast?_concat]
        exact ⟨place_eq_ok hplace, hends.resolve_left (by simp), hnot⟩
      | cons next rest =>
        rw [hrest, walk_cons] at hlast
        split at hlast
        case h_2 => contradiction
        case h_1 hnext =>
          rw [hidle] at hnot
          exact absurd (target_of_step hnext).2 (by rw [hnot]; simp)

theorem set_set (tree : FileTree) (place : Location) (first second : Node) :
    (tree.set place first).set place second = tree.set place second := by
  rw [set, set, set, mk.injEq]
  induction tree.nodes with
  | nil => simp [insertNode]
  | cons entry rest ih =>
    obtain ⟨other, old⟩ := entry
    by_cases hother : place = other
    · simp [insertNode, hother]
    · simp [insertNode, hother, ih]

theorem sameDirectories_set {place : Location} (hplace : place ≠ [])
    (hnot : tree.isDirectoryAt place = false) (content : Content) :
    SameDirectories tree (tree.set place (.file content)) := by
  intro other
  rw [isDirectoryAt, isDirectoryAt, get?_set _ _ _ _ hplace]
  by_cases hother : other = place
  · rw [isDirectoryAt] at hnot
    rw [if_pos hother, hother, hnot]
    rfl
  · rw [if_neg hother]

theorem sameDirectories_eraseNode {place : Location} (hnot : tree.isDirectoryAt place = false) :
    SameDirectories tree (tree.eraseNode place) := by
  intro other
  rw [isDirectoryAt, isDirectoryAt]
  by_cases hroot : other = []
  · rw [hroot, get?_nil, get?_nil]
  · rw [get?_eraseNode _ _ _ hroot]
    by_cases hother : other = place
    · rw [isDirectoryAt] at hnot
      rw [if_pos hother, hother, hnot]
      rfl
    · rw [if_neg hother]

/-- What has been written is found. -/
theorem Writable.node?_set (hwritable : tree.Writable path) (content : Content) :
    (tree.set (destination path) (.file content)).node? path = some (.file content) := by
  have hsame := sameDirectories_set hwritable.destination_ne hwritable.notDirectory content
  have hget := tree.get?_set_same (destination path) (.file content) hwritable.destination_ne
  rw [node?, hsame.stay.find_of_place (hwritable.place .isDirectory) hget (.inr hwritable.endsInName)]

/-- Adding bytes to a file is the same as writing all of its bytes. -/
theorem append_eq_set (hnode : tree.node? path = some (.file content)) (bytes : Bytes) :
    tree.append path bytes =
      .ok (tree.set (destination path) (.file (.bytes (content.toBytes ++ bytes)))) :=
  append_eq_ok_iff_find.mpr ⟨_, content, find_eq_of_node? hnode, rfl⟩

/-- A file to which bytes are added, under whatever path, has them after its own. -/
theorem exists_append_of_readBytes {bytes : Bytes} (hread : tree.readBytes path = .ok bytes)
    (more : Bytes) :
    ∃ after, tree.append path more = .ok after ∧ after.readBytes path = .ok (bytes ++ more) := by
  obtain ⟨content, hnode⟩ := exists_node?_of_readBytes hread
  obtain rfl := Except.ok.inj ((readBytes_of_node? hnode).symm.trans hread)
  have hget := get?_of_node? hnode
  have hne : destination path ≠ [] := by
    intro hroot
    rw [hroot, get?_nil] at hget
    cases hget
  have hstay := (sameDirectories_set hne (isDirectoryAt_of_node? hnode)
    (.bytes (content.toBytes ++ more))).stay
  exact ⟨_, append_eq_set hnode more,
    readBytes_of_node? (hstay.node?_eq hnode (get?_set_same _ _ _ hne))⟩

/-- The tree after a file has been written under a temporary name and moved to its place. -/
def moved (tree : FileTree) (scratch place : Location) (content : Content) : FileTree :=
  ((tree.set scratch (.file content)).eraseNode scratch).set place (.file content)

/-- A file can be moved to its place exactly if it can be written there. -/
theorem write_and_rename_iff {scratch : Path} (hne : destination scratch ≠ destination path) :
    (∃ between, tree.write scratch content = .ok between ∧
        between.rename scratch path = .ok after) ↔
      tree.Writable scratch ∧ tree.Writable path ∧
        after = tree.moved (destination scratch) (destination path) content := by
  constructor
  · rintro ⟨between, hwrite, hrename⟩
    obtain ⟨hscratch, rfl⟩ := write_eq_ok_iff_writable.mp hwrite
    have hsame := sameDirectories_set hscratch.destination_ne hscratch.notDirectory content
    obtain ⟨start, origin, node, there, -, hfind, hplace, hends, hnot, rfl⟩ :=
      rename_eq_ok_iff_place.mp hrename
    have hnode := hscratch.node?_set content
    rw [node?, hfind] at hnode
    obtain rfl := Option.some.inj hnode
    obtain rfl := (eq_of_find hfind).1
    have hback : DirectoriesStay (tree.set (destination scratch) (.file content)) tree :=
      fun other hother => (hsame other).symm.trans hother
    obtain rfl := (eq_of_place hplace).1
    rw [if_neg fun h => hne h.symm]
    exact ⟨hscratch, ⟨place_eq_ok (hback.place hplace), hends, (hsame _).symm.trans hnot⟩, rfl⟩
  · rintro ⟨hscratch, hwritable, rfl⟩
    have hsame := sameDirectories_set hscratch.destination_ne hscratch.notDirectory content
    have hnode := hscratch.node?_set content
    have hfind := find_eq_of_node? hnode
    refine ⟨_, write_eq_ok_iff_writable.mpr ⟨hscratch, rfl⟩, rename_eq_ok_iff_place.mpr ?_⟩
    refine ⟨_, _, _, _, (hscratch.of_same hsame).place _, hfind,
      (hwritable.of_same hsame).place _, hwritable.endsInName,
      (hwritable.of_same hsame).notDirectory, ?_⟩
    rw [if_neg fun h => hne h.symm]
    rfl

section moved

variable {scratch : Path} (hscratch : tree.Writable scratch) (hwritable : tree.Writable path)

include hscratch hwritable

theorem sameDirectories_moved (content : Content) :
    SameDirectories tree (tree.moved (destination scratch) (destination path) content) := by
  have hset := sameDirectories_set hscratch.destination_ne hscratch.notDirectory content
  have herase := sameDirectories_eraseNode ((hset _).trans hscratch.notDirectory)
  have hboth := hset.trans herase
  exact hboth.trans (sameDirectories_set hwritable.destination_ne
    ((hboth _).trans hwritable.notDirectory) content)

theorem node?_moved (content : Content) :
    (tree.moved (destination scratch) (destination path) content).node? path =
      some (.file content) := by
  have hset := sameDirectories_set hscratch.destination_ne hscratch.notDirectory content
  have herase := sameDirectories_eraseNode ((hset _).trans hscratch.notDirectory)
  exact (hwritable.of_same (hset.trans herase)).node?_set content

omit hscratch hwritable in
theorem get?_moved {place : Location} (hfirst : place ≠ destination scratch)
    (hsecond : place ≠ destination path) (content : Content) :
    (tree.moved (destination scratch) (destination path) content).get? place = tree.get? place := by
  rw [moved, get?_set_other _ _ _ _ hsecond]
  by_cases hroot : place = []
  · rw [hroot, get?_nil, get?_nil]
  · rw [get?_eraseNode _ _ _ hroot, if_neg hfirst, get?_set_other _ _ _ _ hfirst]

end moved

/-! ## Making directories -/

theorem makeDirectory_spec (hmade : tree.makeDirectory path = .ok after) :
    tree.get? (destination path) = none ∧ after = tree.set (destination path) .directory ∧
      DirectoriesStay tree after ∧ after.isDirectory path = true := by
  obtain ⟨there, hplace, hnone, rfl⟩ := makeDirectory_eq_ok_iff_place.mp hmade
  obtain ⟨rfl, hne⟩ := eq_of_place hplace
  have hget := tree.get?_set_same (destination path) .directory hne
  have hstay : DirectoriesStay tree (tree.set (destination path) .directory) := by
    intro other hother
    rw [isDirectoryAt, get?_set _ _ _ _ hne]
    split
    · rfl
    · exact hother
  refine ⟨hnone, rfl, hstay, ?_⟩
  rw [isDirectory_iff, node?, hstay.find_of_place hplace hget (.inl rfl)]

theorem Ends.isDirectory (hends : tree.Ends after path) : after.isDirectory path = true := by
  rcases hends with hmade | ⟨hdirectory, rfl⟩
  · exact (makeDirectory_spec hmade).2.2.2
  · exact hdirectory

/-- However far the directories of a row have been made, none is lost. -/
theorem directoriesStay_makeEach {paths : List Path} {result : Except IoFault Unit}
    (hmade : tree.makeEach paths = (result, after)) : DirectoriesStay tree after := by
  obtain rfl : (tree.makeEach paths).2 = after := congrArg Prod.snd hmade
  exact makeEach_preserves (fun _ h => h) fun _ _ _ _ hbefore hstep =>
    DirectoriesStay.trans hbefore (makeDirectory_spec hstep).2.2.1

theorem isDirectory_of_makeDirectories (htext : path.text ≠ "")
    (hmade : tree.makeDirectories path = (.ok (), after)) : after.isDirectory path = true := by
  rw [makeDirectories, ancestors_succ] at hmade
  rcases makeEach_cons_spec htext hmade with hends | ⟨-, changed, -, hends⟩
  · exact hends.isDirectory
  · exact hends.isDirectory

theorem makeDirectories_eq_self (hdirectory : tree.isDirectory path = true) :
    tree.makeDirectories path = (.ok (), tree) := by
  by_cases htext : path.text = ""
  · rw [makeDirectories, ancestors_succ, makeEach, if_pos htext]
  · rw [makeDirectories, ancestors_succ]
    exact makeEach_cons_of_ends htext _ (.inr ⟨hdirectory, rfl⟩)

/-! ## Directories inside others -/

section join

variable {base : Path} (hname : Path.IsName name)

include hname

theorem text_join_ne_empty (base : Path) : (base.join name).text ≠ "" := by
  intro hempty
  have hjoin := Path.fileName?_join base hname
  rw [show base.join name = ⟨""⟩ from congrArg Path.mk hempty] at hjoin
  have hnone : (Path.mk "").fileName? = none := by decide
  rw [hnone] at hjoin
  cases hjoin

theorem isDirectory_of_join (htext : base.text ≠ "")
    (hdirectory : tree.isDirectory (base.join name) = true) : tree.isDirectory base = true := by
  obtain ⟨hcheck, hwalk, -, -⟩ := node?_eq_some_iff_walk.mp (isDirectory_iff.mp hdirectory)
  rw [Path.steps_join base hname] at hwalk
  obtain ⟨between, hbetween, hrest⟩ := exists_of_walk_append hwalk
  obtain ⟨habove, -⟩ := walk_down_eq_ok_iff.mp hrest
  obtain ⟨middle, hjoin, -⟩ := Path.text_join base hname.2.2.2
  rw [Path.checkPath_eq_ok_iff, hjoin] at hcheck
  have hbase : checkPath base = .ok () := by
    refine (Path.checkPath_eq_ok_iff base).mpr ⟨?_, htext, ?_⟩
    · intro hmem
      exact hcheck.1 (by simp [hmem])
    · have hsize := hcheck.2.2
      rw [String.utf8ByteSize_append, String.utf8ByteSize_append] at hsize
      omega
  exact isDirectory_iff.mpr (node?_eq_some_iff_find.mpr
    ⟨between, find_eq_ok_iff_walk.mpr ⟨hbase, hbetween, isDirectoryAt_iff.mp habove, .inl rfl⟩⟩)

theorem makeDirectory_join_ne (hbase : tree.isDirectory base = true) :
    tree.makeDirectory (base.join name) ≠ .error .notFound := by
  obtain ⟨-, hwalk, hget, -⟩ := node?_eq_some_iff_walk.mp (isDirectory_iff.mp hbase)
  rw [Ne, makeDirectory_eq_notFound_iff, place_eq, Path.steps_join base hname,
    List.dropLast_concat, List.getLast?_concat, hwalk, checkPath,
    if_neg (text_join_ne_empty hname base)]
  dsimp only
  rw [step, if_pos (isDirectoryAt_iff.mpr hget)]
  by_cases hnull : Char.ofNat 0 ∈ (base.join name).text.toList
  · simp [hnull]
  · by_cases hlong : longestPath < (base.join name).text.utf8ByteSize
    · simp [hnull, hlong]
    · by_cases hshort : longestName < name.utf8ByteSize <;> simp [hnull, hlong, hshort]

/-- In a directory nothing is made but the last one. -/
theorem get?_makeDirectories_join (hbase : tree.isDirectory base = true)
    (hmade : tree.makeDirectories (base.join name) = (.ok (), after)) {place : Location}
    (hplace : place ≠ destination base ++ [name]) : after.get? place = tree.get? place := by
  rw [makeDirectories, ancestors_succ] at hmade
  rcases makeEach_cons_spec (text_join_ne_empty hname base) hmade with
    (hlast | ⟨-, rfl⟩) | ⟨hmissing, -⟩
  · obtain ⟨-, rfl, -⟩ := makeDirectory_spec hlast
    rw [destination_join base hname, get?_set_other _ _ _ _ hplace]
  · rfl
  · exact absurd hmissing (makeDirectory_join_ne hname hbase)

end join

end TableAppend.FileTree
