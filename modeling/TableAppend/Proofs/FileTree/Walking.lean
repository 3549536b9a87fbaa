import TableAppend.Proofs.FileTree.Lookup

/-!
# Where paths lead

A path leads to one place, whatever is there: each of its steps stays, goes up or goes down.  What a
walk finds is found at that place, and what is placed is placed there.
-/

namespace TableAppend.FileTree

/-- Where a step leads, whatever is there. -/
def Step.target (here : Location) : Step → Location
  | .stay => here
  | .up => here.dropLast
  | .down name => here ++ [name]

/-- Where a path leads, whatever is there. -/
def destination (path : Path) : Location :=
  (steps path).foldl Step.target []

variable {tree : FileTree} {path parent : Path} {name : String} {here there : Location}

theorem target_of_step {next : Step} (hstep : tree.step here next = .ok there) :
    there = next.target here ∧ tree.isDirectoryAt here = true := by
  unfold step at hstep
  split at hstep
  · rename_i hdirectory
    refine ⟨?_, hdirectory⟩
    cases next with
    | stay => exact (Except.ok.inj hstep).symm
    | up => exact (Except.ok.inj hstep).symm
    | down name =>
      dsimp only at hstep
      split at hstep
      · contradiction
      · exact (Except.ok.inj hstep).symm
  · contradiction

theorem eq_of_walk {way : List Step} (hwalk : tree.walk here way = .ok there) :
    there = way.foldl Step.target here := by
  induction way generalizing here with
  | nil => exact (Except.ok.inj hwalk).symm
  | cons next rest ih =>
    rw [walk_cons] at hwalk
    split at hwalk
    · rename_i between hbetween
      split at hwalk
      · rw [List.foldl_cons, ← (target_of_step hbetween).1]
        exact ih hwalk
      · contradiction
    · contradiction

theorem exists_of_walk_append {way more : List Step}
    (hwalk : tree.walk here (way ++ more) = .ok there) :
    ∃ between, tree.walk here way = .ok between ∧ tree.walk between more = .ok there := by
  induction way generalizing here with
  | nil => exact ⟨here, rfl, hwalk⟩
  | cons next rest ih =>
    rw [List.cons_append, walk_cons] at hwalk
    rw [walk_cons]
    split at hwalk
    · split at hwalk
      · rename_i hsome
        rw [if_pos hsome]
        exact ih hwalk
      · contradiction
    · contradiction

theorem eq_of_find {node : Node} (hfind : tree.find path = .ok (there, node)) :
    there = destination path ∧ tree.get? there = some node := by
  obtain ⟨-, hwalk, hnode, -⟩ := find_eq_ok_iff_walk.mp hfind
  exact ⟨eq_of_walk hwalk, hnode⟩

theorem find_eq_of_node? {node : Node} (hnode : tree.node? path = some node) :
    tree.find path = .ok (destination path, node) := by
  obtain ⟨there, hfind⟩ := node?_eq_some_iff_find.mp hnode
  rw [hfind, (eq_of_find hfind).1]

/-- What a path leads to, and over which way. -/
theorem node?_eq_some_iff_walk {node : Node} :
    tree.node? path = some node ↔ checkPath path = .ok () ∧
      tree.walk [] (steps path) = .ok (destination path) ∧
        tree.get? (destination path) = some node ∧
          (node = .directory ∨ endsInSeparator path = false) := by
  rw [← find_eq_ok_iff_walk]
  exact ⟨find_eq_of_node?, fun hfind => node?_eq_some_iff_find.mpr ⟨_, hfind⟩⟩

theorem get?_of_node? {node : Node} (hnode : tree.node? path = some node) :
    tree.get? (destination path) = some node :=
  (node?_eq_some_iff_walk.mp hnode).2.2.1

theorem eq_of_place {otherwise : IoFault} (hplace : tree.place path otherwise = .ok there) :
    there = destination path ∧ there ≠ [] := by
  obtain ⟨-, above, name, hwalk, hlast, hstep⟩ := place_eq_ok_iff_walk.mp hplace
  obtain ⟨init, hinit⟩ := List.getLast?_eq_some_iff.mp hlast
  rw [hinit, List.dropLast_concat] at hwalk
  obtain ⟨rfl, -⟩ := target_of_step hstep
  refine ⟨?_, List.append_ne_nil_of_right_ne_nil _ (List.cons_ne_nil _ _)⟩
  rw [destination, hinit, List.foldl_append, ← eq_of_walk hwalk]
  rfl

/-! ## The place of a path -/

theorem destination_join (outer : Path) (hname : Path.IsName name) :
    destination (outer.join name) = destination outer ++ [name] := by
  rw [destination, Path.steps_join outer hname, List.foldl_append]
  rfl

theorem foldl_target_idle {junk : List String}
    (hjunk : ∀ piece ∈ junk, piece = "" ∨ piece = ".") (here : Location) :
    (junk.filterMap Step.ofPiece?).foldl Step.target here = here := by
  induction junk with
  | nil => rfl
  | cons piece rest ih =>
    have hrest := ih fun other hother => hjunk other (List.mem_cons_of_mem _ hother)
    rcases hjunk piece List.mem_cons_self with rfl | rfl <;> exact hrest

theorem destination_ofPieces {rooted : Bool} {pieces : List String}
    (hplain : ∀ piece ∈ pieces, '/' ∉ piece.toList) :
    destination (.ofPieces rooted pieces) =
      (pieces.filterMap Step.ofPiece?).foldl Step.target [] := by
  rw [destination, Path.steps_ofPieces hplain]

theorem destination_parent (hname : path.fileName? = some name)
    (hparent : path.parent? = some parent) : destination path = destination parent ++ [name] := by
  obtain ⟨before, idle, junk, hpieces, hplain, hidle, rfl⟩ := Path.pieces_of_parent hname hparent
  rw [destination_ofPieces hplain, destination, steps, hpieces, List.filterMap_append,
    List.filterMap_append, List.filterMap_cons, Path.ofPiece?_name (Path.isName_of_fileName? hname)]
  dsimp only
  rw [List.foldl_append, List.foldl_append, List.foldl_cons,
    foldl_target_idle fun piece hpiece => hidle piece (List.mem_append_left _ hpiece),
    foldl_target_idle fun piece hpiece => hidle piece (List.mem_append_right _ hpiece)]
  rfl

/-- A path with a name leads to that name in a directory. -/
theorem exists_destination (hname : path.fileName? = some name) :
    ∃ place, destination path = place ++ [name] := by
  obtain ⟨parent, hparent⟩ := Path.exists_parent?_of_fileName? hname
  exact ⟨_, destination_parent hname hparent⟩

theorem destination_besides {place : Location} (hname : path.fileName? = some name)
    (hplace : destination path = place ++ [name]) {ending : String}
    (hending : '/' ∉ ending.toList) (hlong : 2 ≤ ending.toList.length) :
    destination (path.besides ending) = place ++ [name ++ ending] ∧
      (path.besides ending).fileName? = some (name ++ ending) := by
  obtain ⟨parent, hparent⟩ := Path.exists_parent?_of_fileName? hname
  have hfull := Path.isName_append (Path.isName_of_fileName? hname) hending hlong
  rw [destination_parent hname hparent] at hplace
  rw [Path.besides_of_parent hname hparent, destination_join parent hfull,
    List.append_inj_left' hplace rfl]
  exact ⟨rfl, Path.fileName?_join parent hfull⟩

/-- Without upward steps a path leads to its location. -/
theorem destination_of_descends (hpath : Path.Descends path) : destination path = path.location := by
  have hway : ∀ (way : List Step) (here : Location), Step.up ∉ way →
      way.foldl Step.target here = here ++ wayNames way := by
    intro way
    induction way with
    | nil => intro here _; simp [wayNames]
    | cons next rest ih =>
      intro here hup
      rw [List.mem_cons, not_or] at hup
      rw [List.foldl_cons, ih _ hup.2]
      cases next with
      | stay => rfl
      | up => exact absurd rfl hup.1
      | down name => simp [Step.target, wayNames, Step.name?]
  rw [destination, hway _ _ (up_notMem_steps hpath), List.nil_append, location_eq_wayNames]

end TableAppend.FileTree
