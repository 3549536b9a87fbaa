import TableAppend.Proofs.FileTree.Writable

/-!
# Texts of one path

Two texts of a path are read alike if they differ only in pieces that stand for nothing.  Both lead to one
place, and what stands beside the one is found beside the other, as long as its path is not too long.
-/

namespace TableAppend.FileTree

open TableAppend.Path (IsName)

variable {tree : FileTree} {path left right parent : Path} {name ending : String}
  {here there : Location} {content : Content}

/-! ## Moves -/

/-- The steps that lead away from where they begin. -/
def movesOf (way : List Step) : List Step :=
  way.filter (· ≠ .stay)

def moves (path : Path) : List Step :=
  movesOf (steps path)

theorem movesOf_append (way more : List Step) : movesOf (way ++ more) = movesOf way ++ movesOf more :=
  List.filter_append ..

theorem movesOf_idle {junk : List String} (hjunk : ∀ piece ∈ junk, piece = "" ∨ piece = ".") :
    movesOf (junk.filterMap Step.ofPiece?) = [] := by
  refine List.filter_eq_nil_iff.mpr fun next hnext => ?_
  obtain ⟨piece, hpiece, hstep⟩ := List.mem_filterMap.mp hnext
  rcases hjunk piece hpiece with rfl | rfl
  · cases hstep
  · obtain rfl := Option.some.inj hstep
    decide

/-- The move that a component stands for. -/
def moveOf? : Path.Component → Option Step
  | .name text => some (.down text)
  | .up => some .up
  | .root | .here => none

theorem moves_eq (path : Path) : moves path = path.components.filterMap moveOf? := by
  have hpiece : ∀ piece, (Step.ofPiece? piece).filter (· ≠ .stay) =
      Path.componentOfPiece? piece >>= moveOf? := by
    intro piece
    by_cases hidle : piece = "" ∨ piece = "."
    · rcases hidle with rfl | rfl <;> decide
    · obtain ⟨hempty, hdot⟩ := not_or.mp hidle
      by_cases hup : piece = ".."
      · subst hup
        decide
      · rw [Step.ofPiece?, Path.componentOfPiece?, if_neg hempty, if_neg hdot, if_neg hup,
          if_neg hidle, if_neg hup]
        rfl
  have hrest : moves path = (path.pieces.filterMap Path.componentOfPiece?).filterMap moveOf? := by
    rw [moves, movesOf, steps, List.filter_filterMap, List.filterMap_filterMap]
    exact List.filterMap_congr fun piece _ => hpiece piece
  rw [hrest, Path.components]
  split
  · rfl
  · split <;> rfl

theorem moves_eq_of_same (hsame : left.same right = true) : moves left = moves right := by
  rw [moves_eq, moves_eq, of_decide_eq_true hsame]

theorem foldl_target_movesOf (way : List Step) (here : Location) :
    (movesOf way).foldl Step.target here = way.foldl Step.target here := by
  induction way generalizing here with
  | nil => rfl
  | cons next rest ih =>
    cases next with
    | stay => exact ih here
    | up => exact ih _
    | down name => exact ih _

theorem destination_eq_moves (path : Path) :
    destination path = (moves path).foldl Step.target [] :=
  (foldl_target_movesOf _ _).symm

/-- Paths that are read alike lead to one place. -/
theorem destination_eq_of_same (hsame : left.same right = true) :
    destination left = destination right := by
  rw [destination_eq_moves, destination_eq_moves, moves_eq_of_same hsame]

/-! ## Walking -/

theorem isDirectoryAt_of_walk_cons {next : Step} {rest : List Step}
    (hwalk : tree.walk here (next :: rest) = .ok there) : tree.isDirectoryAt here = true := by
  rw [walk_cons] at hwalk
  split at hwalk
  · rename_i between hbetween
    exact (target_of_step hbetween).2
  · contradiction

/-- On the way to a name nothing depends on steps that stay. -/
theorem walk_movesOf (way : List Step) (name : String) :
    tree.walk here (movesOf way ++ [.down name]) = .ok there ↔
      tree.walk here (way ++ [.down name]) = .ok there := by
  induction way generalizing here with
  | nil => exact Iff.rfl
  | cons next rest ih =>
    by_cases hstay : next = .stay
    · subst hstay
      have hmoves : movesOf (.stay :: rest) = movesOf rest := rfl
      have hstep : tree.step here .stay =
          if tree.isDirectoryAt here then .ok here else .error .notDirectory := rfl
      rw [hmoves, ih, List.cons_append, walk_cons, hstep]
      by_cases hhere : tree.isDirectoryAt here = true
      · rw [if_pos hhere]
        dsimp only
        rw [isDirectoryAt_iff.mp hhere]
        rfl
      · rw [if_neg hhere]
        refine iff_of_false (fun hwalk => hhere ?_) (by simp)
        cases rest with
        | nil => exact isDirectoryAt_of_walk_cons hwalk
        | cons later more => exact isDirectoryAt_of_walk_cons hwalk
    · have hmoves : movesOf (next :: rest) = next :: movesOf rest :=
        List.filter_cons_of_pos (decide_eq_true hstay)
      rw [hmoves, List.cons_append, List.cons_append, walk_cons, walk_cons]
      split
      · split
        · exact ih
        · exact Iff.rfl
      · exact Iff.rfl

/-! ## Parents and what stands beside a path -/

section Parent

variable (hname : path.fileName? = some name) (hparent : path.parent? = some parent)

include hname hparent

/-- The way goes to the parent, then down to the last name, and then stays there. -/
theorem exists_steps_parent : ∃ idle junk, steps path = steps parent ++ idle ++ .down name :: junk ∧
    movesOf idle = [] ∧ movesOf junk = [] := by
  obtain ⟨before, idle, junk, hpieces, hplain, hidle, rfl⟩ := Path.pieces_of_parent hname hparent
  refine ⟨idle.filterMap Step.ofPiece?, junk.filterMap Step.ofPiece?, ?_,
    movesOf_idle fun piece hpiece => hidle piece (List.mem_append_left _ hpiece),
    movesOf_idle fun piece hpiece => hidle piece (List.mem_append_right _ hpiece)⟩
  rw [Path.steps_ofPieces hplain, steps, hpieces, List.filterMap_append, List.filterMap_append,
    List.filterMap_cons, Path.ofPiece?_name (Path.isName_of_fileName? hname)]

theorem moves_of_parent : moves path = moves parent ++ [.down name] := by
  obtain ⟨idle, junk, hsteps, hidle, hjunk⟩ := exists_steps_parent hname hparent
  have hlast : movesOf (.down name :: junk) = [.down name] :=
    congrArg (Step.down name :: ·) hjunk
  rw [moves, hsteps, movesOf_append, movesOf_append, hidle, hlast, List.append_nil]
  rfl

theorem steps_besides (hfull : IsName (name ++ ending)) :
    steps (path.besides ending) = steps parent ++ [.down (name ++ ending)] := by
  rw [Path.besides_of_parent hname hparent, Path.steps_join _ hfull]

/-- Where a path leads to a file, its parent leads to a directory. -/
theorem exists_walk_parent {node : Node} (hnode : tree.node? path = some node) :
    ∃ here, tree.walk [] (steps parent) = .ok here ∧ tree.isDirectoryAt here = true := by
  obtain ⟨idle, junk, hsteps, -, -⟩ := exists_steps_parent hname hparent
  obtain ⟨-, hwalk, -, -⟩ := node?_eq_some_iff_walk.mp hnode
  rw [hsteps, List.append_assoc] at hwalk
  obtain ⟨here, hhere, hrest⟩ := exists_of_walk_append hwalk
  refine ⟨here, hhere, ?_⟩
  cases idle with
  | nil => exact isDirectoryAt_of_walk_cons hrest
  | cons next more => exact isDirectoryAt_of_walk_cons hrest

end Parent

/-! ## Characters of a text -/

theorem exists_piece_of_mem_text {c : Char} (hc : c ≠ '/') (hmem : c ∈ path.text.toList) :
    ∃ piece ∈ path.pieces, c ∈ piece.toList := by
  have hjoined : ∀ pieces : List (List Char), c ∈ ['/'].intercalate pieces →
      ∃ piece ∈ pieces, c ∈ piece := by
    intro pieces hin
    induction pieces with
    | nil => cases hin
    | cons first rest ih =>
      cases rest with
      | nil => exact ⟨first, List.mem_cons_self, by simpa [List.intercalate] using hin⟩
      | cons second more =>
        have hcons : ['/'].intercalate (first :: second :: more) =
            first ++ '/' :: ['/'].intercalate (second :: more) := by
          simp [List.intercalate]
        rw [hcons, List.mem_append, List.mem_cons] at hin
        rcases hin with hfirst | hsame | hrest
        · exact ⟨first, List.mem_cons_self, hfirst⟩
        · exact absurd hsame hc
        · obtain ⟨piece, hpiece, hin⟩ := ih hrest
          exact ⟨piece, List.mem_cons_of_mem _ hpiece, hin⟩
  have hwhole : ['/'].intercalate (path.text.toList.splitOn '/') = path.text.toList :=
    List.intercalate_splitOn '/'
  rw [← hwhole] at hmem
  obtain ⟨piece, hpiece, hin⟩ := hjoined _ hmem
  refine ⟨String.ofList piece, ?_, by simpa using hin⟩
  rw [Path.pieces_eq]
  exact List.mem_map_of_mem hpiece

/-- A character with no meaning of its own stands in a name. -/
theorem mem_text_iff {c : Char} (hseparator : c ≠ '/') (hdot : c ≠ '.') :
    c ∈ path.text.toList ↔ ∃ name, Step.down name ∈ moves path ∧ c ∈ name.toList := by
  have hmoves : ∀ text, Step.down text ∈ moves path ↔
      ∃ piece ∈ path.pieces, Step.ofPiece? piece = some (.down text) := by
    intro text
    rw [moves, movesOf, steps, List.mem_filter, List.mem_filterMap]
    exact and_iff_left (by simp)
  constructor
  · intro hmem
    obtain ⟨piece, hpiece, hin⟩ := exists_piece_of_mem_text hseparator hmem
    refine ⟨piece, (hmoves piece).mpr ⟨piece, hpiece, ?_⟩, hin⟩
    refine Path.ofPiece?_name ⟨?_, ?_, ?_, Path.separator_notMem_of_mem_pieces hpiece⟩
    all_goals
      rintro rfl
      simp [hdot] at hin
  · rintro ⟨text, htext, hin⟩
    obtain ⟨piece, hpiece, hstep⟩ := (hmoves text).mp htext
    have hsame : piece = text := by
      unfold Step.ofPiece? at hstep
      split at hstep
      · cases hstep
      split at hstep
      · cases hstep
      split at hstep
      · cases hstep
      · exact Step.down.inj (Option.some.inj hstep)
    exact Path.mem_text_of_piece hpiece (hsame ▸ hin)

theorem mem_text_iff_of_moves {c : Char} (hseparator : c ≠ '/') (hdot : c ≠ '.')
    (hmoves : moves left = moves right) : c ∈ left.text.toList ↔ c ∈ right.text.toList := by
  rw [mem_text_iff hseparator hdot, mem_text_iff hseparator hdot, hmoves]

/-! ## Files beside a path -/

/-- The parents of paths that are read alike are gone to alike, and below them is one name. -/
theorem moves_parents_of_same {above other : Path} {last : String} (hsame : left.same right = true)
    (hname : left.fileName? = some name) (hparent : left.parent? = some above)
    (hlast : right.fileName? = some last) (hother : right.parent? = some other) :
    last = name ∧ moves other = moves above := by
  have hmoves := moves_eq_of_same hsame
  rw [moves_of_parent hname hparent, moves_of_parent hlast hother] at hmoves
  obtain ⟨habove, hdown⟩ := List.append_inj' hmoves rfl
  exact ⟨(Step.down.inj (List.cons.inj hdown).1).symm, habove.symm⟩

/-- What stands beside a path is found beside another text of it. -/
theorem node?_besides_of_same (hsame : left.same right = true) (hname : left.fileName? = some name)
    {last : String} (hlast : right.fileName? = some last) (hending : '/' ∉ ending.toList)
    (hlong : 2 ≤ ending.toList.length)
    (hfits : (right.besides ending).text.utf8ByteSize ≤ longestPath)
    (hnode : tree.node? (left.besides ending) = some (.file content)) :
    tree.node? (right.besides ending) = some (.file content) := by
  obtain ⟨above, habove⟩ := Path.exists_parent?_of_fileName? hname
  obtain ⟨other, hother⟩ := Path.exists_parent?_of_fileName? hlast
  obtain ⟨rfl, hmoves⟩ := moves_parents_of_same hsame hname habove hlast hother
  have hfull := Path.isName_append (Path.isName_of_fileName? hname) hending hlong
  have hleft := steps_besides hname habove hfull
  have hright := steps_besides hlast hother hfull
  have hboth : moves (right.besides ending) = moves (left.besides ending) := by
    rw [moves, moves, hleft, hright, movesOf_append, movesOf_append]
    exact congrArg (· ++ _) hmoves
  have hjoin := Path.besides_of_parent hlast hother ending
  obtain ⟨hcheck, hwalk, hget, -⟩ := node?_eq_some_iff_walk.mp hnode
  have hplain := ((Path.checkPath_eq_ok_iff (left.besides ending)).mp hcheck).1
  have hfound : tree.find (right.besides ending) =
      .ok (destination (left.besides ending), .file content) := by
    refine find_eq_ok_iff_walk.mpr ⟨(Path.checkPath_eq_ok_iff (right.besides ending)).mpr
      ⟨?_, ?_, hfits⟩, ?_, hget, ?_⟩
    · exact fun hmem => hplain ((mem_text_iff_of_moves (by decide) (by decide) hboth).mp hmem)
    · rw [hjoin]
      exact text_join_ne_empty hfull other
    · rw [hright, ← walk_movesOf, show movesOf (steps other) = movesOf (steps above) from hmoves,
        walk_movesOf, ← hleft]
      exact hwalk
    · rw [hjoin]
      exact .inr (Path.endsInSeparator_join other hfull)
  rw [node?, hfound]

/-- Beside a file another one can be written, if its name and its path are not too long. -/
theorem writable_besides (hname : path.fileName? = some name) {node : Node}
    (hnode : tree.node? path = some node) (hending : '/' ∉ ending.toList)
    (hlong : 2 ≤ ending.toList.length) (hplain : Char.ofNat 0 ∉ ending.toList)
    (hshort : (name ++ ending).utf8ByteSize ≤ longestName)
    (hfits : (path.besides ending).text.utf8ByteSize ≤ longestPath)
    (hnot : tree.isDirectoryAt (destination (path.besides ending)) = false) :
    tree.Writable (path.besides ending) := by
  obtain ⟨parent, hparent⟩ := Path.exists_parent?_of_fileName? hname
  have hfull := Path.isName_append (Path.isName_of_fileName? hname) hending hlong
  have hjoin := Path.besides_of_parent hname hparent ending
  have hsteps := steps_besides hname hparent hfull
  have hcheck : checkPath (path.besides ending) = .ok () := by
    refine (Path.checkPath_eq_ok_iff _).mpr ⟨fun hmem => ?_, ?_, hfits⟩
    · rw [mem_text_iff (by decide) (by decide), moves, hsteps, movesOf_append] at hmem
      obtain ⟨text, htext, hin⟩ := hmem
      have hpath : Char.ofNat 0 ∈ path.text.toList := by
        rw [mem_text_iff (by decide) (by decide), moves_of_parent hname hparent]
        rcases List.mem_append.mp htext with habove | hlast
        · exact ⟨text, List.mem_append_left _ habove, hin⟩
        · obtain rfl := Step.down.inj (List.mem_singleton.mp hlast)
          rw [String.toList_append, List.mem_append] at hin
          exact ⟨name, List.mem_append_right _ (List.mem_singleton_self _), hin.resolve_right hplain⟩
      obtain ⟨hpathCheck, -⟩ := node?_eq_some_iff_walk.mp hnode
      exact ((Path.checkPath_eq_ok_iff path).mp hpathCheck).1 hpath
    · rw [hjoin]
      exact text_join_ne_empty hfull parent
  obtain ⟨here, hwalk, hhere⟩ := exists_walk_parent hname hparent hnode
  have hstep : tree.step here (.down (name ++ ending)) = .ok (here ++ [name ++ ending]) :=
    step_down_eq_ok_iff.mpr ⟨hhere, hshort, rfl⟩
  have hplace : ∀ otherwise, tree.place (path.besides ending) otherwise =
      .ok (here ++ [name ++ ending]) := by
    intro otherwise
    refine place_eq_ok_iff_walk.mpr ⟨hcheck, here, name ++ ending, ?_, ?_, hstep⟩
    · rwa [hsteps, List.dropLast_concat]
    · rw [hsteps, List.getLast?_concat]
  refine ⟨fun otherwise => place_eq_ok (hplace otherwise) otherwise, ?_, hnot⟩
  rw [hjoin]
  exact Path.endsInSeparator_join parent hfull

/-- The temporary form of a metadata file stands beside the data file as well. -/
theorem besides_metadata (hname : path.fileName? = some name) :
    (Metadata.path path).besides Metadata.temporaryEnding =
      path.besides (Metadata.ending ++ Metadata.temporaryEnding) := by
  obtain ⟨parent, hparent⟩ := Path.exists_parent?_of_fileName? hname
  have hfull := Path.isName_append (Path.isName_of_fileName? hname)
    (by decide : '/' ∉ Metadata.ending.toList) (by decide)
  rw [Metadata.path, Path.besides_of_parent hname hparent, Path.besides_of_parent hname hparent,
    Path.besides_join (Path.trimmed_parent hparent) hfull, String.append_assoc]

end TableAppend.FileTree
