import TableAppend.Proofs.Family.Missing
import TableAppend.Proofs.FileTree.Spelling

/-!
# Where the members of a family lie

Also by upward steps, the written form of a directory that is searched leads to that directory.  All
members of a family, and the paths at which new ones may come, therefore lead into one directory.
-/

namespace TableAppend

open FileTree (Step destination moves movesOf steps)

/-! ## Listed directories -/

namespace Path

/-- Joining a piece makes one more step, if the piece stands for any. -/
theorem steps_join_piece (outer : Path) {piece : String} (hpiece : '/' ∉ piece.toList) :
    steps (outer.join piece) = steps outer ++ (Step.ofPiece? piece).toList := by
  have hfront : outer.front.filterMap Step.ofPiece? = steps outer := filterMap_front outer _ rfl
  rw [steps, pieces_join _ hpiece, List.filterMap_append, hfront]
  cases hstep : Step.ofPiece? piece <;> simp [hstep]

theorem moves_entryBase (listed : Path) : moves listed.entryBase = moves listed := by
  rcases listed.entryBase_cases with heq | ⟨rfl, heq⟩ <;> rw [heq]
  decide

theorem moves_of_foldlM {start last : Path} {pieces : List String}
    (hplain : ∀ piece ∈ pieces, '/' ∉ piece.toList)
    (hlast : pieces.foldlM descend? start = some last) :
    moves last = moves start ++ movesOf (pieces.filterMap Step.ofPiece?) := by
  induction pieces generalizing start with
  | nil =>
    rw [List.foldlM_nil, Option.pure_def, Option.some.injEq] at hlast
    rw [hlast]
    exact (List.append_nil _).symm
  | cons piece rest ih =>
    rw [List.foldlM_cons, Option.bind_eq_bind, Option.bind_eq_some_iff] at hlast
    obtain ⟨there, hthere, hrest⟩ := hlast
    have hfirst : moves there = moves start ++ movesOf (Step.ofPiece? piece).toList := by
      rw [descend?_eq_some hthere, moves, steps_join_piece _ (hplain piece List.mem_cons_self),
        FileTree.movesOf_append, ← moves, moves_entryBase]
    have hmore : (piece :: rest).filterMap Step.ofPiece? =
        (Step.ofPiece? piece).toList ++ rest.filterMap Step.ofPiece? := by
      cases hstep : Step.ofPiece? piece <;> simp [hstep]
    rw [ih (fun other hother => hplain other (List.mem_cons_of_mem _ hother)) hrest, hfirst, hmore,
      FileTree.movesOf_append, List.append_assoc]

/-- The written form of a directory goes where the directory goes, without steps that stay. -/
theorem moves_listed? {directory listed : Path} (hlisted : directory.listed? = some listed) :
    moves listed = moves directory := by
  have hplain : ∀ piece ∈ directory.pieces, '/' ∉ piece.toList :=
    fun piece hpiece => separator_notMem_of_mem_pieces hpiece
  rw [listed?] at hlisted
  split at hlisted
  · rename_i hrooted
    obtain ⟨rest, -, hpieces⟩ := (isRooted_iff directory).mp hrooted
    rw [hpieces, List.tail_cons] at hlisted
    have hroot : moves ⟨"/"⟩ = [] := by decide
    have hsteps : steps directory = rest.filterMap Step.ofPiece? := by
      rw [steps, hpieces]
      rfl
    rw [moves_of_foldlM (fun piece hpiece => hplain piece
      (hpieces ▸ List.mem_cons_of_mem _ hpiece)) hlisted, hroot, List.nil_append, ← hsteps, moves]
  · have hhere : moves ⟨"."⟩ = [] := by decide
    rw [moves_of_foldlM hplain hlisted, hhere, List.nil_append, moves, steps]

theorem destination_listed? {directory listed : Path} (hlisted : directory.listed? = some listed) :
    destination listed = destination directory := by
  rw [FileTree.destination_eq_moves, FileTree.destination_eq_moves, moves_listed? hlisted]

theorem destination_entry (listed : Path) {name : String} (hname : IsName name) :
    destination (listed.entry name) = destination listed ++ [name] := by
  rw [entry_eq_join, FileTree.destination_join _ hname, FileTree.destination_eq_moves,
    FileTree.destination_eq_moves listed, moves_entryBase]

end Path

/-! ## Members -/

namespace Family

variable {tree : FileTree} {base path : Path} {name : String}
  (hname : base.fileName? = some name)

include hname

theorem destination_of_sibling {numbered : List Member}
    (hsiblings : siblings tree base = .ok numbered) {member : Member} (hmember : member ∈ numbered) :
    ∃ last, member.2.fileName? = some last ∧
      destination member.2 = destination base.directory ++ [last] := by
  obtain ⟨parts, hparts, hdivide⟩ := exists_parts hname
  obtain ⟨listed, hlisted, other, -, hsibling⟩ := (mem_iff_of_siblings hparts hsiblings).mp hmember
  obtain ⟨-, -, -, hnumber, hpath⟩ := sibling?_eq_some_iff.mp hsibling
  have hisName := (hdivide.of_number? (Path.isName_of_fileName? hname) hnumber).1
  rw [← hpath]
  exact ⟨other, Path.fileName?_entry _ hisName, by
    rw [Path.destination_entry _ hisName, Path.destination_listed? hlisted]⟩

/-- The active member lies beside the base file. -/
theorem destination_of_active (hactive : active tree base = .ok path) :
    ∃ last, path.fileName? = some last ∧
      destination path = destination base.directory ++ [last] := by
  rcases active_eq_base_or_sibling hactive with rfl | ⟨numbered, hsiblings, member, hmember, rfl⟩
  · exact ⟨name, hname, Path.destination_directory hname⟩
  · exact destination_of_sibling hname hsiblings hmember

/-- A new member comes beside the base file. -/
theorem destination_of_target {needsNew : Bool} (htarget : target tree base needsNew = .ok path) :
    ∃ last, path.fileName? = some last ∧
      destination path = destination base.directory ++ [last] := by
  obtain ⟨parts, hparts, -⟩ := exists_parts hname
  rcases target_eq_base_or_numbered hparts htarget with rfl | ⟨number, rfl⟩
  · exact ⟨name, hname, Path.destination_directory hname⟩
  · exact ⟨_, destination_numbered hname hparts _⟩

end Family

end TableAppend
