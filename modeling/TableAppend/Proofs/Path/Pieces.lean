import Mathlib
import TableAppend.Path

/-!
# Pieces of paths

The text of a path is its pieces with separators between them.  This file says what joining a name to
a path does to the pieces, and how the parent and the last name of a path are found among them.
-/

namespace TableAppend.Path

/-- A text that names an entry of a directory. -/
def IsName (name : String) : Prop :=
  name ≠ "" ∧ name ≠ "." ∧ name ≠ ".." ∧ '/' ∉ name.toList

instance (name : String) : Decidable (IsName name) :=
  inferInstanceAs (Decidable (_ ∧ _ ∧ _ ∧ _))

/-! ## Splitting and joining -/

theorem splitPieces_eq_splitOn (chars : List Char) :
    splitPieces chars = chars.splitOn '/' := by
  induction chars with
  | nil => rfl
  | cons c rest ih =>
    have hrest : rest.splitOn '/' ≠ [] := List.splitOn_ne_nil '/' rest
    rw [List.splitOn_cons_eq_if_modifyHead]
    by_cases hc : c = '/'
    · subst hc
      rw [splitPieces, ih]
      simp
    · obtain ⟨piece, pieces, hpieces⟩ := List.exists_cons_of_ne_nil hrest
      rw [splitPieces.eq_def]
      simp [ih, hpieces, hc]

theorem pieces_eq (path : Path) :
    path.pieces = (path.text.toList.splitOn '/').map String.ofList := by
  rw [pieces, splitPieces_eq_splitOn]

theorem pieces_ne_nil (path : Path) : path.pieces ≠ [] := by
  rw [pieces_eq]
  simp [List.splitOn_ne_nil]

theorem separator_notMem_of_mem_pieces {path : Path} {piece : String}
    (hpiece : piece ∈ path.pieces) : '/' ∉ piece.toList := by
  rw [pieces_eq, List.mem_map] at hpiece
  obtain ⟨chars, hchars, rfl⟩ := hpiece
  intro hmem
  rw [String.toList_ofList] at hmem
  have hsplit : ∀ chars ∈ path.text.toList.splitOn '/', '/' ∉ chars := by
    generalize path.text.toList = text
    induction text with
    | nil => simp
    | cons c rest ih =>
      rw [List.splitOn_cons_eq_if_modifyHead]
      by_cases hc : c = '/'
      · simpa [hc] using ih
      · obtain ⟨piece, pieces, hpieces⟩ :=
          List.exists_cons_of_ne_nil (List.splitOn_ne_nil '/' rest)
        simp only [hpieces, List.mem_cons, forall_eq_or_imp] at ih
        have hcsep : '/' ≠ c := fun h => hc h.symm
        simpa [hpieces, hc, hcsep] using ih
  exact hsplit chars hchars hmem

theorem intercalate_append {before after : List String} (hbefore : before ≠ [])
    (hafter : after ≠ []) :
    "/".intercalate (before ++ after) =
      "/".intercalate before ++ "/" ++ "/".intercalate after := by
  apply String.toList_inj.mp
  simp only [String.toList_append, String.toList_intercalate, List.map_append]
  have hrest : after.map String.toList ≠ [] := by simpa using hafter
  generalize after.map String.toList = rest at hrest
  induction before with
  | nil => contradiction
  | cons piece pieces ih =>
    by_cases hpieces : pieces = []
    · subst hpieces
      simp [List.intercalate_cons_of_ne_nil hrest]
    · have hmap : pieces.map String.toList ≠ [] := by simpa using hpieces
      rw [List.map_cons, List.cons_append,
        List.intercalate_cons_of_ne_nil (List.append_ne_nil_of_left_ne_nil hmap rest),
        List.intercalate_cons_of_ne_nil hmap, ih hpieces]
      simp only [List.append_assoc]

/-- Pieces without separators are found again in the text that is made of them. -/
theorem pieces_intercalate {pieces : List String} (hne : pieces ≠ [])
    (hplain : ∀ piece ∈ pieces, '/' ∉ piece.toList) :
    (Path.mk ("/".intercalate pieces)).pieces = pieces := by
  rw [pieces_eq, String.toList_intercalate]
  have hsplit : (['/'].intercalate (pieces.map String.toList)).splitOn '/' =
      pieces.map String.toList := by
    apply List.splitOn_intercalate
    · simpa using hplain
    · simpa using hne
  have hseparator : "/".toList = ['/'] := rfl
  rw [hseparator, hsplit, List.map_map]
  simp [Function.comp_def]

/-- The text of a path is its pieces with separators between them. -/
theorem intercalate_pieces (path : Path) : "/".intercalate path.pieces = path.text := by
  apply String.toList_inj.mp
  rw [String.toList_intercalate, pieces_eq, List.map_map]
  have hid : String.toList ∘ String.ofList = id := by
    funext chars
    exact String.toList_ofList
  have hseparator : "/".toList = ['/'] := rfl
  rw [hid, List.map_id, hseparator, List.intercalate_splitOn]

theorem pieces_append_separator (before after : String) :
    (Path.mk (before ++ "/" ++ after)).pieces =
      (Path.mk before).pieces ++ (Path.mk after).pieces := by
  have htext : (before ++ "/" ++ after).toList = before.toList ++ '/' :: after.toList := by
    simp
  rw [pieces_eq, pieces_eq, pieces_eq]
  simp only [htext, List.splitOn_append_cons_self, List.map_append]

theorem pieces_of_plain {name : String} (hname : '/' ∉ name.toList) :
    (Path.mk name).pieces = [name] := by
  rw [pieces_eq]
  simp [List.splitOn_eq_singleton hname]

/-- The pieces to which joining a name adds one. -/
def front (path : Path) : List String :=
  if path.text = "" ∨ path.text.toList.getLast? = some '/' then path.pieces.dropLast
  else path.pieces

theorem text_of_endsInSeparator {text : String} (hlast : text.toList.getLast? = some '/') :
    ∃ before : String, text = before ++ "/" := by
  obtain ⟨chars, hchars⟩ := List.getLast?_eq_some_iff.mp hlast
  refine ⟨String.ofList chars, String.toList_inj.mp ?_⟩
  simp [hchars]

/-- The front of a path is all of its pieces, or all but an empty one that comes last. -/
theorem front_cases (path : Path) : path.front = path.pieces ∨ path.pieces = path.front ++ [""] := by
  have hempty : (Path.mk "").pieces = [""] := pieces_of_plain (by simp)
  obtain ⟨text⟩ := path
  by_cases htext : text = ""
  · subst htext
    right
    rw [front, if_pos (Or.inl rfl), hempty]
    rfl
  by_cases hlast : text.toList.getLast? = some '/'
  · obtain ⟨before, rfl⟩ := text_of_endsInSeparator hlast
    have hsplit := pieces_append_separator before ""
    rw [String.append_empty, hempty] at hsplit
    right
    rw [front, if_pos (Or.inr hlast), hsplit, List.dropLast_concat]
  · left
    rw [front, if_neg (not_or_intro htext hlast)]

theorem pieces_join (outer : Path) {name : String} (hname : '/' ∉ name.toList) :
    (outer.join name).pieces = outer.front ++ [name] := by
  have hhead : name.toList.head? ≠ some '/' := fun h => hname (List.mem_of_head? h)
  have hplain : (Path.mk name).pieces = [name] := pieces_of_plain hname
  have hempty : (Path.mk "").pieces = [""] := pieces_of_plain (by simp)
  obtain ⟨text⟩ := outer
  by_cases htext : text = ""
  · subst htext
    simp [join, front, hhead, hplain, hempty]
  by_cases hlast : text.toList.getLast? = some '/'
  · obtain ⟨before, rfl⟩ := text_of_endsInSeparator hlast
    have houter : (Path.mk (before ++ "/")).pieces = (Path.mk before).pieces ++ [""] := by
      have hsplit := pieces_append_separator before ""
      rw [String.append_empty, hempty] at hsplit
      exact hsplit
    rw [join, if_neg hhead, if_pos (Or.inr hlast), pieces_append_separator, hplain, front,
      if_pos (Or.inr hlast), houter, List.dropLast_concat]
  · rw [join, if_neg hhead, if_neg (not_or_intro htext hlast), pieces_append_separator, hplain,
      front, if_neg (not_or_intro htext hlast)]

/-- What reads no component from an empty piece reads the same from the front of a path. -/
theorem filterMap_front {β : Type} (outer : Path) (read : String → Option β)
    (hread : read "" = none) : outer.front.filterMap read = outer.pieces.filterMap read := by
  rcases outer.front_cases with hall | hempty
  · rw [hall]
  · rw [hempty, List.filterMap_append]
    simp [hread]

/-- A path begins with a separator exactly if its first piece of several is empty. -/
theorem isRooted_iff (path : Path) :
    path.isRooted ↔ ∃ rest ≠ [], path.pieces = "" :: rest := by
  rw [isRooted, pieces_eq]
  cases hchars : path.text.toList with
  | nil => simp
  | cons c rest =>
    rw [List.splitOn_cons_eq_if_modifyHead]
    obtain ⟨piece, pieces, hpieces⟩ := List.exists_cons_of_ne_nil (List.splitOn_ne_nil '/' rest)
    by_cases hc : c = '/'
    · simp [hc, List.splitOn_ne_nil]
    · simp [hc, hpieces]

theorem isRooted_join (outer : Path) {name : String} (hname : '/' ∉ name.toList) :
    (outer.join name).isRooted = outer.isRooted := by
  have hhead : name.toList.head? ≠ some '/' := fun h => hname (List.mem_of_head? h)
  obtain ⟨text⟩ := outer
  rw [join, if_neg hhead]
  by_cases htext : text = ""
  · subst htext
    simp [isRooted, hhead]
  · have hne : text.toList ≠ [] := by simpa using htext
    obtain ⟨c, rest, hchars⟩ := List.exists_cons_of_ne_nil hne
    split <;> simp [isRooted, hchars]

end TableAppend.Path
