import TableAppend.Proofs.Path.Pieces

/-!
# Last names and parents

Pieces at the end of a path that stand for nothing are dropped before its last name is looked up, and
again before its parent is written.  A path that has lost such pieces already is `trimmed`, and then
`parent?` undoes `join`.
-/

namespace TableAppend.Path

/-! ## Trimming -/

/-- What is dropped at the end stands for nothing, and the last piece that is kept stands for
something. -/
theorem trimPieces_spec (rooted : Bool) (pieces : List String) :
    ∃ junk, pieces = trimPieces rooted pieces ++ junk ∧ (∀ piece ∈ junk, piece = "" ∨ piece = ".") ∧
      ∀ kept last, trimPieces rooted pieces = kept ++ [last] →
        isSignificant rooted kept.length last = true := by
  let idle : String × ℕ → Bool := fun entry => !isSignificant rooted entry.2 entry.1
  let dropped := pieces.zipIdx.reverse.takeWhile idle
  let kept := pieces.zipIdx.reverse.dropWhile idle
  have htrim : trimPieces rooted pieces = kept.reverse.map Prod.fst := rfl
  have hsplit : pieces.zipIdx = kept.reverse ++ dropped.reverse := by
    rw [← List.reverse_append, List.takeWhile_append_dropWhile, List.reverse_reverse]
  refine ⟨dropped.reverse.map Prod.fst, ?_, ?_, ?_⟩
  · rw [htrim, ← List.map_append, ← hsplit, List.zipIdx_map_fst]
  · intro piece hpiece
    simp only [List.map_reverse, List.mem_reverse, List.mem_map] at hpiece
    obtain ⟨entry, hentry, rfl⟩ := hpiece
    have hidle : idle entry = true := List.mem_takeWhile_imp hentry
    by_cases hempty : entry.1 = ""
    · exact Or.inl hempty
    · right
      by_contra hdot
      simp [idle, isSignificant, hempty, hdot] at hidle
  · intro front last hfront
    rw [htrim] at hfront
    obtain ⟨entry, rest, hkept⟩ : ∃ entry rest, kept = entry :: rest := by
      apply List.exists_cons_of_ne_nil
      intro hnil
      simp [hnil] at hfront
    have hlast : entry.1 = last ∧ rest.reverse.map Prod.fst = front := by
      rw [hkept, List.reverse_cons, List.map_append] at hfront
      have := List.append_inj' hfront rfl
      simpa [and_comm] using this
    have hindex : entry.2 = front.length := by
      have hget : pieces.zipIdx[rest.reverse.length]? = some entry := by
        rw [hsplit, hkept]
        simp
      rw [List.getElem?_zipIdx] at hget
      obtain ⟨piece, -, hentry⟩ := Option.map_eq_some_iff.mp hget
      rw [← hentry, ← hlast.2]
      simp
    have hnot : idle entry = false := by
      have hne : kept ≠ [] := by simp [hkept]
      have hhead := List.head_dropWhile_not idle hne
      have hentry : kept.head hne = entry := by simp [hkept]
      rwa [hentry] at hhead
    simpa [idle, hindex, hlast.1] using hnot

/-- Pieces of which the last stands for something are kept. -/
theorem trimPieces_concat {rooted : Bool} {pieces : List String} {last : String}
    (hlast : isSignificant rooted pieces.length last = true) :
    trimPieces rooted (pieces ++ [last]) = pieces ++ [last] := by
  simp [trimPieces, List.zipIdx_append, hlast]

theorem trimPieces_concat_empty (rooted : Bool) (pieces : List String) :
    trimPieces rooted (pieces ++ [""]) = trimPieces rooted pieces := by
  simp [trimPieces, List.zipIdx_append, isSignificant]

theorem trimPieces_trimPieces (rooted : Bool) (pieces : List String) :
    trimPieces rooted (trimPieces rooted pieces) = trimPieces rooted pieces := by
  obtain ⟨junk, -, -, hlast⟩ := trimPieces_spec rooted pieces
  rcases List.eq_nil_or_concat (trimPieces rooted pieces) with hnil | ⟨kept, last, hkept⟩
  · rw [hnil]
    rfl
  · rw [List.concat_eq_append] at hkept
    rw [hkept]
    exact trimPieces_concat (hlast kept last hkept)

/-- A name stands for something wherever it is. -/
theorem isSignificant_name {name : String} (hname : IsName name) (rooted : Bool) (index : ℕ) :
    isSignificant rooted index name = true := by
  obtain ⟨hempty, hdot, -, -⟩ := hname
  simp [isSignificant, hempty, hdot]

theorem trimPieces_front (outer : Path) (rooted : Bool) :
    trimPieces rooted outer.front = trimPieces rooted outer.pieces := by
  rcases outer.front_cases with hall | hempty
  · rw [hall]
  · rw [hempty, trimPieces_concat_empty]

/-! ## The last name -/

theorem splitLast?_eq_some {path : Path} {before : List String} {last : String}
    (hsplit : path.splitLast? = some (before, last)) :
    ∃ junk, path.pieces = before ++ last :: junk ∧ (∀ piece ∈ junk, piece = "" ∨ piece = ".") ∧
      isSignificant path.isRooted before.length last = true := by
  obtain ⟨junk, hpieces, hjunk, hlast⟩ := trimPieces_spec path.isRooted path.pieces
  obtain ⟨found, hfound, heq⟩ := Option.map_eq_some_iff.mp hsplit
  obtain ⟨kept, hkept⟩ := List.getLast?_eq_some_iff.mp hfound
  rw [Prod.mk.injEq] at heq
  obtain ⟨hbefore, rfl⟩ := heq
  have hkeptBefore : kept = before := by
    rw [← hbefore, hkept, List.dropLast_concat]
  subst hkeptBefore
  refine ⟨junk, ?_, hjunk, hlast kept found hkept⟩
  rw [hkept] at hpieces
  rw [hpieces, List.append_assoc]
  rfl

theorem fileName?_eq_some {path : Path} {name : String} (hname : path.fileName? = some name) :
    ∃ before, path.splitLast? = some (before, name) ∧ name ≠ "." ∧ name ≠ ".." := by
  rw [fileName?] at hname
  split at hname
  · rename_i before last hsplit
    split at hname
    · contradiction
    · rename_i hnot
      obtain rfl : last = name := by simpa using hname
      exact ⟨before, hsplit, by tauto, by tauto⟩
  · contradiction

theorem isName_of_fileName? {path : Path} {name : String} (hname : path.fileName? = some name) :
    IsName name := by
  obtain ⟨before, hsplit, hdot, hup⟩ := fileName?_eq_some hname
  obtain ⟨junk, hpieces, -, hsignificant⟩ := splitLast?_eq_some hsplit
  refine ⟨?_, hdot, hup, ?_⟩
  · rintro rfl
    simp [isSignificant] at hsignificant
  · refine @separator_notMem_of_mem_pieces path _ ?_
    rw [hpieces]
    simp

theorem splitLast?_join (outer : Path) {name : String} (hname : IsName name) :
    (outer.join name).splitLast? = some (outer.front, name) := by
  have hkept : trimPieces (outer.join name).isRooted (outer.join name).pieces =
      outer.front ++ [name] := by
    rw [pieces_join outer hname.2.2.2]
    exact trimPieces_concat (isSignificant_name hname _ _)
  simp [splitLast?, hkept]

theorem fileName?_join (outer : Path) {name : String} (hname : IsName name) :
    (outer.join name).fileName? = some name := by
  rw [fileName?, splitLast?_join outer hname]
  simp [hname.2.1, hname.2.2.1]

/-! ## Parents -/

/-- The path without pieces at its end that stand for nothing. -/
def trimmed (path : Path) : Path :=
  ofPieces path.isRooted (trimPieces path.isRooted path.pieces)

theorem parent?_join (outer : Path) {name : String} (hname : IsName name) :
    (outer.join name).parent? = some outer.trimmed := by
  rw [parent?, splitLast?_join outer hname, isRooted_join outer hname.2.2.2, Option.map_some]
  dsimp only
  rw [trimPieces_front, trimmed]

theorem exists_parent?_of_fileName? {path : Path} {name : String}
    (hname : path.fileName? = some name) : ∃ parent, path.parent? = some parent := by
  obtain ⟨before, hsplit, -, -⟩ := fileName?_eq_some hname
  exact ⟨_, by rw [parent?, hsplit, Option.map_some]⟩

/-- A parent needs no trimming. -/
theorem trimmed_parent {path parent : Path} (hparent : path.parent? = some parent) :
    parent.trimmed = parent := by
  obtain ⟨⟨before, last⟩, hsplit, rfl⟩ := Option.map_eq_some_iff.mp hparent
  obtain ⟨junk, hpieces, -, hlast⟩ := splitLast?_eq_some hsplit
  obtain ⟨more, hbefore, -, -⟩ := trimPieces_spec path.isRooted before
  have htwice := trimPieces_trimPieces path.isRooted before
  generalize hkept : trimPieces path.isRooted before = kept at hbefore htwice
  dsimp only
  rw [hkept]
  by_cases hall : path.isRooted ∧ kept.all (· = "")
  · rw [ofPieces, if_pos hall]
    decide
  rcases List.eq_nil_or_concat kept with hnil | ⟨init, final, hconcat⟩
  · subst hnil
    rw [ofPieces, if_neg hall]
    decide
  have hne : kept ≠ [] := by simp [hconcat]
  have hplain : ∀ piece ∈ kept, '/' ∉ piece.toList := by
    intro piece hpiece
    refine @separator_notMem_of_mem_pieces path _ ?_
    rw [hpieces, hbefore]
    simp [hpiece]
  have hkeptPieces : (Path.mk ("/".intercalate kept)).pieces = kept :=
    pieces_intercalate hne hplain
  have hrooted : (Path.mk ("/".intercalate kept)).isRooted = path.isRooted := by
    obtain ⟨head, tail, hcons⟩ := List.exists_cons_of_ne_nil hne
    have hfull : path.pieces = head :: (tail ++ more ++ last :: junk) := by
      rw [hpieces, hbefore, hcons]
      simp
    rw [Bool.eq_iff_iff, isRooted_iff, isRooted_iff, hkeptPieces, hfull, hcons]
    constructor
    · rintro ⟨rest, hrest, heq⟩
      obtain ⟨rfl, rfl⟩ := List.cons.inj heq
      exact ⟨_, by simp, rfl⟩
    · rintro ⟨rest, -, heq⟩
      obtain ⟨rfl, rfl⟩ := List.cons.inj heq
      refine ⟨tail, ?_, rfl⟩
      rintro rfl
      apply hall
      refine ⟨(isRooted_iff path).mpr ⟨_, by simp, hfull⟩, ?_⟩
      simp [hcons]
  rw [ofPieces, if_neg hall, trimmed, hrooted, hkeptPieces, htwice, ofPieces, if_neg hall]

/-- A trimmed path ends in a piece that stands for something, unless it stands for nothing itself. -/
theorem trimmed_cases {path : Path} (htrimmed : path.trimmed = path) :
    path.text = "" ∨ path.text = "/" ∨ ∃ before last, path.pieces = before ++ [last] ∧
      isSignificant path.isRooted before.length last = true := by
  obtain ⟨junk, hpieces, -, hlast⟩ := trimPieces_spec path.isRooted path.pieces
  rcases List.eq_nil_or_concat (trimPieces path.isRooted path.pieces) with hnil | ⟨init, last, hkept⟩
  · rw [trimmed, hnil, ofPieces] at htrimmed
    split at htrimmed
    · exact .inr (.inl (by rw [← htrimmed]))
    · exact .inl (by rw [← htrimmed]; rfl)
  · rw [List.concat_eq_append] at hkept
    have hsignificant := hlast init last hkept
    have hne : last ≠ "" := by
      rintro rfl
      simp [isSignificant] at hsignificant
    have hplain : ∀ piece ∈ init ++ [last], '/' ∉ piece.toList := by
      intro piece hpiece
      refine @separator_notMem_of_mem_pieces path _ ?_
      rw [hpieces, hkept]
      exact List.mem_append_left _ hpiece
    have hnot : ¬ (path.isRooted = true ∧ (init ++ [last]).all (· = "") = true) := by
      rintro ⟨-, hall⟩
      have := List.all_eq_true.mp hall last (by simp)
      exact hne (by simpa using this)
    have htext : path = ⟨"/".intercalate (init ++ [last])⟩ := by
      conv_lhs => rw [← htrimmed, trimmed, hkept, ofPieces, if_neg hnot]
    refine .inr (.inr ⟨init, last, ?_, hsignificant⟩)
    rw [htext]
    exact pieces_intercalate (by simp) hplain

/-- A path that ends in a name needs no trimming. -/
theorem trimmed_of_pieces {path : Path} {before : List String} {name : String}
    (hpieces : path.pieces = before ++ [name]) (hname : IsName name) : path.trimmed = path := by
  have hkept : trimPieces path.isRooted path.pieces = path.pieces := by
    rw [hpieces]
    exact trimPieces_concat (isSignificant_name hname _ _)
  have hnot : ¬ (path.isRooted = true ∧ path.pieces.all (· = "") = true) := by
    rintro ⟨-, hall⟩
    have := List.all_eq_true.mp hall name (by simp [hpieces])
    exact hname.1 (by simpa using this)
  rw [trimmed, hkept, ofPieces, if_neg hnot, intercalate_pieces]

theorem trimmed_join (outer : Path) {name : String} (hname : IsName name) :
    (outer.join name).trimmed = outer.join name :=
  trimmed_of_pieces (pieces_join outer hname.2.2.2) hname

end TableAppend.Path
