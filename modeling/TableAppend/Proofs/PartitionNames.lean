import TableAppend.Proofs.Append.Preparation
import TableAppend.Proofs.ColumnOrder

/-!
# Values that name a partition

A partition by column is named `column=value`, and the name is checked after it has been put together:
what counts as its value is all that follows the first `=`.  For a column without `=` this is the value
of the row, and exactly the values that are one safe step are accepted.  For a column with `=` the part
that is checked begins in the name of the column, so that it is never empty and never a relative step,
whatever the row holds.  `route_byColumn` says which rows have a partition and how all others are
refused.
-/

namespace TableAppend

/-! ## What counts as the value of a token -/

theorem segmentValue_joined {column value : List Char} (hcolumn : '=' ∉ column) :
    segmentValue (column ++ '=' :: value) = value := by
  have hskip : (column ++ '=' :: value).dropWhile (· ≠ '=') = '=' :: value := by
    rw [List.dropWhile_append_of_pos fun c hc => ?_, List.dropWhile_cons_of_neg (by simp)]
    exact decide_eq_true (ne_of_mem_of_not_mem hc hcolumn)
  rw [segmentValue, hskip]

/-- What follows the first `=` in the name of the column is checked together with the value. -/
theorem exists_segmentValue_joined {column : List Char} (hcolumn : '=' ∈ column) :
    ∃ rest, ∀ value, segmentValue (column ++ '=' :: value) = rest ++ '=' :: value := by
  obtain ⟨before, rest, rfl, hbefore⟩ := List.eq_append_cons_of_mem hcolumn
  refine ⟨rest, fun value => ?_⟩
  rw [List.append_assoc, List.cons_append, segmentValue_joined hbefore]

/-! ## Blank values -/

/-- What is left behind blank characters does not begin with one. -/
theorem dropWhile_isBlank_eq_nil {chars : List Char}
    (hblank : ∀ c ∈ chars.dropWhile isBlank, isBlank c = true) : chars.dropWhile isBlank = [] := by
  by_contra hrest
  have hhead := List.head_dropWhile_not isBlank hrest
  exact Bool.false_ne_true (hhead.symm.trans (hblank _ (List.head_mem hrest)))

theorem stripBlanks_eq_nil_iff {chars : List Char} :
    stripBlanks chars = [] ↔ ∀ c ∈ chars, isBlank c = true := by
  rw [stripBlanks, List.reverse_eq_nil_iff, List.dropWhile_eq_nil_iff]
  simp only [List.mem_reverse]
  constructor
  · intro hall
    exact List.dropWhile_eq_nil_iff.mp (dropWhile_isBlank_eq_nil hall)
  · intro hall c hc
    exact hall c ((List.dropWhile_suffix _).subset hc)

/-- A stripped text is blank only where nothing is left of it. -/
theorem stripBlanks_strip_eq_nil_iff {text : String} :
    stripBlanks (strip text).toList = [] ↔ strip text = "" := by
  rw [stripBlanks_eq_nil_iff]
  constructor
  · intro hall
    have hrest : stripBlanks text.toList = [] := by
      simp only [strip, String.toList_ofList, stripBlanks, List.mem_reverse] at hall
      rw [stripBlanks, dropWhile_isBlank_eq_nil hall, List.reverse_nil]
    rw [strip, hrest]
  · intro hempty
    simp [hempty]

/-! ## Faults of joined tokens -/

/-- A name of a column that can be part of a path. -/
structure IsPlainColumn (column : String) : Prop where
  nonblank : stripBlanks column.toList ≠ []
  slash : '/' ∉ column.toList
  backslash : '\\' ∉ column.toList
  null : Char.ofNat 0 ∉ column.toList

/-- What may stand behind the name of a column.  Only for columns without `=` does the value itself have
to be there and to lead to another place. -/
structure Follows (column value : String) : Prop where
  slash : '/' ∉ value.toList
  backslash : '\\' ∉ value.toList
  null : Char.ofNat 0 ∉ value.toList
  step : '=' ∉ column.toList → value ≠ "" ∧ value ≠ "." ∧ value ≠ ".."

/-- Why a stripped value cannot stand behind the name of a column, if it cannot. -/
def joinedFault? (column value : String) : Option SegmentFault :=
  if '=' ∉ column.toList ∧ value = "" then some .empty
  else if '/' ∈ value.toList ∨ '\\' ∈ value.toList then some .separator
  else if Char.ofNat 0 ∈ value.toList then some .nullByte
  else if '=' ∉ column.toList ∧ (value = "." ∨ value = "..") then some .relative
  else none

theorem joinedFault?_eq_none_iff {column value : String} :
    joinedFault? column value = none ↔ Follows column value := by
  have hsplit : Follows column value ↔ ¬('=' ∉ column.toList ∧ value = "") ∧
      ¬('/' ∈ value.toList ∨ '\\' ∈ value.toList) ∧ Char.ofNat 0 ∉ value.toList ∧
        ¬('=' ∉ column.toList ∧ (value = "." ∨ value = "..")) := by
    constructor
    · rintro ⟨hslash, hbackslash, hnull, hstep⟩
      tauto
    · rintro ⟨hempty, hseparator, hnull, hrelative⟩
      constructor <;> tauto
  rw [hsplit, joinedFault?]
  split_ifs <;> simp_all

section Joined

variable {column : String} (hcolumn : IsPlainColumn column) (text : String)

theorem toList_joined (column value : String) :
    (column ++ "=" ++ value).toList = column.toList ++ '=' :: value.toList := by
  simp

theorem stripBlanks_segmentValue_joined_eq_nil_iff :
    stripBlanks (segmentValue (column ++ "=" ++ strip text).toList) = [] ↔
      '=' ∉ column.toList ∧ strip text = "" := by
  rw [toList_joined]
  by_cases hequals : '=' ∈ column.toList
  · obtain ⟨rest, hrest⟩ := exists_segmentValue_joined hequals
    have hkept : ¬∀ c ∈ rest ++ '=' :: (strip text).toList, isBlank c = true := fun hall =>
      absurd (hall '=' (by simp)) (by decide)
    simp [hrest, stripBlanks_eq_nil_iff.not.mpr hkept, hequals]
  · rw [segmentValue_joined hequals, stripBlanks_strip_eq_nil_iff]
    simp [hequals]

theorem segmentValue_joined_eq_dots_iff (value : String) :
    (segmentValue (column ++ "=" ++ value).toList = ['.'] ∨
      segmentValue (column ++ "=" ++ value).toList = ['.', '.']) ↔
        '=' ∉ column.toList ∧ (value = "." ∨ value = "..") := by
  rw [toList_joined]
  by_cases hequals : '=' ∈ column.toList
  · obtain ⟨rest, hrest⟩ := exists_segmentValue_joined hequals
    have hkept : '=' ∈ rest ++ '=' :: value.toList := by simp
    have hne : ∀ dots : List Char, '=' ∉ dots → rest ++ '=' :: value.toList ≠ dots :=
      fun dots hdots hsame => hdots (hsame ▸ hkept)
    simp [hrest, hne ['.'] (by decide), hne ['.', '.'] (by decide), hequals]
  · rw [segmentValue_joined hequals, ← @String.toList_inj value ".",
      ← @String.toList_inj value ".."]
    simp [hequals]

include hcolumn in
theorem segmentFault?_joined :
    segmentFault? (column ++ "=" ++ strip text) = joinedFault? column (strip text) := by
  have hmem : ∀ c, c ≠ '=' → c ∉ column.toList →
      (c ∈ (column ++ "=" ++ strip text).toList ↔ c ∈ (strip text).toList) := by
    intro c hequals hc
    simp [hequals, hc]
  rw [segmentFault?, joinedFault?]
  simp only [stripBlanks_segmentValue_joined_eq_nil_iff, segmentValue_joined_eq_dots_iff,
    hmem '/' (by decide) hcolumn.slash, hmem '\\' (by decide) hcolumn.backslash,
    hmem (Char.ofNat 0) (by decide) hcolumn.null]

end Joined

/-! ## Rows of a batch -/

namespace Segment

theorem ofToken_eq_ok_iff {token : String} {segment : Segment} :
    ofToken token = .ok segment ↔ segmentFault? token = none ∧ segment.text = token := by
  obtain ⟨text, haccepted⟩ := segment
  rw [ofToken]
  split
  · rename_i hnone
    simp [hnone, eq_comm]
  · rename_i fault hfault
    simp [hfault]

theorem ofToken_eq_error_iff {token : String} {failure : Failure} :
    ofToken token = .error failure ↔ ∃ fault, segmentFault? token = some fault ∧
      .partitionKey (clip shownTokenBytes token) fault = failure := by
  rw [ofToken]
  split
  · rename_i hnone
    simp [hnone]
  · rename_i fault hfault
    simp [hfault]

end Segment

namespace Routing

theorem requiredColumn_byColumn {column : String} (hcolumn : IsPlainColumn column) :
    (byColumn column).requiredColumn = .ok column :=
  if_neg hcolumn.nonblank

section Cells

variable {column : String} (hcolumn : IsPlainColumn column) {columns : List String} {row : List Cell}
  {cell : Cell} (hcell : Batch.cell? columns row column = some cell)

include hcolumn hcell

theorem route_byColumn_of_null (htext : cell.canonical? = none) :
    (byColumn column).route columns row = .error (nullFailure column) := by
  have hscheme : (byColumn column).scheme = .byColumn := rfl
  simp only [route, hscheme, requiredColumn_byColumn hcolumn, Outcome.ok_bind, rowCell, hcell, htext]

theorem route_byColumn_of_text {text : String} (htext : cell.canonical? = some text) :
    (byColumn column).route columns row =
      some <$> Segment.ofToken (column ++ "=" ++ strip text) := by
  have hscheme : (byColumn column).scheme = .byColumn := rfl
  simp only [route, hscheme, requiredColumn_byColumn hcolumn, Outcome.ok_bind, rowCell, hcell, htext]

end Cells

/-- A row of a batch has a partition by a plain column exactly if its cell there is not null and the
stripped text of the cell may follow the name of the column; the partition is named for both.  Every other
row is refused for its partition key. -/
theorem route_byColumn {batch : Batch} (hbatch : batch.WellFormed) {column : String}
    (hcolumn : IsPlainColumn column) (hmem : column ∈ batch.columns) {row : List Cell}
    (hrow : row ∈ batch.rows) : ∃ cell, Batch.cell? batch.columns row column = some cell ∧
      (∀ key, (byColumn column).route batch.columns row = .ok key ↔
        ∃ text, cell.canonical? = some text ∧ Follows column (strip text) ∧
          key.text? = some (column ++ "=" ++ strip text)) ∧
      ∀ failure, (byColumn column).route batch.columns row = .error failure ↔
        (cell = .null ∧ .partitionKey "null" (.nullColumn column) = failure) ∨
          ∃ text fault, cell.canonical? = some text ∧
            joinedFault? column (strip text) = some fault ∧
              .partitionKey (clip shownTokenBytes (column ++ "=" ++ strip text)) fault = failure := by
  obtain ⟨cell, hcell⟩ := Batch.exists_cell? hmem (hbatch.2 row hrow)
  refine ⟨cell, hcell, ?_⟩
  cases htext : cell.canonical? with
  | none =>
    rw [route_byColumn_of_null hcolumn hcell htext, (Cell.canonical?_eq_none_iff cell).mp htext]
    simp [nullFailure]
  | some text =>
    have hcellNe : cell ≠ .null := by
      rintro rfl
      contradiction
    have hfault := segmentFault?_joined hcolumn text
    rw [route_byColumn_of_text hcolumn hcell htext]
    simp only [Outcome.map_eq_ok_iff, Outcome.map_eq_error_iff, Segment.ofToken_eq_ok_iff,
      Segment.ofToken_eq_error_iff, hfault, joinedFault?_eq_none_iff, Option.some.injEq,
      exists_eq_left', hcellNe, false_and, false_or, exists_and_left, implies_true, and_true]
    intro key
    constructor
    · rintro ⟨segment, ⟨hfollows, hsegment⟩, rfl⟩
      exact ⟨hfollows, congrArg some hsegment⟩
    · rintro ⟨hfollows, hkey⟩
      obtain ⟨segment, rfl, hsegment⟩ := Option.map_eq_some_iff.mp hkey
      exact ⟨segment, ⟨hfollows, hsegment⟩, rfl⟩

/-- The same value two times: behind a plain name it is refused, and behind a name with `=` it is
accepted. -/
theorem route_byColumn_of_step_up :
    let batch : Batch := ⟨["region", "a=b"], [[.text " .. ", .text " .. "]]⟩
    let row : List Cell := [.text " .. ", .text " .. "]
    batch.WellFormed ∧ IsPlainColumn "region" ∧ IsPlainColumn "a=b" ∧
      (byColumn "region").route batch.columns row =
        .error (.partitionKey "region=.." .relative) ∧
      ∃ segment : Segment, segment.text = "a=b=.." ∧
        (byColumn "a=b").route batch.columns row = .ok (some segment) := by
  intro batch row
  have hbatch : batch.WellFormed := ⟨by decide, by decide⟩
  have hregion : IsPlainColumn "region" := ⟨by decide, by decide, by decide, by decide⟩
  have hequals : IsPlainColumn "a=b" := ⟨by decide, by decide, by decide, by decide⟩
  have hrow : row ∈ batch.rows := List.mem_singleton.mpr rfl
  obtain ⟨cell, hcell, -, hrefused⟩ := route_byColumn hbatch hregion (by decide) hrow
  obtain rfl : .text " .. " = cell := Option.some.inj hcell
  obtain ⟨other, hother, hnamed, -⟩ := route_byColumn hbatch hequals (by decide) hrow
  obtain rfl : .text " .. " = other := Option.some.inj hother
  have hfollows : Follows "a=b" (strip " .. ") := joinedFault?_eq_none_iff.mp (by decide)
  refine ⟨hbatch, hregion, hequals, (hrefused _).mpr (.inr ⟨_, .relative, rfl, by decide, ?_⟩),
    ⟨"a=b=..", by decide⟩, rfl, (hnamed _).mpr ⟨_, rfl, hfollows, by decide⟩⟩
  decide

end Routing

end TableAppend
