import TableAppend.Batch
import TableAppend.Proofs.Outcome

/-!
# Batches under other headers

A batch is built exactly if it is well-formed.  Put under the columns of another order, each of its rows
has under every column the cell it had there before.
-/

namespace TableAppend

namespace Batch

theorem firstRepeated?_eq_none_iff {seen columns : List String} :
    firstRepeated? seen columns = none ↔ columns.Nodup ∧ ∀ column ∈ columns, column ∉ seen := by
  induction columns generalizing seen with
  | nil => simp [firstRepeated?]
  | cons column rest ih =>
    by_cases hseen : column ∈ seen
    · simp [firstRepeated?, hseen]
    · rw [firstRepeated?, if_neg hseen, ih, List.nodup_cons]
      simp only [List.mem_cons, not_or, forall_eq_or_imp]
      constructor
      · rintro ⟨hnodup, hnone⟩
        exact ⟨⟨fun hmem => (hnone column hmem).1 rfl, hnodup⟩, hseen,
          fun other hother => (hnone other hother).2⟩
      · rintro ⟨⟨hnot, hnodup⟩, -, hnone⟩
        exact ⟨hnodup, fun other hother => ⟨fun h => hnot (h ▸ hother), hnone other hother⟩⟩

theorem firstRagged?_eq_none_iff {width : ℕ} {rows : List (List Cell)} :
    firstRagged? width rows = none ↔ ∀ row ∈ rows, row.length = width := by
  rw [firstRagged?, Option.map_eq_none_iff, List.find?_eq_none]
  constructor
  · intro hnone row hrow
    obtain ⟨index, hindex, rfl⟩ := List.getElem_of_mem hrow
    have hmem : (rows[index], index) ∈ rows.zipIdx := by
      rw [List.mem_zipIdx_iff_getElem?]
      exact List.getElem?_eq_getElem hindex
    simpa using hnone _ hmem
  · rintro hall ⟨row, index⟩ hmem
    simpa using hall row (List.fst_mem_of_mem_zipIdx hmem)

theorem ofRows_eq_ok_iff {columns : List String} {rows : List (List Cell)} {batch : Batch} :
    ofRows columns rows = .ok batch ↔ batch.WellFormed ∧ batch = ⟨columns, rows⟩ := by
  have hrepeated := @firstRepeated?_eq_none_iff [] columns
  have hragged := @firstRagged?_eq_none_iff columns.length rows
  rw [ofRows]
  constructor
  · intro hrows
    split at hrows
    · contradiction
    · rename_i hcolumns
      split at hrows
      · contradiction
      · rename_i hwidths
        obtain rfl := Except.ok.inj hrows
        exact ⟨⟨(hrepeated.mp hcolumns).1, hragged.mp hwidths⟩, rfl⟩
  · rintro ⟨⟨hcolumns, hwidths⟩, rfl⟩
    rw [hrepeated.mpr ⟨hcolumns, fun _ _ => List.not_mem_nil⟩, hragged.mpr hwidths]

/-- The rows with their cells in the order of a header. -/
def rowsUnder (batch : Batch) (header : List String) : List (List Cell) :=
  batch.rows.map fun row => header.map fun column => (cell? batch.columns row column).getD .null

theorem length_of_mem_rowsUnder {batch : Batch} {header : List String} {row : List Cell}
    (hrow : row ∈ batch.rowsUnder header) : row.length = header.length := by
  obtain ⟨before, -, rfl⟩ := List.mem_map.mp hrow
  exact List.length_map _

/-- A header with as many names as a batch has columns, all of which it contains, has the same names. -/
theorem hasColumns_of_contained {batch : Batch} {header : List String}
    (hcolumns : batch.columns.Nodup) (hlength : header.length = batch.columns.length)
    (hcontained : ∀ column ∈ batch.columns, column ∈ header) : batch.hasColumns header = true := by
  have hperm : batch.columns.Perm header :=
    (hcolumns.subperm hcontained).perm_of_length_le hlength.le
  rw [hasColumns, Bool.and_eq_true]
  refine ⟨by simpa using hlength.symm, List.all_eq_true.mpr ?_⟩
  intro column hcolumn
  simpa using hperm.mem_iff.mpr hcolumn

/-- A row of nulls stays one under every header. -/
theorem getD_cell?_replicate (columns : List String) (width : ℕ) (column : String) :
    (cell? columns (List.replicate width .null) column).getD .null = .null := by
  rw [cell?]
  cases columns.idxOf? column with
  | none => rfl
  | some index =>
    rw [Option.bind_eq_bind, Option.bind_some, List.getElem?_replicate]
    split <;> rfl

theorem project_eq_ok_iff {batch ordered : Batch} {header : List String} :
    batch.project header = .ok ordered ↔
      batch.hasColumns header = true ∧ ordered = ⟨header, batch.rowsUnder header⟩ := by
  have hrows : batch.hasColumns header = true →
      batch.rows.map (cellsAt (header.filterMap batch.columnIndex?)) = batch.rowsUnder header := by
    intro hcolumns
    rw [hasColumns, Bool.and_eq_true, List.all_eq_true] at hcolumns
    refine List.map_congr_left fun row _ => ?_
    rw [cellsAt, List.map_filterMap, ← List.filterMap_eq_map]
    refine List.filterMap_congr fun column hcolumn => ?_
    have hmem : column ∈ batch.columns := by simpa using hcolumns.2 column hcolumn
    obtain ⟨index, hindex⟩ := Option.isSome_iff_exists.mp (List.isSome_idxOf?.mpr hmem)
    simp [columnIndex?, cell?, hindex]
  rw [project]
  constructor
  · intro hproject
    split at hproject
    · rename_i hcolumns
      rw [← Except.ok.inj hproject, hrows hcolumns]
      exact ⟨hcolumns, rfl⟩
    · contradiction
  · rintro ⟨hcolumns, rfl⟩
    rw [if_pos hcolumns, ← hrows hcolumns]

/-- Under its own header a batch stays as it is. -/
theorem rowsUnder_self {batch : Batch} (hbatch : batch.WellFormed) :
    batch.rowsUnder batch.columns = batch.rows := by
  rw [rowsUnder, List.map_congr_left, List.map_id']
  intro row hrow
  refine List.ext_getElem (by rw [List.length_map, hbatch.2 row hrow]) ?_
  intro index hleft hright
  rw [List.length_map] at hleft
  have hindex : batch.columns.idxOf? batch.columns[index] = some index := by
    refine List.idxOf?_eq_some_iff.mpr ⟨hleft, rfl, fun earlier hearlier hsame => ?_⟩
    exact hearlier.ne ((hbatch.1.getElem_inj_iff).mp hsame)
  rw [List.getElem_map, cell?, hindex, Option.bind_eq_bind, Option.bind_some,
    List.getElem?_eq_getElem hright]
  rfl

theorem project_self {batch : Batch} (hbatch : batch.WellFormed) :
    batch.project batch.columns = .ok batch :=
  project_eq_ok_iff.mpr ⟨hasColumns_of_contained hbatch.1 rfl fun _ => id, by
    rw [rowsUnder_self hbatch]⟩

end Batch

end TableAppend
