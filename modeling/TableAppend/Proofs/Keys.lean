import TableAppend.Proofs.AntiJoin
import TableAppend.Proofs.Delimited.Rows

/-!
# Keys of rows

The key of a row depends on its cells under the key columns only: neither on the order of the columns
nor on whether the cells have been stored and read again.  An anti-join keeps the candidates whose keys
are not among those of the baseline.
-/

namespace TableAppend

namespace Batch

/-- The key of a row.  The cell under a column that is missing counts as null. -/
def keyOn (keys columns : List String) (row : List Cell) : Key :=
  Key.ofCells (keys.map fun column => (cell? columns row column).getD .null)

/-- The keys of all rows, in their order. -/
def keysOn (keys : List String) (batch : Batch) : List Key :=
  batch.rows.map (keyOn keys batch.columns)

variable {keys : List String} {batch : Batch}

theorem mem_keysOn_iff {key : Key} :
    key ∈ batch.keysOn keys ↔ ∃ row ∈ batch.rows, keyOn keys batch.columns row = key :=
  List.mem_map

theorem keysOn_unmatched (stored : List Key) :
    (batch.unmatched (keyOn keys batch.columns) stored).keysOn keys =
      (batch.keysOn keys).filter fun key => !stored.contains key := by
  rw [keysOn, keysOn, unmatched, List.filter_map]
  rfl

theorem cell?_map (change : Cell → Cell) (columns : List String) (row : List Cell)
    (column : String) : cell? columns (row.map change) column =
      (cell? columns row column).map change := by
  rw [cell?, cell?]
  cases columns.idxOf? column <;> simp

/-- The cell under a column of a header that has it. -/
theorem cell?_map_header {header : List String} {column : String} (hcolumn : column ∈ header)
    (cellOf : String → Cell) : cell? header (header.map cellOf) column = some (cellOf column) := by
  obtain ⟨index, hindex⟩ := Option.isSome_iff_exists.mp (List.isSome_idxOf?.mpr hcolumn)
  obtain ⟨hlt, hat, -⟩ := List.idxOf?_eq_some_iff.mp hindex
  have hsame : header[index] = column := by simpa using hat
  rw [cell?, hindex, Option.bind_eq_bind, Option.bind_some, List.getElem?_map,
    List.getElem?_eq_getElem hlt, hsame, Option.map_some]

end Batch

namespace AntiJoin

open Batch (keyOn keysOn)

variable {keys : List String} {place : String} {batch : Batch}

theorem keyPosition_eq_ok_iff {key : String} {position : ℕ} :
    keyPosition batch place key = .ok position ↔ batch.columnIndex? key = some position := by
  rw [keyPosition]
  cases batch.columnIndex? key <;> simp

theorem ofRow_positions {positions : List ℕ}
    (hpositions : keys.mapM (keyPosition batch place) = .ok positions) (row : List Cell) :
    Key.ofRow positions row = keyOn keys batch.columns row := by
  have heach := Outcome.mapM_eq_ok_iff.mp hpositions
  clear hpositions
  rw [Key.ofRow, keyOn]
  congr 1
  induction heach with
  | nil => rfl
  | @cons key position _ _ hfirst _ ih =>
    have hindex : batch.columns.idxOf? key = some position := keyPosition_eq_ok_iff.mp hfirst
    rw [List.map_cons, List.map_cons, ih, Batch.cell?, hindex]
    rfl

/-- Keys can be taken exactly if no key column is missing. -/
theorem keysOf_eq_ok_iff_keysOn {found : List Key} :
    keysOf keys place batch = .ok found ↔
      (∀ key ∈ keys, key ∈ batch.columns) ∧ found = batch.keysOn keys := by
  have hposition : ∀ {key}, (∃ position, keyPosition batch place key = .ok position) ↔
      key ∈ batch.columns := by
    intro key
    simp only [keyPosition_eq_ok_iff, Batch.columnIndex?]
    rw [← Option.isSome_iff_exists, List.isSome_idxOf?]
  rw [keysOf_eq_ok_iff]
  constructor
  · rintro ⟨positions, hpositions, rfl⟩
    refine ⟨fun key hkey => hposition.mp (Outcome.exists_of_mapM hpositions hkey), ?_⟩
    exact List.map_congr_left fun row _ => ofRow_positions hpositions row
  · rintro ⟨hcolumns, rfl⟩
    obtain ⟨positions, hpositions⟩ := @Outcome.exists_mapM _ _ (keyPosition batch place) keys
      fun key hkey => hposition.mpr (hcolumns key hkey)
    exact ⟨positions, hpositions,
      List.map_congr_left fun row _ => (ofRow_positions hpositions row).symm⟩

/-- The keys of a baseline can be taken exactly if no batch with rows lacks a key column. -/
theorem index_eq_ok_iff {baseline : List Batch} {stored : List Key} :
    index keys baseline = .ok stored ↔
      (∀ batch ∈ baseline, batch.isEmpty = false → ∀ key ∈ keys, key ∈ batch.columns) ∧
        stored = ((baseline.filter fun batch => !batch.isEmpty).flatMap (keysOn keys)).eraseDups := by
  rw [index, Outcome.bind_eq_ok_iff]
  have hrows {batch : Batch} : batch ∈ baseline.filter (fun batch => !batch.isEmpty) ↔
      batch ∈ baseline ∧ batch.isEmpty = false := by
    rw [List.mem_filter, Bool.not_eq_true']
  constructor
  · rintro ⟨found, hfound, hstored⟩
    have heach := Outcome.mapM_eq_ok_iff.mp hfound
    refine ⟨fun batch hbatch hempty => ?_, ?_⟩
    · obtain ⟨result, hresult⟩ := Outcome.exists_of_mapM hfound (hrows.mpr ⟨hbatch, hempty⟩)
      exact (keysOf_eq_ok_iff_keysOn.mp hresult).1
    · have hall : (baseline.filter fun batch => !batch.isEmpty).map (keysOn keys) = found := by
        rw [← List.forall₂_eq_eq_eq, List.forall₂_map_left_iff]
        exact heach.imp fun _ _ hkeys => (keysOf_eq_ok_iff_keysOn.mp hkeys).2.symm
      rw [← Except.ok.inj hstored, ← hall, List.flatMap_def]
  · rintro ⟨hcolumns, rfl⟩
    refine ⟨(baseline.filter fun batch => !batch.isEmpty).map (keysOn keys), ?_, by
      rw [List.flatMap_def]; rfl⟩
    rw [Outcome.mapM_eq_ok_iff, List.forall₂_map_right_iff, List.forall₂_same]
    intro batch hbatch
    obtain ⟨hmem, hempty⟩ := hrows.mp hbatch
    exact keysOf_eq_ok_iff_keysOn.mpr ⟨hcolumns batch hmem hempty, rfl⟩

/-- A batch without rows has no keys. -/
theorem mem_flatMap_keysOn_iff {baseline : List Batch} {key : Key} :
    key ∈ ((baseline.filter fun batch => !batch.isEmpty).flatMap (keysOn keys)).eraseDups ↔
      key ∈ baseline.flatMap (keysOn keys) := by
  rw [List.mem_eraseDups, List.mem_flatMap, List.mem_flatMap]
  constructor
  · rintro ⟨batch, hbatch, hkey⟩
    exact ⟨batch, (List.mem_filter.mp hbatch).1, hkey⟩
  · rintro ⟨batch, hbatch, hkey⟩
    refine ⟨batch, List.mem_filter.mpr ⟨hbatch, ?_⟩, hkey⟩
    obtain ⟨row, hrow, -⟩ := Batch.mem_keysOn_iff.mp hkey
    simpa [Batch.isEmpty] using List.ne_nil_of_mem hrow

/-- It does not matter whether keys are taken by position or by name. -/
theorem unmatched_index {baseline : List Batch} {stored : List Key} {positions : List ℕ}
    (hpositions : keys.mapM (keyPosition batch place) = .ok positions)
    (hstored : index keys baseline = .ok stored) :
    batch.unmatched (Key.ofRow positions) stored =
      batch.unmatched (keyOn keys batch.columns) (baseline.flatMap (keysOn keys)) := by
  obtain ⟨-, rfl⟩ := index_eq_ok_iff.mp hstored
  rw [Batch.unmatched, Batch.unmatched]
  congr 1
  refine List.filter_congr fun row _ => ?_
  rw [ofRow_positions hpositions, Bool.eq_iff_iff]
  simp [← @mem_flatMap_keysOn_iff keys baseline]

/-- What an anti-join needs: key columns, which the candidates and all baselines with rows have. -/
structure Applies (join : AntiJoin) (baseline : List Batch) (candidates : Batch) : Prop where
  named : join.keyColumns candidates.columns ≠ []
  candidates_have : ∀ key ∈ join.keyColumns candidates.columns, key ∈ candidates.columns
  baseline_has : ∀ batch ∈ baseline, batch.isEmpty = false →
    ∀ key ∈ join.keyColumns candidates.columns, key ∈ batch.columns

/-- An anti-join leaves the candidates whose keys are not those of stored rows. -/
theorem apply_eq_ok_iff_applies {join : AntiJoin} (henabled : join.enabled = true)
    {baseline : List Batch} {candidates result : Batch} :
    join.apply baseline candidates = .ok result ↔ join.Applies baseline candidates ∧
      result = candidates.unmatched (keyOn (join.keyColumns candidates.columns) candidates.columns)
        (baseline.flatMap (keysOn (join.keyColumns candidates.columns))) := by
  rw [apply_eq_ok_iff henabled]
  constructor
  · rintro ⟨keys, stored, positions, hkeys, hstored, hpositions, rfl⟩
    obtain ⟨rfl, hne, hcandidates⟩ := effectiveKeys_eq_ok_iff.mp hkeys
    exact ⟨⟨hne, hcandidates, (index_eq_ok_iff.mp hstored).1⟩, unmatched_index hpositions hstored⟩
  · rintro ⟨⟨hne, hcandidates, hbaseline⟩, rfl⟩
    have hstored : index (join.keyColumns candidates.columns) baseline = .ok _ :=
      index_eq_ok_iff.mpr ⟨hbaseline, rfl⟩
    obtain ⟨positions, hpositions, -⟩ := keysOf_eq_ok_iff.mp
      (keysOf_eq_ok_iff_keysOn.mpr ⟨hcandidates, rfl⟩ :
        keysOf (join.keyColumns candidates.columns) "batch" candidates = .ok _)
    exact ⟨_, _, positions, effectiveKeys_eq_ok_iff.mpr ⟨rfl, hne, hcandidates⟩, hstored, hpositions,
      (unmatched_index hpositions hstored).symm⟩

variable {scope : BaselineScope} (hkeys : keys ≠ [])

include hkeys

theorem keyColumns_of_named (columns : List String) :
    (AntiJoin.mk true keys false scope).keyColumns columns = keys := by
  simp [keyColumns, hkeys]

theorem effectiveKeys_eq_ok {columns : List String} (hcolumns : ∀ key ∈ keys, key ∈ columns) :
    (AntiJoin.mk true keys false scope).effectiveKeys columns = .ok keys :=
  effectiveKeys_eq_ok_iff.mpr ⟨(keyColumns_of_named hkeys columns).symm, hkeys, hcolumns⟩

/-- The candidates whose named keys are not those of stored rows. -/
theorem apply_eq_ok {baseline : List Batch} {candidates : Batch}
    (hbaseline : ∀ batch ∈ baseline, ∀ key ∈ keys, key ∈ batch.columns)
    (hcandidates : ∀ key ∈ keys, key ∈ candidates.columns) :
    (AntiJoin.mk true keys false scope).apply baseline candidates =
      .ok (candidates.unmatched (keyOn keys candidates.columns)
        (baseline.flatMap (keysOn keys))) := by
  have hnamed : (AntiJoin.mk true keys false scope).keyColumns candidates.columns = keys :=
    keyColumns_of_named hkeys _
  refine (apply_eq_ok_iff_applies rfl).mpr ⟨⟨?_, ?_, ?_⟩, ?_⟩ <;> rw [hnamed]
  · exact hkeys
  · exact hcandidates
  · exact fun batch hbatch _ => hbaseline batch hbatch

end AntiJoin

/-! ## Keys of stored rows -/

/-- A cell that has not been stored, but has the key of one that has. -/
def Cell.kept (cell : Cell) : Cell :=
  if cell = .text "" then .null else cell

theorem Cell.canonical?_stored (cell : Cell) : cell.stored.canonical? = cell.kept.canonical? := by
  rw [stored, kept]
  split_ifs
  · rfl
  · exact canonical?_ofText? _

theorem Cell.stored_kept (cell : Cell) : cell.kept.stored = cell.stored := by
  rw [kept]
  split_ifs with hempty
  · rw [hempty]
    rfl
  · rfl

theorem Cell.kept_kept (cell : Cell) : cell.kept.kept = cell.kept := by
  simp only [kept]
  split_ifs <;> simp_all

namespace Delimited

open Batch (keyOn keysOn)

theorem storedForm_eq (batch : Batch) : storedForm batch = batch.mapCells Cell.kept :=
  rfl

/-- Rows that were left of a stored form are in that form. -/
theorem storedForm_unmatched (batch : Batch) (keyOf : List Cell → Key) (stored : List Key) :
    storedForm ((storedForm batch).unmatched keyOf stored) =
      (storedForm batch).unmatched keyOf stored := by
  rw [storedForm_eq, storedForm_eq, Batch.mapCells, Batch.unmatched]
  congr 1
  rw [List.map_congr_left, List.map_id']
  intro row hrow
  obtain ⟨before, -, rfl⟩ := List.mem_map.mp (List.mem_filter.mp hrow).1
  rw [List.map_map]
  exact List.map_congr_left fun cell _ => cell.kept_kept

variable {keys : List String}

theorem ofCells_stored (cellOf : String → Cell) :
    Key.ofCells (keys.map fun column => (cellOf column).stored) =
      Key.ofCells (keys.map fun column => (cellOf column).kept) := by
  rw [Key.ofCells, Key.ofCells, List.map_map, List.map_map]
  exact List.map_congr_left fun column _ => (cellOf column).canonical?_stored

theorem keyOn_map {change : Cell → Cell} (hnull : change .null = .null) (columns : List String)
    (row : List Cell) : keyOn keys columns (row.map change) =
      Key.ofCells (keys.map fun column => change ((Batch.cell? columns row column).getD .null)) := by
  rw [keyOn]
  congr 1
  refine List.map_congr_left fun column _ => ?_
  rw [Batch.cell?_map]
  cases Batch.cell? columns row column with
  | none => exact hnull.symm
  | some cell => rfl

/-- Stored rows have the keys of the rows that were written. -/
theorem keyOn_stored (columns : List String) (row : List Cell) :
    keyOn keys columns (row.map Cell.stored) = keyOn keys columns (row.map Cell.kept) := by
  rw [keyOn_map rfl, keyOn_map rfl]
  exact ofCells_stored _

theorem keysOn_stored (batch : Batch) :
    keysOn keys ⟨batch.columns, batch.rows.map (List.map Cell.stored)⟩ =
      keysOn keys (storedForm batch) := by
  rw [keysOn, keysOn, storedForm_eq, Batch.mapCells, List.map_map, List.map_map]
  exact List.map_congr_left fun row _ => keyOn_stored _ row

/-- So they have if they were written under another header. -/
theorem keysOn_rowsUnder {header : List String} (hkeys : ∀ key ∈ keys, key ∈ header)
    (batch : Batch) :
    keysOn keys ⟨header, (batch.rowsUnder header).map (List.map Cell.stored)⟩ =
      keysOn keys (storedForm batch) := by
  rw [keysOn, keysOn, storedForm_eq, Batch.mapCells, Batch.rowsUnder]
  dsimp only
  rw [List.map_map, List.map_map, List.map_map]
  refine List.map_congr_left fun row _ => ?_
  rw [Function.comp_apply, Function.comp_apply, Function.comp_apply, keyOn_map rfl, keyOn_map rfl,
    ← ofCells_stored]
  congr 1
  refine List.map_congr_left fun column hcolumn => ?_
  rw [Batch.cell?_map_header (hkeys column hcolumn), Option.getD_some]

end Delimited

end TableAppend
