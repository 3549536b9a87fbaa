import TableAppend.Medium
import TableAppend.Proofs.Append.Buckets
import TableAppend.Proofs.Keys

/-!
# Columns in another order

All that is done with a batch goes by the names of its columns.  A batch whose columns stand in another
order is therefore routed, compared and checked in the same way, and put under a header it is the same.
-/

namespace TableAppend

namespace Batch

/-- A row with its cells in the order of a header. -/
def rowUnder (columns header : List String) (row : List Cell) : List Cell :=
  header.map fun column => (cell? columns row column).getD .null

/-- The batch with its columns in the order of a header. -/
def under (batch : Batch) (header : List String) : Batch :=
  ⟨header, batch.rowsUnder header⟩

theorem rowsUnder_eq_map (batch : Batch) (header : List String) :
    batch.rowsUnder header = batch.rows.map (rowUnder batch.columns header) :=
  rfl

@[simp]
theorem columns_under (batch : Batch) (header : List String) :
    (batch.under header).columns = header :=
  rfl

@[simp]
theorem size_under (batch : Batch) (header : List String) :
    (batch.under header).size = batch.size :=
  List.length_map _

@[simp]
theorem isEmpty_under (batch : Batch) (header : List String) :
    (batch.under header).isEmpty = batch.isEmpty := by
  rw [isEmpty, isEmpty, under, rowsUnder, List.isEmpty_map]

theorem cell?_eq_none {columns : List String} {column : String} (hcolumn : column ∉ columns)
    (row : List Cell) : cell? columns row column = none := by
  rw [cell?, List.idxOf?_eq_none_iff.mpr hcolumn]
  rfl

theorem exists_cell? {columns : List String} {column : String} (hcolumn : column ∈ columns)
    {row : List Cell} (hrow : row.length = columns.length) :
    ∃ cell, cell? columns row column = some cell := by
  obtain ⟨index, hindex⟩ := Option.isSome_iff_exists.mp (List.isSome_idxOf?.mpr hcolumn)
  obtain ⟨hlt, -, -⟩ := List.idxOf?_eq_some_iff.mp hindex
  refine ⟨row[index], ?_⟩
  rw [cell?, hindex, Option.bind_eq_bind, Option.bind_some,
    List.getElem?_eq_getElem (hrow ▸ hlt)]

variable {batch ordered : Batch} {columns order header : List String}
  (horder : order.Perm columns)

section Rows

include horder

/-- Under each name stands the cell that stood there before. -/
theorem getD_cell?_rowUnder (row : List Cell) (column : String) :
    (cell? order (rowUnder columns order row) column).getD .null =
      (cell? columns row column).getD .null := by
  by_cases hcolumn : column ∈ order
  · rw [rowUnder, cell?_map_header hcolumn, Option.getD_some]
  · rw [cell?_eq_none hcolumn, cell?_eq_none (mt horder.mem_iff.mpr hcolumn)]

theorem cell?_rowUnder {row : List Cell} (hrow : row.length = columns.length) (column : String) :
    cell? order (rowUnder columns order row) column = cell? columns row column := by
  by_cases hcolumn : column ∈ order
  · obtain ⟨cell, hcell⟩ := exists_cell? (horder.mem_iff.mp hcolumn) hrow
    rw [rowUnder, cell?_map_header hcolumn, hcell, Option.getD_some]
  · rw [cell?_eq_none hcolumn, cell?_eq_none (mt horder.mem_iff.mpr hcolumn)]

theorem keyOn_rowUnder (keys : List String) (row : List Cell) :
    keyOn keys order (rowUnder columns order row) = keyOn keys columns row := by
  rw [keyOn, keyOn]
  congr 1
  exact List.map_congr_left fun column _ => getD_cell?_rowUnder horder row column

end Rows

variable (hbatch : order.Perm batch.columns)

section Batches

include hbatch

theorem project_of_perm : batch.project order = .ok (batch.under order) := by
  refine project_eq_ok_iff.mpr ⟨?_, rfl⟩
  rw [hasColumns, Bool.and_eq_true, List.all_eq_true]
  exact ⟨by simp [hbatch.length_eq], fun column hcolumn => by simpa using hbatch.mem_iff.mp hcolumn⟩

theorem hasColumns_under (header : List String) :
    (batch.under order).hasColumns header = batch.hasColumns header := by
  rw [hasColumns, hasColumns, columns_under, hbatch.length_eq]
  congr 2
  funext column
  rw [Bool.eq_iff_iff, List.contains_iff_mem, List.contains_iff_mem, hbatch.mem_iff]

theorem rowsUnder_under (header : List String) :
    (batch.under order).rowsUnder header = batch.rowsUnder header := by
  rw [rowsUnder_eq_map, rowsUnder_eq_map, under, rowsUnder_eq_map, List.map_map]
  refine List.map_congr_left fun row _ => List.map_congr_left fun column _ => ?_
  exact getD_cell?_rowUnder hbatch row column

/-- Under a header a batch is the same in whatever order its columns were. -/
theorem project_under (hproject : batch.project header = .ok ordered) :
    (batch.under order).project header = .ok ordered := by
  rw [project_eq_ok_iff] at hproject ⊢
  rwa [hasColumns_under hbatch, rowsUnder_under hbatch]

theorem concat_under {stored all : Batch} (hconcat : stored.concat batch = .ok all) :
    stored.concat (batch.under order) = .ok all := by
  obtain ⟨ordered, hproject, hall⟩ := Outcome.bind_eq_ok_iff.mp hconcat
  exact Outcome.bind_eq_ok_iff.mpr ⟨ordered, project_under hbatch hproject, hall⟩

omit hbatch in
theorem mapCells_under {change : Cell → Cell} (hnull : change .null = .null) (batch : Batch)
    (header : List String) :
    (batch.under header).mapCells change = (batch.mapCells change).under header := by
  rw [mapCells, mapCells, under, under, rowsUnder, rowsUnder, List.map_map, List.map_map]
  congr 1
  refine List.map_congr_left fun row _ => ?_
  rw [Function.comp_apply, Function.comp_apply, List.map_map]
  refine List.map_congr_left fun column _ => ?_
  rw [Function.comp_apply, cell?_map]
  cases cell? batch.columns row column <;> simp [hnull]

theorem keysOn_under (keys : List String) : (batch.under order).keysOn keys = batch.keysOn keys := by
  rw [keysOn, keysOn, under, rowsUnder_eq_map, List.map_map]
  exact List.map_congr_left fun row _ => keyOn_rowUnder hbatch keys row

omit hbatch in
/-- The same rows are left whose keys are not stored. -/
theorem unmatched_under {keyOf other : List Cell → Key} {stored others : List Key}
    (hmatched : ∀ row ∈ batch.rows, other (rowUnder batch.columns order row) ∈ others ↔
      keyOf row ∈ stored) :
    (batch.under order).unmatched other others = (batch.unmatched keyOf stored).under order := by
  rw [unmatched, unmatched, under, under, rowsUnder_eq_map, rowsUnder_eq_map, List.filter_map]
  congr 2
  refine List.filter_congr fun row hrow => ?_
  rw [Function.comp_apply, Bool.eq_iff_iff]
  simp [hmatched row hrow]

end Batches

end Batch

/-! ## Storing -/

theorem Delimited.storedForm_under (batch : Batch) (header : List String) :
    storedForm (batch.under header) = (storedForm batch).under header :=
  Batch.mapCells_under rfl batch header

theorem Medium.storedForm_under (medium : Medium) (batch : Batch) (header : List String) :
    medium.storedForm (batch.under header) = (medium.storedForm batch).under header := by
  cases medium with
  | delimited dialect => exact Delimited.storedForm_under batch header
  | columnar codec => rfl

/-! ## Routing -/

/-- The same rows in a bucket of the same key. -/
def Bucket.under (bucket : Bucket) (order : List String) : Bucket :=
  ⟨bucket.key, bucket.rows.under order⟩

namespace Routing

variable {routing : Routing} {batch : Batch} {buckets : List Bucket} {order : List String}

theorem route_rowUnder {columns : List String} (horder : order.Perm columns) {row : List Cell}
    (hrow : row.length = columns.length) :
    routing.route order (Batch.rowUnder columns order row) = routing.route columns row := by
  have hcell : ∀ column, rowCell order (Batch.rowUnder columns order row) column =
      rowCell columns row column := by
    intro column
    rw [rowCell, rowCell, Batch.cell?_rowUnder horder hrow]
  rw [route, route]
  simp only [hcell]

theorem buckets_under (hbatch : batch.WellFormed) (horder : order.Perm batch.columns)
    (hbuckets : routing.buckets batch = .ok buckets) :
    routing.buckets (batch.under order) = .ok (buckets.map fun bucket => bucket.under order) := by
  obtain ⟨hvalid, keys, hkeys, rfl⟩ := buckets_eq_ok_iff.mp hbuckets
  refine buckets_eq_ok_iff.mpr ⟨hvalid, keys, ?_, ?_⟩
  · rw [Batch.under, Batch.rowsUnder_eq_map, List.forall₂_map_left_iff]
    refine ((List.forall₂_and_left _ _).mpr ⟨hbatch.2, hkeys⟩).imp ?_
    rintro row key ⟨hlength, hroute⟩
    rw [route_rowUnder horder hlength, hroute]
  · rw [List.map_map]
    refine List.map_congr_left fun key _ => ?_
    rw [Function.comp_apply, bucketOf, bucketOf, Bucket.under, Batch.under, Batch.under,
      Batch.rowsUnder_eq_map, Batch.rowsUnder_eq_map, List.zip_map_right, List.filter_map,
      List.map_map, List.map_map]
    rfl

end Routing

/-! ## Comparing with stored rows -/

namespace AntiJoin

open Batch (keyOn keysOn)

variable {join : AntiJoin} {columns order keys others : List String} {baseline : List Batch}
  {candidates result : Batch}

/-- Two rows agree on keys in any order. -/
theorem keyOn_eq_iff_of_perm (hkeys : others.Perm keys) {left right : List String}
    {first second : List Cell} :
    keyOn others left first = keyOn others right second ↔
      keyOn keys left first = keyOn keys right second := by
  have hcells : ∀ names : List String, keyOn names left first = keyOn names right second ↔
      ∀ column ∈ names, ((Batch.cell? left first column).getD .null).canonical? =
        ((Batch.cell? right second column).getD .null).canonical? := by
    intro names
    rw [keyOn, keyOn, Key.ofCells, Key.ofCells, List.map_map, List.map_map, List.map_inj_left]
    rfl
  rw [hcells, hcells]
  exact forall_congr' fun column => imp_congr_left hkeys.mem_iff

theorem mem_flatMap_keysOn_iff_of_perm (hkeys : others.Perm keys) {left : List String}
    {row : List Cell} :
    keyOn others left row ∈ baseline.flatMap (keysOn others) ↔
      keyOn keys left row ∈ baseline.flatMap (keysOn keys) := by
  simp only [List.mem_flatMap, Batch.mem_keysOn_iff, keyOn_eq_iff_of_perm hkeys]

/-- Where all columns make up the key, their order is that of the key. -/
theorem keyColumns_perm (horder : order.Perm columns) :
    (join.keyColumns order).Perm (join.keyColumns columns) := by
  rw [keyColumns, keyColumns]
  split
  · exact horder
  · exact .refl _

theorem exists_effectiveKeys_of_perm (horder : order.Perm columns)
    (hkeys : join.effectiveKeys columns = .ok keys) :
    ∃ others, join.effectiveKeys order = .ok others ∧ others.Perm keys := by
  obtain ⟨rfl, hne, hall⟩ := effectiveKeys_eq_ok_iff.mp hkeys
  have hperm := @keyColumns_perm join columns order horder
  refine ⟨_, effectiveKeys_eq_ok_iff.mpr ⟨rfl, fun hnil => hne ?_, fun key hkey => ?_⟩, hperm⟩
  · exact (hnil ▸ hperm).symm.eq_nil
  · exact horder.mem_iff.mpr (hall key (hperm.mem_iff.mp hkey))

theorem Applies.under (happlies : join.Applies baseline candidates)
    (horder : order.Perm candidates.columns) : join.Applies baseline (candidates.under order) := by
  have hperm := @keyColumns_perm join candidates.columns order horder
  refine ⟨fun hnil => happlies.named (hnil ▸ hperm).symm.eq_nil, fun key hkey => ?_,
    fun batch hbatch hempty key hkey => ?_⟩
  · exact horder.mem_iff.mpr (happlies.candidates_have key (hperm.mem_iff.mp hkey))
  · exact happlies.baseline_has batch hbatch hempty key (hperm.mem_iff.mp hkey)

theorem apply_under (henabled : join.enabled = true) (horder : order.Perm candidates.columns)
    (happly : join.apply baseline candidates = .ok result) :
    join.apply baseline (candidates.under order) = .ok (result.under order) := by
  obtain ⟨happlies, rfl⟩ := (apply_eq_ok_iff_applies henabled).mp happly
  refine (apply_eq_ok_iff_applies henabled).mpr ⟨happlies.under horder,
    (Batch.unmatched_under fun row _ => ?_).symm⟩
  rw [Batch.columns_under, Batch.keyOn_rowUnder horder]
  exact mem_flatMap_keysOn_iff_of_perm (keyColumns_perm horder)

end AntiJoin

/-! ## Checking -/

namespace Columnar

variable {path : Path} {schema : Schema} {rows : Batch} {order : List String}

theorem misfit?_eq_none_iff {column : String × ℕ} :
    misfit? schema rows column = none ↔ ∀ type, schema.lookup column.1 = some type →
      ∀ cell ∈ rows.column column.2, type.holds cell = true := by
  rw [misfit?]
  cases schema.lookup column.1 with
  | none => simp
  | some type =>
    have hfind : ((rows.column column.2).find? fun cell => !type.holds cell) = none ↔
        ∀ cell ∈ rows.column column.2, type.holds cell = true := by
      simp [List.find?_eq_none]
    rw [Option.bind_eq_bind, Option.bind_some, Option.bind_eq_bind]
    cases hfound : (rows.column column.2).find? fun cell => !type.holds cell with
    | none => simpa using hfind.mp hfound
    | some cell => simpa using mt hfind.mpr (by simp [hfound])

/-- A check of types looks at each column by its name. -/
theorem checkTypes_eq_ok_iff (hcolumns : rows.columns.Nodup) :
    checkTypes path schema rows = .ok () ↔ ∀ column ∈ rows.columns, ∀ type,
      schema.lookup column = some type → ∀ row ∈ rows.rows,
        type.holds ((Batch.cell? rows.columns row column).getD .null) = true := by
  have hmisfits : checkTypes path schema rows = .ok () ↔
      ∀ column ∈ rows.columns.zipIdx, misfit? schema rows column = none := by
    have hnil : (rows.columns.zipIdx.filterMap fun column : String × ℕ =>
        (misfit? schema rows column).map fun misfit => (column.1, misfit)) = [] ↔
          ∀ column ∈ rows.columns.zipIdx, misfit? schema rows column = none := by
      simp [List.filterMap_eq_nil_iff]
    rw [← hnil, checkTypes]
    generalize (rows.columns.zipIdx.filterMap fun column : String × ℕ =>
      (misfit? schema rows column).map fun misfit => (column.1, misfit)) = misfits
    cases misfits <;> simp
  rw [hmisfits]
  constructor
  · intro hall column hcolumn type htype row hrow
    obtain ⟨index, hindex⟩ := Option.isSome_iff_exists.mp (List.isSome_idxOf?.mpr hcolumn)
    obtain ⟨hlt, hat, -⟩ := List.idxOf?_eq_some_iff.mp hindex
    have hmem : (column, index) ∈ rows.columns.zipIdx := by
      rw [List.mem_zipIdx_iff_getElem?, List.getElem?_eq_getElem hlt]
      simpa using hat
    refine misfit?_eq_none_iff.mp (hall _ hmem) type htype _ ?_
    rw [Batch.cell?, hindex]
    exact List.mem_map_of_mem hrow
  · rintro hall ⟨column, index⟩ hmem
    rw [List.mem_zipIdx_iff_getElem?] at hmem
    obtain ⟨hlt, hat⟩ : ∃ hlt : index < rows.columns.length, rows.columns[index] = column :=
      List.getElem?_eq_some_iff.mp hmem
    refine misfit?_eq_none_iff.mpr fun type htype cell hcell => ?_
    obtain ⟨row, hrow, rfl⟩ := List.mem_map.mp hcell
    have hindex : rows.columns.idxOf? column = some index :=
      List.idxOf?_eq_some_iff.mpr ⟨hlt, by simpa using hat, fun earlier hearlier hsame =>
        hearlier.ne (hcolumns.getElem_inj_iff.mp ((by simpa using hsame : _ = column).trans hat.symm))⟩
    have hholds := hall column (hat ▸ List.getElem_mem hlt) type htype row hrow
    rwa [Batch.cell?, hindex] at hholds

theorem checkTypes_under (hcolumns : rows.columns.Nodup) (horder : order.Perm rows.columns)
    (hcheck : checkTypes path schema rows = .ok ()) :
    checkTypes path schema (rows.under order) = .ok () := by
  rw [checkTypes_eq_ok_iff hcolumns] at hcheck
  rw [checkTypes_eq_ok_iff (horder.nodup_iff.mpr hcolumns)]
  intro column hcolumn type htype row hrow
  obtain ⟨before, hbefore, rfl⟩ := List.mem_map.mp hrow
  rw [Batch.columns_under]
  exact (congrArg _ (Batch.getD_cell?_rowUnder horder before column)).trans
    (hcheck column (horder.mem_iff.mp hcolumn) type htype before hbefore)

end Columnar

/-- Rows fit a file in whatever order their columns are. -/
theorem Medium.check_under {medium : Medium} {tree : FileTree} {path : Path}
    {metadata : Option Metadata} {rows : Batch} {order : List String} {layout : Layout}
    (hcolumns : rows.columns.Nodup) (horder : order.Perm rows.columns)
    (hcheck : medium.check tree path metadata rows = .ok layout) :
    medium.check tree path metadata (rows.under order) = .ok layout := by
  cases medium with
  | delimited dialect =>
    rw [check, Delimited.check_eq_ok_iff] at hcheck ⊢
    simpa only [Batch.columns_under, horder.length_eq, horder.mem_iff] using hcheck
  | columnar codec =>
    rw [check, Columnar.check_eq_ok_iff] at hcheck ⊢
    obtain ⟨hformat, hcodec, table, hread, stored, hstored, hfits, htypes, hlayout⟩ := hcheck
    have hsame : stored.hasColumns order = stored.hasColumns rows.columns := by
      rw [Batch.hasColumns, Batch.hasColumns, horder.length_eq, horder.all_eq]
    exact ⟨hformat, hcodec, table, hread, stored, hstored, hsame.trans hfits,
      Columnar.checkTypes_under hcolumns horder htypes, hlayout⟩

end TableAppend
