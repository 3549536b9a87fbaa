import TableAppend.Columnar.File
import TableAppend.Proofs.Batch
import TableAppend.Proofs.NamedValues

/-!
# Saving what has been read

A column that is saved for the first time has the type that is inferred from its cells.  What it then
holds is read as cells that this type saves as the same values again.  So the rows of a file can be
saved together with the rows that it was made of, and each of its columns then holds its values twice.
-/

namespace TableAppend

/-! ## One cell -/

/-- The value that a cell is saved as in a column of a type. -/
def Cell.SavedAs (column : String) (type : ColumnType) (cell : Cell) (datum : Datum) : Prop :=
  ∃ collected, cell.collect column type.widest = .ok collected ∧ collected.narrow type = .ok datum

namespace ColumnType

/-- The types that are inferred for columns. -/
def inferable : List ColumnType := [utf8, int64, float64, boolean]

theorem infer_mem_inferable (cells : List Cell) : infer cells ∈ inferable := by
  rw [infer]
  repeat' split
  all_goals simp [inferable]

theorem widest_of_inferable : ∀ type ∈ inferable, type.widest = type := by
  decide

end ColumnType

section Saved

variable {column : String} {type : ColumnType} {cell : Cell} {datum : Datum}

theorem Datum.narrow_toInt (value : Int64) :
    (Datum.integer value.toInt).narrow .int64 = .ok (.integer value.toInt) := by
  have hleast := value.minValue_le_toInt
  have hlargest := value.toInt_le
  rw [Datum.narrow]
  dsimp only [ColumnType.range?]
  rw [if_pos]
  constructor
  · exact hleast
  · exact hlargest

/-- The values that a column of an inferred type holds. -/
inductive Datum.Inferred : ColumnType → Datum → Prop
  | null (type : ColumnType) : Inferred type .null
  | integer (value : Int64) : Inferred .int64 (.integer value.toInt)
  | double (value : Double) : Inferred .float64 (.double value)
  | bool (value : Bool) : Inferred .boolean (.bool value)
  | text (value : String) : Inferred .utf8 (.text value)

theorem Cell.SavedAs.inferred (hsaved : cell.SavedAs column type datum)
    (htype : type ∈ ColumnType.inferable) : datum.Inferred type := by
  obtain ⟨collected, hcollect, hnarrow⟩ := hsaved
  rw [ColumnType.widest_of_inferable type htype] at hcollect
  simp only [ColumnType.inferable, List.mem_cons, List.not_mem_nil, or_false] at htype
  rcases htype with rfl | rfl | rfl | rfl <;> cases cell <;>
    first | contradiction | obtain rfl := Except.ok.inj hcollect
  case inr.inl.int value =>
    rw [Datum.narrow_toInt] at hnarrow
    exact Except.ok.inj hnarrow ▸ .integer value
  all_goals
    obtain rfl := Except.ok.inj hnarrow
    constructor

theorem Datum.Inferred.savedAs (hdatum : datum.Inferred type) (htype : type ∈ ColumnType.inferable)
    (column : String) : (datum.toCell type).SavedAs column type datum := by
  rw [Cell.SavedAs, ColumnType.widest_of_inferable type htype]
  cases hdatum with
  | integer value => 
    refine ⟨.integer value.toInt, ?_, Datum.narrow_toInt value⟩
    rw [toCell, if_pos (.inl rfl), Int64.ofInt_toInt]
    rfl
  | null | double | bool | text => exact ⟨_, rfl, rfl⟩

theorem Cell.SavedAs.holds (hsaved : cell.SavedAs column type datum)
    (htype : type ∈ ColumnType.inferable) : type.holds cell = true := by
  obtain ⟨collected, hcollect, -⟩ := hsaved
  rw [ColumnType.widest_of_inferable type htype] at hcollect
  simp only [ColumnType.inferable, List.mem_cons, List.not_mem_nil, or_false] at htype
  rcases htype with rfl | rfl | rfl | rfl
  · rfl
  all_goals cases cell <;> first | rfl | simp [Cell.collect] at hcollect

end Saved

/-! ## Columns -/

theorem forall₂_comp_iff {α β γ : Type} {first : α → β → Prop} {second : β → γ → Prop}
    {items : List α} {results : List γ} :
    (∃ between, List.Forall₂ first items between ∧ List.Forall₂ second between results) ↔
      List.Forall₂ (fun item result => ∃ middle, first item middle ∧ second middle result) items
        results := by
  constructor
  · rintro ⟨between, hfirst, hsecond⟩
    induction hfirst generalizing results with
    | nil =>
      cases hsecond
      exact .nil
    | cons hhead _ ih =>
      cases hsecond with
      | cons hnext htail => exact .cons ⟨_, hhead, hnext⟩ (ih htail)
  · intro heach
    induction heach with
    | nil => exact ⟨[], .nil, .nil⟩
    | cons hhead _ ih =>
      obtain ⟨middle, hfirst, hsecond⟩ := hhead
      obtain ⟨between, hbefore, hafter⟩ := ih
      exact ⟨middle :: between, .cons hfirst hbefore, .cons hsecond hafter⟩

theorem Column.encode_eq_ok_iff {name : String} {type : ColumnType} {cells : List Cell}
    {column : Column} :
    encode name type cells = .ok column ↔
      column.name = name ∧ column.type = type ∧
        List.Forall₂ (Cell.SavedAs name type) cells column.data := by
  rw [encode, Outcome.bind_eq_ok_iff]
  simp only [Outcome.bind_eq_ok_iff, Outcome.mapM_eq_ok_iff, Outcome.pure_eq_ok, Except.ok.injEq]
  constructor
  · rintro ⟨collected, hcollected, data, hdata, rfl⟩
    exact ⟨rfl, rfl, forall₂_comp_iff.mp ⟨collected, hcollected, hdata⟩⟩
  · rintro ⟨rfl, rfl, hdata⟩
    obtain ⟨collected, hcollected, hnarrowed⟩ := forall₂_comp_iff.mpr hdata
    exact ⟨collected, hcollected, column.data, hnarrowed, rfl⟩

/-- A column holds what a batch has under a name. -/
structure Column.Saves (column : Column) (schema : Schema) (batch : Batch) (entry : String × ℕ) :
    Prop where
  name : column.name = entry.1
  type : column.type = schema.typeOf entry.1 (batch.column entry.2)
  data : List.Forall₂ (Cell.SavedAs column.name column.type) (batch.column entry.2) column.data

theorem Column.saves_iff {column : Column} {schema : Schema} {batch : Batch} {entry : String × ℕ} :
    encode entry.1 (schema.typeOf entry.1 (batch.column entry.2)) (batch.column entry.2) =
      .ok column ↔ column.Saves schema batch entry := by
  rw [encode_eq_ok_iff]
  constructor
  · rintro ⟨hname, htype, hdata⟩
    exact ⟨hname, htype, hname ▸ htype ▸ hdata⟩
  · rintro ⟨hname, htype, hdata⟩
    rw [hname, htype] at hdata
    exact ⟨hname, htype, hdata⟩

theorem Table.encode_eq_ok_iff {schema : Schema} {batch : Batch} {table : Table} :
    encode schema batch = .ok table ↔ table.columns ≠ [] ∧
      List.Forall₂ (fun entry column => Column.Saves column schema batch entry)
        batch.columns.zipIdx table.columns := by
  have heach : ∀ columns, (batch.columns.zipIdx.mapM fun entry =>
      Column.encode entry.1 (schema.typeOf entry.1 (batch.column entry.2))
        (batch.column entry.2)) = .ok columns ↔
      List.Forall₂ (fun entry column => Column.Saves column schema batch entry)
        batch.columns.zipIdx columns := by
    intro columns
    rw [Outcome.mapM_eq_ok_iff]
    exact ⟨List.Forall₂.imp fun _ _ => Column.saves_iff.mp,
      List.Forall₂.imp fun _ _ => Column.saves_iff.mpr⟩
  rw [encode, Outcome.bind_eq_ok_iff]
  constructor
  · rintro ⟨columns, hcolumns, htable⟩
    split at htable
    · contradiction
    · rename_i hne
      obtain rfl := Except.ok.inj htable
      exact ⟨hne, (heach columns).mp hcolumns⟩
  · rintro ⟨hne, hcolumns⟩
    exact ⟨table.columns, (heach _).mpr hcolumns, by rw [if_neg hne]; rfl⟩

theorem Codec.save_standard_eq_ok_iff {encoding : Table → Bytes} {schema : Schema} {rows : Batch}
    {content : Content} :
    (Codec.standard encoding).save schema rows = .ok (content, none) ↔
      ∃ table, Table.encode schema rows = .ok table ∧ content = .table ⟨table, encoding table⟩ := by
  rw [standard]
  dsimp only
  rw [Outcome.bind_eq_ok_iff]
  simp only [Outcome.pure_eq_ok, Except.ok.injEq, Prod.mk.injEq, and_true]
  exact exists_congr fun table => and_congr_right fun _ => eq_comm

/-! ## Rows and columns -/

theorem rowsOf_eq (count : ℕ) (columns : List (List Cell)) :
    rowsOf count columns =
      (List.range count).map fun index => columns.map fun cells => cells[index]?.getD .null := by
  induction count generalizing columns with
  | zero => rfl
  | succ count ih =>
    rw [rowsOf, ih, List.range_succ_eq_map, List.map_cons, List.map_map]
    congr 1
    · refine List.map_congr_left fun cells _ => ?_
      cases cells <;> rfl
    · refine List.map_congr_left fun index _ => ?_
      rw [Function.comp_apply, List.map_map]
      refine List.map_congr_left fun cells _ => ?_
      cases cells <;> simp

theorem map_getElem?_range (cells : List Cell) :
    (List.range cells.length).map (fun index => cells[index]?.getD .null) = cells := by
  refine List.ext_getElem (by simp) fun index hleft hright => ?_
  simp [hright]

section Rows

variable {count : ℕ} {columns : List (List Cell)}
  (hlengths : ∀ cells ∈ columns, cells.length = count)

include hlengths

/-- The cells of a column are those of the rows at its position. -/
theorem column_rowsOf {index : ℕ} {cells : List Cell} (hcells : columns[index]? = some cells) :
    (rowsOf count columns).map (fun row => row[index]?.getD .null) = cells := by
  rw [rowsOf_eq, List.map_map]
  calc (List.range count).map _
      = (List.range count).map fun row => cells[row]?.getD .null := by
        refine List.map_congr_left fun row _ => ?_
        simp [hcells]
    _ = cells := by
        rw [← hlengths cells (List.mem_of_getElem? hcells)]
        exact map_getElem?_range cells

theorem rowsOf_double :
    rowsOf (count + count) (columns.map fun cells => cells ++ cells) =
      rowsOf count columns ++ rowsOf count columns := by
  rw [rowsOf_eq, rowsOf_eq, List.range_add, List.map_append, List.map_map]
  congr 1
  · refine List.map_congr_left fun row hrow => ?_
    rw [List.map_map]
    refine List.map_congr_left fun cells hcells => ?_
    rw [Function.comp_apply, List.getElem?_append_left]
    rw [hlengths cells hcells]
    exact List.mem_range.mp hrow
  · refine List.map_congr_left fun row hrow => ?_
    rw [Function.comp_apply, List.map_map]
    refine List.map_congr_left fun cells hcells => ?_
    rw [Function.comp_apply, List.getElem?_append_right (by rw [hlengths cells hcells]; omega),
      hlengths cells hcells, Nat.add_sub_cancel_left]

end Rows

/-! ## Tables -/

namespace Table

theorem decode_eq_ok {table : Table} (hnames : table.names.Nodup) :
    table.decode = .ok ⟨table.names, table.rows⟩ := by
  rw [decode, decodeAll, List.flatMap_singleton]
  refine Batch.ofRows_eq_ok_iff.mpr ⟨⟨hnames, fun row hrow => ?_⟩, rfl⟩
  rw [rows, rowsOf_eq] at hrow
  obtain ⟨index, -, rfl⟩ := List.mem_map.mp hrow
  rw [List.length_map, List.length_map, names, List.length_map]

/-- The table with the values of each column twice. -/
def doubled (table : Table) : Table :=
  ⟨table.columns.map fun column => { column with data := column.data ++ column.data }⟩

theorem size_rows (table : Table) : table.rows.length = table.size := by
  rw [rows, rowsOf_eq, List.length_map, List.length_range]

section Typed

variable {batch : Batch} {schema : Schema} {table : Table}
  (htable : encode schema batch = .ok table)

include htable

theorem saves_of_encode {index : ℕ} {column : Column} (hcolumn : table.columns[index]? = some column) :
    ∃ name, batch.columns[index]? = some name ∧ column.Saves schema batch (name, index) := by
  obtain ⟨-, hcolumns⟩ := encode_eq_ok_iff.mp htable
  obtain ⟨hindex, rfl⟩ := List.getElem?_eq_some_iff.mp hcolumn
  have hlength := hcolumns.length_eq
  rw [List.length_zipIdx] at hlength
  have hsaves := List.forall₂_iff_get.mp hcolumns |>.2 index (by simpa [hlength] using hindex) hindex
  simp only [List.get_eq_getElem, List.getElem_zipIdx, Nat.zero_add] at hsaves
  exact ⟨_, List.getElem?_eq_getElem (hlength ▸ hindex), hsaves⟩

theorem names_of_encode : table.names = batch.columns := by
  obtain ⟨-, hcolumns⟩ := encode_eq_ok_iff.mp htable
  have hlength := hcolumns.length_eq
  rw [List.length_zipIdx] at hlength
  refine List.ext_getElem (by rw [names, List.length_map, hlength]) fun index hleft hright => ?_
  rw [names, List.length_map] at hleft
  obtain ⟨name, hname, hsaves⟩ := saves_of_encode htable (List.getElem?_eq_getElem hleft)
  rw [List.getElem?_eq_getElem hright, Option.some.injEq] at hname
  rw [hname]
  simpa [names] using hsaves.name

theorem length_data_of_encode {column : Column} (hcolumn : column ∈ table.columns) :
    column.data.length = batch.rows.length := by
  obtain ⟨index, hindex⟩ := List.getElem?_of_mem hcolumn
  obtain ⟨name, -, hsaves⟩ := saves_of_encode htable hindex
  rw [← hsaves.data.length_eq, Batch.column, List.length_map]

theorem size_of_encode : table.size = batch.rows.length := by
  obtain ⟨hne, -⟩ := encode_eq_ok_iff.mp htable
  rw [size]
  split
  case h_1 hnil => exact absurd hnil hne
  case h_2 column rest hcolumns =>
    exact length_data_of_encode htable (hcolumns ▸ List.mem_cons_self)

/-- Whatever the types, a table has as many rows as were saved in it. -/
theorem exists_decoded_of_encode (hcolumns : batch.columns.Nodup) :
    ∃ rows, table.decode = .ok rows ∧ rows.size = batch.size ∧ table.size = batch.size := by
  have hnames := names_of_encode htable
  have hsize := size_of_encode htable
  exact ⟨_, decode_eq_ok (hnames ▸ hcolumns), (size_rows table).trans hsize, hsize⟩

end Typed

section Encoded

variable {batch : Batch} (hbatch : batch.WellFormed) {table : Table}
  (htable : encode [] batch = .ok table)

include htable

theorem type_of_encode {column : Column} (hcolumn : column ∈ table.columns) :
    column.type ∈ ColumnType.inferable ∧
      ∀ datum ∈ column.data, datum.Inferred column.type := by
  obtain ⟨index, hindex⟩ := List.getElem?_of_mem hcolumn
  obtain ⟨name, -, hsaves⟩ := saves_of_encode htable hindex
  have htype : column.type ∈ ColumnType.inferable :=
    hsaves.type ▸ ColumnType.infer_mem_inferable _
  refine ⟨htype, fun datum hdatum => ?_⟩
  obtain ⟨cell, -, hsaved⟩ := Outcome.exists_of_forall₂ hsaves.data hdatum
  exact hsaved.inferred htype

theorem column_rows_of_encode {index : ℕ} {column : Column}
    (hcolumn : table.columns[index]? = some column) :
    table.rows.map (fun row => row[index]?.getD .null) = column.cells := by
  rw [rows, size_of_encode htable]
  refine column_rowsOf (fun cells hcells => ?_) (by rw [List.getElem?_map, hcolumn]; rfl)
  obtain ⟨other, hother, rfl⟩ := List.mem_map.mp hcells
  rw [Column.cells, List.length_map, length_data_of_encode htable hother]

theorem rows_doubled_of_encode : table.doubled.rows = table.rows ++ table.rows := by
  have hsize : table.doubled.size = table.size + table.size := by
    rw [size, size, doubled]
    cases table.columns with
    | nil => rfl
    | cons column rest => exact List.length_append
  have hcells : table.doubled.columns.map Column.cells =
      (table.columns.map Column.cells).map fun cells => cells ++ cells := by
    rw [doubled, List.map_map, List.map_map]
    exact List.map_congr_left fun column _ => List.map_append
  rw [rows, rows, hsize, hcells]
  refine rowsOf_double fun cells hcells => ?_
  obtain ⟨column, hcolumn, rfl⟩ := List.mem_map.mp hcells
  rw [Column.cells, List.length_map, length_data_of_encode htable hcolumn, size_of_encode htable]

include hbatch

/-- The stored type of a column is found under its name. -/
theorem lookup_schema_of_encode {index : ℕ} {column : Column} {name : String}
    (hcolumn : table.columns[index]? = some column) (hname : batch.columns[index]? = some name) :
    table.schema.lookup name = some column.type := by
  have hnames := names_of_encode htable
  have hnodup : (table.schema.map Prod.fst).Nodup := by
    rw [schema, List.map_map]
    exact (hnames ▸ hbatch.1 : table.names.Nodup)
  obtain ⟨found, hfound, hsaves⟩ := saves_of_encode htable hcolumn
  obtain rfl := Option.some.inj (hfound.symm.trans hname)
  have hmem : (found, column.type) ∈ table.schema :=
    List.mem_map.mpr ⟨column, List.mem_of_getElem? hcolumn, by rw [hsaves.name]⟩
  exact (lookup_eq_some_iff_mem hnodup).mpr hmem

theorem encode_again :
    encode table.schema ⟨batch.columns, table.rows ++ batch.rows⟩ = .ok table.doubled := by
  obtain ⟨hne, hcolumns⟩ := encode_eq_ok_iff.mp htable
  refine encode_eq_ok_iff.mpr ⟨by simpa [doubled] using hne, ?_⟩
  have hlength := hcolumns.length_eq
  refine List.forall₂_iff_get.mpr ⟨by rw [hlength, doubled, List.length_map], ?_⟩
  intro index hleft hright
  have hindex : index < table.columns.length := by simpa [doubled] using hright
  have hcolumn : table.columns[index]? = some table.columns[index] := List.getElem?_eq_getElem hindex
  obtain ⟨name, hname, hsaves⟩ := saves_of_encode htable hcolumn
  obtain ⟨htype, hinferred⟩ := type_of_encode htable (List.getElem_mem hindex)
  have hentry : (batch.columns.zipIdx.get ⟨index, hleft⟩) = (name, index) := by
    obtain ⟨hless, rfl⟩ := List.getElem?_eq_some_iff.mp hname
    simp
  have hcells : Batch.column ⟨batch.columns, table.rows ++ batch.rows⟩ index =
      table.columns[index].cells ++ batch.column index := by
    rw [Batch.column, Batch.column, List.map_append, column_rows_of_encode htable hcolumn]
  have hdoubled : table.doubled.columns.get ⟨index, hright⟩ =
      { table.columns[index] with
        data := table.columns[index].data ++ table.columns[index].data } := by
    simp [doubled]
  rw [hentry, hdoubled]
  refine ⟨hsaves.name, ?_, ?_⟩
  · rw [Schema.typeOf, lookup_schema_of_encode hbatch htable hcolumn hname]
    rfl
  · rw [hcells, Column.cells]
    refine List.rel_append ?_ hsaves.data
    rw [List.forall₂_map_left_iff, List.forall₂_same]
    exact fun datum hdatum => (hinferred datum hdatum).savedAs htype _

/-- The batch that was saved fits the types under which it was saved. -/
theorem checkTypes_of_encode (path : Path) :
    Columnar.checkTypes path table.schema batch = .ok () := by
  have hfits : ∀ column ∈ batch.columns.zipIdx,
      Columnar.misfit? table.schema batch column = none := by
    rintro ⟨name, index⟩ hentry
    have hname := List.mem_zipIdx_iff_getElem?.mp hentry
    have hlength := congrArg List.length (names_of_encode htable)
    rw [names, List.length_map] at hlength
    obtain ⟨hless, -⟩ := List.getElem?_eq_some_iff.mp hname
    have hcolumn : table.columns[index]? = some table.columns[index] :=
      List.getElem?_eq_getElem (hlength ▸ hless)
    obtain ⟨found, hfound, hsaves⟩ := saves_of_encode htable hcolumn
    obtain ⟨htype, -⟩ := type_of_encode htable (List.mem_of_getElem? hcolumn)
    have hholds : (batch.column index).find? (fun cell =>
        !table.columns[index].type.holds cell) = none := by
      rw [List.find?_eq_none]
      intro cell hcell
      obtain ⟨datum, -, hsaved⟩ := Outcome.exists_of_forall₂ hsaves.data.flip hcell
      simp [Cell.SavedAs.holds hsaved htype]
    rw [Columnar.misfit?, lookup_schema_of_encode hbatch htable hcolumn hname]
    simp [hholds]
  have hnone : (batch.columns.zipIdx.filterMap fun column =>
      (Columnar.misfit? table.schema batch column).map fun misfit => (column.1, misfit)) = [] := by
    rw [List.filterMap_eq_nil_iff]
    intro entry hentry
    rw [hfits entry hentry]
    rfl
  rw [Columnar.checkTypes, hnone]

theorem decode_of_encode : table.decode = .ok ⟨batch.columns, table.rows⟩ := by
  have hnames := names_of_encode htable
  rw [decode_eq_ok (hnames ▸ hbatch.1), hnames]

theorem decode_doubled_of_encode :
    table.doubled.decode = .ok ⟨batch.columns, table.rows ++ table.rows⟩ := by
  have hnames : table.doubled.names = batch.columns := by
    rw [← names_of_encode htable, names, names, doubled, List.map_map]
    rfl
  rw [decode_eq_ok (hnames ▸ hbatch.1), hnames, rows_doubled_of_encode htable]

end Encoded

end Table

end TableAppend
