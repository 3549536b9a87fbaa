import TableAppend.Proofs.Columnar.ReadBack
import TableAppend.Proofs.Columnar.Storable

/-!
# Saving stored rows again

A columnar file is written as a whole, so its rows are read and saved again under the types that its
columns have.  All values come back as they were, but for those of the integer types that are read as
texts: these cannot be saved as integers again.
-/

namespace TableAppend

/-- The integer types whose values are read as texts. -/
def ColumnType.isReadAsText (type : ColumnType) : Bool :=
  type.isInteger && type ≠ .int64 && type ≠ .int32

/-- The values that a column of a type can have in a file that is readable. -/
inductive Datum.Fits : ColumnType → Datum → Prop
  | null (type : ColumnType) : Fits type .null
  | integer {type : ColumnType} {range : ℤ × ℤ} (htype : type.range? = some range) {value : ℤ}
      (hleast : range.1 ≤ value) (hlargest : value ≤ range.2) : Fits type (.integer value)
  | double (value : Double) : Fits .float64 (.double value)
  | single (value : Single) : Fits .float32 (.single value)
  | bool (value : Bool) : Fits .boolean (.bool value)
  | text {type : ColumnType} (htype : type.isText = true) (value : String) : Fits type (.text value)
  | day {days : ℤ} (hdays : Date.InCalendar days) : Fits .date32 (.day days)

/-! ## One value -/

section Datum

variable {name : String} {type : ColumnType} {datum : Datum}

/-- A cell that has been read stays as it is when it is saved and read again. -/
theorem Datum.Fits.readBack_toCell (hfits : datum.Fits type) :
    (datum.toCell type).readBack type = datum.toCell type := by
  cases hfits with
  | null => exact Cell.readBack_null type
  | @integer type range htype value hleast hlargest =>
    cases type <;> first | contradiction | rfl
  | double value => rfl
  | single value => exact congrArg Cell.double value.toDouble_ofDouble_toDouble
  | bool value => rfl
  | @text type htype value => cases type <;> first | contradiction | rfl
  | @day days hdays => exact Cell.readBack_date (by simp [toCell]) (Date.parseDays?_render_ofDays hdays)

/-- An integer that has been read as an integer is in the range of its type. -/
theorem ColumnType.stores_integer {range : ℤ × ℤ} (htype : type.range? = some range) {value : ℤ}
    (hleast : range.1 ≤ value) (hlargest : value ≤ range.2) (hread : type.isReadAsText = false) :
    type.Stores ((Datum.integer value).toCell type) := by
  have hwide : type = .int64 ∨ type = .int32 := by
    cases type <;> first | contradiction | simp
  have hint64 : (Int64.ofInt value).toInt = value := by
    refine Int64.toInt_ofInt_of_le ?_ ?_
    all_goals
      rcases hwide with rfl | rfl <;> obtain rfl := Option.some.inj htype <;> simp at * <;> omega
  have hcell : (Datum.integer value).toCell type = .int (Int64.ofInt value) := if_pos hwide
  rw [hcell]
  refine ⟨by rcases hwide with rfl | rfl <;> rfl, ?_⟩
  rintro number hnumber other hother
  obtain rfl := Cell.int.inj hnumber
  obtain rfl := Option.some.inj (htype.symm.trans hother)
  rw [hint64]
  exact ⟨hleast, hlargest⟩

/-- The values that have been read can be saved again, but for integers that were read as texts. -/
theorem Datum.Fits.exists_savedAs_iff (hfits : datum.Fits type) :
    (∃ saved, (datum.toCell type).SavedAs name type saved) ↔
      (type.isReadAsText = true → datum = .null) := by
  cases hfits with
  | null => exact iff_of_true ⟨.null, .null, rfl, rfl⟩ fun _ => rfl
  | @integer type range htype value hleast hlargest =>
    have hdate : type ≠ .date32 := by
      rintro rfl
      contradiction
    rw [Cell.exists_savedAs_iff hdate]
    cases hread : type.isReadAsText with
    | false =>
      exact iff_of_true (ColumnType.stores_integer htype hleast hlargest hread)
        fun h => absurd h Bool.false_ne_true
    | true =>
      refine iff_of_false ?_ (by simp)
      rintro ⟨hholds, -⟩
      cases type <;> contradiction
  | double value => exact iff_of_true ⟨.double value, .double value, rfl, rfl⟩ fun h => absurd h (by decide)
  | single value => exact iff_of_true ⟨_, .double value.toDouble, rfl, rfl⟩ fun h => absurd h (by decide)
  | bool value => exact iff_of_true ⟨.bool value, .bool value, rfl, rfl⟩ fun h => absurd h (by decide)
  | @text type htype value =>
    cases type <;> first
      | contradiction
      | exact iff_of_true ⟨.text value, .text value, rfl, rfl⟩ fun h => absurd h (by decide)
  | @day days hdays =>
    refine iff_of_true ⟨.day days, .text (Date.ofDays days).render, rfl, ?_⟩ fun h => absurd h (by decide)
    simp only [narrow, if_true, Date.parseDays?_render_ofDays hdays]

end Datum

/-! ## Tables -/

namespace Table

variable {table saved : Table} {batch : Batch} {schema : Schema}

/-- A batch can be saved if each of its cells can be saved under the type of its column. -/
theorem exists_encode_iff :
    (∃ saved, encode schema batch = .ok saved) ↔ batch.columns ≠ [] ∧
      ∀ entry ∈ batch.columns.zipIdx, ∀ cell ∈ batch.column entry.2, ∃ datum,
        cell.SavedAs entry.1 (schema.typeOf entry.1 (batch.column entry.2)) datum := by
  constructor
  · rintro ⟨saved, hsaved⟩
    obtain ⟨hne, hcolumns⟩ := encode_eq_ok_iff.mp hsaved
    refine ⟨fun hnil => ?_, fun entry hentry => ?_⟩
    · rw [hnil] at hcolumns
      exact hne (List.forall₂_nil_left_iff.mp hcolumns)
    · obtain ⟨column, -, hsaves⟩ := Outcome.exists_of_forall₂ hcolumns.flip hentry
      have hdata := hsaves.data
      rw [hsaves.name, hsaves.type] at hdata
      exact exists_forall₂_iff.mp ⟨_, hdata⟩
  · rintro ⟨hne, hcells⟩
    have heach : ∀ entry ∈ batch.columns.zipIdx, ∃ column : Column,
        column.Saves schema batch entry := fun entry hentry => by
      obtain ⟨data, hdata⟩ := exists_forall₂_iff.mpr (hcells entry hentry)
      exact ⟨⟨entry.1, schema.typeOf entry.1 (batch.column entry.2), data⟩, rfl, rfl, hdata⟩
    obtain ⟨columns, hcolumns⟩ := exists_forall₂_iff.mpr heach
    refine ⟨⟨columns⟩, encode_eq_ok_iff.mpr ⟨?_, hcolumns⟩⟩
    rintro rfl
    have hnil : batch.columns.zipIdx = [] := List.forall₂_nil_right_iff.mp hcolumns
    exact hne (List.zipIdx_eq_nil_iff.mp hnil)

/-- The type of a column is found under its name. -/
theorem lookup_schema (hnames : table.names.Nodup) {column : Column} (hcolumn : column ∈ table.columns) :
    table.schema.lookup column.name = some column.type := by
  have hnodup : (table.schema.map Prod.fst).Nodup := by
    rw [schema, List.map_map]
    exact hnames
  exact (lookup_eq_some_iff_mem hnodup).mpr (List.mem_map_of_mem hcolumn)

theorem typeOf_schema (hnames : table.names.Nodup) {column : Column} (hcolumn : column ∈ table.columns)
    (cells : List Cell) : table.schema.typeOf column.name cells = column.type := by
  rw [Schema.typeOf, lookup_schema hnames hcolumn, Option.getD_some]

/-- A table that is saved under the schema of another one with the same columns has this schema. -/
theorem schema_of_encode (hnames : table.names.Nodup) (hcolumns : batch.columns = table.names)
    (hsaved : encode table.schema batch = .ok saved) : saved.schema = table.schema := by
  have hlength : saved.columns.length = table.columns.length := by
    have hsame := congrArg List.length ((names_of_encode hsaved).trans hcolumns)
    rwa [names, names, List.length_map, List.length_map] at hsame
  refine List.ext_getElem (by simp [schema, hlength]) fun index hleft hright => ?_
  have hindex : index < saved.columns.length := by simpa [schema] using hleft
  have hother : index < table.columns.length := hlength ▸ hindex
  obtain ⟨name, hname, hsaves⟩ := saves_of_encode hsaved (List.getElem?_eq_getElem hindex)
  rw [hcolumns, names, List.getElem?_map, List.getElem?_eq_getElem hother, Option.map_some] at hname
  obtain rfl := Option.some.inj hname
  have htype := hsaves.type
  rw [typeOf_schema hnames (List.getElem_mem hother)] at htype
  simp only [schema, List.getElem_map]
  rw [hsaves.name, htype]

/-- A table as it can stand in a readable file. -/
structure Sound (table : Table) : Prop where
  names : table.names.Nodup
  lengths : ∀ column ∈ table.columns, column.data.length = table.size
  fits : ∀ column ∈ table.columns, ∀ datum ∈ column.data, datum.Fits column.type

/-- The rows of a table and as many rows of nulls after them. -/
def withNulls (table : Table) (count : ℕ) : Batch :=
  ⟨table.names, table.rows ++ List.replicate count (List.replicate table.names.length .null)⟩

namespace Sound

variable (hsound : table.Sound) {count : ℕ}

include hsound

theorem column_rows {index : ℕ} {column : Column} (hcolumn : table.columns[index]? = some column) :
    table.rows.map (fun row => row[index]?.getD .null) = column.cells := by
  refine column_rowsOf (fun cells hcells => ?_) (by rw [List.getElem?_map, hcolumn]; rfl)
  obtain ⟨other, hother, rfl⟩ := List.mem_map.mp hcells
  rw [Column.cells, List.length_map, hsound.lengths other hother]

theorem column_withNulls {index : ℕ} {column : Column}
    (hcolumn : table.columns[index]? = some column) :
    (table.withNulls count).column index = column.cells ++ List.replicate count .null := by
  rw [Batch.column, withNulls, List.map_append, hsound.column_rows hcolumn, List.map_replicate]
  congr 2
  by_cases hindex : index < table.names.length <;> simp [hindex]

theorem wellFormed_withNulls : (table.withNulls count).WellFormed := by
  refine ⟨hsound.names, fun row hrow => ?_⟩
  rcases List.mem_append.mp hrow with hstored | hnull
  · rw [rows, rowsOf_eq] at hstored
    obtain ⟨index, -, rfl⟩ := List.mem_map.mp hstored
    rw [List.length_map, List.length_map]
    exact (List.length_map _).symm
  · rw [List.eq_of_mem_replicate hnull, List.length_replicate]
    rfl

/-- A table can be saved with rows of nulls unless it has integers that are read as texts. -/
theorem exists_encode_withNulls_iff :
    (∃ saved, encode table.schema (table.withNulls count) = .ok saved) ↔ table.columns ≠ [] ∧
      ∀ column ∈ table.columns, column.type.isReadAsText = true →
        ∀ datum ∈ column.data, datum = .null := by
  have hcolumn : ∀ column ∈ table.columns, ∀ index, table.columns[index]? = some column →
      ((∀ cell ∈ (table.withNulls count).column index, ∃ datum, cell.SavedAs column.name
        (table.schema.typeOf column.name ((table.withNulls count).column index)) datum) ↔
          (column.type.isReadAsText = true → ∀ datum ∈ column.data, datum = .null)) := by
    intro column hmem index hindex
    rw [typeOf_schema hsound.names hmem, hsound.column_withNulls hindex]
    have hnulls : ∀ cell ∈ List.replicate count Cell.null,
        ∃ datum, cell.SavedAs column.name column.type datum := fun cell hcell =>
      ⟨.null, .null, List.eq_of_mem_replicate hcell ▸ rfl, rfl⟩
    rw [List.forall_mem_append, and_iff_left hnulls, Column.cells, List.forall_mem_map]
    constructor
    · exact fun hall hread datum hdatum =>
        (hsound.fits column hmem datum hdatum).exists_savedAs_iff.mp (hall datum hdatum) hread
    · exact fun hall datum hdatum => (hsound.fits column hmem datum hdatum).exists_savedAs_iff.mpr
        fun hread => hall hread datum hdatum
  have hne : (table.withNulls count).columns ≠ [] ↔ table.columns ≠ [] :=
    not_congr List.map_eq_nil_iff
  rw [exists_encode_iff, hne]
  refine and_congr_right fun _ => ⟨fun hall column hmem => ?_, fun hall entry hentry => ?_⟩
  · obtain ⟨index, hindex⟩ := List.getElem?_of_mem hmem
    refine (hcolumn column hmem index hindex).mp (hall (column.name, index) ?_)
    rw [List.mem_zipIdx_iff_getElem?]
    simp [withNulls, Table.names, hindex]
  · rw [List.mem_zipIdx_iff_getElem?] at hentry
    obtain ⟨column, hindex, hname⟩ : ∃ column, table.columns[entry.2]? = some column ∧
        column.name = entry.1 := by
      simpa [withNulls, Table.names] using hentry
    have hmem := List.mem_of_getElem? hindex
    rw [← hname]
    exact (hcolumn column hmem entry.2 hindex).mpr (hall column hmem)

theorem readBack_cell {column : Column} (hcolumn : column ∈ table.columns) (number : ℕ) :
    (column.cells[number]?.getD .null).readBack column.type = column.cells[number]?.getD .null := by
  rw [Column.cells, List.getElem?_map]
  cases hdatum : column.data[number]? with
  | none => exact Cell.readBack_null _
  | some datum =>
    exact (hsound.fits column hcolumn datum (List.mem_of_getElem? hdatum)).readBack_toCell

/-- Rows that have been read do not change when they are saved and read again. -/
theorem readBack_row {row : List Cell} (hrow : row ∈ (table.withNulls count).rows) :
    table.readBack row = row := by
  rw [readBack, types]
  rcases List.mem_append.mp hrow with hstored | hnull
  · rw [rows, rowsOf_eq] at hstored
    obtain ⟨number, -, rfl⟩ := List.mem_map.mp hstored
    rw [List.map_map, List.zipWith_map, List.zipWith_self]
    exact List.map_congr_left fun column hcolumn => hsound.readBack_cell hcolumn number
  · rw [List.eq_of_mem_replicate hnull, Table.names, List.length_map, ← List.map_const',
      List.zipWith_map, List.zipWith_self]
    exact List.map_congr_left fun column _ => Cell.readBack_null column.type

/-- What has been saved with rows of nulls has the same columns and types, and is read as it was, with
these rows at the end. -/
theorem decode_of_encode_withNulls
    (hsaved : encode table.schema (table.withNulls count) = .ok saved) :
    saved.schema = table.schema ∧ saved.decode = .ok (table.withNulls count) := by
  have hschema := schema_of_encode hsound.names rfl hsaved
  have htypes : saved.types = table.types := by
    have hsame := congrArg (List.map Prod.snd) hschema
    rwa [schema, schema, List.map_map, List.map_map] at hsame
  have hnames : saved.names = table.names := names_of_encode hsaved
  refine ⟨hschema, ?_⟩
  rw [decode_eq_ok (hnames ▸ hsound.names), hnames, rows_of_encode hsound.wellFormed_withNulls hsaved]
  have hrow : ∀ row ∈ (table.withNulls count).rows, saved.readBack row = row := fun row hrow => by
    rw [readBack, htypes]
    exact hsound.readBack_row hrow
  rw [List.map_congr_left hrow, List.map_id']
  rfl

end Sound

end Table

end TableAppend
