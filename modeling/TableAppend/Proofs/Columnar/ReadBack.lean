import TableAppend.Proofs.Columnar.Dates
import TableAppend.Proofs.Columnar.Encoding
import TableAppend.Proofs.Double.Exact

/-!
# Reading back what has been saved

A cell that is saved in a column is read as a cell of the kind of this column.  That depends on the cell
and the type of the column only, so the rows of a table are those that were saved, each cell as it is
read back.  What has been read once and can be saved again does not change any more.
-/

namespace TableAppend

/-- The cell that is read where a cell has been saved. -/
def Cell.readBack (type : ColumnType) (cell : Cell) : Cell :=
  match type, cell with
  | _, .null => .null
  | .float64, .int value => .double (.ofInt value.toInt)
  | .float32, .int value => .double (Single.ofDouble (.ofInt value.toInt)).toDouble
  | .float32, .double value => .double (Single.ofDouble value).toDouble
  | .int32, _ | .int64, _ | .float64, _ | .float32, _ | .boolean, _ => cell
  | .date32, _ =>
    match Date.parseDays? cell.fieldText with
    | some days => .text (Date.ofDays days).render
    | none => cell
  | _, _ => .text cell.fieldText

@[simp]
theorem Cell.readBack_null (type : ColumnType) : Cell.null.readBack type = .null := by
  cases type <;> rfl

/-! ## Cells -/

section Cell

variable {name : String} {type : ColumnType} {cell : Cell} {datum : Datum}

theorem Datum.narrow_integer {value : ℤ} (hnarrow : (Datum.integer value).narrow type = .ok datum) :
    datum = .integer value := by
  rw [narrow] at hnarrow
  split at hnarrow
  · split at hnarrow
    · exact (Except.ok.inj hnarrow).symm
    · contradiction
  · exact (Except.ok.inj hnarrow).symm

theorem Datum.narrow_text {text : String} (hnarrow : (Datum.text text).narrow type = .ok datum) :
    type ≠ .date32 ∧ datum = .text text ∨
      type = .date32 ∧ ∃ days, Date.parseDays? text = some days ∧ datum = .day days := by
  rw [narrow] at hnarrow
  split at hnarrow
  · rename_i htype
    cases hdays : Date.parseDays? text with
    | some days =>
      simp only [hdays] at hnarrow
      exact .inr ⟨htype, days, rfl, (Except.ok.inj hnarrow).symm⟩
    | none =>
      simp only [hdays] at hnarrow
      contradiction
  · rename_i htype
    exact .inl ⟨htype, (Except.ok.inj hnarrow).symm⟩

theorem Cell.readBack_date {days : ℤ} (hcell : cell ≠ .null)
    (hdays : Date.parseDays? cell.fieldText = some days) :
    cell.readBack .date32 = .text (Date.ofDays days).render := by
  cases cell with
  | null => exact absurd rfl hcell
  | bool value | int value | double value | text value =>
    simp only [readBack]
    rw [hdays]

/-- Columns of texts and of dates are made of the texts of cells. -/
theorem Cell.toCell_of_collected_text (hcell : cell ≠ .null) (htype : type.widest = .utf8)
    (hnarrow : (Datum.text cell.fieldText).narrow type = .ok datum) :
    datum.toCell type = cell.readBack type := by
  rcases Datum.narrow_text hnarrow with ⟨hdate, rfl⟩ | ⟨rfl, days, hdays, rfl⟩
  · cases type <;> first | contradiction | skip
    all_goals
      cases cell <;> first | rfl | contradiction
  · exact (readBack_date hcell hdays).symm

theorem Cell.SavedAs.toCell_eq (hsaved : cell.SavedAs name type datum) :
    datum.toCell type = cell.readBack type := by
  obtain ⟨collected, hcollect, hnarrow⟩ := hsaved
  by_cases hnull : cell = .null
  · subst hnull
    obtain rfl := Except.ok.inj hcollect
    obtain rfl := Except.ok.inj hnarrow
    rw [readBack_null]
    rfl
  by_cases htext : type.widest = .utf8
  · have hcollected : collected = .text cell.fieldText := by
      rw [htext] at hcollect
      cases cell <;> first | contradiction | exact (Except.ok.inj hcollect).symm
    exact toCell_of_collected_text hnull htext (hcollected ▸ hnarrow)
  -- The other columns are made of cells of one or two kinds.
  cases cell with
  | null => contradiction
  | int value =>
    cases type <;> first | contradiction | obtain rfl := Except.ok.inj hcollect
    case int32 | int64 =>
      obtain rfl := Datum.narrow_integer hnarrow
      exact congrArg Cell.int value.ofInt_toInt
    case int8 | int16 | uint8 | uint16 | uint32 | uint64 =>
      obtain rfl := Datum.narrow_integer hnarrow
      rfl
    case float32 | float64 =>
      obtain rfl := Except.ok.inj hnarrow
      rfl
  | bool value =>
    cases type <;> first | contradiction | obtain rfl := Except.ok.inj hcollect
    obtain rfl := Except.ok.inj hnarrow
    rfl
  | double value =>
    cases type <;> first | contradiction | obtain rfl := Except.ok.inj hcollect
    all_goals
      obtain rfl := Except.ok.inj hnarrow
      rfl
  | text value => cases type <;> contradiction

end Cell

/-! ## Rows -/

theorem Column.Saves.cells_eq {column : Column} {schema : Schema} {batch : Batch} {entry : String × ℕ}
    (hsaves : column.Saves schema batch entry) :
    column.cells = (batch.column entry.2).map (Cell.readBack column.type) := by
  have heach : List.Forall₂ (fun cell datum => Datum.toCell column.type datum =
      cell.readBack column.type) (batch.column entry.2) column.data :=
    hsaves.data.imp fun _ _ => Cell.SavedAs.toCell_eq
  rw [cells]
  generalize batch.column entry.2 = saved, column.data = data at heach ⊢
  induction heach with
  | nil => rfl
  | cons hhead _ ih => rw [List.map_cons, List.map_cons, hhead, ih]

namespace Table

def types (table : Table) : List ColumnType :=
  table.columns.map Column.type

/-- A row as it is read back from columns of these types. -/
def readBack (table : Table) (row : List Cell) : List Cell :=
  List.zipWith Cell.readBack table.types row

variable {batch : Batch} {schema : Schema} {table : Table}

theorem length_types_of_encode (htable : encode schema batch = .ok table) :
    table.types.length = batch.columns.length := by
  rw [← names_of_encode htable, types, names, List.length_map, List.length_map]

/-- The rows of a table are those that were saved in it, as they are read back. -/
theorem rows_of_encode (hbatch : batch.WellFormed) (htable : encode schema batch = .ok table) :
    table.rows = batch.rows.map table.readBack := by
  have htypes := length_types_of_encode htable
  have hsize := size_of_encode htable
  refine List.ext_getElem (by rw [size_rows, hsize, List.length_map]) fun number hleft hright => ?_
  have hnumber : number < batch.rows.length := by simpa using hright
  have hwidth : batch.rows[number].length = batch.columns.length :=
    hbatch.2 _ (List.getElem_mem hnumber)
  have hrow : table.rows[number] = table.columns.map fun column =>
      column.cells[number]?.getD .null := by
    simp [rows, rowsOf_eq]
  rw [hrow, List.getElem_map]
  rw [types, List.length_map] at htypes
  refine List.ext_getElem (by simp [readBack, types, htypes, hwidth]) fun index hfirst hsecond => ?_
  have hindex : index < table.columns.length := by simpa using hfirst
  obtain ⟨name, -, hsaves⟩ := saves_of_encode htable (List.getElem?_eq_getElem hindex)
  have hcell : index < batch.rows[number].length := by omega
  simp [readBack, types, hsaves.cells_eq, Batch.column, hnumber, hcell]

end Table

end TableAppend
