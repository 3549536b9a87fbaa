import TableAppend.Proofs.Columnar.ReadBack
import TableAppend.Proofs.Columnar.Resaving

/-!
# Batches saved under inferred types

A batch of any rows can be saved, and is read back with the cells of each column brought to one kind:
`decodeAll_of_inferred`.  What has been read back is saved under the same types again and does not
change any more.
-/

namespace TableAppend

/-! ## Kinds of cells -/

inductive Cell.Kind where
  | bool
  | int
  | double
  | text
  deriving DecidableEq

def Cell.kind? : Cell → Option Cell.Kind
  | .null => none
  | .bool _ => some .bool
  | .int _ => some .int
  | .double _ => some .double
  | .text _ => some .text

namespace ColumnType

variable {cells others : List Cell} {kind : Cell.Kind}

/-- Some cell is of this kind. -/
def Has (cells : List Cell) (kind : Cell.Kind) : Prop :=
  ∃ cell ∈ cells, cell.kind? = some kind

instance (cells : List Cell) (kind : Cell.Kind) : Decidable (Has cells kind) :=
  inferInstanceAs (Decidable (∃ cell ∈ cells, cell.kind? = some kind))

/-- Cells that have nothing but their texts in common. -/
def Mixed (cells : List Cell) : Prop :=
  Has cells .text ∨ Has cells .bool ∧ (Has cells .int ∨ Has cells .double)

instance (cells : List Cell) : Decidable (Mixed cells) :=
  inferInstanceAs (Decidable (_ ∨ _))

theorem has_of_mem {cell : Cell} (hcell : cell ∈ cells) (hkind : cell.kind? = some kind) :
    Has cells kind :=
  ⟨cell, hcell, hkind⟩

theorem forall_kind_iff {property : Cell.Kind → Prop} : (∀ kind, property kind) ↔
    property .bool ∧ property .int ∧ property .double ∧ property .text :=
  ⟨fun hall => ⟨hall _, hall _, hall _, hall _⟩, by
    rintro ⟨hbool, hint, hdouble, htext⟩ (_ | _ | _ | _) <;> assumption⟩

/-- A test that goes by the kinds of cells, for all cells but nulls. -/
theorem all_present_iff (kinds : List Cell.Kind) {test : Cell → Bool}
    (htest : ∀ cell kind, cell.kind? = some kind → (test cell = true ↔ kind ∈ kinds)) :
    (cells.filter (· ≠ .null)).all test = true ↔ ∀ kind, Has cells kind → kind ∈ kinds := by
  have hkind : ∀ cell : Cell, cell ≠ .null ↔ ∃ kind, cell.kind? = some kind := by
    intro cell
    cases cell <;> simp [Cell.kind?]
  rw [List.all_eq_true]
  simp only [List.mem_filter, decide_eq_true_eq, hkind, Has]
  constructor
  · rintro hall kind ⟨cell, hcell, hsame⟩
    exact (htest cell kind hsame).mp (hall cell ⟨hcell, kind, hsame⟩)
  · rintro hall cell ⟨hcell, kind, hsame⟩
    exact (htest cell kind hsame).mpr (hall kind ⟨cell, hcell, hsame⟩)

theorem present_eq_nil_iff :
    cells.filter (· ≠ .null) = [] ↔ ∀ kind, ¬ Has cells kind := by
  have hall := @all_present_iff cells [] (fun _ => false) (by simp)
  simpa [List.filter_eq_nil_iff] using hall

/-- The inferred type goes by the kinds of cells only. -/
theorem infer_eq (cells : List Cell) :
    infer cells = if Mixed cells then utf8 else if Has cells .double then float64
      else if Has cells .int then int64 else if Has cells .bool then boolean else utf8 := by
  classical
  rw [infer]
  refine (if_congr present_eq_nil_iff rfl <|
    if_congr (all_present_iff [.int] fun cell kind hkind => ?_) rfl <|
    if_congr (all_present_iff [.int, .double] fun cell kind hkind => ?_) rfl <|
    if_congr (all_present_iff [.bool] fun cell kind hkind => ?_) rfl rfl).trans ?_
  case refine_4 =>
    simp only [forall_kind_iff, Mixed]
    by_cases hbool : Has cells .bool <;> by_cases hint : Has cells .int <;>
      by_cases hdouble : Has cells .double <;> by_cases htext : Has cells .text <;>
        simp [hbool, hint, hdouble, htext]
  all_goals
    cases cell <;> cases hkind <;> simp

/-- The type of a column, and what its cells are. -/
inductive Infers (cells : List Cell) : ColumnType → Prop
  | mixed : Mixed cells → Infers cells .utf8
  | double : ¬ Mixed cells → Has cells .double → Infers cells .float64
  | int : ¬ Mixed cells → ¬ Has cells .double → Has cells .int → Infers cells .int64
  | bool : ¬ Mixed cells → Has cells .bool → Infers cells .boolean
  | nothing : (∀ kind, ¬ Has cells kind) → Infers cells .utf8

theorem infers_infer (cells : List Cell) : Infers cells (infer cells) := by
  rw [infer_eq]
  split_ifs with hmixed hdouble hint hbool
  · exact .mixed hmixed
  · exact .double hmixed hdouble
  · exact .int hmixed hdouble hint
  · exact .bool hmixed hbool
  · exact .nothing (forall_kind_iff.mpr ⟨hbool, hint, hdouble, fun htext => hmixed (.inl htext)⟩)

theorem infer_congr (hsame : ∀ kind, Has cells kind ↔ Has others kind) :
    infer cells = infer others := by
  have hmixed : Mixed cells ↔ Mixed others := by
    simp only [Mixed, hsame]
  rw [infer_eq, infer_eq]
  exact if_congr hmixed rfl (if_congr (hsame _) rfl (if_congr (hsame _) rfl (if_congr (hsame _) rfl rfl)))

theorem Infers.infer_eq {type : ColumnType} (hinfers : Infers cells type) : infer cells = type := by
  rw [ColumnType.infer_eq]
  cases hinfers with
  | mixed hmixed => rw [if_pos hmixed]
  | double hmixed hdouble => rw [if_neg hmixed, if_pos hdouble]
  | int hmixed hdouble hint => rw [if_neg hmixed, if_neg hdouble, if_pos hint]
  | bool hmixed hbool =>
    rw [if_neg hmixed, if_neg fun hdouble => hmixed (.inr ⟨hbool, .inr hdouble⟩),
      if_neg fun hint => hmixed (.inr ⟨hbool, .inl hint⟩), if_pos hbool]
  | nothing hnone => simp [Mixed, hnone]

end ColumnType

/-! ## Cells of one column -/

/-- A cell as a column of these cells keeps it.  A column of doubles keeps integers as doubles, and a
column of nothing but texts in common keeps the texts. -/
def Cell.unified (cells : List Cell) (cell : Cell) : Cell :=
  if ColumnType.Mixed cells then .ofText? cell.canonical?
  else match cell with
    | .int value =>
      if ColumnType.Has cells .double then .double (.ofInt value.toInt) else .int value
    | other => other

section Column

open ColumnType (Has Mixed Infers has_of_mem)

variable {cells : List Cell} {cell : Cell} {type : ColumnType}

theorem Cell.readBack_utf8 (cell : Cell) : cell.readBack .utf8 = .ofText? cell.canonical? := by
  cases htext : cell.canonical? with
  | none =>
    rw [(canonical?_eq_none_iff cell).mp htext]
    rfl
  | some text =>
    have hfield : cell.fieldText = text := by rw [fieldText, htext, Option.getD_some]
    cases cell with
    | null => contradiction
    | bool | int | double | text => exact congrArg Cell.text hfield

/-- What is read back is what the column keeps. -/
theorem ColumnType.Infers.readBack_eq (hinfers : Infers cells type) (hcell : cell ∈ cells) :
    cell.readBack type = cell.unified cells := by
  unfold Cell.unified
  cases hinfers with
  | mixed hmixed => rw [if_pos hmixed, Cell.readBack_utf8]
  | double hmixed hdouble =>
    rw [if_neg hmixed]
    cases cell with
    | null | double => rfl
    | int value => exact (if_pos hdouble).symm
    | bool => exact absurd (.inr ⟨has_of_mem hcell rfl, .inr hdouble⟩) hmixed
    | text => exact absurd (.inl (has_of_mem hcell rfl)) hmixed
  | int hmixed hdouble hint =>
    rw [if_neg hmixed]
    cases cell with
    | int value => exact (if_neg hdouble).symm
    | null | bool | double | text => rfl
  | bool hmixed hbool =>
    rw [if_neg hmixed]
    cases cell with
    | int => exact absurd (.inr ⟨hbool, .inl (has_of_mem hcell rfl)⟩) hmixed
    | null | bool | double | text => rfl
  | nothing hnone =>
    cases cell with
    | null => rw [Cell.readBack_null, if_neg (by simp [Mixed, hnone])]
    | bool | int | double | text => exact absurd (has_of_mem hcell rfl) (hnone _)

/-- Every cell can be stored under the type that is inferred. -/
theorem ColumnType.Infers.stores (hinfers : Infers cells type) (hcell : cell ∈ cells) :
    type.Stores cell := by
  refine ⟨?_, fun value _ => hasRoom_of_wide ?_ value⟩
  · cases hinfers with
    | mixed | nothing => rfl
    | double hmixed hdouble =>
      cases cell with
      | null | int | double => rfl
      | bool => exact absurd (.inr ⟨has_of_mem hcell rfl, .inr hdouble⟩) hmixed
      | text => exact absurd (.inl (has_of_mem hcell rfl)) hmixed
    | int hmixed hdouble hint =>
      cases cell with
      | null | int => rfl
      | bool => exact absurd (.inr ⟨has_of_mem hcell rfl, .inl hint⟩) hmixed
      | double => exact absurd (has_of_mem hcell rfl) hdouble
      | text => exact absurd (.inl (has_of_mem hcell rfl)) hmixed
    | bool hmixed hbool =>
      cases cell with
      | null | bool => rfl
      | int => exact absurd (.inr ⟨hbool, .inl (has_of_mem hcell rfl)⟩) hmixed
      | double => exact absurd (.inr ⟨hbool, .inr (has_of_mem hcell rfl)⟩) hmixed
      | text => exact absurd (.inl (has_of_mem hcell rfl)) hmixed
  · cases hinfers <;> simp [isInteger, range?]

/-- The cells that are read back have the type that they were saved under. -/
theorem ColumnType.Infers.map_readBack (hinfers : Infers cells type) :
    Infers (cells.map (Cell.readBack type)) type := by
  have hhas : ∀ {kind}, Has (cells.map (Cell.readBack type)) kind ↔
      ∃ cell ∈ cells, (cell.readBack type).kind? = some kind := by
    simp [Has]
  cases hinfers with
  | mixed hmixed =>
    obtain ⟨cell, hcell, kind, hkind⟩ : ∃ cell ∈ cells, ∃ kind, cell.kind? = some kind := by
      rcases hmixed with ⟨cell, hcell, hkind⟩ | ⟨⟨cell, hcell, hkind⟩, -⟩
      · exact ⟨cell, hcell, _, hkind⟩
      · exact ⟨cell, hcell, _, hkind⟩
    refine .mixed (.inl (hhas.mpr ⟨cell, hcell, ?_⟩))
    cases cell with
    | null => cases hkind
    | bool | int | double | text => rfl
  | double hmixed hdouble =>
    refine .double ?_ ?_
    · rintro (htext | ⟨hbool, -⟩)
      · obtain ⟨cell, hcell, hkind⟩ := hhas.mp htext
        cases cell with
        | text => exact hmixed (.inl (has_of_mem hcell rfl))
        | null | bool | int | double => cases hkind
      · obtain ⟨cell, hcell, hkind⟩ := hhas.mp hbool
        cases cell with
        | bool => exact hmixed (.inr ⟨has_of_mem hcell rfl, .inr hdouble⟩)
        | null | int | double | text => cases hkind
    · obtain ⟨cell, hcell, hkind⟩ := hdouble
      refine hhas.mpr ⟨cell, hcell, ?_⟩
      cases cell with
      | double => rfl
      | null | bool | int | text => cases hkind
  | int hmixed hdouble hint =>
    have hsame : cells.map (Cell.readBack .int64) = cells :=
      List.map_id'' (fun cell => by cases cell <;> rfl) cells
    rw [hsame]
    exact .int hmixed hdouble hint
  | bool hmixed hbool =>
    have hsame : cells.map (Cell.readBack .boolean) = cells :=
      List.map_id'' (fun cell => by cases cell <;> rfl) cells
    rw [hsame]
    exact .bool hmixed hbool
  | nothing hnone =>
    refine .nothing fun kind hkind => ?_
    obtain ⟨cell, hcell, hkind⟩ := hhas.mp hkind
    cases cell with
    | null => cases hkind
    | bool | int | double | text => exact hnone _ (has_of_mem hcell rfl)

theorem Cell.readBack_readBack (htype : type ∈ ColumnType.inferable) (cell : Cell) :
    (cell.readBack type).readBack type = cell.readBack type := by
  simp only [ColumnType.inferable, List.mem_cons, List.not_mem_nil, or_false] at htype
  rcases htype with rfl | rfl | rfl | rfl <;> cases cell <;> rfl

end Column

/-! ## Batches -/

namespace Batch

/-- The batch with every cell as its column keeps it. -/
def unified (batch : Batch) : Batch :=
  ⟨batch.columns,
    batch.rows.map fun row => row.mapIdx fun index cell => cell.unified (batch.column index)⟩

/-- The rows of the batch so many times. -/
def copies (batch : Batch) (count : ℕ) : Batch :=
  ⟨batch.columns, (List.replicate count batch.rows).flatten⟩

theorem mem_rows_copies_iff {batch : Batch} {count : ℕ} (hcount : 0 < count) {row : List Cell} :
    row ∈ (batch.copies count).rows ↔ row ∈ batch.rows := by
  simp [copies, hcount.ne']

theorem WellFormed.copies {batch : Batch} (hbatch : batch.WellFormed) (count : ℕ) :
    (batch.copies count).WellFormed := by
  refine ⟨hbatch.1, fun row hrow => ?_⟩
  obtain ⟨rows, hrows, hrow⟩ := List.mem_flatten.mp hrow
  exact hbatch.2 row (List.eq_of_mem_replicate hrows ▸ hrow)

theorem WellFormed.unified {batch : Batch} (hbatch : batch.WellFormed) :
    batch.unified.WellFormed := by
  refine ⟨hbatch.1, fun row hrow => ?_⟩
  obtain ⟨before, hbefore, rfl⟩ := List.mem_map.mp hrow
  rw [List.length_mapIdx]
  exact hbatch.2 before hbefore

/-- Copies of rows have the same kinds of cells in each column. -/
theorem infer_column_copies {batch : Batch} {count : ℕ} (hcount : 0 < count) (index : ℕ) :
    ColumnType.infer ((batch.copies count).column index) =
      ColumnType.infer (batch.column index) := by
  refine ColumnType.infer_congr fun kind => exists_congr fun cell => and_congr_left fun _ => ?_
  simp only [column, List.mem_map, mem_rows_copies_iff hcount]

end Batch

namespace Table

open ColumnType (infer infers_infer)

variable {batch : Batch} {table again : Table} {count : ℕ}

/-- Every batch with columns can be saved under the types that are inferred. -/
theorem exists_encode_inferred (hcolumns : batch.columns ≠ []) :
    ∃ table, encode [] batch = .ok table := by
  refine exists_encode_iff.mpr ⟨hcolumns, fun entry _ cell hcell => ?_⟩
  have hdate : infer (batch.column entry.2) ≠ .date32 :=
    ne_of_mem_of_not_mem (ColumnType.infer_mem_inferable _) (by decide)
  exact (Cell.exists_savedAs_iff hdate).mpr ((infers_infer _).stores hcell)

section Inferred

variable (htable : encode [] batch = .ok table)

include htable

theorem types_of_encode :
    table.types = (List.range batch.columns.length).map fun index => infer (batch.column index) := by
  have htypes := length_types_of_encode htable
  refine List.ext_getElem (by simp [htypes]) fun index hleft hright => ?_
  have hindex : index < table.columns.length := by simpa [types] using hleft
  obtain ⟨name, -, hsaves⟩ := saves_of_encode htable (List.getElem?_eq_getElem hindex)
  simpa [types, Schema.typeOf] using hsaves.type

variable (hbatch : batch.WellFormed)

include hbatch

/-- The rows that are read back have their cells as their columns keep them. -/
theorem rows_of_encode_inferred : table.rows = batch.unified.rows := by
  rw [rows_of_encode hbatch htable, Batch.unified]
  refine List.map_congr_left fun row hrow => ?_
  have hwidth := hbatch.2 row hrow
  rw [readBack, types_of_encode htable]
  refine List.ext_getElem (by simp [hwidth]) fun index hleft hright => ?_
  have hindex : index < row.length := by simpa using hright
  have hcell : row[index] ∈ batch.column index :=
    List.mem_map.mpr ⟨row, hrow, by rw [List.getElem?_eq_getElem hindex, Option.getD_some]⟩
  simpa using (infers_infer (batch.column index)).readBack_eq hcell

/-- The rows of several copies of a table. -/
theorem decodeAll_replicate (count : ℕ) :
    decodeAll table.names (List.replicate count table) = .ok (batch.unified.copies count) := by
  have hrows : (List.replicate count table).flatMap rows = (batch.unified.copies count).rows := by
    rw [List.flatMap_replicate, rows_of_encode_inferred htable hbatch]
    rfl
  rw [decodeAll, names_of_encode htable, hrows]
  exact Batch.ofRows_eq_ok_iff.mpr ⟨hbatch.unified.copies count, rfl⟩

variable (hcount : 0 < count) (hagain : encode [] (batch.unified.copies count) = .ok again)

include hcount hagain

/-- What has been read back is saved under the same types again. -/
theorem types_of_encode_again : again.types = table.types := by
  rw [types_of_encode hagain, types_of_encode htable]
  refine List.map_congr_left fun index hindex => ?_
  have hless : index < table.columns.length := by
    have hlength := length_types_of_encode htable
    rw [types, List.length_map] at hlength
    exact hlength ▸ List.mem_range.mp hindex
  obtain ⟨name, -, hsaves⟩ := saves_of_encode htable (List.getElem?_eq_getElem hless)
  have htype : table.columns[index].type = infer (batch.column index) := hsaves.type
  have hcolumn : batch.unified.column index =
      (batch.column index).map (Cell.readBack (infer (batch.column index))) := by
    rw [Batch.column, ← rows_of_encode_inferred htable hbatch,
      column_rows_of_encode htable (List.getElem?_eq_getElem hless), hsaves.cells_eq, htype]
  rw [Batch.infer_column_copies hcount, hcolumn]
  exact (infers_infer _).map_readBack.infer_eq

theorem schema_of_encode_again : again.schema = table.schema := by
  have hzip : ∀ table : Table, table.schema = table.names.zip table.types := fun table => by
    rw [schema, names, types, List.zip_map']
  rw [hzip, hzip, types_of_encode_again htable hbatch hcount hagain, names_of_encode hagain,
    names_of_encode htable]
  rfl

/-- What has been read back does not change when it is saved and read back again. -/
theorem decode_of_encode_again : again.decode = .ok (batch.unified.copies count) := by
  have hwell := hbatch.unified.copies count
  rw [decode_of_encode hwell hagain, rows_of_encode hwell hagain]
  have hrow : ∀ row ∈ (batch.unified.copies count).rows, again.readBack row = row := by
    intro row hrow
    rw [Batch.mem_rows_copies_iff hcount, ← rows_of_encode_inferred htable hbatch,
      rows_of_encode hbatch htable] at hrow
    obtain ⟨before, -, rfl⟩ := List.mem_map.mp hrow
    rw [readBack, readBack, types_of_encode_again htable hbatch hcount hagain, types_of_encode htable]
    refine List.ext_getElem (by simp) fun index _ _ => ?_
    simpa using Cell.readBack_readBack (ColumnType.infer_mem_inferable _) _
  rw [List.map_congr_left hrow, List.map_id']

end Inferred

/-- A batch with columns can be saved under the types that are inferred for them.  Copies of what has
been saved are read back as the rows so many times, each cell as its column keeps it.  Saving what has
been read back gives the same types, and it is read back as it is. -/
theorem decodeAll_of_inferred {columns : List String} {rows : List (List Cell)}
    (hbatch : Batch.ofRows columns rows = .ok batch) (hcolumns : batch.columns ≠ [])
    (hcount : 0 < count) :
    ∃ table, encode [] batch = .ok table ∧
      decodeAll table.names (List.replicate count table) = .ok (batch.unified.copies count) ∧
      ∃ again, encode [] (batch.unified.copies count) = .ok again ∧ again.schema = table.schema ∧
        again.decode = .ok (batch.unified.copies count) := by
  have hwell := (Batch.ofRows_eq_ok_iff.mp hbatch).1
  obtain ⟨table, htable⟩ := exists_encode_inferred hcolumns
  obtain ⟨again, hagain⟩ := @exists_encode_inferred (batch.unified.copies count) hcolumns
  exact ⟨table, htable, decodeAll_replicate htable hwell count, again, hagain,
    schema_of_encode_again htable hwell hcount hagain,
    decode_of_encode_again htable hwell hcount hagain⟩

/-- A column of numbers is read back as doubles, one of numbers and truth values as texts, and one of
integers as it is; two copies are read as the rows twice. -/
theorem decodeAll_of_inferred_kinds :
    let rows : List (List Cell) := [[.int 1, .bool true, .int 3],
      [.double ⟨0x3fe0000000000000⟩, .int 2, .null], [.null, .null, .int 5]]
    let kept : List (List Cell) := [[.double (.ofInt 1), .text "true", .int 3],
      [.double ⟨0x3fe0000000000000⟩, .text "2", .null], [.null, .null, .int 5]]
    let twice : Batch := ⟨["a", "b", "c"], kept ++ kept⟩
    ∃ batch, Batch.ofRows ["a", "b", "c"] rows = .ok batch ∧ batch.columns ≠ [] ∧
      ∃ table, encode [] batch = .ok table ∧ decodeAll table.names [table, table] = .ok twice ∧
        ∃ again, encode [] twice = .ok again ∧ again.schema = table.schema ∧
          again.decode = .ok twice := by
  intro rows kept twice
  have hbatch : Batch.ofRows ["a", "b", "c"] rows = .ok ⟨["a", "b", "c"], rows⟩ := by decide +kernel
  have htwice : (Batch.mk ["a", "b", "c"] rows).unified.copies 2 = twice := by decide +kernel
  have hcolumns : (Batch.mk ["a", "b", "c"] rows).columns ≠ [] := by decide
  have hread := decodeAll_of_inferred hbatch hcolumns Nat.two_pos
  rw [htwice] at hread
  exact ⟨_, hbatch, hcolumns, hread⟩

end Table

end TableAppend
