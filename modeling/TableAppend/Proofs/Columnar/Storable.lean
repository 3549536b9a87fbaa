import TableAppend.Proofs.ColumnOrder
import TableAppend.Proofs.Columnar.Encoding

/-!
# What a column can store

A type holds cells by their kind.  Saving a cell asks for more than that, since an integer has to lie in
the range of an integer type.  The check of a file looks at the kinds alone: it refuses all cells of
other kinds before anything is written, and integers out of range come up only when they are saved.
-/

namespace TableAppend

namespace ColumnType

/-- A number lies in the range of a type, if the type has one. -/
def HasRoom (type : ColumnType) (value : Int64) : Prop :=
  ∀ range ∈ type.range?, range.1 ≤ value.toInt ∧ value.toInt ≤ range.2

instance (type : ColumnType) (value : Int64) : Decidable (type.HasRoom value) :=
  inferInstanceAs (Decidable (∀ range ∈ type.range?, _))

/-- All numbers have room in the widest integer type and in types without a range. -/
theorem hasRoom_of_wide {type : ColumnType} (htype : type = int64 ∨ type.isInteger = false)
    (value : Int64) : type.HasRoom value := by
  rintro range hrange
  rcases htype with rfl | htype
  · obtain rfl := Option.some.inj hrange
    exact ⟨value.minValue_le_toInt, value.toInt_le⟩
  · rw [isInteger, Option.isSome_eq_false_iff] at htype
    rw [Option.isNone_iff_eq_none.mp htype] at hrange
    contradiction

/-- What a type can store: a cell of a kind that it holds, and a number only in its range. -/
def Stores (type : ColumnType) (cell : Cell) : Prop :=
  type.holds cell = true ∧ ∀ value, cell = .int value → type.HasRoom value

end ColumnType

/-! ## Saving one cell -/

section Cell

variable {name : String} {type : ColumnType} {cell : Cell}

/-- An integer column takes the numbers in its range and null. -/
theorem Cell.exists_savedAs_of_isInteger (htype : type.isInteger = true) :
    (∃ datum, cell.SavedAs name type datum) ↔ type.Stores cell := by
  obtain ⟨range, hrange⟩ := Option.isSome_iff_exists.mp htype
  have hwidest : type.widest = .int64 := by
    cases type <;> first | rfl | contradiction
  have hholds : type.holds cell = true ↔ cell = .null ∨ ∃ value, cell = .int value := by
    cases type <;> cases cell <;> simp [ColumnType.holds, ColumnType.isText, ColumnType.isNumeric,
      ColumnType.isInteger, ColumnType.range?] at htype ⊢
  rw [ColumnType.Stores, hholds]
  cases cell with
  | null => simpa [SavedAs] using ⟨.null, .null, rfl, rfl⟩
  | int value =>
    simp only [SavedAs, hwidest, collect, Except.ok.injEq, exists_eq_left', Datum.narrow, hrange,
      ColumnType.HasRoom]
    split <;> simp_all
  | bool value | double value | text value => simp [SavedAs, hwidest, collect]

theorem Cell.exists_savedAs_iff (htype : type ≠ .date32) :
    (∃ datum, cell.SavedAs name type datum) ↔ type.Stores cell := by
  by_cases hinteger : type.isInteger = true
  · exact exists_savedAs_of_isInteger hinteger
  · have hroom : ∀ value, cell = .int value → type.HasRoom value := fun value _ =>
      ColumnType.hasRoom_of_wide (.inr (Bool.eq_false_iff.mpr hinteger)) value
    rw [ColumnType.Stores, and_iff_left hroom]
    -- What is left are the float types, the type of truth values and the text types.
    cases type <;> first | contradiction | skip
    all_goals
      cases cell <;> simp [SavedAs, collect, Datum.narrow, ColumnType.widest, ColumnType.holds,
        ColumnType.isText, ColumnType.isNumeric, ColumnType.isInteger, ColumnType.range?]

end Cell

/-! ## Saving columns -/

theorem exists_forall₂_iff {α β : Type} {related : α → β → Prop} {items : List α} :
    (∃ results, List.Forall₂ related items results) ↔ ∀ item ∈ items, ∃ result, related item result := by
  induction items with
  | nil => exact ⟨fun _ _ hmem => absurd hmem List.not_mem_nil, fun _ => ⟨[], .nil⟩⟩
  | cons head rest ih =>
    simp only [List.forall₂_cons_left_iff, List.forall_mem_cons, ← ih]
    constructor
    · rintro ⟨_, result, results, hhead, hrest, -⟩
      exact ⟨⟨result, hhead⟩, results, hrest⟩
    · rintro ⟨⟨result, hhead⟩, results, hrest⟩
      exact ⟨_, result, results, hhead, hrest, rfl⟩

theorem Column.exists_encode_iff {name : String} {type : ColumnType} (htype : type ≠ .date32)
    {cells : List Cell} :
    (∃ column, encode name type cells = .ok column) ↔ ∀ cell ∈ cells, type.Stores cell := by
  have heach : (∀ cell ∈ cells, type.Stores cell) ↔
      ∃ data, List.Forall₂ (Cell.SavedAs name type) cells data := by
    rw [exists_forall₂_iff]
    exact forall₂_congr fun cell _ => (Cell.exists_savedAs_iff htype).symm
  rw [heach]
  constructor
  · rintro ⟨column, hcolumn⟩
    exact ⟨column.data, (encode_eq_ok_iff.mp hcolumn).2.2⟩
  · rintro ⟨data, hdata⟩
    exact ⟨⟨name, type, data⟩, encode_eq_ok_iff.mpr ⟨rfl, rfl, hdata⟩⟩

/-- The batch with one column. -/
def Batch.single (name : String) (cells : List Cell) : Batch :=
  ⟨[name], cells.map fun cell => [cell]⟩

@[simp]
theorem Batch.column_single (name : String) (cells : List Cell) :
    (Batch.single name cells).column 0 = cells := by
  rw [column, single, List.map_map]
  exact List.map_id cells

/-- A batch with one column is saved under a type as this column is. -/
theorem Table.encode_single (name : String) (type : ColumnType) (cells : List Cell) :
    encode [(name, type)] (.single name cells) =
      (fun column => ⟨[column]⟩) <$> Column.encode name type cells := by
  have htype : Schema.typeOf [(name, type)] name cells = type := by simp [Schema.typeOf]
  have hcolumns : (Batch.single name cells).columns.zipIdx = [(name, 0)] := rfl
  rw [encode, hcolumns]
  simp only [List.mapM_cons, List.mapM_nil, Batch.column_single, htype]
  cases Column.encode name type cells <;> rfl

/-! ## Checking a file -/

namespace Columnar

variable {tree : FileTree} {path : Path} {schema : Schema} {rows : Batch}

/-- The stored columns hold the cells of a batch, as far as their kinds go. -/
def Holds (schema : Schema) (rows : Batch) : Prop :=
  ∀ column ∈ rows.columns.zipIdx, ∀ type, schema.lookup column.1 = some type →
    ∀ cell ∈ rows.column column.2, type.holds cell = true

/-- A cell that its stored column does not hold is reported with the names of both. -/
def ReportsMisfit (path : Path) (schema : Schema) (rows : Batch) (failure : Failure) : Prop :=
  ∃ column ∈ rows.columns.zipIdx, ∃ type, schema.lookup column.1 = some type ∧
    ∃ cell ∈ rows.column column.2, type.holds cell = false ∧
      failure = .otherColumns path [column.1 ++ ": " ++ type.name] [column.1 ++ ": " ++ cell.display]

theorem misfit?_eq_some {column : String × ℕ} {type : ColumnType} {cell : Cell}
    (hmisfit : misfit? schema rows column = some (type, cell)) :
    schema.lookup column.1 = some type ∧ cell ∈ rows.column column.2 ∧ type.holds cell = false := by
  rw [misfit?] at hmisfit
  obtain ⟨found, htype, hmisfit⟩ := Option.bind_eq_some_iff.mp hmisfit
  obtain ⟨cell', hcell, hmisfit⟩ := Option.bind_eq_some_iff.mp hmisfit
  obtain ⟨rfl, rfl⟩ := Prod.mk.inj (Option.some.inj hmisfit)
  exact ⟨htype, List.mem_of_find?_eq_some hcell, by simpa using List.find?_some hcell⟩

theorem checkTypes_or_misfit (path : Path) (schema : Schema) (rows : Batch) :
    checkTypes path schema rows = .ok () ∧ Holds schema rows ∨
      ∃ failure, checkTypes path schema rows = .error failure ∧
        ReportsMisfit path schema rows failure := by
  rw [checkTypes]
  cases hmisfits : rows.columns.zipIdx.filterMap fun column =>
      (misfit? schema rows column).map fun misfit => (column.1, misfit) with
  | nil =>
    refine .inl ⟨rfl, fun column hcolumn => misfit?_eq_none_iff.mp ?_⟩
    simpa using List.filterMap_eq_nil_iff.mp hmisfits column hcolumn
  | cons misfit rest =>
    obtain ⟨column, hcolumn, hmisfit⟩ :=
      List.mem_filterMap.mp (hmisfits ▸ List.mem_cons_self : misfit ∈ _)
    obtain ⟨⟨type, cell⟩, hfound, rfl⟩ := Option.map_eq_some_iff.mp hmisfit
    obtain ⟨htype, hcell, hholds⟩ := misfit?_eq_some hfound
    exact .inr ⟨_, rfl, column, hcolumn, type, htype, cell, hcell, hholds, rfl⟩

theorem Holds.not_reportsMisfit (hholds : Holds schema rows) (failure : Failure) :
    ¬ ReportsMisfit path schema rows failure := by
  rintro ⟨column, hcolumn, type, htype, cell, hcell, hnot, -⟩
  rw [hholds column hcolumn type htype cell hcell] at hnot
  contradiction

/-- Of a readable file with the columns of a batch, the kinds of cells alone are checked. -/
theorem check_or_misfit {table : Table} {stored : Batch} {metadata : Option Metadata}
    (hread : readTable tree path = .ok table) (hstored : table.decode = .ok stored)
    (hcolumns : stored.hasColumns rows.columns = true)
    (hmetadata : rejectDelimited path metadata = .ok ()) (codec : Codec) :
    check tree (some codec) path metadata rows =
        .ok ⟨some stored.columns, some stored, some table.schema⟩ ∧ Holds table.schema rows ∨
      ∃ failure, check tree (some codec) path metadata rows = .error failure ∧
        ReportsMisfit path table.schema rows failure := by
  have hcheck : check tree (some codec) path metadata rows = do
      checkTypes path table.schema rows
      return ⟨some stored.columns, some stored, some table.schema⟩ := by
    rw [check, hmetadata, Outcome.ok_bind]
    simp only [Codec.require, Outcome.ok_bind, hread, hstored, if_pos hcolumns]
  rw [hcheck]
  rcases checkTypes_or_misfit path table.schema rows with ⟨htypes, hholds⟩ | ⟨failure, htypes, hreport⟩
  · rw [htypes]
    exact .inl ⟨rfl, hholds⟩
  · rw [htypes]
    exact .inr ⟨failure, rfl, hreport⟩

/-- A column of a type can be made of cells exactly if the type holds each of them and has room for each
number.  The check of a file goes by the first condition: it fails exactly if a cell is of a kind that
its stored column does not hold, and then reports such a cell. -/
theorem encode_iff_stores_and_check_iff_holds {type : ColumnType} (htype : type ≠ .date32)
    (name : String) (cells : List Cell) :
    ((∃ column : Column, Table.encode [(name, type)] (.single name cells) = .ok ⟨[column]⟩ ∧
        column.name = name ∧ column.type = type) ↔ ∀ cell ∈ cells, type.Stores cell) ∧
      ((∃ failure, Table.encode [(name, type)] (.single name cells) = .error failure) ↔
        ∃ cell ∈ cells, ¬ type.Stores cell) ∧
      ∀ (tree : FileTree) (path : Path) (table : Table) (stored rows : Batch)
        (metadata : Option Metadata) (codec : Codec),
        readTable tree path = .ok table → table.decode = .ok stored →
        stored.hasColumns rows.columns = true → rejectDelimited path metadata = .ok () →
          ((∃ layout, check tree (some codec) path metadata rows = .ok layout) ↔
            Holds table.schema rows) ∧
          (¬ Holds table.schema rows → ∃ failure,
            check tree (some codec) path metadata rows = .error failure ∧
              ReportsMisfit path table.schema rows failure) := by
  have hencode := @Column.exists_encode_iff name type htype cells
  refine ⟨?_, ?_, ?_⟩
  · rw [← hencode, Table.encode_single]
    constructor
    · rintro ⟨column, hcolumn, -⟩
      obtain ⟨found, hfound, -⟩ := Outcome.map_eq_ok_iff.mp hcolumn
      exact ⟨found, hfound⟩
    · rintro ⟨column, hcolumn⟩
      obtain ⟨hname, hsame, -⟩ := Column.encode_eq_ok_iff.mp hcolumn
      exact ⟨column, by rw [hcolumn]; rfl, hname, hsame⟩
  · have hnot : (∃ cell ∈ cells, ¬ type.Stores cell) ↔ ¬ ∀ cell ∈ cells, type.Stores cell := by
      simp
    rw [hnot, ← hencode, Table.encode_single]
    cases Column.encode name type cells with
    | ok column => simp
    | error failure => exact iff_of_true ⟨failure, rfl⟩ (by simp)
  · intro tree path table stored rows metadata codec hread hstored hcolumns hmetadata
    rcases check_or_misfit hread hstored hcolumns hmetadata codec with
      ⟨hcheck, hholds⟩ | ⟨failure, hcheck, hreport⟩
    · exact ⟨iff_of_true ⟨_, hcheck⟩ hholds, fun hnot => absurd hholds hnot⟩
    · have hnot : ¬ Holds table.schema rows := fun hholds => hholds.not_reportsMisfit failure hreport
      refine ⟨iff_of_false ?_ hnot, fun _ => ⟨failure, hcheck, hreport⟩⟩
      rintro ⟨layout, hlayout⟩
      rw [hcheck] at hlayout
      contradiction

/-- A number that no small integer can be, for a file of small integers: the check accepts it, and it
cannot be saved. -/
theorem check_accepts_number_out_of_range :
    let rows : Batch := .single "c" [.int 300]
    let table : Table := ⟨[⟨"c", .int8, [.integer 1]⟩]⟩
    let tree := FileTree.empty.set ["t.parquet"] (.file (.table table))
    ColumnType.int8.holds (.int 300) = true ∧
      (∃ failure, Table.encode table.schema rows = .error failure) ∧
      ∃ layout, check tree (some .standard) ⟨"t.parquet"⟩ none rows = .ok layout := by
  intro rows table tree
  have hholds : ColumnType.int8.holds (.int 300) = true := by decide
  have hnot : ¬ ColumnType.int8.Stores (.int 300) :=
    fun hstores => absurd (hstores.2 300 rfl) (by decide)
  obtain ⟨-, hencode, hcheck⟩ :=
    @encode_iff_stores_and_check_iff_holds .int8 (by decide) "c" [.int 300]
  refine ⟨hholds, hencode.mpr ⟨.int 300, List.mem_singleton_self _, hnot⟩, ?_⟩
  refine (hcheck tree ⟨"t.parquet"⟩ table ⟨["c"], [[.text "1"]]⟩ rows none .standard (by decide)
    (by decide) (by decide) rfl).1.mpr ?_
  rintro ⟨column, index⟩ hcolumn type htype cell hcell
  obtain ⟨rfl, rfl⟩ := Prod.mk.inj (List.mem_singleton.mp hcolumn)
  obtain rfl : ColumnType.int8 = type := Option.some.inj htype
  obtain rfl : cell = .int 300 := by simpa [rows] using hcell
  exact hholds

end Columnar

end TableAppend
