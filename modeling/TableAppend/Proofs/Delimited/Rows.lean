import TableAppend.Proofs.Batch
import TableAppend.Proofs.Delimited.Additions
import TableAppend.Proofs.World.Reading

/-!
# Rows of a delimited file

The records of a file are a header and rows under it.  A row that is written under the header of a file
is read back as it is stored: every cell as its canonical text, and the empty text as null.
-/

namespace TableAppend

/-! ## Stored cells -/

/-- A cell as it is read back from a delimited file. -/
def Cell.stored (cell : Cell) : Cell :=
  if cell = .text "" then .null else .ofText? cell.canonical?

/-- There is a digit before the decimal point. -/
theorem Double.positional_fst_ne_nil (decimal : Decimal) : (positional decimal).1 ≠ [] := by
  have hdigits : Nat.toDigits 10 decimal.digits ≠ [] := Nat.toDigits_ne_nil
  rw [positional]
  cases decimal.exponent with
  | ofNat zeros => simp [hdigits]
  | negSucc k =>
    dsimp only
    split_ifs with hplaces
    · exact List.cons_ne_nil _ _
    · simp only [ne_eq, List.take_eq_nil_iff, hdigits, or_false]
      omega

theorem Double.plain_ne_empty (x : Double) : x.plain ≠ "" := by
  have hmagnitude : x.plainMagnitude ≠ [] := by
    rw [plainMagnitude]
    split_ifs
    · decide
    · exact List.cons_ne_nil _ _
    · dsimp only
      split_ifs
      · exact positional_fst_ne_nil _
      · simp
  rw [plain]
  split_ifs
  · decide
  all_goals
    intro hempty
    have hlist := congrArg String.toList hempty
    simp [hmagnitude] at hlist

/-- Only the empty text is written without a character, and null. -/
theorem Cell.canonical?_ne_some_empty {cell : Cell} (hcell : cell ≠ .text "") :
    cell.canonical? ≠ some "" := by
  have hnat : ∀ n : ℕ, Nat.repr n ≠ "" := by
    intro n hempty
    have hlist := congrArg String.toList hempty
    simp [Nat.repr, Nat.toDigits_ne_nil] at hlist
  have hint : ∀ n : ℤ, toString n ≠ "" := by
    intro n hempty
    cases n with
    | ofNat n => exact hnat n hempty
    | negSucc n =>
      have hlist := congrArg String.toList hempty
      simp [Int.toString_eq_repr, Int.repr] at hlist
  cases cell with
  | null => simp [canonical?]
  | bool value => cases value <;> decide
  | int value => simpa [canonical?] using hint value.toInt
  | double value =>
    rw [canonical?]
    split
    · simpa using hint _
    · simpa using Double.plain_ne_empty value
  | text value =>
    intro hempty
    exact hcell (congrArg Cell.text (Option.some.inj hempty))

/-- A field is read as the cell that was stored in it. -/
theorem Cell.ofField_fieldText (cell : Cell) : ofField cell.fieldText = cell.stored := by
  by_cases hcell : cell = .text ""
  · rw [hcell]
    rfl
  · rw [stored, if_neg hcell, fieldText, ofField]
    have hne := canonical?_ne_some_empty hcell
    cases hcanonical : cell.canonical? with
    | none => rfl
    | some text =>
      rw [hcanonical] at hne
      rw [Option.getD_some, if_neg fun h => hne (congrArg some h), ofText?]

/-! ## Marks -/

theorem Dialect.usable_of_validate {dialect : Dialect} 
    (hvalid : dialect.validate = .ok ()) :
    isUsableMark dialect.delimiter = true ∧ isUsableMark dialect.quote = true ∧
      dialect.delimiter ≠ dialect.quote := by
  rw [validate] at hvalid
  split_ifs at hvalid with hdelimiter hquote hsame
  exact ⟨by simpa using hdelimiter, by simpa using hquote, hsame⟩

namespace Delimited

/-- Usable marks are known by their bytes. -/
theorem eq_of_toUInt8_eq {left right : Char} (hleft : left.val < 128) (hright : right.val < 128)
    (hbyte : left.toUInt8 = right.toUInt8) : left = right := by
  have hnat := congrArg UInt8.toNat hbyte
  rw [UInt32.lt_iff_toNat_lt] at hleft hright
  simp only [Char.toUInt8, UInt32.toNat_toUInt8] at hnat
  have hsmall : (128 : UInt32).toNat = 128 := rfl
  exact Char.ext (UInt32.toNat_inj.mp (by omega))

theorem isLineBreak_of_usable {mark : Char} (husable : Dialect.isUsableMark mark = true) :
    mark.val < 128 ∧ Reader.isLineBreak mark.toUInt8 = false := by
  simp only [Dialect.isUsableMark, Bool.and_eq_true, decide_eq_true_eq] at husable
  obtain ⟨⟨hsmall, hfeed⟩, hreturn⟩ := husable
  refine ⟨hsmall, ?_⟩
  rw [Reader.isLineBreak, Bool.or_eq_false_iff, decide_eq_false_iff_not, decide_eq_false_iff_not]
  exact ⟨fun h => hfeed (eq_of_toUInt8_eq hsmall (by decide) h),
    fun h => hreturn (eq_of_toUInt8_eq hsmall (by decide) h)⟩

theorem Marks.proper_ofDialect {dialect : Dialect} (hvalid : dialect.validate = .ok ()) :
    (Marks.ofDialect dialect).Proper := by
  obtain ⟨hdelimiter, hquote, hne⟩ := Dialect.usable_of_validate hvalid
  obtain ⟨hdelimiterSmall, hdelimiterBreak⟩ := isLineBreak_of_usable hdelimiter
  obtain ⟨hquoteSmall, hquoteBreak⟩ := isLineBreak_of_usable hquote
  exact ⟨fun h => hne (eq_of_toUInt8_eq hdelimiterSmall hquoteSmall h), hdelimiterBreak, hquoteBreak⟩

theorem storedMark?_toString {mark : Char} (hsmall : mark.val < 128) :
    storedMark? mark.toString = some mark := by
  rw [storedMark?, Char.toString, String.toList_singleton]
  exact if_pos hsmall

/-- A file whose recorded or unrecorded marks are the wanted ones is read with these. -/
theorem storedDialect_of_checkMarks {dialect : Dialect} (hvalid : dialect.validate = .ok ())
    {tree : FileTree} {path : Path} {metadata : Option Metadata}
    (hmarks : checkMarks tree dialect path metadata = .ok ()) :
    storedDialect dialect metadata = dialect := by
  obtain ⟨hdelimiter, hquote, -⟩ := Dialect.usable_of_validate hvalid
  cases metadata with
  | none => rfl
  | some recorded =>
    cases recorded with
    | columnar count => rfl
    | delimited delimiter quote =>
      rw [checkMarks] at hmarks
      split_ifs at hmarks with hsame
      obtain ⟨rfl, rfl⟩ := hsame
      rw [storedDialect, storedMark?_toString (isLineBreak_of_usable hdelimiter).1,
        storedMark?_toString (isLineBreak_of_usable hquote).1]

/-! ## Records as rows -/

/-- A record as a row, if it is text. -/
def RawRecord.row? (width : ℕ) (record : RawRecord) : Option (List Cell) :=
  (record.fields.mapM Utf8.decode?).map (rowOfFields width)

theorem RawRecord.decode_eq_ok_iff {record : RawRecord} {number : ℕ} {start : Position}
    {fields : List String} :
    record.decode number start = .ok fields ↔ record.fields.mapM Utf8.decode? = some fields := by
  rw [decode]
  cases record.fields.mapM Utf8.decode? with
  | none => simp
  | some found => simp

theorem length_rowOfFields (width : ℕ) (fields : List String) :
    (rowOfFields width fields).length = width := by
  simp only [rowOfFields, List.length_append, List.length_map, List.length_take,
    List.length_replicate]
  omega

theorem RawRecord.length_of_row? {record : RawRecord} {width : ℕ} {row : List Cell}
    (hrow : record.row? width = some row) : row.length = width := by
  obtain ⟨fields, -, rfl⟩ := Option.map_eq_some_iff.mp hrow
  exact length_rowOfFields width fields

/-- Records as a table: a header of distinct names and rows of text under it. -/
def Tabulates : List RawRecord → Batch → Prop
  | [], table => table = ⟨[], []⟩
  | header :: records, table =>
    header.fields.mapM Utf8.decode? = some table.columns ∧ table.columns.Nodup ∧
      List.Forall₂ (fun record row => record.row? table.columns.length = some row) records table.rows

theorem forall₂_zipIdx_iff {α β : Type} {relation : α → β → Prop} {items : List α}
    {results : List β} :
    List.Forall₂ (fun (item : α × ℕ) result => relation item.1 result) items.zipIdx results ↔
      List.Forall₂ relation items results := by
  rw [← List.forall₂_map_left_iff, List.zipIdx_map_fst]

theorem readRows_eq_ok_iff {tree : FileTree} {path : Path} {bytes : Bytes}
    (hbytes : tree.readBytes path = .ok bytes) {dialect : Dialect} {metadata : Option Metadata}
    {table : Batch} :
    readRows tree dialect path metadata = .ok table ↔
      Tabulates (readRecords (.ofDialect (storedDialect dialect metadata)) bytes) table := by
  rw [readRows, recordsOf, hbytes]
  dsimp only
  rw [Outcome.ok_bind]
  cases readRecords (.ofDialect (storedDialect dialect metadata)) bytes with
  | nil =>
    dsimp only
    rw [Batch.ofRows_eq_ok_iff, Tabulates]
    refine ⟨fun h => h.2, ?_⟩
    rintro rfl
    exact ⟨⟨List.nodup_nil, by simp⟩, rfl⟩
  | cons header records =>
    dsimp only
    simp only [Outcome.bind_eq_ok_iff, Outcome.mapM_eq_ok_iff, RawRecord.decode_eq_ok_iff,
      Batch.ofRows_eq_ok_iff, Outcome.pure_eq_ok, Except.ok.injEq]
    have hrow : ∀ (width : ℕ) (item : RawRecord × ℕ) (row : List Cell),
        (∃ fields, item.1.fields.mapM Utf8.decode? = some fields ∧ rowOfFields width fields = row) ↔
          item.1.row? width = some row := by
      intro width item row
      rw [RawRecord.row?, Option.map_eq_some_iff]
    constructor
    · rintro ⟨columns, hheader, rows, hrows, ⟨hcolumns, -⟩, rfl⟩
      refine ⟨hheader, hcolumns, forall₂_zipIdx_iff.mp ?_⟩
      exact hrows.imp fun item row => (hrow columns.length item row).mp
    · rintro ⟨hheader, hcolumns, hrows⟩
      refine ⟨table.columns, hheader, table.rows, ?_, ⟨hcolumns, ?_⟩, rfl⟩
      · exact (forall₂_zipIdx_iff.mpr hrows).imp fun item row => (hrow _ item row).mpr
      · intro row hmem
        obtain ⟨record, -, hrecord⟩ := Outcome.exists_of_forall₂ hrows hmem
        exact RawRecord.length_of_row? hrecord

section Headers

variable {tree : FileTree} {path : Path} {bytes : Bytes} (hbytes : tree.readBytes path = .ok bytes)
  {dialect : Dialect}

include hbytes

theorem header?_eq_some_iff {header : List String} :
    header? tree path dialect = .ok (some header) ↔
      ∃ first rest, readRecords (.ofDialect dialect) bytes = first :: rest ∧
        first.fields.mapM Utf8.decode? = some header := by
  rw [header?, recordsOf, hbytes]
  dsimp only
  rw [Outcome.ok_bind]
  cases readRecords (.ofDialect dialect) bytes with
  | nil => simp
  | cons first rest => simp [Outcome.map_eq_ok_iff, RawRecord.decode_eq_ok_iff]

/-- A check that finds columns finds those of the header. -/
theorem check_eq_ofColumns_iff {metadata : Option Metadata} {columns header : List String} :
    check tree dialect path metadata columns = .ok (.ofColumns header) ↔
      checkMarks tree dialect path metadata = .ok () ∧
        (∃ first rest, readRecords (.ofDialect dialect) bytes = first :: rest ∧
          first.fields.mapM Utf8.decode? = some header) ∧
        header.length = columns.length ∧ ∀ column ∈ columns, column ∈ header := by
  rw [check_eq_ok_iff, ← header?_eq_some_iff hbytes]
  refine and_congr_right fun _ => ?_
  constructor
  · rintro (⟨-, hnew⟩ | ⟨found, hfound, hlength, hcontained, hlayout⟩)
    · exact absurd hnew (by simp [Layout.new, Layout.ofColumns])
    · obtain rfl : header = found := by simpa [Layout.ofColumns] using hlayout
      exact ⟨hfound, hlength, hcontained⟩
  · rintro ⟨hfound, hlength, hcontained⟩
    exact .inr ⟨header, hfound, hlength, hcontained, rfl⟩

end Headers

/-! ## Added rows -/

namespace Tabulates

variable {records added : List RawRecord} {table : Batch}

theorem append (htable : Tabulates records table) (hrecords : records ≠ [])
    {rows : List (List Cell)}
    (hrows : List.Forall₂ (fun record row => record.row? table.columns.length = some row) added
      rows) :
    Tabulates (records ++ added) ⟨table.columns, table.rows ++ rows⟩ := by
  cases records with
  | nil => exact absurd rfl hrecords
  | cons header records =>
    obtain ⟨hheader, hcolumns, hbefore⟩ := htable
    exact ⟨hheader, hcolumns, List.rel_append hbefore hrows⟩

theorem nodup (htable : Tabulates records table) : table.columns.Nodup := by
  cases records with
  | nil =>
    obtain rfl : table = ⟨[], []⟩ := htable
    exact List.nodup_nil
  | cons header records => exact htable.2.1

theorem length_eq (htable : Tabulates records table) (hrecords : records ≠ []) :
    records.length = table.rows.length + 1 := by
  cases records with
  | nil => exact absurd rfl hrecords
  | cons header records =>
    rw [List.length_cons, htable.2.2.length_eq]

end Tabulates

theorem mapM_decode?_encode (texts : List String) :
    (texts.map Utf8.encode).mapM Utf8.decode? = some texts := by
  induction texts with
  | nil => rfl
  | cons text rest ih => simp [ih]

/-- A written row is read as it is stored. -/
theorem row?_rowFields {record : RawRecord} {row : List Cell} (hfields : record.fields = rowFields row)
    {width : ℕ} (hwidth : row.length = width) :
    record.row? width = some (row.map Cell.stored) := by
  have htexts : rowFields row = (row.map Cell.fieldText).map Utf8.encode := by
    rw [rowFields, List.map_map]
    rfl
  rw [RawRecord.row?, hfields, htexts, mapM_decode?_encode, Option.map_some, rowOfFields,
    List.take_of_length_le (by simp [hwidth])]
  simp [hwidth, Function.comp_def, Cell.ofField_fieldText]

theorem forall₂_row?_rowFields {added : List RawRecord} {rows : List (List Cell)}
    (hadded : added.map RawRecord.fields = rows.map rowFields) {width : ℕ}
    (hwidths : ∀ row ∈ rows, row.length = width) :
    List.Forall₂ (fun record row => record.row? width = some row) added
      (rows.map (List.map Cell.stored)) := by
  induction rows generalizing added with
  | nil =>
    rw [List.map_nil, List.map_eq_nil_iff] at hadded
    rw [hadded]
    exact .nil
  | cons row rows ih =>
    obtain ⟨record, rest, rfl, hrecord, hrest⟩ := List.map_eq_cons_iff.mp hadded
    exact .cons (row?_rowFields hrecord (hwidths row List.mem_cons_self))
      (ih hrest fun other hother => hwidths other (List.mem_cons_of_mem _ hother))

end Delimited

end TableAppend
