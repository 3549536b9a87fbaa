import TableAppend.Proofs.Delimited.Rows
import TableAppend.Proofs.World.MediumWriting

/-!
# Files that come from writing

A file that was written from its beginning has a header and complete records, and so it has after every
addition.  What is read of it are the rows that were written, as they are stored.  The header has to
begin with something else than the character that is taken for a byte order mark.
-/

namespace TableAppend

/-! ## Byte order marks -/

namespace Utf8

/-- Bytes of text begin with one character only. -/
theorem eq_of_utf8EncodeChar_append {first second : Char} {left right : Bytes}
    (hsame : String.utf8EncodeChar first ++ left = String.utf8EncodeChar second ++ right) :
    first = second := by
  have hdecoded := congrArg (fun bytes => ByteArray.utf8DecodeChar? bytes.toByteArray 0) hsame
  simpa [List.toByteArray_append, ByteArray.utf8DecodeChar?_utf8EncodeChar_append] using hdecoded

theorem encode_eq_flatMap (text : String) :
    encode text = text.toList.flatMap String.utf8EncodeChar := by
  obtain ⟨chars, rfl⟩ : ∃ chars, text = String.ofList chars := ⟨text.toList, by simp⟩
  simp [encode, List.utf8Encode]

end Utf8

namespace Delimited

/-- The character whose bytes are a byte order mark. -/
def markChar : Char := '\ufeff'

theorem utf8EncodeChar_markChar : String.utf8EncodeChar markChar = byteOrderMark := by
  decide

theorem joinFields_cons (delimiter : UInt8) (field : Bytes) (rest : List Bytes) :
    joinFields delimiter (field :: rest) =
      field ++ if rest = [] then [] else delimiter :: joinFields delimiter rest := by
  cases rest <;> simp [joinFields]

/-- A record begins with a mark or with the bytes of its first field. -/
theorem exists_writeRecord_cons (marks : Marks) (field : Bytes) (fields : List Bytes) :
    ∃ rest, writeRecord marks (field :: fields) = marks.quote :: rest ∨
      writeRecord marks (field :: fields) = marks.delimiter :: rest ∨
        field ≠ [] ∧ writeRecord marks (field :: fields) = field ++ rest := by
  rw [writeRecord, List.map_cons, joinFields_cons]
  by_cases hspecial : field.any marks.isSpecial = true
  · rw [writeField, if_pos hspecial, quoteField]
    exact ⟨_, .inl rfl⟩
  · rw [writeField, if_neg hspecial]
    cases field with
    | nil =>
      cases fields with
      | nil => exact ⟨_, .inl rfl⟩
      | cons next others => exact ⟨_, .inr (.inl rfl)⟩
    | cons byte others =>
      rw [if_neg (by simp), List.append_assoc]
      exact ⟨_, .inr (.inr ⟨List.cons_ne_nil _ _, rfl⟩)⟩

/-- No mark begins a byte order mark. -/
theorem not_byteOrderMark_prefix_mark {mark : Char} (hsmall : mark.val < 128) (rest : Bytes) :
    ¬ byteOrderMark <+: mark.toUInt8 :: rest := by
  intro hbegins
  have hbyte : (0xEF : UInt8) = mark.toUInt8 := (List.cons_prefix_cons.mp hbegins).1
  have hless : mark.val.toNat < 128 := hsmall
  have hnumber : 0xEF = mark.val.toNat % 256 := congrArg UInt8.toNat hbyte
  omega

/-- What is written after a first name without that character does not begin with a byte order mark. -/
theorem isPrefixOf_byteOrderMark_writeRecord {dialect : Dialect} (hvalid : dialect.validate = .ok ())
    {name : String} (hname : name.toList.head? ≠ some markChar) (fields : List Bytes)
    (more : Bytes) :
    byteOrderMark.isPrefixOf (writeRecord (.ofDialect dialect) (Utf8.encode name :: fields) ++ more) =
      false := by
  obtain ⟨hdelimiter, hquote, -⟩ := Dialect.usable_of_validate hvalid
  rw [← Bool.not_eq_true, List.isPrefixOf_iff_prefix]
  obtain ⟨rest, hrecord | hrecord | ⟨hnonempty, hrecord⟩⟩ :=
    exists_writeRecord_cons (.ofDialect dialect) (Utf8.encode name) fields
  · rw [hrecord]
    exact not_byteOrderMark_prefix_mark (isLineBreak_of_usable hquote).1 _
  · rw [hrecord]
    exact not_byteOrderMark_prefix_mark (isLineBreak_of_usable hdelimiter).1 _
  · rw [hrecord, Utf8.encode_eq_flatMap]
    cases hchars : name.toList with
    | nil =>
      rw [Utf8.encode_eq_flatMap, hchars] at hnonempty
      exact absurd rfl hnonempty
    | cons first others =>
      rw [hchars] at hname
      rintro ⟨after, hbegins⟩
      rw [← utf8EncodeChar_markChar, List.flatMap_cons, List.append_assoc, List.append_assoc]
        at hbegins
      exact hname (congrArg some (Utf8.eq_of_utf8EncodeChar_append hbegins).symm)

/-! ## Written files -/

/-- A record of text has a name at least. -/
theorem names_ne_nil {marks : Marks} {bytes : Bytes} {record : RawRecord} {names : List String}
    (hrecord : record ∈ readRecords marks bytes)
    (hnames : record.fields.mapM Utf8.decode? = some names) : names ≠ [] := by
  rintro rfl
  refine fields_ne_nil_of_mem_readRecords hrecord ?_
  cases hfields : record.fields with
  | nil => rfl
  | cons field others =>
    rw [hfields, List.mapM_cons] at hnames
    cases hfield : Utf8.decode? field <;> cases hothers : others.mapM Utf8.decode? <;>
      simp [hfield, hothers] at hnames

/-- A file with a header and complete records, and the table that they make. -/
structure Keeps (dialect : Dialect) (bytes : Bytes) (table : Batch) : Prop where
  table : Tabulates (readRecords (.ofDialect dialect) bytes) table
  records : readRecords (.ofDialect dialect) bytes ≠ []
  quotes : endsInQuotes (.ofDialect dialect) bytes = false

/-- The first record that is read is the header, and the others are rows. -/
theorem tabulates_written {columns : List String} (hcolumns : columns.Nodup)
    {rows : List (List Cell)} (hwidths : ∀ row ∈ rows, row.length = columns.length)
    {added : List RawRecord}
    (hadded : added.map RawRecord.fields = columns.map Utf8.encode :: rows.map rowFields) :
    Tabulates added ⟨columns, rows.map (List.map Cell.stored)⟩ := by
  obtain ⟨header, records, rfl, hheader, hrecords⟩ := List.map_eq_cons_iff.mp hadded
  refine ⟨?_, hcolumns, forall₂_row?_rowFields hrecords hwidths⟩
  rw [hheader, mapM_decode?_encode]

theorem rowFields_ne_nil {columns : List String} (hcolumns : columns ≠ []) {row : List Cell}
    (hwidth : row.length = columns.length) : rowFields row ≠ [] := by
  have hpositive := List.length_pos_iff.mpr hcolumns
  rw [rowFields, ne_eq, List.map_eq_nil_iff, ← List.length_eq_zero_iff]
  omega

/-- A new file that does not begin with a byte order mark keeps the rows it is written with. -/
theorem keeps_of_unmarked {dialect : Dialect} (hvalid : dialect.validate = .ok ()) {rows : Batch}
    (hrows : rows.WellFormed) (hcolumns : rows.columns ≠ [])
    (hunmarked : byteOrderMark.isPrefixOf (newBytes dialect rows) = false) :
    Keeps dialect (newBytes dialect rows) ⟨rows.columns, rows.rows.map (List.map Cell.stored)⟩ := by
  have hbytes : newBytes dialect rows = writeRecords (.ofDialect dialect)
      (rows.columns.map Utf8.encode :: rows.rows.map rowFields) := rfl
  have hlines : ∀ line ∈ rows.columns.map Utf8.encode :: rows.rows.map rowFields, line ≠ [] := by
    intro line hline
    rcases List.mem_cons.mp hline with rfl | hline
    · simpa using hcolumns
    · obtain ⟨row, hrow, rfl⟩ := List.mem_map.mp hline
      exact rowFields_ne_nil hcolumns (hrows.2 row hrow)
  obtain ⟨last, place, added, hadded, hfeed⟩ :=
    Reader.feed_writeRecords (Marks.proper_ofDialect hvalid) hlines ⟨0, 1⟩ ⟨0, 1⟩ []
  have hafter : readerAfter (.ofDialect dialect) (newBytes dialect rows) =
      ⟨.between, [], [], last, place, added.reverse ++ []⟩ := by
    rw [readerAfter, openingOf, bodyOf, hunmarked, hbytes]
    exact hfeed
  have hrecords : readRecords (.ofDialect dialect) (newBytes dialect rows) = added := by
    rw [readRecords_eq, hafter]
    simp [Reader.finish]
  refine ⟨hrecords ▸ tabulates_written hrows.1 hrows.2 hadded, ?_, ?_⟩
  · rw [hrecords]
    rintro rfl
    cases hadded
  · rw [endsInQuotes, hafter]
    rfl

/-- A new file begins with a byte order mark only if the first name in its header does. -/
theorem unmarked_newBytes {dialect : Dialect} (hvalid : dialect.validate = .ok ()) {rows : Batch}
    (hcolumns : rows.columns ≠ [])
    (hmark : ∀ name ∈ rows.columns.head?, name.toList.head? ≠ some markChar) :
    byteOrderMark.isPrefixOf (newBytes dialect rows) = false := by
  rw [newBytes, writeHeader]
  cases hnames : rows.columns with
  | nil => exact absurd hnames hcolumns
  | cons name others =>
    exact isPrefixOf_byteOrderMark_writeRecord hvalid (hmark name (by simp [hnames])) _ _

theorem keeps_newBytes {dialect : Dialect} (hvalid : dialect.validate = .ok ()) {rows : Batch}
    (hrows : rows.WellFormed) (hcolumns : rows.columns ≠ [])
    (hmark : ∀ column ∈ rows.columns, column.toList.head? ≠ some markChar) :
    Keeps dialect (newBytes dialect rows) ⟨rows.columns, rows.rows.map (List.map Cell.stored)⟩ :=
  keeps_of_unmarked hvalid hrows hcolumns <|
    unmarked_newBytes hvalid hcolumns fun name hname => hmark name (List.mem_of_mem_head? hname)

/-- The header alone decides whether a new file begins with a byte order mark. -/
theorem isPrefixOf_byteOrderMark_newBytes (dialect : Dialect) (rows : Batch) :
    byteOrderMark.isPrefixOf (newBytes dialect rows) =
      byteOrderMark.isPrefixOf (writeHeader dialect rows.columns) := by
  rw [Bool.eq_iff_iff, List.isPrefixOf_iff_prefix, List.isPrefixOf_iff_prefix]
  refine ⟨fun hbegins => ?_, fun hbegins => hbegins.trans (List.prefix_append _ _)⟩
  refine (List.prefix_or_prefix_of_prefix hbegins (List.prefix_append _ _)).resolve_right ?_
  intro hshort
  have hend : lineFeed ∈ writeHeader dialect rows.columns := by
    simp [writeHeader, writeRecord]
  exact absurd (hshort.subset hend) (by decide)

namespace Keeps

variable {dialect : Dialect} {bytes : Bytes} {table : Batch} (hkeeps : Keeps dialect bytes table)

include hkeeps

theorem bytes_ne_nil : bytes ≠ [] := by
  rintro rfl
  exact hkeeps.records rfl

theorem columns_ne_nil : table.columns ≠ [] := by
  have htable := hkeeps.table
  cases hrecords : readRecords (.ofDialect dialect) bytes with
  | nil => exact absurd hrecords hkeeps.records
  | cons header records =>
    rw [hrecords] at htable
    exact @names_ne_nil (.ofDialect dialect) bytes header _ (by simp [hrecords]) htable.1

/-- Rows under the header are added after the others. -/
theorem added (hvalid : dialect.validate = .ok ()) {rows : List (List Cell)}
    (hwidths : ∀ row ∈ rows, row.length = table.columns.length) :
    Keeps dialect (addedBytes dialect bytes ⟨table.columns, rows⟩)
      ⟨table.columns, table.rows ++ rows.map (List.map Cell.stored)⟩ := by
  have hlines : ∀ line ∈ rows.map rowFields, line ≠ [] := by
    intro line hline
    obtain ⟨row, hrow, rfl⟩ := List.mem_map.mp hline
    exact rowFields_ne_nil hkeeps.columns_ne_nil (hwidths row hrow)
  obtain ⟨added, hadded, hall, hquotes⟩ := readRecords_added (Marks.proper_ofDialect hvalid)
    hkeeps.quotes hkeeps.bytes_ne_nil hlines
  refine ⟨?_, ?_, hquotes⟩
  · rw [addedBytes, writeRows, hall]
    exact hkeeps.table.append hkeeps.records (forall₂_row?_rowFields hadded hwidths)
  · rw [addedBytes, writeRows, hall]
    exact List.append_ne_nil_of_left_ne_nil hkeeps.records _

/-! ### Reading it -/

variable {tree : FileTree} {path : Path} (hbytes : tree.readBytes path = .ok bytes)
  {known : Option Metadata}

include hbytes

theorem readRows_eq {wanted : Dialect} (hknown : storedDialect wanted known = dialect) :
    readRows tree wanted path known = .ok table := by
  rw [readRows_eq_ok_iff hbytes, hknown]
  exact hkeeps.table

theorem countRows_eq {wanted : Dialect} (hknown : storedDialect wanted known = dialect) :
    countRows tree wanted path known = .ok table.rows.length := by
  have htable := hkeeps.table
  have hrecords : recordsOf tree path dialect = .ok (readRecords (.ofDialect dialect) bytes) := by
    rw [recordsOf, hbytes]
  rw [countRows, hknown, hrecords, Outcome.ok_bind]
  cases hall : readRecords (.ofDialect dialect) bytes with
  | nil => exact absurd hall hkeeps.records
  | cons header records =>
    rw [hall] at htable
    obtain ⟨-, -, hrows⟩ := htable
    obtain ⟨decoded, hdecoded⟩ : ∃ decoded, records.zipIdx.mapM (fun each =>
        if each.2 = 0 then each.1.decode 0 header.start
        else each.1.decode (each.2 + 1) each.1.start) = .ok decoded := by
      refine Outcome.exists_mapM fun each heach => ?_
      obtain ⟨row, -, hrow⟩ := Outcome.exists_of_forall₂ hrows.flip
        (List.fst_mem_of_mem_zipIdx heach)
      obtain ⟨fields, hfields, -⟩ := Option.map_eq_some_iff.mp hrow
      refine ⟨fields, ?_⟩
      split_ifs <;> exact RawRecord.decode_eq_ok_iff.mpr hfields
    dsimp only
    rw [hdecoded, Outcome.ok_bind, hrows.length_eq]
    rfl

theorem header?_eq : header? tree path dialect = .ok (some table.columns) := by
  have htable := hkeeps.table
  rw [header?_eq_some_iff hbytes]
  cases hall : readRecords (.ofDialect dialect) bytes with
  | nil => exact absurd hall hkeeps.records
  | cons header records =>
    rw [hall] at htable
    exact ⟨header, records, rfl, htable.1⟩

/-- A check finds the header, and that it has the wanted columns. -/
theorem check_eq_ok_iff (hmarks : checkMarks tree dialect path known = .ok ())
    {columns : List String} {layout : Layout} :
    check tree dialect path known columns = .ok layout ↔ layout = .ofColumns table.columns ∧
      table.columns.length = columns.length ∧ ∀ column ∈ columns, column ∈ table.columns := by
  have hheader := hkeeps.header?_eq hbytes
  rw [Delimited.check_eq_ok_iff, and_iff_right hmarks]
  constructor
  · rintro (⟨hnone, -⟩ | ⟨header, hfound, hlength, hcontained, rfl⟩)
    · exact absurd (hheader.symm.trans hnone) (by simp)
    · obtain rfl := Option.some.inj (Except.ok.inj (hheader.symm.trans hfound))
      exact ⟨rfl, hlength, hcontained⟩
  · rintro ⟨rfl, hlength, hcontained⟩
    exact .inr ⟨table.columns, hheader, hlength, hcontained, rfl⟩

end Keeps

/-! ## Recorded marks -/

theorem checkMarks_metadataOf (tree : FileTree) (dialect : Dialect) (path : Path) :
    checkMarks tree dialect path (some (metadataOf dialect)) = .ok () :=
  if_pos ⟨rfl, rfl⟩

/-- Recorded marks are those that a file is read in, whatever marks are wanted. -/
theorem storedDialect_recorded {dialect wanted : Dialect} (hvalid : dialect.validate = .ok ()) :
    storedDialect wanted (some (metadataOf dialect)) = dialect := by
  obtain ⟨hdelimiter, hquote, -⟩ := Dialect.usable_of_validate hvalid
  rw [metadataOf, storedDialect, storedMark?_toString (isLineBreak_of_usable hdelimiter).1,
    storedMark?_toString (isLineBreak_of_usable hquote).1]

theorem storedDialect_metadataOf {dialect : Dialect} (hvalid : dialect.validate = .ok ()) :
    storedDialect dialect (some (metadataOf dialect)) = dialect :=
  storedDialect_recorded hvalid

/-- Recorded marks that a check accepts are the wanted ones. -/
theorem eq_of_checkMarks {dialect recorded : Dialect} (hvalid : dialect.validate = .ok ())
    (hrecorded : recorded.validate = .ok ()) {tree : FileTree} {path : Path}
    (hmarks : checkMarks tree dialect path (some (metadataOf recorded)) = .ok ()) :
    recorded = dialect :=
  (storedDialect_recorded hrecorded).symm.trans (storedDialect_of_checkMarks hvalid hmarks)

end Delimited

end TableAppend
