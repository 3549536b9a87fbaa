import TableAppend.Proofs.Delimited.Keeping

/-!
# Rows written in parts

A file to which rows have been added begins with the same header as before.  Rows that are written in
two parts are therefore written under one header, and the file has the bytes it would have if they had
been written at once.  It does not matter what the file held: what was added once is read back, or the
second part would not have been accepted.
-/

namespace TableAppend.Delimited

variable {marks : Marks} {dialect : Dialect}

/-! ## What has been read stays -/

namespace Reader

variable {reader : Reader} {fields : List Bytes}

/-- The first record begins with some fields, whether or not it is complete. -/
def Begins (reader : Reader) (fields : List Bytes) : Prop :=
  (∃ first, reader.records.getLast? = some first ∧ fields <+: first.fields) ∨
    reader.records = [] ∧ reader.mode ≠ .between ∧ fields <+: reader.fields.reverse

theorem begins_of_record {first : RawRecord} (hfirst : reader.records.getLast? = some first)
    (hfields : fields <+: first.fields) : reader.Begins fields :=
  .inl ⟨first, hfirst, hfields⟩

variable (marks)

theorem records_takeOutside (reader : Reader) (byte : UInt8) :
    (takeOutside marks reader byte).records = reader.records ∨
      ∃ record, (takeOutside marks reader byte).records = record :: reader.records := by
  rw [takeOutside]
  split
  · exact .inl rfl
  · split
    · exact .inr ⟨_, rfl⟩
    · exact .inl rfl

theorem records_takeAtStart (reader : Reader) (byte : UInt8) :
    (takeAtStart marks reader byte).records = reader.records ∨
      ∃ record, (takeAtStart marks reader byte).records = record :: reader.records := by
  rw [takeAtStart]
  split
  · exact .inl rfl
  · exact records_takeOutside marks reader byte

/-- Records are only added. -/
theorem records_step (reader : Reader) (byte : UInt8) :
    (reader.step marks byte).records = reader.records ∨
      ∃ record, (reader.step marks byte).records = record :: reader.records := by
  rw [step, take]
  split
  · split
    · exact .inl rfl
    · exact records_takeAtStart marks _ byte
  · exact records_takeAtStart marks _ byte
  · exact records_takeOutside marks _ byte
  · split <;> exact .inl rfl
  · split
    · exact .inl rfl
    · exact records_takeOutside marks _ byte

variable {marks}

namespace Begins

theorem takeOutside (reader : Reader) (hrecords : reader.records = [])
    (hfields : fields <+: reader.fields.reverse) (byte : UInt8) :
    (takeOutside marks reader byte).Begins fields := by
  rw [Reader.takeOutside]
  split
  · refine .inr ⟨hrecords, by simp [endField], ?_⟩
    rw [endField, List.reverse_cons]
    exact hfields.trans (List.prefix_append _ _)
  · split
    · refine .inl ⟨⟨reader.endField.fields.reverse, reader.start⟩, ?_, ?_⟩
      · rw [endRecord, hrecords]
        rfl
      · rw [endField, List.reverse_cons]
        exact hfields.trans (List.prefix_append _ _)
    · exact .inr ⟨hrecords, by simp [push], hfields⟩

theorem takeAtStart (reader : Reader) (hrecords : reader.records = [])
    (hfields : fields <+: reader.fields.reverse) (byte : UInt8) :
    (takeAtStart marks reader byte).Begins fields := by
  rw [Reader.takeAtStart]
  split
  · exact .inr ⟨hrecords, by simp, hfields⟩
  · exact takeOutside reader hrecords hfields byte

theorem step (hbegins : reader.Begins fields) (byte : UInt8) :
    (reader.step marks byte).Begins fields := by
  rcases hbegins with ⟨first, hfirst, hfields⟩ | ⟨hrecords, hmode, hfields⟩
  · refine .inl ⟨first, ?_, hfields⟩
    rcases records_step marks reader byte with hsame | ⟨record, hmore⟩
    · rw [hsame, hfirst]
    · rw [hmore, List.getLast?_cons, hfirst]
      rfl
  · rw [Reader.step, take]
    split
    · contradiction
    · exact takeAtStart (reader.advance byte) hrecords hfields byte
    · exact takeOutside (reader.advance byte) hrecords hfields byte
    · split
      · exact .inr ⟨hrecords, by simp, hfields⟩
      · exact .inr ⟨hrecords, by simp [push], hfields⟩
    · split
      · exact .inr ⟨hrecords, by simp [push], hfields⟩
      · exact takeOutside (reader.advance byte) hrecords hfields byte

theorem feed (hbegins : reader.Begins fields) (bytes : Bytes) :
    (reader.feed marks bytes).Begins fields := by
  induction bytes generalizing reader with
  | nil => exact hbegins
  | cons byte rest ih => exact ih (hbegins.step byte)

/-- At the end the first record is complete. -/
theorem finish (hbegins : reader.Begins fields) :
    ∃ first rest, reader.finish = first :: rest ∧ fields <+: first.fields := by
  have hlast {records : List RawRecord} {first : RawRecord}
      (hfirst : records.getLast? = some first) : ∃ rest, records.reverse = first :: rest := by
    obtain ⟨init, rfl⟩ := List.getLast?_eq_some_iff.mp hfirst
    exact ⟨init.reverse, by simp⟩
  rcases hbegins with ⟨first, hfirst, hfields⟩ | ⟨hrecords, hmode, hfields⟩
  · rw [Reader.finish]
    split
    · obtain ⟨rest, hrest⟩ := hlast hfirst
      exact ⟨first, rest, hrest, hfields⟩
    · have hstill : reader.endRecord.records.getLast? = some first := by
        rw [endRecord, List.getLast?_cons, hfirst]
        rfl
      obtain ⟨rest, hrest⟩ := hlast hstill
      exact ⟨first, rest, hrest, hfields⟩
  · rw [Reader.finish]
    split
    · contradiction
    · refine ⟨⟨reader.endField.fields.reverse, reader.start⟩, [], ?_, ?_⟩
      · rw [endRecord, hrecords]
        rfl
      · rw [endField, List.reverse_cons]
        exact hfields.trans (List.prefix_append _ _)

end Begins

/-- All fields of the first record but the last one are complete. -/
theorem begins_of_finish {first : RawRecord} {rest : List RawRecord}
    (hfinish : reader.finish = first :: rest) : reader.Begins first.fields.dropLast := by
  have hlast {records : List RawRecord} (hrecords : records.reverse = first :: rest) :
      records.getLast? = some first := by
    rw [List.getLast?_eq_head?_reverse, hrecords]
    rfl
  rw [Reader.finish] at hfinish
  split at hfinish
  · exact begins_of_record (hlast hfinish) (List.dropLast_prefix _)
  · rename_i hmode
    have hend := hlast hfinish
    cases hrecords : reader.records with
    | nil =>
      rw [endRecord, hrecords] at hend
      have hfirst : first.fields = reader.fields.reverse ++ [reader.field.reverse] := by
        rw [← Option.some.inj hend, ← List.reverse_cons]
        rfl
      refine .inr ⟨hrecords, hmode, ?_⟩
      rw [hfirst, List.dropLast_concat]
    | cons record others =>
      rw [endRecord, hrecords, List.getLast?_cons_cons, ← hrecords] at hend
      exact begins_of_record hend (List.dropLast_prefix _)

/-- A written record is a record at last, wherever the reader stands. -/
theorem begins_feed_writeRecord (hmarks : marks.Proper) (htidy : reader.Tidy) {written : List Bytes}
    (hwritten : written ≠ []) : (reader.feed marks (writeRecord marks written)).Begins [] := by
  by_cases hrecords : reader.records = []
  · by_cases hmode : reader.mode = .between
    · obtain ⟨hfield, hfields⟩ := htidy.between hmode
      obtain ⟨mode, field, fields, start, here, records⟩ := reader
      dsimp only at hrecords hmode hfield hfields
      subst hrecords hmode hfield hfields
      rw [feed_writeRecord hmarks hwritten]
      exact begins_of_record rfl List.nil_prefix
    · exact Begins.feed (.inr ⟨hrecords, hmode, List.nil_prefix⟩) _
  · obtain ⟨first, hfirst⟩ := Option.ne_none_iff_exists'.mp
      (mt List.getLast?_eq_none_iff.mp hrecords)
    exact Begins.feed (begins_of_record hfirst List.nil_prefix) _

end Reader

/-! ## Headers -/

/-- The names in the first record of a file. -/
def HeaderOf (dialect : Dialect) (bytes : Bytes) (header : List String) : Prop :=
  ∃ first rest, readRecords (.ofDialect dialect) bytes = first :: rest ∧
    first.fields.mapM Utf8.decode? = some header

variable {bytes more old mid new : Bytes} {header columns : List String}

theorem HeaderOf.unique {other : List String} (hheader : HeaderOf dialect bytes header)
    (hother : HeaderOf dialect bytes other) : other = header := by
  obtain ⟨first, rest, hrecords, hnames⟩ := hheader
  obtain ⟨again, others, hsame, hothers⟩ := hother
  obtain ⟨rfl, -⟩ := List.cons.inj (hrecords.symm.trans hsame)
  exact Option.some.inj (hothers.symm.trans hnames)

theorem HeaderOf.records_ne_nil (hheader : HeaderOf dialect bytes header) :
    readRecords (.ofDialect dialect) bytes ≠ [] := by
  obtain ⟨first, rest, hrecords, -⟩ := hheader
  exact hrecords ▸ List.cons_ne_nil first rest

theorem HeaderOf.bytes_ne_nil (hheader : HeaderOf dialect bytes header) : bytes ≠ [] := by
  rintro rfl
  exact hheader.records_ne_nil rfl

/-- The fields of a record are the bytes of its names. -/
theorem mapM_decode?_eq_some_iff {fields : List Bytes} {names : List String} :
    fields.mapM Utf8.decode? = some names ↔ fields.map Utf8.decode? = names.map some := by
  induction fields generalizing names with
  | nil => cases names <;> simp
  | cons field rest ih =>
    cases names with
    | nil =>
      cases hfield : Utf8.decode? field <;> cases hrest : rest.mapM Utf8.decode? <;>
        simp [List.mapM_cons, hfield, hrest]
    | cons name others =>
      have hothers := @ih others
      cases hfield : Utf8.decode? field <;> cases hrest : rest.mapM Utf8.decode? <;>
        simp_all [List.mapM_cons]

theorem names_begin {fields others : List Bytes} {names found : List String}
    (hnames : fields.map Utf8.decode? = names.map some)
    (hfound : others.map Utf8.decode? = found.map some) (hbegin : fields <+: others) :
    names <+: found := by
  have hmapped := hbegin.map Utf8.decode?
  rw [hnames, hfound] at hmapped
  obtain ⟨rest, hrest⟩ := hmapped
  obtain ⟨left, right, rfl, hleft, -⟩ := List.append_eq_map_iff.mp hrest
  exact (List.map_injective_iff.mpr (Option.some_injective _) hleft) ▸ List.prefix_append _ _

/-- Two orders of the same names differ in more than the last one. -/
theorem eq_of_dropLast_prefix {other : List String} (hheader : header.Perm columns)
    (hother : other.Perm columns) (hbegin : header.dropLast <+: other) : other = header := by
  have hsame := hother.trans hheader.symm
  rcases List.eq_nil_or_concat header with rfl | ⟨init, last, rfl⟩
  · exact hsame.eq_nil
  · rw [List.concat_eq_append] at hsame hbegin ⊢
    rw [List.dropLast_concat] at hbegin
    obtain ⟨rest, rfl⟩ := hbegin
    rw [List.perm_append_left_iff, List.perm_singleton] at hsame
    rw [hsame]

/-- The header of a file stays where bytes are added, as long as it has the same names. -/
theorem HeaderOf.of_added {other : List String} (hheader : HeaderOf dialect bytes header)
    (hnames : header.Perm columns)
    (hother : HeaderOf dialect (bytes ++ (missingLineEnd bytes ++ more)) other)
    (hothers : other.Perm columns) : other = header := by
  obtain ⟨first, rest, hrecords, hfirst⟩ := id hheader
  obtain ⟨again, others, hadded, hagain⟩ := hother
  rw [readRecords_eq] at hrecords
  rw [readRecords_eq, readerAfter_added hheader.bytes_ne_nil] at hadded
  obtain ⟨kept, tail, hkept, hbegin⟩ :=
    ((Reader.begins_of_finish hrecords).feed (missingLineEnd bytes ++ more)).finish
  obtain ⟨rfl, -⟩ := List.cons.inj (hkept.symm.trans hadded)
  rw [mapM_decode?_eq_some_iff] at hfirst hagain
  refine eq_of_dropLast_prefix hnames hothers (names_begin ?_ hagain hbegin)
  rw [List.map_dropLast, hfirst, List.map_dropLast]

theorem HeaderOf.records_added (hheader : HeaderOf dialect bytes header) :
    readRecords (.ofDialect dialect) (bytes ++ (missingLineEnd bytes ++ more)) ≠ [] := by
  obtain ⟨first, rest, hrecords, -⟩ := id hheader
  rw [readRecords_eq] at hrecords
  rw [readRecords_eq, readerAfter_added hheader.bytes_ne_nil]
  obtain ⟨kept, tail, hkept, -⟩ :=
    ((Reader.begins_of_finish hrecords).feed (missingLineEnd bytes ++ more)).finish
  exact hkept ▸ List.cons_ne_nil kept tail

/-! ## Ends of lines -/

theorem missingLineEnd_concat (before : Bytes) : missingLineEnd (before ++ [lineFeed]) = [] := by
  simp [missingLineEnd]

theorem missingLineEnd_writeHeader (dialect : Dialect) (columns : List String) :
    missingLineEnd (writeHeader dialect columns) = [] :=
  missingLineEnd_concat _

theorem writeHeader_ne_nil (dialect : Dialect) (columns : List String) :
    writeHeader dialect columns ≠ [] :=
  List.append_ne_nil_of_right_ne_nil _ (List.cons_ne_nil _ _)

theorem missingLineEnd_writeRows (before : Bytes) {rows : Batch} (hrows : rows.rows ≠ []) :
    missingLineEnd (before ++ writeRows dialect rows) = [] := by
  obtain ⟨init, last, hconcat⟩ := (List.eq_nil_or_concat rows.rows).resolve_left hrows
  rw [writeRows, hconcat, List.concat_eq_append, List.map_append, writeRecords, List.flatMap_append,
    List.map_singleton, List.flatMap_singleton, writeRecord, ← List.append_assoc, ← List.append_assoc]
  exact missingLineEnd_concat _

theorem writeRows_append (dialect : Dialect) (columns : List String)
    (first second : List (List Cell)) :
    writeRows dialect ⟨columns, first ++ second⟩ =
      writeRows dialect ⟨columns, first⟩ ++ writeRows dialect ⟨columns, second⟩ := by
  simp [writeRows, writeRecords]

/-! ## New files -/

theorem readerAfter_newBytes (dialect : Dialect) (rows : Batch) :
    readerAfter marks (newBytes dialect rows) =
      (readerAfter marks (writeHeader dialect rows.columns)).feed marks (writeRows dialect rows) := by
  have hadded := @readerAfter_added marks _ (writeHeader_ne_nil dialect rows.columns)
    (writeRows dialect rows)
  rwa [missingLineEnd_writeHeader] at hadded

/-- A new file is not read as empty, even if its header is. -/
theorem readRecords_newBytes_ne_nil (hvalid : dialect.validate = .ok ()) {rows : Batch}
    (hrows : rows.rows ≠ []) : readRecords (.ofDialect dialect) (newBytes dialect rows) ≠ [] := by
  obtain ⟨row, others, hothers⟩ := List.exists_cons_of_ne_nil hrows
  have hsame : ∃ written ≠ [], writeRecord (.ofDialect dialect) (rowFields row) =
      writeRecord (.ofDialect dialect) written := by
    cases hfields : rowFields row with
    | nil => exact ⟨[[]], List.cons_ne_nil _ _, rfl⟩
    | cons field rest => exact ⟨_, List.cons_ne_nil field rest, rfl⟩
  obtain ⟨written, hwritten, hwrites⟩ := hsame
  have hbegins := Reader.begins_feed_writeRecord (Marks.proper_ofDialect hvalid)
    (tidy_readerAfter (.ofDialect dialect) (writeHeader dialect rows.columns)) hwritten
  obtain ⟨first, rest, hfinish, -⟩ :=
    (hbegins.feed (writeRecords (.ofDialect dialect) (others.map rowFields))).finish
  rw [readRecords_eq, readerAfter_newBytes, writeRows, hothers, List.map_cons, writeRecords,
    List.flatMap_cons, Reader.feed_append, hwrites]
  exact hfinish ▸ List.cons_ne_nil first rest

/-- What is written of a name that is no mark's. -/
theorem any_isSpecial_of_marked (hvalid : dialect.validate = .ok ()) {field : Bytes}
    {fields : List Bytes} (hmarked : byteOrderMark <+: writeRecord (.ofDialect dialect) (field :: fields)) :
    field.any (Marks.ofDialect dialect).isSpecial = false := by
  rw [← Bool.not_eq_true]
  intro hspecial
  rw [writeRecord, List.map_cons, joinFields_cons, writeField, if_pos hspecial, quoteField] at hmarked
  exact not_byteOrderMark_prefix_mark
    (isLineBreak_of_usable (Dialect.usable_of_validate hvalid).2.1).1 _ hmarked

/-- Behind a byte order mark a header of more than one name goes on as a header with a shorter one. -/
theorem exists_writeHeader_of_marked (hvalid : dialect.validate = .ok ()) {name second : String}
    {others : List String}
    (hmarked : byteOrderMark <+: writeHeader dialect (name :: second :: others)) :
    ∃ field, writeHeader dialect (name :: second :: others) = byteOrderMark ++
      writeRecord (.ofDialect dialect) (field :: (second :: others).map Utf8.encode) := by
  -- The name begins with the character that is taken for the mark.
  obtain ⟨chars, hchars⟩ : ∃ chars, name.toList = markChar :: chars := by
    by_contra hnone
    have hhead : name.toList.head? ≠ some markChar := fun hhead =>
      hnone (List.head?_eq_some_iff.mp hhead)
    have hunmarked := isPrefixOf_byteOrderMark_writeRecord hvalid hhead
      ((second :: others).map Utf8.encode) []
    rw [List.append_nil] at hunmarked
    exact Bool.false_ne_true (hunmarked.symm.trans (List.isPrefixOf_iff_prefix.mpr hmarked))
  let field : Bytes := chars.flatMap String.utf8EncodeChar
  have hname : Utf8.encode name = byteOrderMark ++ field := by
    rw [Utf8.encode_eq_flatMap, hchars, List.flatMap_cons, utf8EncodeChar_markChar]
  have hspecial := any_isSpecial_of_marked hvalid hmarked
  have hplain : field.any (Marks.ofDialect dialect).isSpecial = false := by
    rw [hname, List.any_append, Bool.or_eq_false_iff] at hspecial
    exact hspecial.2
  have hfirst : writeField (.ofDialect dialect) (Utf8.encode name) =
      byteOrderMark ++ writeField (.ofDialect dialect) field := by
    rw [writeField, hspecial, writeField, hplain, hname]
    rfl
  have hjoin (head : Bytes) : joinFields (Marks.ofDialect dialect).delimiter
      ((head :: (second :: others).map Utf8.encode).map (writeField (.ofDialect dialect))) =
        writeField (.ofDialect dialect) head ++ (Marks.ofDialect dialect).delimiter ::
          joinFields (Marks.ofDialect dialect).delimiter
            (((second :: others).map Utf8.encode).map (writeField (.ofDialect dialect))) := rfl
  have hbody (head : Bytes) : joinFields (Marks.ofDialect dialect).delimiter
      ((head :: (second :: others).map Utf8.encode).map (writeField (.ofDialect dialect))) ≠ [] :=
    hjoin head ▸ List.append_ne_nil_of_right_ne_nil _ (List.cons_ne_nil _ _)
  refine ⟨field, ?_⟩
  rw [writeHeader, writeRecord, writeRecord, List.map_cons, if_neg (hbody _), if_neg (hbody _),
    hjoin, hfirst, hjoin, List.append_assoc, List.append_assoc, List.append_assoc]

/-- A header of more than one name is read back but for a byte order mark at its beginning. -/
theorem begins_writeHeader (hvalid : dialect.validate = .ok ()) (name second : String)
    (others : List String) : ∃ field, (readerAfter (.ofDialect dialect)
      (writeHeader dialect (name :: second :: others))).Begins
        (field :: (second :: others).map Utf8.encode) := by
  have hmarks := Marks.proper_ofDialect hvalid
  have hwritten {field : Bytes} : field :: (second :: others).map Utf8.encode ≠ [] :=
    List.cons_ne_nil _ _
  by_cases hmarked : byteOrderMark.isPrefixOf
      (writeHeader dialect (name :: second :: others)) = true
  · obtain ⟨field, hheader⟩ :=
      exists_writeHeader_of_marked hvalid (List.isPrefixOf_iff_prefix.mp hmarked)
    refine ⟨field, ?_⟩
    rw [readerAfter, openingOf, bodyOf, if_pos hmarked, if_pos hmarked, hheader,
      List.drop_left, Reader.initial, Reader.feed_writeRecord hmarks hwritten]
    exact Reader.begins_of_record rfl List.prefix_rfl
  · refine ⟨Utf8.encode name, ?_⟩
    rw [readerAfter, openingOf, bodyOf, if_neg hmarked, if_neg hmarked, writeHeader, List.map_cons,
      Reader.initial, Reader.feed_writeRecord hmarks hwritten]
    exact Reader.begins_of_record rfl List.prefix_rfl

/-- If the header of a new file has the names of its columns it is that header. -/
theorem HeaderOf.of_newBytes (hvalid : dialect.validate = .ok ()) {rows : Batch}
    (hheader : HeaderOf dialect (newBytes dialect rows) header)
    (hnames : header.Perm rows.columns) : header = rows.columns := by
  obtain ⟨columns, cells⟩ := rows
  dsimp only at hnames ⊢
  match columns with
  | [] => exact hnames.eq_nil
  | [name] => exact List.perm_singleton.mp hnames
  | name :: second :: others =>
    obtain ⟨first, rest, hrecords, hfirst⟩ := hheader
    obtain ⟨field, hbegins⟩ := begins_writeHeader hvalid name second others
    rw [readRecords_eq, readerAfter_newBytes] at hrecords
    obtain ⟨kept, tail, hkept, hbegin⟩ :=
      (hbegins.feed (writeRows dialect ⟨name :: second :: others, cells⟩)).finish
    obtain ⟨rfl, -⟩ := List.cons.inj (hkept.symm.trans hrecords)
    rw [mapM_decode?_eq_some_iff] at hfirst
    have hlength : (field :: (second :: others).map Utf8.encode).length = kept.fields.length := by
      have hcount := congrArg List.length hfirst
      rw [List.length_map, List.length_map, hnames.length_eq] at hcount
      simpa using hcount.symm
    rw [← hbegin.eq_of_length hlength, List.map_cons] at hfirst
    obtain ⟨read, rfl⟩ : ∃ read, header = read :: second :: others := by
      cases header with
      | nil => simp at hfirst
      | cons read remaining =>
        have hothers : ((second :: others).map Utf8.encode).map Utf8.decode? = remaining.map some :=
          (List.cons.inj hfirst).2
        rw [List.map_map] at hothers
        refine ⟨read, congrArg (read :: ·) ?_⟩
        refine List.map_injective_iff.mpr (Option.some_injective _) (hothers.symm.trans ?_)
        exact List.map_congr_left fun text _ => Utf8.decode?_encode text
    have hsame : ([read] ++ (second :: others)).Perm ([name] ++ (second :: others)) := hnames
    rw [List.perm_append_right_iff, List.perm_singleton] at hsame
    rw [List.cons.inj hsame |>.1]

/-- A check finds no record, or a header with the names of the columns. -/
theorem header_of_check {tree : FileTree} {path : Path} (hbytes : tree.readBytes path = .ok bytes)
    {known : Option Metadata} {layout : Layout} (hcolumns : columns.Nodup)
    (hcheck : check tree dialect path known columns = .ok layout) :
    (layout.columns = none ∧ readRecords (.ofDialect dialect) bytes = []) ∨
      ∃ header, layout.columns = some header ∧ HeaderOf dialect bytes header ∧
        header.Perm columns := by
  obtain ⟨-, ⟨hnone, rfl⟩ | ⟨header, hheader, hlength, hcontained, rfl⟩⟩ :=
    check_eq_ok_iff.mp hcheck
  · exact .inl ⟨rfl, (header?_eq_none_iff hbytes).mp hnone⟩
  · exact .inr ⟨header, rfl, (header?_eq_some_iff hbytes).mp hheader,
      ((hcolumns.subperm hcontained).perm_of_length_le hlength.le).symm⟩

/-! ## Written in parts -/

/-- The bytes of a file after rows have been written to it.  Without a file, or without any record in
it, that is a new file; else the rows are added under its header. -/
inductive Extends (dialect : Dialect) (columns : List String) :
    Option Bytes → List (List Cell) → Bytes → Prop
  | fresh (rows : List (List Cell)) :
      Extends dialect columns none rows (newBytes dialect ⟨columns, rows⟩)
  | blank {bytes : Bytes} (hblank : readRecords (.ofDialect dialect) bytes = [])
      (rows : List (List Cell)) :
      Extends dialect columns (some bytes) rows (newBytes dialect ⟨columns, rows⟩)
  | added {bytes : Bytes} {header : List String} (hheader : HeaderOf dialect bytes header)
      (hnames : header.Perm columns) (rows : List (List Cell)) :
      Extends dialect columns (some bytes) rows
        (addedBytes dialect bytes ⟨header, Batch.rowsUnder ⟨columns, rows⟩ header⟩)

namespace Extends

variable {start : Option Bytes} {rows others : List (List Cell)}

theorem unique {other : Bytes} (hextends : Extends dialect columns start rows new)
    (hother : Extends dialect columns start rows other) : other = new := by
  cases hextends with
  | fresh => cases hother; rfl
  | blank hblank =>
    cases hother with
    | blank => rfl
    | added hheader => exact absurd hblank hheader.records_ne_nil
  | added hheader =>
    cases hother with
    | blank hblank => exact absurd hblank hheader.records_ne_nil
    | added hagain => rw [hheader.unique hagain]

/-- After a new file has been written the rows that follow come under its own header. -/
theorem of_newBytes (hvalid : dialect.validate = .ok ()) (hcolumns : columns.Nodup)
    (hrows : rows ≠ []) (hothers : ∀ row ∈ others, row.length = columns.length)
    (hextends : Extends dialect columns (some (newBytes dialect ⟨columns, rows⟩)) others new) :
    new = newBytes dialect ⟨columns, rows ++ others⟩ := by
  cases hextends with
  | blank hblank => exact absurd hblank (readRecords_newBytes_ne_nil hvalid hrows)
  | added hheader hnames =>
    obtain rfl := (hheader.of_newBytes hvalid hnames).symm
    have hself := @Batch.rowsUnder_self ⟨_, others⟩ ⟨hcolumns, hothers⟩
    dsimp only at hself ⊢
    rw [hself, addedBytes, newBytes, newBytes, missingLineEnd_writeRows _ hrows, List.append_nil,
      writeRows_append, List.append_assoc]

/-- Rows that are written in two parts make the file that they make at once. -/
theorem trans (hvalid : dialect.validate = .ok ()) (hcolumns : columns.Nodup) (hrows : rows ≠ [])
    (hothers : ∀ row ∈ others, row.length = columns.length)
    (hfirst : Extends dialect columns start rows mid)
    (hsecond : Extends dialect columns (some mid) others new) :
    Extends dialect columns start (rows ++ others) new := by
  cases hfirst with
  | fresh =>
    rw [of_newBytes hvalid hcolumns hrows hothers hsecond]
    exact .fresh _
  | blank hblank =>
    rw [of_newBytes hvalid hcolumns hrows hothers hsecond]
    exact .blank hblank _
  | @added bytes header hheader hnames =>
    rw [addedBytes, List.append_assoc] at hsecond
    generalize hmid : bytes ++ (missingLineEnd bytes ++ writeRows dialect
      ⟨header, Batch.rowsUnder ⟨columns, rows⟩ header⟩) = middle at hsecond
    cases hsecond with
    | blank hblank => exact absurd (hmid ▸ hblank) hheader.records_added
    | added hagain hnamesAgain =>
      subst hmid
      obtain rfl := (hheader.of_added hnames hagain hnamesAgain).symm
      have hadded : (Batch.rowsUnder ⟨columns, rows⟩ header) ≠ [] := by
        simpa [Batch.rowsUnder] using hrows
      have hend := @missingLineEnd_writeRows dialect (bytes ++ missingLineEnd bytes)
        ⟨header, Batch.rowsUnder ⟨columns, rows⟩ header⟩ hadded
      have hall : Batch.rowsUnder ⟨columns, rows ++ others⟩ header =
          Batch.rowsUnder ⟨columns, rows⟩ header ++ Batch.rowsUnder ⟨columns, others⟩ header := by
        simp [Batch.rowsUnder]
      have hnew := Extends.added hheader hnames (rows ++ others)
      rw [hall, addedBytes, writeRows_append] at hnew
      rw [addedBytes, ← List.append_assoc bytes, hend, List.append_nil, List.append_assoc]
      exact hnew

end Extends

end TableAppend.Delimited
