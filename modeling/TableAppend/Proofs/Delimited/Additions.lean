import Mathlib.Data.List.Infix
import TableAppend.Delimited.File
import TableAppend.Proofs.Delimited.Feeding

/-!
# Records added to a file

Records that are written after the bytes of a file, once its last line has an end, are read after all
that was read before, which is read as before.  The one exception is a file that ends inside quotes:
there everything that is added belongs to the field that was never closed.
-/

namespace TableAppend.Delimited

/-! ## Whole files -/

/-- The reader before the first byte of a file that is not part of the byte order mark. -/
def openingOf (bytes : Bytes) : Reader :=
  if byteOrderMark.isPrefixOf bytes then { Reader.initial with here := ⟨byteOrderMark.length, 1⟩ }
  else Reader.initial

/-- The bytes of a file without the byte order mark. -/
def bodyOf (bytes : Bytes) : Bytes :=
  if byteOrderMark.isPrefixOf bytes then bytes.drop byteOrderMark.length else bytes

/-- The reader after the last byte of a file. -/
def readerAfter (marks : Marks) (bytes : Bytes) : Reader :=
  (openingOf bytes).feed marks (bodyOf bytes)

/-- A file whose last field has an opening quote and no closing one. -/
def endsInQuotes (marks : Marks) (bytes : Bytes) : Bool :=
  (readerAfter marks bytes).mode = .quoted

theorem readRecords_eq (marks : Marks) (bytes : Bytes) :
    readRecords marks bytes = (readerAfter marks bytes).finish := by
  rw [readRecords, readerAfter, openingOf, bodyOf]
  split <;> rfl

/-- Bytes that come after a line end, or begin with one, do not complete a byte order mark. -/
theorem isPrefixOf_byteOrderMark_added {bytes : Bytes} (hbytes : bytes ≠ []) (more : Bytes) :
    byteOrderMark.isPrefixOf (bytes ++ (missingLineEnd bytes ++ more)) =
      byteOrderMark.isPrefixOf bytes := by
  rw [Bool.eq_iff_iff, List.isPrefixOf_iff_prefix, List.isPrefixOf_iff_prefix]
  refine ⟨fun hmark => ?_, fun hmark => hmark.trans (List.prefix_append _ _)⟩
  rcases List.prefix_or_prefix_of_prefix hmark (List.prefix_append bytes _) with hwhole | hpart
  · exact hwhole
  · match bytes, hbytes with
    | [first], _ =>
      obtain ⟨rest, hrest⟩ := hpart
      obtain rfl : first = 0xEF := (List.cons.inj hrest).1
      exact absurd hmark (by simp [byteOrderMark, missingLineEnd, lineFeed])
    | [first, second], _ =>
      obtain ⟨rest, hrest⟩ := hpart
      obtain rfl : first = 0xEF := (List.cons.inj hrest).1
      obtain rfl : second = 0xBB := (List.cons.inj (List.cons.inj hrest).2).1
      exact absurd hmark (by simp [byteOrderMark, missingLineEnd, lineFeed])
    | first :: second :: third :: others, _ =>
      have hlength : byteOrderMark.length ≤ (first :: second :: third :: others).length := by
        simp [byteOrderMark]
      exact List.prefix_of_prefix_length_le hmark (List.prefix_append _ _) hlength

theorem readerAfter_added {marks : Marks} {bytes : Bytes} (hbytes : bytes ≠ []) (more : Bytes) :
    readerAfter marks (bytes ++ (missingLineEnd bytes ++ more)) =
      (readerAfter marks bytes).feed marks (missingLineEnd bytes ++ more) := by
  have hmark := isPrefixOf_byteOrderMark_added hbytes more
  rw [readerAfter, readerAfter, ← Reader.feed_append]
  simp only [openingOf, bodyOf, hmark]
  split
  · rename_i hprefix
    have hlength : byteOrderMark.length ≤ bytes.length :=
      (List.isPrefixOf_iff_prefix.mp hprefix).length_le
    rw [List.drop_append_of_le_length hlength]
  · rfl

/-! ## The end of a file -/

namespace Reader

variable {marks : Marks} {reader : Reader}

/-- Between records no field is under way, and no record is without a field. -/
structure Tidy (reader : Reader) : Prop where
  between : reader.mode = .between → reader.field = [] ∧ reader.fields = []
  filled : ∀ record ∈ reader.records, record.fields ≠ []

theorem Tidy.endRecord (hreader : reader.Tidy) : reader.endRecord.Tidy := by
  refine ⟨fun _ => ⟨rfl, rfl⟩, ?_⟩
  intro record hrecord
  rcases List.mem_cons.mp hrecord with rfl | hbefore
  · simp [endField]
  · exact hreader.filled record hbefore

/-- Away from the place between records the mode does not matter. -/
theorem Tidy.turn (hreader : reader.Tidy) {mode : Mode} (hmode : mode ≠ .between) (field : Bytes)
    (fields : List Bytes) : Tidy { reader with mode, field, fields } :=
  ⟨fun hbetween => absurd hbetween hmode, hreader.filled⟩

theorem Tidy.takeOutside (hreader : reader.Tidy) (byte : UInt8) :
    (takeOutside marks reader byte).Tidy := by
  rw [Reader.takeOutside]
  split_ifs
  · exact hreader.turn (by decide) _ _
  · exact hreader.endRecord
  · exact hreader.turn (by decide) _ _

theorem Tidy.takeAtStart (hreader : reader.Tidy) (byte : UInt8) :
    (takeAtStart marks reader byte).Tidy := by
  rw [Reader.takeAtStart]
  split_ifs
  · exact hreader.turn (by decide) _ _
  · exact hreader.takeOutside byte

theorem Tidy.step (hreader : reader.Tidy) (byte : UInt8) : (reader.step marks byte).Tidy := by
  have hadvance : (reader.advance byte).Tidy := ⟨hreader.between, hreader.filled⟩
  rw [Reader.step, take]
  split
  · split
    · exact hadvance
    · exact hadvance.takeAtStart byte
  · exact hadvance.takeAtStart byte
  · exact hadvance.takeOutside byte
  · split
    · exact hadvance.turn (by decide) _ _
    · exact hadvance.turn (by decide) _ _
  · split
    · exact hadvance.turn (by decide) _ _
    · exact hadvance.takeOutside byte

theorem Tidy.feed (hreader : reader.Tidy) (bytes : Bytes) : (reader.feed marks bytes).Tidy := by
  induction bytes generalizing reader with
  | nil => exact hreader
  | cons byte bytes ih => exact ih (hreader.step byte)

/-- Outside quotes a line feed leaves the reader between records, with what the end of the file would
have left. -/
theorem Tidy.step_lineFeed (hreader : reader.Tidy) (hmarks : marks.Proper)
    (hmode : reader.mode ≠ .quoted) :
    ∃ start here, reader.step marks lineFeed =
      ⟨.between, [], [], start, here, reader.finish.reverse⟩ := by
  obtain ⟨mode, field, fields, start, here, records⟩ := reader
  by_cases hbetween : mode = .between
  · obtain ⟨rfl, rfl⟩ := hreader.between hbetween
    subst hbetween
    exact ⟨start, here.past [lineFeed], by simp [step_lineFeed_between, finish]⟩
  · have hfinish : finish ⟨mode, field, fields, start, here, records⟩ =
        (Reader.endRecord ⟨mode, field, fields, start, here, records⟩).records.reverse := by
      cases mode with
      | between => exact absurd rfl hbetween
      | startField | plain | quoted | afterQuote => rfl
    refine ⟨here.past [lineFeed], here.past [lineFeed], ?_⟩
    rw [Reader.step_lineFeed hmarks hmode hbetween, hfinish]
    simp [Reader.endRecord, endField]

end Reader

theorem tidy_openingOf (bytes : Bytes) : (openingOf bytes).Tidy := by
  rw [openingOf]
  split <;> exact ⟨fun _ => ⟨rfl, rfl⟩, fun record hrecord => absurd hrecord List.not_mem_nil⟩

theorem tidy_readerAfter (marks : Marks) (bytes : Bytes) : (readerAfter marks bytes).Tidy :=
  (tidy_openingOf bytes).feed _

/-- Every record has a field. -/
theorem fields_ne_nil_of_mem_readRecords {marks : Marks} {bytes : Bytes} {record : RawRecord}
    (hrecord : record ∈ readRecords marks bytes) : record.fields ≠ [] := by
  have htidy := tidy_readerAfter marks bytes
  rw [readRecords_eq, Reader.finish] at hrecord
  split at hrecord
  · exact htidy.filled record (List.mem_reverse.mp hrecord)
  · exact htidy.endRecord.filled record (List.mem_reverse.mp hrecord)

/-- What comes before the last byte of a body. -/
theorem exists_bodyOf_concat {bytes : Bytes} (hlast : bytes.getLast? = some lineFeed) :
    ∃ before, bodyOf bytes = before ++ [lineFeed] := by
  rw [bodyOf]
  split
  · rename_i hmark
    obtain ⟨rest, rfl⟩ := List.isPrefixOf_iff_prefix.mp hmark
    rw [List.drop_left]
    cases hrest : rest.getLast? with
    | none =>
      rw [List.getLast?_eq_none_iff.mp hrest] at hlast
      exact absurd hlast (by decide)
    | some byte =>
      rw [List.getLast?_append, hrest] at hlast
      obtain rfl : byte = lineFeed := by simpa using hlast
      exact List.getLast?_eq_some_iff.mp hrest
  · exact List.getLast?_eq_some_iff.mp hlast

/-- After its last line has an end, a file that does not end inside quotes has been read to the end of
a record. -/
theorem readerAfter_missingLineEnd {marks : Marks} (hmarks : marks.Proper) {bytes : Bytes}
    (hquotes : endsInQuotes marks bytes = false) (hbytes : bytes ≠ []) :
    ∃ start here, (readerAfter marks bytes).feed marks (missingLineEnd bytes) =
      ⟨.between, [], [], start, here, (readRecords marks bytes).reverse⟩ := by
  have hmode : (readerAfter marks bytes).mode ≠ .quoted := by simpa [endsInQuotes] using hquotes
  have htidy := tidy_readerAfter marks bytes
  rw [readRecords_eq]
  by_cases hlast : bytes.getLast? = some lineFeed
  · have hmissing : missingLineEnd bytes = [] := by
      rw [missingLineEnd, hlast]
      rfl
    have hbetween : (readerAfter marks bytes).mode = .between := by
      obtain ⟨before, hbody⟩ := exists_bodyOf_concat hlast
      have hstep : readerAfter marks bytes =
          ((openingOf bytes).feed marks before).step marks lineFeed := by
        rw [readerAfter, hbody, Reader.feed_append, Reader.feed_singleton]
      have hbefore : ((openingOf bytes).feed marks before).Tidy := (tidy_openingOf bytes).feed _
      by_cases hopen : ((openingOf bytes).feed marks before).mode = .quoted
      · generalize (openingOf bytes).feed marks before = reader at hstep hopen
        obtain ⟨mode, field, fields, start, here, records⟩ := reader
        subst hopen
        rw [hstep, Reader.step_quoted hmarks.lineFeed_ne.2] at hmode
        exact absurd rfl hmode
      · obtain ⟨start, here, hended⟩ := hbefore.step_lineFeed hmarks hopen
        rw [hstep, hended]
    rw [hmissing, Reader.feed_nil]
    obtain ⟨hfield, hfields⟩ := htidy.between hbetween
    generalize readerAfter marks bytes = reader at hbetween hfield hfields
    obtain ⟨mode, field, fields, start, here, records⟩ := reader
    subst hbetween hfield hfields
    exact ⟨start, here, by simp [Reader.finish]⟩
  · have hmissing : missingLineEnd bytes = [lineFeed] := by
      rw [missingLineEnd]
      cases hend : bytes.getLast? with
      | none => exact absurd (List.getLast?_eq_none_iff.mp hend) hbytes
      | some last =>
        have hne : last ≠ lineFeed := by
          intro h
          exact hlast (hend.trans (congrArg some h))
        dsimp only
        rw [if_neg hne]
    rw [hmissing, Reader.feed_singleton]
    exact htidy.step_lineFeed hmarks hmode

/-! ## What is added -/

/-- Records that are added to a file come after its records. -/
theorem readRecords_added {marks : Marks} (hmarks : marks.Proper) {bytes : Bytes}
    (hquotes : endsInQuotes marks bytes = false) (hbytes : bytes ≠ []) {written : List (List Bytes)}
    (hwritten : ∀ line ∈ written, line ≠ []) :
    ∃ added : List RawRecord, added.map RawRecord.fields = written ∧
      readRecords marks (bytes ++ missingLineEnd bytes ++ writeRecords marks written) =
        readRecords marks bytes ++ added ∧
      endsInQuotes marks (bytes ++ missingLineEnd bytes ++ writeRecords marks written) = false := by
  obtain ⟨start, here, hended⟩ := readerAfter_missingLineEnd hmarks hquotes hbytes
  obtain ⟨last, place, added, hadded, hfeed⟩ :=
    Reader.feed_writeRecords hmarks hwritten start here (readRecords marks bytes).reverse
  refine ⟨added, hadded, ?_, ?_⟩
  · rw [readRecords_eq, List.append_assoc, readerAfter_added hbytes, Reader.feed_append, hended, hfeed]
    simp [Reader.finish]
  · rw [endsInQuotes, List.append_assoc, readerAfter_added hbytes, Reader.feed_append, hended, hfeed]
    rfl

/-! ## Files that end inside quotes -/

namespace Reader

variable {marks : Marks} {field bytes : Bytes} {fields : List Bytes} {start here : Position}
  {records : List RawRecord}

/-- Inside quotes nothing but a quote ends anything. -/
theorem feed_unquoted (hbytes : marks.quote ∉ bytes) :
    ∃ more place, feed marks ⟨.quoted, field, fields, start, here, records⟩ bytes =
      ⟨.quoted, more, fields, start, place, records⟩ := by
  induction bytes generalizing field here with
  | nil => exact ⟨field, here, rfl⟩
  | cons byte bytes ih =>
    rw [List.mem_cons, not_or] at hbytes
    rw [feed_cons, step_quoted (Ne.symm hbytes.1)]
    exact ih hbytes.2

end Reader

/-- The fields of a record without any text are its delimiters. -/
theorem joinFields_replicate (marks : Marks) (width : ℕ) :
    joinFields marks.delimiter ((List.replicate (width + 1) []).map (writeField marks)) =
      List.replicate width marks.delimiter := by
  induction width with
  | zero => rfl
  | succ width ih =>
    rw [List.replicate_succ, List.map_cons, List.replicate_succ, List.map_cons, joinFields,
      ← List.map_cons, ← List.replicate_succ, ih, ← List.replicate_succ]
    · rfl
    · simp

/-- A record without any text that is added inside quotes is no record. -/
theorem length_readRecords_of_endsInQuotes {marks : Marks} (hmarks : marks.Proper) {bytes : Bytes}
    (hquotes : endsInQuotes marks bytes = true) (hbytes : bytes ≠ []) (width : ℕ) :
    (readRecords marks (bytes ++ missingLineEnd bytes ++
        writeRecord marks (List.replicate (width + 1) []))).length =
      (readRecords marks bytes).length := by
  have hquote := hmarks.lineFeed_ne.2
  have hmode : (readerAfter marks bytes).mode = .quoted := by simpa [endsInQuotes] using hquotes
  rw [readRecords_eq, readRecords_eq, List.append_assoc, readerAfter_added hbytes, Reader.feed_append]
  generalize readerAfter marks bytes = reader at hmode
  obtain ⟨mode, field, fields, start, here, records⟩ := reader
  subst hmode
  have hmissing : marks.quote ∉ missingLineEnd bytes := by
    rw [missingLineEnd]
    split
    · split
      · exact List.not_mem_nil
      · simpa using hquote.symm
    · exact List.not_mem_nil
  obtain ⟨more, place, hended⟩ := @Reader.feed_unquoted marks field _ fields start here records hmissing
  rw [hended, writeRecord, joinFields_replicate]
  cases width with
  | zero =>
    rw [List.replicate_zero, if_pos rfl]
    simp [Reader.feed_cons, Reader.step_quote_quoted, Reader.step_quote_afterQuote,
      Reader.step_quoted hquote, Reader.finish, Reader.endRecord, Reader.endField]
  | succ width =>
    have hplain : marks.quote ∉ List.replicate (width + 1) marks.delimiter ++ [lineFeed] := by
      rw [List.mem_append, List.mem_singleton, not_or, List.mem_replicate, not_and]
      exact ⟨fun _ => hmarks.distinct.symm, hquote.symm⟩
    obtain ⟨last, final, hfeed⟩ := @Reader.feed_unquoted marks more _ fields start place records hplain
    rw [if_neg (by simp), hfeed]
    simp [Reader.finish, Reader.endRecord, Reader.endField]

end TableAppend.Delimited
