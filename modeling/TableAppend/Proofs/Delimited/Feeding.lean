import Mathlib.Data.List.Basic
import TableAppend.Delimited.Reader

/-!
# Reading written records

A reader that stands between records takes a written record in and stands between records again, the
fields of the record being those that were written, byte for byte.  The mode in which each byte is
read is followed through fields, records and files.
-/

namespace TableAppend.Delimited

/-- Marks that mean neither the same nor the end of a line. -/
structure Marks.Proper (marks : Marks) : Prop where
  distinct : marks.delimiter ≠ marks.quote
  delimiter : Reader.isLineBreak marks.delimiter = false
  quote : Reader.isLineBreak marks.quote = false

theorem Marks.Proper.lineFeed_ne {marks : Marks} (hmarks : marks.Proper) :
    lineFeed ≠ marks.delimiter ∧ lineFeed ≠ marks.quote := by
  have hne : ∀ byte, Reader.isLineBreak byte = false → lineFeed ≠ byte := by
    rintro byte hbyte rfl
    cases hbyte
  exact ⟨hne _ hmarks.delimiter, hne _ hmarks.quote⟩

/-- The place after some bytes. -/
def Position.past (here : Position) (bytes : Bytes) : Position :=
  bytes.foldl (fun here byte =>
    ⟨here.byte + 1, if byte = lineFeed then here.line + 1 else here.line⟩) here

@[simp]
theorem Position.past_nil (here : Position) : here.past [] = here := rfl

theorem Position.past_append (here : Position) (first second : Bytes) :
    here.past (first ++ second) = (here.past first).past second := by
  rw [past, past, past, List.foldl_append]

namespace Reader

variable {marks : Marks} {mode : Mode} {field bytes : Bytes} {fields : List Bytes}
  {start here : Position} {records : List RawRecord}

@[simp]
theorem feed_nil (reader : Reader) : reader.feed marks [] = reader := rfl

theorem feed_cons (reader : Reader) (byte : UInt8) (bytes : Bytes) :
    reader.feed marks (byte :: bytes) = (reader.step marks byte).feed marks bytes := rfl

@[simp]
theorem feed_singleton (reader : Reader) (byte : UInt8) :
    reader.feed marks [byte] = reader.step marks byte := rfl

/-! ## One byte -/

/-- Outside quotes a delimiter ends the field. -/
theorem step_delimiter (hmarks : marks.Proper) (hmode : mode ≠ .quoted) :
    step marks ⟨mode, field, fields, start, here, records⟩ marks.delimiter =
      ⟨.startField, [], field.reverse :: fields, start, here.past [marks.delimiter], records⟩ := by
  cases mode with
  | quoted => exact absurd rfl hmode
  | between =>
    simp [step, take, takeAtStart, takeOutside, hmarks.delimiter, hmarks.distinct, endField, advance,
      Position.past]
  | startField | plain | afterQuote =>
    simp [step, take, takeAtStart, takeOutside, hmarks.distinct, endField, advance, Position.past]

/-- Outside quotes a line feed ends the record under way. -/
theorem step_lineFeed (hmarks : marks.Proper) (hmode : mode ≠ .quoted) (hbetween : mode ≠ .between) :
    step marks ⟨mode, field, fields, start, here, records⟩ lineFeed =
      ⟨.between, [], [], here.past [lineFeed], here.past [lineFeed],
        ⟨fields.reverse ++ [field.reverse], start⟩ :: records⟩ := by
  obtain ⟨hdelimiter, hquote⟩ := hmarks.lineFeed_ne
  have hbreak : isLineBreak lineFeed = true := rfl
  cases mode with
  | quoted => exact absurd rfl hmode
  | between => exact absurd rfl hbetween
  | startField | plain | afterQuote =>
    simp [step, take, takeAtStart, takeOutside, hdelimiter, hquote, hbreak, endRecord, endField,
      advance, Position.past]

/-- Between records a line feed is skipped. -/
theorem step_lineFeed_between :
    step marks ⟨.between, field, fields, start, here, records⟩ lineFeed =
      ⟨.between, field, fields, start, here.past [lineFeed], records⟩ := by
  have hbreak : isLineBreak lineFeed = true := rfl
  simp [step, take, hbreak, advance, Position.past]

theorem step_quote_start (hmarks : marks.Proper) (hmode : mode = .between ∨ mode = .startField) :
    step marks ⟨mode, field, fields, start, here, records⟩ marks.quote =
      ⟨.quoted, field, fields, start, here.past [marks.quote], records⟩ := by
  rcases hmode with rfl | rfl <;>
    simp [step, take, takeAtStart, hmarks.quote, advance, Position.past]

theorem step_quote_quoted :
    step marks ⟨.quoted, field, fields, start, here, records⟩ marks.quote =
      ⟨.afterQuote, field, fields, start, here.past [marks.quote], records⟩ := by
  simp [step, take, advance, Position.past]

theorem step_quote_afterQuote :
    step marks ⟨.afterQuote, field, fields, start, here, records⟩ marks.quote =
      ⟨.quoted, marks.quote :: field, fields, start, here.past [marks.quote], records⟩ := by
  simp [step, take, push, advance, Position.past]

theorem step_quoted {byte : UInt8} (hbyte : byte ≠ marks.quote) :
    step marks ⟨.quoted, field, fields, start, here, records⟩ byte =
      ⟨.quoted, byte :: field, fields, start, here.past [byte], records⟩ := by
  simp [step, take, push, hbyte, advance, Position.past]

/-- A byte without a meaning of its own is plain. -/
theorem step_plain (hmode : mode = .between ∨ mode = .startField ∨ mode = .plain) {byte : UInt8}
    (hbyte : marks.isSpecial byte = false) :
    step marks ⟨mode, field, fields, start, here, records⟩ byte =
      ⟨.plain, byte :: field, fields, start, here.past [byte], records⟩ := by
  simp only [Marks.isSpecial, Bool.or_eq_false_iff, decide_eq_false_iff_not] at hbyte
  obtain ⟨⟨⟨hdelimiter, hquote⟩, hreturn⟩, hfeed⟩ := hbyte
  have hbreak : isLineBreak byte = false := by
    simp [isLineBreak, hfeed, hreturn]
  rcases hmode with rfl | rfl | rfl <;>
    simp [step, take, takeAtStart, takeOutside, hdelimiter, hquote, hbreak, push, advance,
      Position.past]

/-! ## One field -/

theorem feed_plain (hbytes : ∀ byte ∈ bytes, marks.isSpecial byte = false) :
    feed marks ⟨.plain, field, fields, start, here, records⟩ bytes =
      ⟨.plain, bytes.reverse ++ field, fields, start, here.past bytes, records⟩ := by
  induction bytes generalizing field here with
  | nil => rfl
  | cons byte bytes ih =>
    rw [feed_cons, step_plain (.inr (.inr rfl)) (hbytes byte List.mem_cons_self),
      ih fun other hother => hbytes other (List.mem_cons_of_mem _ hother)]
    simp [Position.past]

/-- Inside quotes a doubled quote is one quote, and all else stands for itself. -/
theorem feed_quoted :
    feed marks ⟨.quoted, field, fields, start, here, records⟩
        (bytes.flatMap fun byte => if byte = marks.quote then [byte, byte] else [byte]) =
      ⟨.quoted, bytes.reverse ++ field, fields, start,
        here.past (bytes.flatMap fun byte => if byte = marks.quote then [byte, byte] else [byte]),
        records⟩ := by
  induction bytes generalizing field here with
  | nil => rfl
  | cons byte bytes ih =>
    rw [List.flatMap_cons, feed_append, Position.past_append]
    by_cases hquote : byte = marks.quote
    · rw [if_pos hquote, hquote, feed_cons, step_quote_quoted, feed_singleton,
        step_quote_afterQuote, ih]
      simp [Position.past]
    · rw [if_neg hquote, feed_singleton, step_quoted hquote, ih]
      simp

/-- A written field is read up to its end.  If it has no bytes, nothing has happened yet. -/
theorem feed_writeField (hmarks : marks.Proper) (hmode : mode = .between ∨ mode = .startField)
    (written : Bytes) :
    ∃ last, feed marks ⟨mode, [], fields, start, here, records⟩ (writeField marks written) =
        ⟨last, written.reverse, fields, start, here.past (writeField marks written), records⟩ ∧
      last ≠ .quoted ∧ (last = .between → writeField marks written = []) := by
  by_cases hspecial : written.any marks.isSpecial = true
  · refine ⟨.afterQuote, ?_, by decide, by simp⟩
    rw [writeField, if_pos hspecial, quoteField, List.cons_append, feed_cons,
      step_quote_start hmarks hmode, feed_append, feed_quoted, feed_singleton, step_quote_quoted]
    simp [Position.past]
  · rw [writeField, if_neg hspecial]
    cases written with
    | nil =>
      refine ⟨mode, rfl, ?_, fun _ => rfl⟩
      rcases hmode with rfl | rfl <;> decide
    | cons byte rest =>
      have hplain : ∀ other ∈ byte :: rest, marks.isSpecial other = false := by
        simpa using hspecial
      refine ⟨.plain, ?_, by decide, by simp⟩
      have hfirst : mode = .between ∨ mode = .startField ∨ mode = .plain := by tauto
      rw [feed_cons, step_plain hfirst (hplain byte List.mem_cons_self),
        feed_plain fun other hother => hplain other (List.mem_cons_of_mem _ hother)]
      simp [Position.past]

/-! ## Records -/

/-- The fields up to the end of a line are read one after the other.  At the beginning of a record
there has to be a byte at all, for an empty line is skipped. -/
theorem feed_line (hmarks : marks.Proper) {written : List Bytes} (hwritten : written ≠ [])
    (hmode : mode = .between ∨ mode = .startField)
    (hbody : mode = .between → joinFields marks.delimiter (written.map (writeField marks)) ≠ []) :
    feed marks ⟨mode, [], fields, start, here, records⟩
        (joinFields marks.delimiter (written.map (writeField marks)) ++ [lineFeed]) =
      ⟨.between, [], [],
        here.past (joinFields marks.delimiter (written.map (writeField marks)) ++ [lineFeed]),
        here.past (joinFields marks.delimiter (written.map (writeField marks)) ++ [lineFeed]),
        ⟨fields.reverse ++ written, start⟩ :: records⟩ := by
  induction written generalizing mode fields here with
  | nil => exact absurd rfl hwritten
  | cons first rest ih =>
    obtain ⟨last, hfeed, hquoted, hempty⟩ := @feed_writeField marks mode fields start here records
      hmarks hmode first
    cases rest with
    | nil =>
      have hlast : last ≠ .between := by
        intro hlast
        have hnone := hempty hlast
        rcases hmode with rfl | rfl
        · exact hbody rfl hnone
        · rw [hnone, feed_nil, Reader.mk.injEq] at hfeed
          rw [← hfeed.1] at hlast
          cases hlast
      rw [List.map_singleton, joinFields, feed_append, hfeed, feed_singleton,
        step_lineFeed hmarks hquoted hlast, Position.past_append]
      simp
    | cons second others =>
      have hjoined : joinFields marks.delimiter ((first :: second :: others).map (writeField marks)) =
          writeField marks first ++ marks.delimiter ::
            joinFields marks.delimiter ((second :: others).map (writeField marks)) := rfl
      rw [hjoined, List.append_assoc, List.cons_append, feed_append, hfeed, feed_cons,
        step_delimiter hmarks hquoted, ih (List.cons_ne_nil _ _) (.inr rfl) (by simp)]
      simp [Position.past]

theorem joinFields_map_eq_nil {written : List Bytes} (hwritten : written ≠ [])
    (hbody : joinFields marks.delimiter (written.map (writeField marks)) = []) :
    written = [[]] := by
  cases written with
  | nil => exact absurd rfl hwritten
  | cons first rest =>
    cases rest with
    | cons second others => simp [joinFields] at hbody
    | nil =>
      rw [List.map_singleton, joinFields, writeField] at hbody
      split at hbody
      · simp [quoteField] at hbody
      · rw [hbody]

/-- A written record is read as it is. -/
theorem feed_writeRecord (hmarks : marks.Proper) {written : List Bytes} (hwritten : written ≠ []) :
    feed marks ⟨.between, [], [], start, here, records⟩ (writeRecord marks written) =
      ⟨.between, [], [], here.past (writeRecord marks written),
        here.past (writeRecord marks written), ⟨written, start⟩ :: records⟩ := by
  by_cases hbody : joinFields marks.delimiter (written.map (writeField marks)) = []
  · have hrecord : writeRecord marks written = [marks.quote, marks.quote, lineFeed] := by
      rw [writeRecord, if_pos hbody]
      rfl
    rw [hrecord, joinFields_map_eq_nil hwritten hbody, feed_cons,
      step_quote_start hmarks (.inl rfl), feed_cons, step_quote_quoted, feed_singleton,
      step_lineFeed hmarks (by decide) (by decide)]
    simp [Position.past]
  · have hrecord : writeRecord marks written =
        joinFields marks.delimiter (written.map (writeField marks)) ++ [lineFeed] := by
      rw [writeRecord, if_neg hbody]
    rw [hrecord, feed_line hmarks hwritten (.inl rfl) fun _ => hbody]
    simp

/-- Written records are read one after the other. -/
theorem feed_writeRecords (hmarks : marks.Proper) {written : List (List Bytes)}
    (hwritten : ∀ line ∈ written, line ≠ []) (start here : Position) (records : List RawRecord) :
    ∃ (last place : Position) (added : List RawRecord), added.map RawRecord.fields = written ∧
      feed marks ⟨.between, [], [], start, here, records⟩ (writeRecords marks written) =
        ⟨.between, [], [], last, place, added.reverse ++ records⟩ := by
  induction written generalizing start here records with
  | nil => exact ⟨start, here, [], rfl, rfl⟩
  | cons line rest ih =>
    obtain ⟨last, place, added, hadded, hfeed⟩ :=
      ih (fun other hother => hwritten other (List.mem_cons_of_mem _ hother))
        (here.past (writeRecord marks line)) (here.past (writeRecord marks line))
        (⟨line, start⟩ :: records)
    refine ⟨last, place, ⟨line, start⟩ :: added, by rw [List.map_cons, hadded], ?_⟩
    have hlines : writeRecords marks (line :: rest) =
        writeRecord marks line ++ writeRecords marks rest := by
      rw [writeRecords, List.flatMap_cons, writeRecords]
    rw [hlines, feed_append, feed_writeRecord hmarks (hwritten line List.mem_cons_self), hfeed]
    simp

end Reader

end TableAppend.Delimited
