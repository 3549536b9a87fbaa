import TableAppend.Metadata
import TableAppend.Proofs.Json.Documents

/-!
# Recorded metadata

Metadata are read from their file as they were recorded: the marks of a delimited file, whatever
characters they hold, and the number of rows of a columnar file.
-/

namespace TableAppend.Metadata

theorem isPlain_toJson (metadata : Metadata) : metadata.toJson.IsPlain := by
  cases metadata with
  | delimited delimiter quote =>
    refine .record fun member hmember => ?_
    rcases List.mem_pair.mp hmember with rfl | rfl
    · exact .text delimiter
    · exact .text quote
  | columnar count =>
    refine .record fun member hmember => ?_
    rw [List.mem_singleton.mp hmember]
    exact .nat count.toNat

theorem ofJson?_toJson (metadata : Metadata) : ofJson? metadata.toJson = some metadata := by
  cases metadata with
  | delimited delimiter quote => rw [ofJson?, if_pos (by rfl)]; rfl
  | columnar count =>
    have hloadable : (toJson (.columnar count)).isLoadable Json.maxDepth = true := by
      simp [toJson, Json.record, Json.isLoadable, Json.membersAreLoadable, Json.nat, Json.maxDepth,
        Numeral.isSome_toDouble?_ofNat count.toNat_lt_size]
    have hcount : Json.natural? UInt64.size (.nat count.toNat) = some count.toNat :=
      Numeral.natural?_ofNat _ _ count.toNat_lt_size
    have hdelimited : delimitedOfJson? (toJson (.columnar count)) = none := rfl
    have hmembers : (toJson (.columnar count)).members? ["row_count"] =
        some [("row_count", .nat count.toNat)] := rfl
    rw [ofJson?, if_pos hloadable, hdelimited, columnarOfJson?, hmembers]
    simp [Json.field?, hcount]

/-- Metadata are read as they were recorded. -/
theorem ofText?_toText (metadata : Metadata) : ofText? metadata.toText = some metadata := by
  rw [ofText?, toText, Json.parse?_compact metadata.isPlain_toJson, Option.bind_eq_bind,
    Option.bind_some, ofJson?_toJson]

end TableAppend.Metadata
