import TableAppend.Options.Document
import TableAppend.Proofs.Json.Restating

/-!
# Options read from documents

Options are read from the document that they are written as.  They are read as well from every document
with the members of this one in another order, and from those that leave out the format, a policy, a
field of a policy or a mark of the dialect where it is the usual one.
-/

namespace TableAppend

open Json (IsPlain Offers Restates)

/-! ## Formats -/

/-- The marks of a dialect may be missing, but not the kind of a format. -/
def Format.Restates (format : Format) (document : Json) : Prop :=
  Json.Restates Dialect.commaSeparated.toJson format.toJson document

namespace Format

variable {format : Format} {document : Json}

theorem entries_toJson (format : Format) : format.toJson.entries = match format with
    | .delimited dialect => ("kind", .text "delimited") :: dialect.members
    | .columnar => [("kind", .text "columnar")] := by
  cases format <;> exact Json.entries_record _

theorem nodup_entries (format : Format) : (format.toJson.entries.map Prod.fst).Nodup := by
  rw [entries_toJson]
  cases format with
  | delimited dialect => exact (by decide : ["kind", "delimiter", "quote"].Nodup)
  | columnar => exact (by decide : ["kind"].Nodup)

theorem exists_text_of_mem {member : String × Json} (hmember : member ∈ format.toJson.entries) :
    ∃ value, member.2 = .text value := by
  rw [entries_toJson] at hmember
  cases format with
  | delimited dialect =>
    rcases List.mem_cons.mp hmember with rfl | hmark
    · exact ⟨_, rfl⟩
    · rcases List.mem_pair.mp hmark with rfl | rfl
      · exact ⟨_, rfl⟩
      · exact ⟨_, rfl⟩
  | columnar =>
    rw [List.mem_singleton.mp hmember]
    exact ⟨_, rfl⟩

theorem Restates.isPlain (hrestates : format.Restates document) : document.IsPlain := by
  refine Json.Restates.isPlain hrestates fun member hmember => ?_
  obtain ⟨value, hvalue⟩ := exists_text_of_mem hmember
  exact hvalue ▸ .text value

theorem Restates.isLoadable (hrestates : format.Restates document) (depth : ℕ) :
    document.isLoadable (depth + 1) = true := by
  refine Json.Restates.isLoadable hrestates fun member hmember => ?_
  obtain ⟨value, hvalue⟩ := exists_text_of_mem hmember
  rw [hvalue]
  rfl

theorem ofJson?_record {members : List (String × Json)} {depth : ℕ}
    (hloadable : (Json.record members).isLoadable depth = true) :
    ofJson? depth (.record members) = (do
      let known ← (Json.record members).members? ["kind"]
      ofKind? (← Json.field? known "kind" Json.string?) (.record members)) := by
  rw [ofJson?.eq_def, if_pos hloadable]
  rfl

theorem ofKind?_delimited (rest : Json) :
    ofKind? "delimited" rest = (Dialect.ofJson? rest).map .delimited := by
  rw [ofKind?.eq_def, if_pos rfl]

theorem ofKind?_columnar (members : List (String × Json)) :
    ofKind? "columnar" (.record members) = some .columnar := by
  rw [ofKind?.eq_def, if_neg (by decide), if_pos rfl]
  rfl

theorem ofJson?_of_restates (hrestates : format.Restates document) (depth : ℕ) :
    ofJson? (depth + 1) document = some format := by
  have husual : (Dialect.commaSeparated.toJson.entries.map Prod.fst).Nodup := by
    exact (by decide : ["delimiter", "quote"].Nodup)
  obtain ⟨known, hknown, hkind⟩ :=
    Json.Restates.exists_members hrestates husual format.nodup_entries ["kind"]
  obtain ⟨fields, hfields, hmarks⟩ :=
    Json.Restates.exists_fields hrestates husual format.nodup_entries Dialect.fieldNames
  have hloadable := hrestates.isLoadable depth
  obtain ⟨members, rfl, -⟩ := hrestates
  rw [ofJson?_record hloadable, hknown, Option.bind_eq_bind, Option.bind_some]
  cases format with
  | delimited dialect =>
    have hmem : ∀ member ∈ ("kind", Json.text "delimited") :: dialect.members,
        member ∈ (toJson (.delimited dialect)).entries := fun _ => (entries_toJson _ ▸ ·)
    have hread : Json.field? known "kind" Json.string? = some "delimited" :=
      hkind.field?_eq (.text "delimited") (by decide) (hmem _ (by simp)) rfl rfl
    have hdelimiter : Json.fieldOr fields "delimiter" Json.char? Dialect.commaSeparated.delimiter =
        some dialect.delimiter :=
      hmarks.fieldOr_eq _ (by decide) (hmem _ (by simp [Dialect.members])) (Json.char?_text _)
        (by rintro _ ⟨⟩; rfl)
    have hquote : Json.fieldOr fields "quote" Json.char? Dialect.commaSeparated.quote =
        some dialect.quote :=
      hmarks.fieldOr_eq _ (by decide) (hmem _ (by simp [Dialect.members])) (Json.char?_text _)
        (by rintro _ ⟨⟩; rfl)
    rw [hread, Option.bind_eq_bind, Option.bind_some, ofKind?_delimited, Dialect.ofJson?, hfields]
    simp [hdelimiter, hquote]
  | columnar =>
    have hread : Json.field? known "kind" Json.string? = some "columnar" :=
      hkind.field?_eq (.text "columnar") (by decide) (by simp [entries_toJson]) rfl rfl
    rw [hread, Option.bind_eq_bind, Option.bind_some, ofKind?_columnar]

end Format

/-! ## Policies -/

section Policies

variable {document : Json}

theorem AntiJoin.entries_toJson (join : AntiJoin) : join.toJson.entries =
    [("mode", .text (nameIn modes join.enabled)), ("keys", .texts join.keys),
      ("on_all_columns", .bool join.onAllColumns),
      ("scope", .text (nameIn BaselineScope.names join.scope))] :=
  Json.entries_record _

theorem AntiJoin.isPlain_of_restates {join : AntiJoin}
    (hrestates : Restates off.toJson join.toJson document) : document.IsPlain := by
  refine hrestates.isPlain ?_
  rw [entries_toJson]
  simpa using ⟨IsPlain.text _, IsPlain.texts _, IsPlain.bool _, IsPlain.text _⟩

theorem AntiJoin.choice?_mode (enabled : Bool) :
    Json.choice? modes (.text (nameIn modes enabled)) = some enabled := by
  cases enabled <;> rfl

theorem BaselineScope.choice?_names (scope : BaselineScope) :
    Json.choice? names (.text (nameIn names scope)) = some scope := by
  cases scope <;> rfl

theorem RoutingScheme.choice?_names (scheme : RoutingScheme) :
    Json.choice? names (.text (nameIn names scheme)) = some scheme := by
  cases scheme <;> rfl

theorem AntiJoin.ofJson?_of_restates {join : AntiJoin}
    (hrestates : Restates off.toJson join.toJson document) : ofJson? document = some join := by
  have hnodup : ∀ join : AntiJoin, (join.toJson.entries.map Prod.fst).Nodup := fun join => by
    rw [entries_toJson]
    exact (by decide : ["mode", "keys", "on_all_columns", "scope"].Nodup)
  obtain ⟨fields, hfields, hoffers⟩ := hrestates.exists_fields (hnodup _) (hnodup _) fieldNames
  rw [entries_toJson, entries_toJson] at hoffers
  have hmode : Json.fieldOr fields "mode" (Json.choice? modes) false = some join.enabled :=
    hoffers.fieldOr_eq _ (by decide) (by simp) (choice?_mode _) (by rintro _ ⟨⟩; rfl)
  have hkeys : Json.fieldOr fields "keys" (Json.list? Json.string?) [] = some join.keys :=
    hoffers.fieldOr_eq _ (by decide) (by simp) (Json.list?_texts _) (by rintro _ ⟨⟩; rfl)
  have hall : Json.fieldOr fields "on_all_columns" Json.bool? false = some join.onAllColumns :=
    hoffers.fieldOr_eq (.bool join.onAllColumns) (by decide) (by simp) rfl (by rintro _ ⟨⟩; rfl)
  have hscope : Json.fieldOr fields "scope" (Json.choice? BaselineScope.names) .baseFile =
      some join.scope :=
    hoffers.fieldOr_eq _ (by decide) (by simp) (BaselineScope.choice?_names _) (by rintro _ ⟨⟩; rfl)
  rw [ofJson?, hfields]
  simp [hmode, hkeys, hall, hscope]

theorem Routing.entries_toJson (routing : Routing) : routing.toJson.entries =
    [("scheme", .text (nameIn RoutingScheme.names routing.scheme)),
      ("column", .optional .text routing.column),
      ("buckets", .optional (fun count => .nat count.toNat) routing.bucketCount)] :=
  Json.entries_record _

theorem Routing.isPlain_of_restates {routing : Routing}
    (hrestates : Restates off.toJson routing.toJson document) : document.IsPlain := by
  refine hrestates.isPlain ?_
  rw [entries_toJson]
  simpa using ⟨IsPlain.text _, .optional IsPlain.text _, .optional (fun _ => .nat _) _⟩

theorem Routing.bucketCount?_nat (count : UInt32) :
    bucketCount? (.nat count.toNat) = some count := by
  have hcount : Json.natural? UInt32.size (.nat count.toNat) = some count.toNat :=
    Numeral.natural?_ofNat _ _ count.toNat_lt_size
  rw [bucketCount?, hcount, Option.map_some, UInt32.ofNat_toNat]

theorem Routing.ofJson?_of_restates {routing : Routing}
    (hrestates : Restates off.toJson routing.toJson document) :
    ofJson? document = some routing := by
  have hnodup : ∀ routing : Routing, (routing.toJson.entries.map Prod.fst).Nodup := fun routing => by
    rw [entries_toJson]
    exact (by decide : ["scheme", "column", "buckets"].Nodup)
  obtain ⟨fields, hfields, hoffers⟩ := hrestates.exists_fields (hnodup _) (hnodup _) fieldNames
  rw [entries_toJson, entries_toJson] at hoffers
  have hscheme : Json.fieldOr fields "scheme" (Json.choice? RoutingScheme.names) .none =
      some routing.scheme :=
    hoffers.fieldOr_eq _ (by decide) (by simp) (RoutingScheme.choice?_names _) (by rintro _ ⟨⟩; rfl)
  have hcolumn : Json.fieldOr fields "column" (Json.optional? Json.string?) none =
      some routing.column :=
    hoffers.fieldOr_eq _ (by decide) (by simp)
      (Json.optional?_text _) (by rintro _ ⟨⟩; rfl)
  have hbuckets : Json.fieldOr fields "buckets" (Json.optional? bucketCount?) none =
      some routing.bucketCount :=
    hoffers.fieldOr_eq _ (by decide) (by simp)
      (Json.optional?_nat bucketCount?_nat _) (by rintro _ ⟨⟩; rfl)
  rw [ofJson?, hfields]
  simp [hscheme, hcolumn, hbuckets]

theorem Limits.entries_toJson (limits : Limits) : limits.toJson.entries =
    [("max_rows", limitToJson limits.maxRows), ("max_size_bytes", limitToJson limits.maxBytes)] :=
  Json.entries_record _

theorem Limits.isPlain_of_restates {limits : Limits}
    (hrestates : Restates none.toJson limits.toJson document) : document.IsPlain := by
  have hlimit (limit : Option UInt64) : (limitToJson limit).IsPlain := .optional (fun _ => .nat _) _
  refine hrestates.isPlain ?_
  rw [entries_toJson]
  simpa using ⟨hlimit limits.maxRows, hlimit limits.maxBytes⟩

theorem Limits.optional?_limitToJson (limit : Option UInt64) :
    Json.optional? limit? (limitToJson limit) = some limit := by
  refine Json.optional?_nat (fun value => ?_) limit
  have hvalue : Json.natural? UInt64.size (.nat value.toNat) = some value.toNat :=
    Numeral.natural?_ofNat _ _ value.toNat_lt_size
  rw [limit?, hvalue, Option.map_some, UInt64.ofNat_toNat]

theorem Limits.ofJson?_of_restates {limits : Limits}
    (hrestates : Restates none.toJson limits.toJson document) : ofJson? document = some limits := by
  have hnodup : ∀ limits : Limits, (limits.toJson.entries.map Prod.fst).Nodup := fun limits => by
    rw [entries_toJson]
    exact (by decide : ["max_rows", "max_size_bytes"].Nodup)
  obtain ⟨fields, hfields, hoffers⟩ := hrestates.exists_fields (hnodup _) (hnodup _) fieldNames
  rw [entries_toJson, entries_toJson] at hoffers
  have hrows : Json.fieldOr fields "max_rows" (Json.optional? limit?) Option.none =
      some limits.maxRows :=
    hoffers.fieldOr_eq _ (by decide) (by simp) (optional?_limitToJson _) (by rintro _ ⟨⟩; rfl)
  have hbytes : Json.fieldOr fields "max_size_bytes" (Json.optional? limit?) Option.none =
      some limits.maxBytes :=
    hoffers.fieldOr_eq _ (by decide) (by simp) (optional?_limitToJson _) (by rintro _ ⟨⟩; rfl)
  rw [ofJson?, hfields]
  simp [hrows, hbytes]

end Policies

/-! ## Options -/

namespace Options

variable {options : Options} {format antiJoin routing limits document : Json}

/-- A format that is not given is written as null. -/
def FormatPart (format? : Option Format) (document : Json) : Prop :=
  match format? with
  | none => document = .null
  | some format => format.Restates document

def partsToJson (target : Path) (format antiJoin routing limits : Json) : Json :=
  .record [("target", .text target.text), ("format", format), ("dedup", antiJoin),
    ("partition", routing), ("rollover", limits)]

/-- The parts that may be missing, with their usual values. -/
def usualParts : Json :=
  .record [("format", .null), ("dedup", AntiJoin.off.toJson), ("partition", Routing.off.toJson),
    ("rollover", Limits.none.toJson)]

/-- The documents of the same options: each object may have its members in any order, and what has its
usual value may be missing from it. -/
inductive IsDocument (options : Options) : Json → Prop
  | intro {format antiJoin routing limits document : Json}
      (hformat : FormatPart options.format format)
      (hantiJoin : Restates AntiJoin.off.toJson options.antiJoin.toJson antiJoin)
      (hrouting : Restates Routing.off.toJson options.routing.toJson routing)
      (hlimits : Restates Limits.none.toJson options.limits.toJson limits)
      (hdocument : Restates usualParts
        (partsToJson options.target format antiJoin routing limits) document) :
      IsDocument options document

theorem formatPart_optional (format? : Option Format) :
    FormatPart format? (.optional Format.toJson format?) := by
  cases format? with
  | none => rfl
  | some format => cases format <;> exact Json.restates_record _

theorem isDocument_toJson (options : Options) : options.IsDocument options.toJson :=
  .intro (formatPart_optional _) (Json.restates_record _) (Json.restates_record _)
    (Json.restates_record _) (Json.restates_record _)

theorem FormatPart.isPlain {format? : Option Format} (hformat : FormatPart format? document) :
    document.IsPlain := by
  cases format? with
  | none => exact hformat ▸ .null
  | some format => exact Format.Restates.isPlain hformat

theorem FormatPart.optional?_eq {format? : Option Format} (hformat : FormatPart format? document) :
    Json.optional? (Format.ofJson? formatDepth) document = some format? := by
  cases format? with
  | none => rw [show document = .null from hformat]; rfl
  | some format =>
    have hread := Format.ofJson?_of_restates hformat (Json.maxDepth - 2)
    obtain ⟨members, rfl, -⟩ := hformat
    exact congrArg (Option.map some) hread

theorem IsDocument.isPlain (hdocument : options.IsDocument document) : document.IsPlain := by
  obtain ⟨hformat, hantiJoin, hrouting, hlimits, hparts⟩ := hdocument
  refine hparts.isPlain ?_
  rw [partsToJson, Json.entries_record]
  simpa using ⟨IsPlain.text _, hformat.isPlain, AntiJoin.isPlain_of_restates hantiJoin,
    Routing.isPlain_of_restates hrouting, Limits.isPlain_of_restates hlimits⟩

theorem ofJson?_of_isDocument (hdocument : options.IsDocument document) :
    ofJson? document = some options := by
  obtain ⟨hformat, hantiJoin, hrouting, hlimits, hparts⟩ := hdocument
  obtain ⟨fields, hfields, hoffers⟩ := hparts.exists_fields
    (by exact (by decide : ["format", "dedup", "partition", "rollover"].Nodup))
    (by exact (by decide : fieldNames.Nodup)) fieldNames
  rw [usualParts, partsToJson, Json.entries_record, Json.entries_record] at hoffers
  have htarget : Json.field? fields "target" Json.string? = some options.target.text :=
    hoffers.field?_eq (.text options.target.text) (by decide) (by simp) rfl rfl
  have hformat : Json.fieldOr fields "format" (Json.optional? (Format.ofJson? formatDepth)) none =
      some options.format :=
    hoffers.fieldOr_eq _ (by decide) (by simp) hformat.optional?_eq (by rintro _ ⟨⟩; rfl)
  have hjoin : Json.fieldOr fields "dedup" AntiJoin.ofJson? .off = some options.antiJoin :=
    hoffers.fieldOr_eq _ (by decide) (by simp) (AntiJoin.ofJson?_of_restates hantiJoin)
      (by rintro _ ⟨⟩; exact AntiJoin.ofJson?_of_restates (Json.restates_record _))
  have hroute : Json.fieldOr fields "partition" Routing.ofJson? .off = some options.routing :=
    hoffers.fieldOr_eq _ (by decide) (by simp) (Routing.ofJson?_of_restates hrouting)
      (by rintro _ ⟨⟩; exact Routing.ofJson?_of_restates (Json.restates_record _))
  have hlimit : Json.fieldOr fields "rollover" Limits.ofJson? .none = some options.limits :=
    hoffers.fieldOr_eq _ (by decide) (by simp) (Limits.ofJson?_of_restates hlimits)
      (by rintro _ ⟨⟩; exact Limits.ofJson?_of_restates (Json.restates_record _))
  rw [ofJson?, hfields]
  simp [htarget, hformat, hjoin, hroute, hlimit]

theorem ofText_of_isDocument (hdocument : options.IsDocument document) :
    ofText document.compact = .ok options := by
  rw [ofText, Json.parse?_compact hdocument.isPlain, Option.bind_eq_bind, Option.bind_some,
    ofJson?_of_isDocument hdocument]

/-- Options are read from the text of their document, and from that of every document that says the
same. -/
theorem read_back (options : Options) : ofText options.toJson.compact = .ok options ∧
    ∀ document, options.IsDocument document → ofText document.compact = .ok options :=
  ⟨ofText_of_isDocument options.isDocument_toJson, fun _ => ofText_of_isDocument⟩

/-- Each object has its members in another order, and whatever is usual is missing. -/
theorem read_back_of_partial_document :
    ofText (Json.record [
      ("rollover", .record [("max_rows", .nat 100000)]),
      ("format", .record [("delimiter", .text ";"), ("kind", .text "delimited")]),
      ("dedup", .record [("keys", .texts ["event_id"]), ("mode", .text "anti_join")]),
      ("target", .text "out/events.csv")]).compact =
    .ok ⟨⟨"out/events.csv"⟩, some (.delimited ⟨';', '"'⟩), .onKeys ["event_id"], .off,
      ⟨some 100000, none⟩⟩ := by
  have hformat : Format.Restates (.delimited ⟨';', '"'⟩)
      (.record [("delimiter", .text ";"), ("kind", .text "delimited")]) := by
    refine Json.restates_of_subset (by decide) ?_ ?_ <;> rw [Format.entries_toJson]
    · simp [Dialect.members]
    · simp [Dialect.members, Dialect.toJson, Dialect.commaSeparated]
  have hjoin : Restates AntiJoin.off.toJson (AntiJoin.onKeys ["event_id"]).toJson
      (.record [("keys", .texts ["event_id"]), ("mode", .text "anti_join")]) := by
    have hmode : nameIn AntiJoin.modes true = "anti_join" := rfl
    refine Json.restates_of_subset (by decide) ?_ ?_ <;> rw [AntiJoin.entries_toJson]
    · simp [AntiJoin.onKeys, hmode]
    · simp [AntiJoin.onKeys, hmode, AntiJoin.entries_toJson, AntiJoin.off]
  have hlimits : Restates Limits.none.toJson (⟨some 100000, none⟩ : Limits).toJson
      (.record [("max_rows", .nat 100000)]) := by
    refine Json.restates_of_subset (by decide) ?_ ?_ <;> rw [Limits.entries_toJson]
    · simp [Limits.limitToJson, Json.optional]
    · simp [Limits.limitToJson, Json.optional, Limits.entries_toJson, Limits.none]
  refine (read_back _).2 _ (.intro hformat hjoin (Json.restates_record _) hlimits
    (Json.restates_of_subset (by decide) ?_ ?_))
  · simp [partsToJson]
  · simp [partsToJson, usualParts, Routing.toJson]

end Options

end TableAppend
