import TableAppend.Append.Report
import TableAppend.Proofs.Append.Preparation
import TableAppend.Proofs.Outcome

/-!
# Causes of failures

Only an append says that something has been written before it failed, and only what is done with
columnar files fails for want of a codec.  Every other question that is asked while a partition is
prepared fails with a bare cause.  What holds of bare failures and of a missing codec, where one can be
missed, holds of the failures of a whole preparation.
-/

namespace TableAppend

/-- A failure that says nothing of what was done before it. -/
def Failure.isCause : Failure → Bool
  | .afterWriting _ _ _ => false
  | _ => true

theorem Failure.writtenPaths_of_isCause {failure : Failure} (hcause : failure.isCause = true) :
    failure.writtenPaths = [] := by
  cases failure with
  | afterWriting written partition cause => contradiction
  | _ => rfl

/-- A failure that neither says what was done before it nor asks for a codec. -/
def Failure.isBare : Failure → Bool
  | .afterWriting _ _ _ | .codecMissing _ _ => false
  | _ => true

theorem Failure.isCause_of_isBare {failure : Failure} (hbare : failure.isBare = true) :
    failure.isCause = true := by
  cases failure <;> first | rfl | contradiction

namespace Outcome

variable {α β : Type} {kinds : Failure → Bool}

/-- The outcome is a value or a failure of these kinds. -/
def FailsWithin (kinds : Failure → Bool) (outcome : Outcome α) : Prop :=
  ∀ failure, outcome = .error failure → kinds failure = true

theorem failsWithin_ok (value : α) : FailsWithin kinds (.ok value) := by
  intro failure hfailure
  contradiction

theorem failsWithin_error_iff {failure : Failure} :
    FailsWithin kinds (.error failure : Outcome α) ↔ kinds failure = true := by
  simp [FailsWithin]

theorem FailsWithin.mono {others : Failure → Bool} {outcome : Outcome α}
    (houtcome : outcome.FailsWithin kinds)
    (hkinds : ∀ failure, kinds failure = true → others failure = true) :
    outcome.FailsWithin others :=
  fun failure hfailure => hkinds failure (houtcome failure hfailure)

theorem FailsWithin.bind {outcome : Outcome α} {next : α → Outcome β}
    (houtcome : outcome.FailsWithin kinds) (hnext : ∀ value, (next value).FailsWithin kinds) :
    FailsWithin kinds (outcome >>= next) := by
  cases outcome with
  | ok value => exact hnext value
  | error failure => exact failsWithin_error_iff.mpr (failsWithin_error_iff.mp houtcome)

theorem FailsWithin.map {outcome : Outcome α} (change : α → β)
    (houtcome : outcome.FailsWithin kinds) : FailsWithin kinds (change <$> outcome) := by
  cases outcome with
  | ok value => exact failsWithin_ok _
  | error failure => exact failsWithin_error_iff.mpr (failsWithin_error_iff.mp houtcome)

theorem FailsWithin.mapM {step : α → Outcome β} {items : List α}
    (hstep : ∀ item, (step item).FailsWithin kinds) : (items.mapM step).FailsWithin kinds := by
  induction items with
  | nil => exact failsWithin_ok _
  | cons item rest ih =>
    rw [List.mapM_cons]
    exact (hstep item).bind fun _ => ih.bind fun _ => failsWithin_ok _

/-- The outcome is a value or a plain cause. -/
def Plain (outcome : Outcome α) : Prop :=
  ∀ failure, outcome = .error failure → failure.isCause = true

@[simp]
theorem plain_ok (value : α) : Plain (.ok value) :=
  failsWithin_ok value

@[simp]
theorem plain_error_iff {failure : Failure} :
    Plain (.error failure : Outcome α) ↔ failure.isCause = true :=
  failsWithin_error_iff

/-- The outcome is a value or a bare cause. -/
abbrev Bare (outcome : Outcome α) : Prop :=
  outcome.FailsWithin Failure.isBare

theorem Bare.plain {outcome : Outcome α} (houtcome : outcome.Bare) : outcome.Plain :=
  houtcome.mono fun _ => Failure.isCause_of_isBare

end Outcome

open Outcome (Bare FailsWithin Plain failsWithin_ok failsWithin_error_iff)

/-! ## Batches and keys -/

namespace Batch

theorem bare_ofRows (columns : List String) (rows : List (List Cell)) :
    (ofRows columns rows).Bare := by
  rw [ofRows]
  split
  · exact failsWithin_error_iff.mpr rfl
  · split
    · exact failsWithin_error_iff.mpr rfl
    · exact failsWithin_ok _

end Batch

namespace AntiJoin

theorem bare_effectiveKeys (join : AntiJoin) (columns : List String) :
    (join.effectiveKeys columns).Bare := by
  rw [effectiveKeys]
  generalize (if join.onAllColumns ∨ join.keys = [] then columns else join.keys) = keys
  split
  · exact failsWithin_error_iff.mpr rfl
  · split
    · exact failsWithin_error_iff.mpr rfl
    · exact failsWithin_ok _

theorem bare_keysOf (keys : List String) (place : String) (batch : Batch) :
    (keysOf keys place batch).Bare := by
  refine (FailsWithin.mapM ?_).bind fun _ => failsWithin_ok _
  intro key
  rw [keyPosition]
  split
  · exact failsWithin_ok _
  · exact failsWithin_error_iff.mpr rfl

theorem bare_apply (join : AntiJoin) (baseline : List Batch) (candidates : Batch) :
    (join.apply baseline candidates).Bare := by
  rw [apply, filterAgainst]
  split
  · refine (bare_effectiveKeys join _).bind fun keys => ?_
    refine ((FailsWithin.mapM (bare_keysOf keys _)).bind fun _ => failsWithin_ok _).bind fun stored => ?_
    exact ((bare_keysOf keys _ _).bind fun _ => failsWithin_ok _).bind fun _ => failsWithin_ok _
  · exact failsWithin_ok _

end AntiJoin

/-! ## Files -/

namespace Delimited

variable (tree : FileTree) (dialect : Dialect) (path : Path) (metadata : Option Metadata)

theorem bare_recordsOf : (recordsOf tree path dialect).Bare := by
  rw [recordsOf]
  split
  · exact failsWithin_ok _
  · exact failsWithin_error_iff.mpr rfl

theorem bare_decode (record : RawRecord) (number : ℕ) (start : Position) :
    (record.decode number start).Bare := by
  rw [RawRecord.decode]
  split
  · exact failsWithin_ok _
  · exact failsWithin_error_iff.mpr rfl

theorem bare_countRows : (countRows tree dialect path metadata).Bare := by
  refine (bare_recordsOf tree _ path).bind fun records => ?_
  split
  · exact failsWithin_ok _
  · refine (FailsWithin.mapM fun entry => ?_).bind fun _ => failsWithin_ok _
    split
    split <;> exact bare_decode _ _ _

theorem bare_readRows : (readRows tree dialect path metadata).Bare := by
  refine (bare_recordsOf tree _ path).bind fun records => ?_
  split
  · exact Batch.bare_ofRows _ _
  · refine (bare_decode _ _ _).bind fun columns => (FailsWithin.mapM fun entry => ?_).bind fun _ =>
      Batch.bare_ofRows _ _
    exact (bare_decode _ _ _).bind fun _ => failsWithin_ok _

theorem bare_checkMarks : (checkMarks tree dialect path metadata).Bare := by
  rw [checkMarks.eq_def]
  split
  · split
    · exact failsWithin_ok _
    · exact failsWithin_error_iff.mpr rfl
  · exact failsWithin_error_iff.mpr rfl
  · split
    · exact failsWithin_error_iff.mpr rfl
    · dsimp only
      split
      · split
        · exact failsWithin_error_iff.mpr rfl
        · exact failsWithin_ok _
      · exact failsWithin_ok _

theorem bare_check (columns : List String) :
    (check tree dialect path metadata columns).Bare := by
  refine (bare_checkMarks tree dialect path metadata).bind fun _ => ?_
  refine FailsWithin.bind ((bare_recordsOf tree _ path).bind fun records => ?_) fun header? => ?_
  · split
    · exact failsWithin_ok _
    · exact (bare_decode _ _ _).map _
  · split
    · exact failsWithin_ok _
    · split
      · exact failsWithin_ok _
      · exact failsWithin_error_iff.mpr rfl

end Delimited

namespace Columnar

variable (tree : FileTree) (path : Path) (metadata : Option Metadata)

theorem bare_rejectDelimited : (rejectDelimited path metadata).Bare := by
  rw [rejectDelimited.eq_def]
  split
  · exact failsWithin_error_iff.mpr rfl
  · exact failsWithin_ok _

theorem bare_readTable : (readTable tree path).Bare := by
  rw [readTable]
  split
  · exact failsWithin_error_iff.mpr rfl
  · exact failsWithin_error_iff.mpr rfl
  · exact failsWithin_ok _
  · exact failsWithin_error_iff.mpr rfl

theorem bare_decodeTable (table : Table) : table.decode.Bare :=
  Batch.bare_ofRows _ _

theorem bare_checkTypes (schema : Schema) (rows : Batch) : (checkTypes path schema rows).Bare := by
  rw [checkTypes]
  split
  · exact failsWithin_ok _
  · exact failsWithin_error_iff.mpr rfl

theorem plain_require (codec : Option Codec) (purpose : String) :
    (Codec.require codec purpose).Plain := by
  rw [Codec.require.eq_def]
  split
  · exact failsWithin_ok _
  · exact failsWithin_error_iff.mpr rfl

/-! ### Failures with a codec or without one -/

variable {kinds : Failure → Bool} (hkinds : ∀ failure, failure.isBare = true → kinds failure = true)
  {codec : Option Codec} (hcodec : ∀ purpose, (Codec.require codec purpose).FailsWithin kinds)

include hkinds hcodec

theorem failsWithin_countRows : (countRows tree codec path metadata).FailsWithin kinds := by
  refine ((bare_rejectDelimited path metadata).mono hkinds).bind fun _ => ?_
  split
  · exact failsWithin_ok _
  · refine (hcodec _).bind fun _ => ((bare_readTable tree path).mono hkinds).bind fun table => ?_
    exact ((bare_decodeTable table).mono hkinds).bind fun _ => failsWithin_ok _

theorem failsWithin_readRows : (readRows tree codec path metadata).FailsWithin kinds := by
  refine ((bare_rejectDelimited path metadata).mono hkinds).bind fun _ => (hcodec _).bind fun _ => ?_
  exact ((bare_readTable tree path).mono hkinds).bind fun table =>
    (bare_decodeTable table).mono hkinds

theorem failsWithin_check (rows : Batch) :
    (check tree codec path metadata rows).FailsWithin kinds := by
  refine ((bare_rejectDelimited path metadata).mono hkinds).bind fun _ => (hcodec _).bind fun _ => ?_
  refine ((bare_readTable tree path).mono hkinds).bind fun table =>
    ((bare_decodeTable table).mono hkinds).bind fun stored => ?_
  split
  · exact ((bare_checkTypes path _ rows).mono hkinds).bind fun _ => failsWithin_ok _
  · exact failsWithin_error_iff.mpr (hkinds _ rfl)

end Columnar

namespace Medium

variable (tree : FileTree) (path : Path) (metadata : Option Metadata) {kinds : Failure → Bool}
  (hkinds : ∀ failure, failure.isBare = true → kinds failure = true) {medium : Medium}
  (hcodec : ∀ codec, medium = .columnar codec →
    ∀ purpose, (Codec.require codec purpose).FailsWithin kinds)

include hkinds hcodec

theorem failsWithin_countRows : (medium.countRows tree path metadata).FailsWithin kinds := by
  cases medium with
  | delimited dialect => exact (Delimited.bare_countRows tree dialect path metadata).mono hkinds
  | columnar codec => exact Columnar.failsWithin_countRows tree path metadata hkinds (hcodec codec rfl)

theorem failsWithin_readRows : (medium.readRows tree path metadata).FailsWithin kinds := by
  cases medium with
  | delimited dialect => exact (Delimited.bare_readRows tree dialect path metadata).mono hkinds
  | columnar codec => exact Columnar.failsWithin_readRows tree path metadata hkinds (hcodec codec rfl)

theorem failsWithin_check (rows : Batch) :
    (medium.check tree path metadata rows).FailsWithin kinds := by
  cases medium with
  | delimited dialect =>
    exact (Delimited.bare_check tree dialect path metadata rows.columns).mono hkinds
  | columnar codec =>
    exact Columnar.failsWithin_check tree path metadata hkinds (hcodec codec rfl) rows

end Medium

namespace Family

variable (tree : FileTree) (base : Path)

theorem bare_nameParts : (NameParts.ofPath base).Bare := by
  rw [NameParts.ofPath.eq_def]
  split
  · exact failsWithin_ok _
  · exact failsWithin_error_iff.mpr rfl

theorem bare_siblings : (siblings tree base).Bare :=
  (bare_nameParts base).bind fun _ => failsWithin_ok _

theorem bare_members : (members tree base).Bare :=
  (bare_siblings tree base).bind fun _ => failsWithin_ok _

theorem bare_active : (active tree base).Bare :=
  (bare_siblings tree base).bind fun _ => failsWithin_ok _

theorem bare_target (needsNew : Bool) : (target tree base needsNew).Bare := by
  rw [target]
  split
  · exact failsWithin_ok _
  · exact (bare_nameParts base).bind fun _ => failsWithin_ok _

end Family

theorem World.bare_metadata (world : World) (path : Path) : (world.metadata path).Bare := by
  rw [metadata]
  split
  · exact failsWithin_ok _
  · rw [storedMetadata]
    split
    · split
      · exact failsWithin_ok _
      · exact failsWithin_error_iff.mpr rfl
    · exact failsWithin_ok _

/-! ## Preparing a partition -/

namespace Job

variable (job : Job) (world : World)

theorem plain_attempt {α : Type} (step : String) {outcome : Outcome α} (houtcome : outcome.Plain) :
    (job.attempt step outcome).Plain := by
  rw [attempt.eq_def]
  split
  · exact failsWithin_ok _
  · split
    · exact failsWithin_ok _
    · exact failsWithin_error_iff.mpr (failsWithin_error_iff.mp houtcome)

section

variable {kinds : Failure → Bool} (hkinds : ∀ failure, failure.isBare = true → kinds failure = true)
  (hattempt : ∀ {α : Type} (step : String) (outcome : Outcome α), outcome.Plain →
    (job.attempt step outcome).FailsWithin kinds)

include hattempt

theorem failsWithin_countRows (path : Path) (metadata : Option Metadata) :
    (job.countRows world path metadata).FailsWithin kinds := by
  rw [countRows]
  split
  · exact hattempt _ _ (Medium.failsWithin_countRows world.tree path metadata
      (fun _ => Failure.isCause_of_isBare) fun codec _ => Columnar.plain_require codec)
  · split
    · exact failsWithin_ok _
    · split <;> exact failsWithin_ok _

include hkinds

theorem failsWithin_observe (path : Path) (rolledOver : Bool) :
    (job.observe world path rolledOver).FailsWithin kinds := by
  refine ((world.bare_metadata path).mono hkinds).bind fun metadata =>
    FailsWithin.bind ?_ fun _ => failsWithin_ok _
  rw [stateOf]
  split
  · exact (job.failsWithin_countRows world hattempt path metadata).bind fun _ => failsWithin_ok _
  · exact failsWithin_ok _

theorem failsWithin_locate (base : Path) : (job.locate world base).FailsWithin kinds := by
  have hchoice : (job.firstChoice world.tree base).FailsWithin kinds := by
    rw [firstChoice]
    split
    · exact (Family.bare_active world.tree base).mono hkinds
    · exact failsWithin_ok _
  rw [locate_eq]
  refine hchoice.bind fun path =>
    (job.failsWithin_observe world hkinds hattempt path false).bind fun seen => ?_
  rw [rollOver]
  split
  · split
    · exact failsWithin_ok _
    · exact failsWithin_ok _
    · exact ((Family.bare_target world.tree base true).mono hkinds).bind fun next =>
        (job.failsWithin_observe world hkinds hattempt next true).bind fun _ => failsWithin_ok _
  · exact failsWithin_ok _

omit hkinds in
theorem failsWithin_layoutFor (file : Located) (candidates : Batch) :
    (job.layoutFor world file candidates).FailsWithin kinds := by
  rw [layoutFor]
  split
  · refine (hattempt _ _ ?_).bind fun _ => failsWithin_ok _
    exact Medium.failsWithin_check world.tree file.path file.metadata
      (fun _ => Failure.isCause_of_isBare) (fun codec _ => Columnar.plain_require codec) candidates
  · exact failsWithin_ok _

theorem failsWithin_readAll (files : List Path) : (job.readAll world files).FailsWithin kinds := by
  induction files with
  | nil => exact failsWithin_ok _
  | cons file rest ih =>
    refine ((world.bare_metadata file).mono hkinds).bind fun metadata => ?_
    refine (hattempt _ _ (Medium.failsWithin_readRows world.tree file metadata
      (fun _ => Failure.isCause_of_isBare) fun codec _ => Columnar.plain_require codec)).bind
        fun read => ?_
    split
    split
    · exact failsWithin_ok _
    · exact ih.bind fun _ => failsWithin_ok _

theorem failsWithin_survivors (base : Path) (candidates : Batch) :
    (job.survivors world base candidates).FailsWithin kinds := by
  have hfiles : (job.baselineFiles world base).FailsWithin kinds := by
    rw [baselineFiles]
    split
    · exact failsWithin_ok _
    · exact (Family.bare_members world.tree base).mono hkinds
  rw [survivors]
  dsimp only
  split
  · refine ((AntiJoin.bare_effectiveKeys _ _).mono hkinds).bind fun _ => hfiles.bind fun files => ?_
    refine (job.failsWithin_readAll world hkinds hattempt files).bind fun read => ?_
    split
    · exact failsWithin_ok _
    · exact ((AntiJoin.bare_apply _ _ _).mono hkinds).bind fun _ => failsWithin_ok _
  · exact failsWithin_ok _

theorem failsWithin_prepare (bucket : Bucket) : (job.prepare world bucket).FailsWithin kinds := by
  refine (job.failsWithin_locate world hkinds hattempt _).bind fun located => ?_
  split
  refine (job.failsWithin_layoutFor world hattempt _ _).bind fun checked => ?_
  split
  refine (job.failsWithin_survivors world hkinds hattempt _ _).bind fun joined => ?_
  split
  exact failsWithin_ok _

end

/-- What keeps a partition from being prepared is a plain cause. -/
theorem plain_prepare (bucket : Bucket) : (job.prepare world bucket).Plain :=
  job.failsWithin_prepare world (fun _ => Failure.isCause_of_isBare)
    (fun step _ houtcome => job.plain_attempt step houtcome) bucket

end Job

/-! ## Before the first partition -/

namespace Routing

variable (routing : Routing)

theorem bare_requiredColumn : routing.requiredColumn.Bare := by
  rw [requiredColumn]
  split
  · split
    · exact failsWithin_error_iff.mpr rfl
    · exact failsWithin_ok _
  · exact failsWithin_error_iff.mpr rfl

theorem bare_requiredBuckets : routing.requiredBuckets.Bare := by
  rw [requiredBuckets]
  split
  · split
    · exact failsWithin_error_iff.mpr rfl
    · exact failsWithin_ok _
  · exact failsWithin_error_iff.mpr rfl

theorem bare_validate : routing.validate.Bare := by
  rw [validate]
  split
  · exact failsWithin_ok _
  · exact routing.bare_requiredColumn.bind fun _ => failsWithin_ok _
  · exact routing.bare_requiredColumn.bind fun _ =>
      routing.bare_requiredBuckets.bind fun _ => failsWithin_ok _

theorem bare_segment (token : String) : (Segment.ofToken token).Bare := by
  rw [Segment.ofToken]
  split
  · exact failsWithin_ok _
  · exact failsWithin_error_iff.mpr rfl

theorem bare_route (columns : List String) (row : List Cell) :
    (routing.route columns row).Bare := by
  have hcell : ∀ column, (rowCell columns row column).Bare := by
    intro column
    rw [rowCell]
    split
    · exact failsWithin_ok _
    · exact failsWithin_error_iff.mpr rfl
  rw [route]
  split
  · exact failsWithin_ok _
  · refine routing.bare_requiredColumn.bind fun column => (hcell column).bind fun cell => ?_
    split
    · exact failsWithin_error_iff.mpr rfl
    · exact (bare_segment _).map _
  · refine routing.bare_requiredColumn.bind fun column =>
      routing.bare_requiredBuckets.bind fun count => (hcell column).bind fun cell => ?_
    split
    · exact failsWithin_error_iff.mpr rfl
    · exact (bare_segment _).map _

theorem bare_buckets (batch : Batch) : (routing.buckets batch).Bare :=
  routing.bare_validate.bind fun _ =>
    (FailsWithin.mapM (routing.bare_route batch.columns)).bind fun _ => failsWithin_ok _

end Routing

namespace Options

variable (options : Options)

theorem bare_effectiveFormat : options.effectiveFormat.Bare := by
  rw [effectiveFormat]
  split
  · exact failsWithin_ok _
  · exact failsWithin_error_iff.mpr rfl

theorem bare_validateFormat (format : Format) : (validateFormat format).Bare := by
  cases format with
  | columnar => exact failsWithin_ok _
  | delimited dialect =>
    rw [validateFormat, Dialect.validate]
    split
    · exact failsWithin_error_iff.mpr rfl
    · split
      · exact failsWithin_error_iff.mpr rfl
      · split
        · exact failsWithin_error_iff.mpr rfl
        · exact failsWithin_ok _

theorem bare_validate (tree : FileTree) : (options.validate tree).Bare := by
  have hlimits : options.limits.validate.Bare := by
    rw [Limits.validate]
    split
    · exact failsWithin_error_iff.mpr rfl
    · split
      · exact failsWithin_error_iff.mpr rfl
      · exact failsWithin_ok _
  have hrest : (options.effectiveFormat >>= fun format => validateFormat format >>= fun _ =>
      options.routing.validate >>= fun _ => options.limits.validate).Bare :=
    options.bare_effectiveFormat.bind fun format => (bare_validateFormat format).bind fun _ =>
      options.routing.bare_validate.bind fun _ => hlimits
  rw [validate]
  split
  · exact failsWithin_error_iff.mpr rfl
  · exact hrest

end Options

end TableAppend
