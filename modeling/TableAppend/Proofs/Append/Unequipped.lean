import TableAppend.Proofs.AntiJoin
import TableAppend.Proofs.Append.Equipped
import TableAppend.Proofs.Append.Parity

/-!
# Simulations without a codec

A simulation that has no codec leaves out whatever needs one.  What it leaves out are checks and the
comparison with stored rows, so it succeeds wherever a simulation with a codec does, and its plan names
the same files with at least as many rows.  The one decision that could come out differently is whether
a file is full, and for that the recorded numbers of rows have to stand in for the files.
-/

namespace TableAppend

open Outcome (Bare FailsWithin failsWithin_ok failsWithin_error_iff)

/-! ## No failure for want of a codec -/

theorem Failure.isBare_of_isCause {failure : Failure} (hcause : failure.isCause = true)
    (hcodec : failure.isCodecMissing = false) : failure.isBare = true := by
  cases failure with
  | afterWriting written partition cause => contradiction
  | codecMissing codec purpose => contradiction
  | _ => rfl

theorem Job.bare_attempt {job : Job} (hmode : job.mode = .simulated) {α : Type} (step : String)
    (outcome : Outcome α) (houtcome : outcome.Plain) : (job.attempt step outcome).Bare := by
  rw [attempt.eq_def]
  split
  · exact failsWithin_ok _
  · rename_i failure
    split
    · exact failsWithin_ok _
    · rename_i hshown
      have hcodec : failure.isCodecMissing = false := by
        rw [hmode] at hshown
        simpa using hshown
      exact failsWithin_error_iff.mpr
        (Failure.isBare_of_isCause (Outcome.plain_error_iff.mp houtcome) hcodec)

/-- A simulation never fails for want of a codec. -/
theorem Appender.bare_simulate (appender : Appender) (options : Options) (batch : Batch)
    (world : World) : (appender.simulate options batch world).Bare := by
  refine (options.bare_validate world.tree).bind fun _ => options.bare_effectiveFormat.bind
    fun format => ?_
  dsimp only
  split
  · exact failsWithin_ok _
  · refine (options.routing.bare_buckets batch).bind fun buckets => ?_
    refine FailsWithin.bind (FailsWithin.mapM fun bucket => ?_) fun planned => failsWithin_ok _
    exact Job.failsWithin_prepare _ world (fun _ h => h) (Job.bare_attempt rfl) bucket

/-! ## What is left out -/

/-- A planned action that goes where another one goes, with at least as many rows. -/
structure PlannedAction.Overestimates (left right : PlannedAction) : Prop where
  path : left.path = right.path
  basePath : left.basePath = right.basePath
  key : left.key = right.key
  candidateRows : left.candidateRows = right.candidateRows
  rolledOver : left.rolledOver = right.rolledOver
  rows : right.rowsToAppend ≤ left.rowsToAppend
  antiJoined : left.antiJoined = true → left.rowsToAppend = right.rowsToAppend

/-- The same work without a codec for columnar files. -/
def Job.unequipped (job : Job) : Job :=
  { job with medium := .columnar none }

/-- The number of rows of each member of a family is recorded, unless nothing depends on it. -/
def Job.Recorded (job : Job) (world : World) (base : Path) : Prop :=
  job.options.limits.maxRows = none ∨ ∀ files, Family.members world.tree base = .ok files →
    ∀ file ∈ files, ∃ count, world.metadata file = .ok (some (.columnar count))

namespace Columnar

variable {tree : FileTree} {codec : Codec} {path : Path} {metadata : Option Metadata}

variable (haccepted : rejectDelimited path metadata = .ok ())

include haccepted

theorem exists_readRows_eq_error : ∃ failure,
    readRows tree none path metadata = .error failure ∧ failure.isCodecMissing = true := by
  refine ⟨.codecMissing Codec.columnarName "read dedup baseline", ?_, rfl⟩
  rw [readRows, haccepted]
  rfl

theorem exists_check_eq_error (rows : Batch) : ∃ failure,
    check tree none path metadata rows = .error failure ∧ failure.isCodecMissing = true := by
  refine ⟨.codecMissing Codec.columnarName "check schema of existing file", ?_, rfl⟩
  rw [check, haccepted]
  rfl

end Columnar

/-! ## Files that are looked at -/

namespace Family

variable {tree : FileTree} {base path : Path}

theorem mem_members_of_base (hfile : tree.isFile base = true) {files : List Path}
    (hfiles : members tree base = .ok files) : base ∈ files := by
  obtain ⟨numbered, -, hresult⟩ := Outcome.bind_eq_ok_iff.mp hfiles
  obtain rfl := Except.ok.inj hresult
  rw [if_pos hfile, List.mem_map]
  exact ⟨(0, base), List.mem_mergeSort.mpr (List.mem_append_left _ (List.mem_singleton_self _)), rfl⟩

theorem mem_members_of_active (hactive : active tree base = .ok path)
    (hfile : tree.isFile path = true) {files : List Path} (hfiles : members tree base = .ok files) : path ∈ files := by
  rcases active_eq_base_or_sibling hactive with rfl | ⟨numbered, hnumbered, member, hmember, rfl⟩
  · exact mem_members_of_base hfile hfiles
  · obtain ⟨others, hothers, hresult⟩ := Outcome.bind_eq_ok_iff.mp hfiles
    obtain rfl := Except.ok.inj (hnumbered.symm.trans hothers)
    obtain rfl := Except.ok.inj hresult
    apply List.mem_map_of_mem
    rw [List.mem_mergeSort]
    exact List.mem_append_right _ hmember

/-- Where rows go after a full file there is no other file than the base. -/
theorem eq_base_of_target (htarget : target tree base true = .ok path)
    (hfile : tree.isFile path = true) : path = base := by
  rw [target] at htarget
  split at htarget
  · exact (Except.ok.inj htarget).symm
  · obtain ⟨parts, -, hresult⟩ := Outcome.bind_eq_ok_iff.mp htarget
    obtain rfl := Except.ok.inj hresult
    cases hfree : (candidates tree base parts).find? fun path => !tree.isPresent path with
    | none => rfl
    | some free =>
      have habsent := List.find?_some hfree
      obtain ⟨content, hnode⟩ := FileTree.isFile_iff.mp (hfree ▸ hfile)
      rw [Option.getD_some] at hnode
      simp [FileTree.isPresent, hnode] at habsent

end Family

namespace Job

variable {job : Job} {world : World}

theorem exists_attempt_skipped (hmode : job.mode = .simulated) {α : Type} (step : String)
    {outcome : Outcome α}
    (hmissing : ∃ failure, outcome = .error failure ∧ failure.isCodecMissing = true) :
    ∃ notes, job.attempt step outcome = .ok (none, notes) := by
  obtain ⟨failure, rfl, hcodec⟩ := hmissing
  exact ⟨[.skipped step (clip job.noteLimit failure.message)], if_pos ⟨hmode, hcodec⟩⟩

/-! ### The file that receives rows -/

theorem Recorded.exists_metadata {base path : Path} (hrecorded : job.Recorded world base)
    (hmax : job.options.limits.maxRows.isSome = true) (hfile : world.tree.isFile path = true)
    (hpath : Family.active world.tree base = .ok path ∨
      Family.target world.tree base true = .ok path ∧
        ∃ other, Family.active world.tree base = .ok other) :
    ∃ count, world.metadata path = .ok (some (.columnar count)) := by
  obtain ⟨other, hother⟩ : ∃ other, Family.active world.tree base = .ok other :=
    hpath.elim (fun hactive => ⟨path, hactive⟩) And.right
  obtain ⟨numbered, hnumbered, -⟩ := Outcome.bind_eq_ok_iff.mp hother
  obtain ⟨files, hfiles⟩ : ∃ files, Family.members world.tree base = .ok files :=
    ⟨_, Outcome.bind_eq_ok_iff.mpr ⟨numbered, hnumbered, rfl⟩⟩
  rcases hrecorded with hnone | hmembers
  · rw [hnone] at hmax
    cases hmax
  · apply hmembers _ hfiles
    rcases hpath with hactive | ⟨htarget, -⟩
    · exact Family.mem_members_of_active hactive hfile hfiles
    · obtain rfl := Family.eq_base_of_target htarget hfile
      exact Family.mem_members_of_base hfile hfiles

variable (hmode : job.mode = .simulated) {codec : Codec} (hmedium : job.medium = .columnar (some codec))

include hmode hmedium

theorem countRows_unequipped {path : Path} {metadata : Option Metadata}
    (hknown : job.options.limits.maxRows.isSome = true → ∃ count, metadata = some (.columnar count))
    {rows : Option Nat} {notes : List Note}
    (hcounted : job.countRows world path metadata = .ok (rows, notes)) :
    ∃ counted told, job.unequipped.countRows world path metadata = .ok (counted, told) ∧
      (job.options.limits.maxRows.isSome = true → counted = rows) := by
  by_cases hmax : job.options.limits.maxRows.isSome = true
  · obtain ⟨count, rfl⟩ := hknown hmax
    refine ⟨rows, notes, ?_, fun _ => rfl⟩
    rw [countRows, if_pos hmax, hmedium] at hcounted
    rw [countRows, if_pos (show job.unequipped.options.limits.maxRows.isSome = true from hmax)]
    exact hcounted
  · rw [countRows, if_neg (show ¬ job.unequipped.options.limits.maxRows.isSome = true from hmax)]
    dsimp only [unequipped]
    rw [hmode]
    cases Medium.countRows (.columnar none) world.tree path metadata with
    | ok counted => exact ⟨some counted, [], rfl, fun h => absurd h hmax⟩
    | error failure => exact ⟨none, _, rfl, fun h => absurd h hmax⟩

theorem observe_unequipped {path : Path} {rolledOver : Bool}
    (hknown : job.options.limits.maxRows.isSome = true → world.tree.isFile path = true →
      ∃ count, world.metadata path = .ok (some (.columnar count)))
    {file : Located} {remarks : Remarks}
    (hobserved : job.observe world path rolledOver = .ok (file, remarks)) :
    ∃ found told, job.unequipped.observe world path rolledOver = .ok (found, told) ∧
      job.LocatedAlike found file := by
  obtain ⟨metadata, state, hmetadata, hstate, rfl⟩ := observe_eq_ok_iff.mp hobserved
  obtain ⟨found, told, hfound, halike⟩ : ∃ found told,
      job.unequipped.stateOf world path metadata = .ok (found, told) ∧
        found.Alike job.options.limits state := by
    rw [stateOf] at hstate ⊢
    split at hstate
    · rename_i content hnode
      obtain ⟨⟨rows, notes⟩, hcount, hresult⟩ := Outcome.bind_eq_ok_iff.mp hstate
      obtain ⟨rfl, -⟩ := Prod.mk.inj (Except.ok.inj hresult)
      have hrecorded : job.options.limits.maxRows.isSome = true →
          ∃ count, metadata = some (.columnar count) := by
        intro hmax
        obtain ⟨count, hcount⟩ := hknown hmax (FileTree.isFile_iff.mpr ⟨content, hnode⟩)
        exact ⟨count, Except.ok.inj (hmetadata.symm.trans hcount)⟩
      obtain ⟨counted, told, hcounted, hrows⟩ :=
        countRows_unequipped hmode hmedium hrecorded hcount
      exact ⟨⟨true, counted, some content.toBytes.length⟩, _,
        Outcome.bind_eq_ok_iff.mpr ⟨(counted, told), hcounted, rfl⟩, rfl, rfl, hrows⟩
    · exact ⟨state, remarks, hstate, rfl, rfl, fun _ => rfl⟩
  exact ⟨⟨path, metadata, found, rolledOver⟩, told,
    observe_eq_ok_iff.mpr ⟨metadata, found, hmetadata, hfound, rfl⟩, rfl, rfl, rfl, halike⟩

theorem locate_unequipped {base : Path} (hrecorded : job.Recorded world base) {file : Located}
    {remarks : Remarks} (hlocate : job.locate world base = .ok (file, remarks)) :
    ∃ found told, job.unequipped.locate world base = .ok (found, told) ∧
      job.LocatedAlike found file := by
  have hactive : ∀ path, job.firstChoice world.tree base = .ok path →
      job.options.limits.maxRows.isSome = true → Family.active world.tree base = .ok path := by
    intro path hpath hmax
    rwa [firstChoice, if_pos (by rw [Limits.isEnabled, hmax, Bool.true_or])] at hpath
  refine @exists_locate_of_alike job world job.unequipped world base job.LocatedAlike
    (fun found file halike => ?_) (fun path hpath => ⟨hpath, ?_⟩)
    (fun path hpath _ next hnext => ⟨hnext, ?_⟩) file remarks hlocate
  · exact ⟨halike.state.present, Limits.check_of_alike halike.state⟩
  · exact fun _ _ => observe_unequipped hmode hmedium fun hmax hthere =>
      hrecorded.exists_metadata hmax hthere (.inl (hactive path hpath hmax))
  · exact fun _ _ => observe_unequipped hmode hmedium fun hmax hthere =>
      hrecorded.exists_metadata hmax hthere (.inr ⟨hnext, path, hactive path hpath hmax⟩)

/-! ### The layout and the rows -/

theorem exists_layoutFor_unequipped {file found : Located} (halike : job.LocatedAlike found file)
    {candidates : Batch} {layout : Layout} {notes : List Note}
    (hlayout : job.layoutFor world file candidates = .ok (layout, notes)) :
    ∃ other told, job.unequipped.layoutFor world found candidates = .ok (other, told) := by
  rw [layoutFor] at hlayout
  rw [layoutFor, halike.state.present]
  split at hlayout
  · rename_i hpresent
    obtain ⟨checked, hcheck, -⟩ := Outcome.bind_eq_ok_iff.mp hlayout
    obtain ⟨value, hvalue, -⟩ := (attempt_eq_ok_iff_of_bare
      (Medium.bare_check (by rw [hmedium]; rfl) _ _ _ _)).mp hcheck
    rw [hmedium] at hvalue
    obtain ⟨haccepted, -⟩ := Columnar.check_eq_ok_iff.mp hvalue
    rw [← halike.path, ← halike.metadata] at haccepted
    obtain ⟨told, hskipped⟩ := @exists_attempt_skipped job.unequipped hmode _ "schema check" _
      (Columnar.exists_check_eq_error haccepted candidates)
    refine ⟨.new, told, ?_⟩
    rw [if_pos hpresent]
    exact Outcome.bind_eq_ok_iff.mpr ⟨_, hskipped, rfl⟩
  · rename_i hpresent
    rw [if_neg hpresent]
    exact ⟨.new, [], rfl⟩

/-- Without a codec no stored rows are read, unless there are none to be read. -/
theorem exists_readAll_unequipped {files : List Path} {result : Option (List Batch) × List Note}
    (hread : job.readAll world files = .ok result) :
    (files = [] ∧ result = (some [], []) ∧
        job.unequipped.readAll world files = .ok (some [], [])) ∨
      (∃ baseline, result.1 = some baseline) ∧
        ∃ told, job.unequipped.readAll world files = .ok (none, told) := by
  have hsome : ∀ {files : List Path} {result : Option (List Batch) × List Note},
      job.readAll world files = .ok result → ∃ baseline, result.1 = some baseline := by
    intro files
    induction files with
    | nil =>
      intro result hread
      exact ⟨[], (Except.ok.inj hread) ▸ rfl⟩
    | cons file rest ih =>
      intro result hread
      obtain ⟨metadata, -, hread⟩ := Outcome.bind_eq_ok_iff.mp hread
      obtain ⟨read, hattempt, hread⟩ := Outcome.bind_eq_ok_iff.mp hread
      obtain ⟨rows, -, rfl⟩ := (attempt_eq_ok_iff_of_bare
        (Medium.bare_readRows (by rw [hmedium]; rfl) _ _ _)).mp hattempt
      obtain ⟨others, hothers, hresult⟩ := Outcome.bind_eq_ok_iff.mp hread
      obtain ⟨baseline, hbaseline⟩ := ih hothers
      refine ⟨rows :: baseline, ?_⟩
      rw [← Except.ok.inj hresult]
      exact congrArg (Option.map (rows :: ·)) hbaseline
  cases files with
  | nil => exact .inl ⟨rfl, (Except.ok.inj hread).symm, rfl⟩
  | cons file rest =>
    refine .inr ⟨hsome hread, ?_⟩
    obtain ⟨metadata, hmetadata, hread⟩ := Outcome.bind_eq_ok_iff.mp hread
    obtain ⟨read, hattempt, -⟩ := Outcome.bind_eq_ok_iff.mp hread
    obtain ⟨rows, hrows, -⟩ := (attempt_eq_ok_iff_of_bare
      (Medium.bare_readRows (by rw [hmedium]; rfl) _ _ _)).mp hattempt
    rw [hmedium] at hrows
    obtain ⟨told, hskipped⟩ := @exists_attempt_skipped job.unequipped hmode _ "dedup baseline read" _
      (Columnar.exists_readRows_eq_error (Columnar.readRows_eq_ok_iff.mp hrows).1)
    exact ⟨told, Outcome.bind_eq_ok_iff.mpr ⟨metadata, hmetadata,
      Outcome.bind_eq_ok_iff.mpr ⟨(none, told), hskipped, rfl⟩⟩⟩

theorem exists_survivors_unequipped {base : Path} {candidates survivors : Batch} {antiJoined : Bool}
    {notes : List Note}
    (hsurvivors : job.survivors world base candidates = .ok ((survivors, antiJoined), notes)) :
    ∃ kept joined told,
      job.unequipped.survivors world base candidates = .ok ((kept, joined), told) ∧
        survivors.size ≤ kept.size ∧ (joined = true → kept.size = survivors.size) := by
  rw [Job.survivors] at hsurvivors ⊢
  split at hsurvivors
  · rename_i henabled
    rw [if_pos (show job.unequipped.options.antiJoin.enabled = true from henabled)]
    obtain ⟨keys, hkeys, hsurvivors⟩ := Outcome.bind_eq_ok_iff.mp hsurvivors
    obtain ⟨files, hfiles, hsurvivors⟩ := Outcome.bind_eq_ok_iff.mp hsurvivors
    obtain ⟨⟨baseline?, seen⟩, hread, hresult⟩ := Outcome.bind_eq_ok_iff.mp hsurvivors
    rcases exists_readAll_unequipped hmode hmedium hread with ⟨rfl, hnone, hother⟩ |
      ⟨⟨baseline, hbaseline⟩, told, hother⟩
    · refine ⟨survivors, antiJoined, notes, ?_, Nat.le_refl _, fun _ => rfl⟩
      rw [hnone] at hresult
      exact Outcome.bind_eq_ok_iff.mpr ⟨keys, hkeys, Outcome.bind_eq_ok_iff.mpr ⟨[], hfiles,
        Outcome.bind_eq_ok_iff.mpr ⟨_, hother, hresult⟩⟩⟩
    · refine ⟨candidates, false, told, ?_, ?_, fun h => by cases h⟩
      · exact Outcome.bind_eq_ok_iff.mpr ⟨keys, hkeys, Outcome.bind_eq_ok_iff.mpr ⟨files, hfiles,
          Outcome.bind_eq_ok_iff.mpr ⟨_, hother, rfl⟩⟩⟩
      · dsimp only at hbaseline
        rw [hbaseline] at hresult
        obtain ⟨kept, hkept, hpair⟩ := Outcome.bind_eq_ok_iff.mp hresult
        obtain ⟨rfl, -⟩ := Prod.mk.inj (Prod.mk.inj (Except.ok.inj hpair)).1
        obtain ⟨_, stored, positions, -, -, -, rfl⟩ := (AntiJoin.apply_eq_ok_iff henabled).mp hkept
        exact List.length_filter_le _ _
  · rename_i henabled
    rw [if_neg (show ¬ job.unequipped.options.antiJoin.enabled = true from henabled)]
    obtain ⟨rfl, -⟩ := Prod.mk.inj (Prod.mk.inj (Except.ok.inj hsurvivors)).1
    exact ⟨candidates, false, [], rfl, Nat.le_refl _, fun _ => rfl⟩

theorem exists_prepare_unequipped {bucket : Bucket}
    (hrecorded : job.Recorded world (job.options.basePath bucket.key)) {prepared : Prepared}
    (hprepared : job.prepare world bucket = .ok prepared) :
    ∃ other, job.unequipped.prepare world bucket = .ok other ∧
      (PlannedAction.ofPrepared other).Overestimates (.ofPrepared prepared) := by
  obtain ⟨file, found, layout, checked, survivors, antiJoined, compared, hlocate, hlayout,
    hsurvivors, rfl⟩ := prepare_eq_ok_iff.mp hprepared
  have hstored : ∀ rows, job.medium.storedForm rows = job.unequipped.medium.storedForm rows := by
    intro rows
    rw [hmedium]
    rfl
  rw [hstored] at hlayout hsurvivors
  obtain ⟨other, told, hother, halike⟩ := locate_unequipped hmode hmedium hrecorded hlocate
  obtain ⟨_, _, hotherLayout⟩ := exists_layoutFor_unequipped hmode hmedium halike hlayout
  obtain ⟨kept, joined, _, hkept, hsize, hjoined⟩ :=
    exists_survivors_unequipped hmode hmedium hsurvivors
  exact ⟨_, prepare_eq_ok_iff.mpr ⟨other, told, _, _, kept, joined, _, hother, hotherLayout, hkept,
    rfl⟩, halike.path, rfl, rfl, rfl, halike.rolledOver, hsize, hjoined⟩

theorem exists_mapM_prepare_unequipped {buckets : List Bucket}
    (hrecorded : ∀ bucket ∈ buckets, job.Recorded world (job.options.basePath bucket.key))
    {planned : List Prepared} (hplanned : buckets.mapM (job.prepare world) = .ok planned) :
    ∃ others, buckets.mapM (job.unequipped.prepare world) = .ok others ∧
      List.Forall₂ PlannedAction.Overestimates (others.map .ofPrepared) (planned.map .ofPrepared) := by
  simp only [Outcome.mapM_eq_ok_iff] at hplanned ⊢
  induction hplanned with
  | nil => exact ⟨[], .nil, .nil⟩
  | cons hprepared _ ih =>
    rw [List.forall_mem_cons] at hrecorded
    obtain ⟨other, hother, hover⟩ := exists_prepare_unequipped hmode hmedium hrecorded.1 hprepared
    obtain ⟨others, hothers, hovers⟩ := ih hrecorded.2
    exact ⟨other :: others, .cons hother hothers, .cons hover hovers⟩

end Job

/-! ## A whole simulation -/

namespace Appender

/-- A simulation of columnar files never fails for want of a codec.  Where nothing depends on numbers of
rows, or they are all recorded, it succeeds wherever one with a codec does, and it overestimates the
actions of that one. -/
theorem simulate_without_codec (codec : Codec) (noteLimit : ℕ) (options : Options) (batch : Batch)
    (world : World) (hformat : options.effectiveFormat = .ok .columnar) :
    (∀ failure, (Appender.mk none noteLimit).simulate options batch world = .error failure →
      failure.isCodecMissing = false) ∧
    ((options.limits.maxRows = none ∨ ∀ buckets, options.routing.buckets batch = .ok buckets →
        ∀ bucket ∈ buckets, ∀ files,
          Family.members world.tree (options.basePath bucket.key) = .ok files →
            ∀ file ∈ files, ∃ count, world.metadata file = .ok (some (.columnar count))) →
      ∀ plan, (Appender.mk (some codec) noteLimit).simulate options batch world = .ok plan →
        ∃ other, (Appender.mk none noteLimit).simulate options batch world = .ok other ∧
          List.Forall₂ PlannedAction.Overestimates other.actions plan.actions) := by
  refine ⟨fun failure hfailure => Failure.isCodecMissing_of_isBare
    ((Appender.mk none noteLimit).bare_simulate options batch world failure hfailure), ?_⟩
  intro hrecorded plan hplan
  obtain ⟨format, hvalid, hsame, hcases⟩ := simulate_eq_ok_iff.mp hplan
  obtain rfl : Format.columnar = format := Except.ok.inj (hformat.symm.trans hsame)
  rcases hcases with ⟨hempty, rfl⟩ | ⟨hrows, buckets, planned, hbuckets, hplanned, rfl⟩
  · exact ⟨_, simulate_eq_ok_iff.mpr ⟨_, hvalid, hformat, .inl ⟨hempty, rfl⟩⟩, .nil⟩
  · have hknown : ∀ bucket ∈ buckets,
        ((Appender.mk (some codec) noteLimit).job options .columnar .simulated).Recorded world
          (options.basePath bucket.key) :=
      fun bucket hbucket => hrecorded.imp_right fun hall => hall buckets hbuckets bucket hbucket
    obtain ⟨others, hothers, hovers⟩ :=
      Job.exists_mapM_prepare_unequipped rfl rfl hknown hplanned
    exact ⟨_, simulate_eq_ok_iff.mpr ⟨_, hvalid, hformat, .inr ⟨hrows, buckets, others, hbuckets,
      hothers, rfl⟩⟩, hovers⟩

/-- A row that is stored already counts as one to be appended where stored rows cannot be read. -/
theorem simulate_without_codec_of_stored_row :
    let options : Options :=
      { Options.ofTarget ⟨"t.parquet"⟩ with antiJoin := .onKeys ["c"], limits := ⟨some 5, none⟩ }
    let batch : Batch := ⟨["c"], [[.int 1], [.int 2]]⟩
    let stored : Table := ⟨[⟨"c", .int64, [.integer 1]⟩]⟩
    let world : World := ⟨FileTree.empty.set ["t.parquet"] (.file (.table stored)),
      some [(⟨"t.parquet"⟩, .columnar 1)]⟩
    options.effectiveFormat = .ok .columnar ∧
      (∀ buckets, options.routing.buckets batch = .ok buckets →
        ∀ bucket ∈ buckets, ∀ files,
          Family.members world.tree (options.basePath bucket.key) = .ok files →
            ∀ file ∈ files, ∃ count, world.metadata file = .ok (some (.columnar count))) ∧
      ∃ plan other, (Appender.mk (some .standard) 200).simulate options batch world = .ok plan ∧
        (Appender.mk none 200).simulate options batch world = .ok other ∧
        List.Forall₂ PlannedAction.Overestimates other.actions plan.actions ∧
        plan.rowsToAppend = 1 ∧ other.rowsToAppend = 2 := by
  intro options batch stored world
  have hformat : options.effectiveFormat = .ok .columnar := by decide +kernel
  have hrecorded : ∀ buckets, options.routing.buckets batch = .ok buckets →
      ∀ bucket ∈ buckets, ∀ files,
        Family.members world.tree (options.basePath bucket.key) = .ok files →
          ∀ file ∈ files, ∃ count, world.metadata file = .ok (some (.columnar count)) := by
    intro buckets hbuckets bucket hbucket files hfiles file hfile
    obtain rfl : [(⟨none, batch⟩ : Bucket)] = buckets := Except.ok.inj hbuckets
    obtain rfl := List.mem_singleton.mp hbucket
    have hmembers : Family.members world.tree ⟨"t.parquet"⟩ = .ok [⟨"t.parquet"⟩] := by
      decide +kernel
    obtain rfl := Except.ok.inj (hmembers.symm.trans hfiles)
    obtain rfl := List.mem_singleton.mp hfile
    exact ⟨1, rfl⟩
  have hplanned : ((Appender.mk (some .standard) 200).simulate options batch world).toOption.map
      Plan.rowsToAppend = some 1 := by decide +kernel
  have hunread : ((Appender.mk none 200).simulate options batch world).toOption.map
      Plan.rowsToAppend = some 2 := by decide +kernel
  cases hplan : (Appender.mk (some .standard) 200).simulate options batch world with
  | error failure =>
    rw [hplan] at hplanned
    cases hplanned
  | ok plan =>
    obtain ⟨-, hsucceeds⟩ := simulate_without_codec .standard 200 options batch world hformat
    obtain ⟨other, hother, hovers⟩ := hsucceeds (.inr hrecorded) plan hplan
    rw [hplan] at hplanned
    rw [hother] at hunread
    exact ⟨hformat, hrecorded, plan, other, rfl, hother, hovers, Option.some.inj hplanned,
      Option.some.inj hunread⟩

end Appender

end TableAppend
