import TableAppend.Proofs.Append.Causes
import TableAppend.Proofs.Append.Simulation

/-!
# Simulations with a codec at hand

With a codec no step fails for want of one, so a simulation leaves nothing out and a real preparation
succeeds wherever a simulated one does.
-/

namespace TableAppend

/-- A medium that lacks nothing. -/
def Medium.Equipped (medium : Medium) : Prop :=
  medium.unwritable? = none

namespace Medium

variable {medium : Medium} (hmedium : medium.Equipped) (tree : FileTree) (path : Path)
  (metadata : Option Metadata)

include hmedium

theorem bare_require {codec : Option Codec} (hcodec : medium = .columnar codec) (purpose : String) :
    (Codec.require codec purpose).Bare := by
  subst hcodec
  cases codec with
  | none => contradiction
  | some codec => exact Outcome.failsWithin_ok codec

theorem bare_countRows : (medium.countRows tree path metadata).Bare :=
  failsWithin_countRows tree path metadata (fun _ h => h) fun _ => bare_require hmedium

theorem bare_readRows : (medium.readRows tree path metadata).Bare :=
  failsWithin_readRows tree path metadata (fun _ h => h) fun _ => bare_require hmedium

theorem bare_check (rows : Batch) : (medium.check tree path metadata rows).Bare :=
  failsWithin_check tree path metadata (fun _ h => h) (fun _ => bare_require hmedium) rows

end Medium

theorem Failure.isCodecMissing_of_isBare {failure : Failure} (hbare : failure.isBare = true) :
    failure.isCodecMissing = false := by
  cases failure <;> first | rfl | contradiction

namespace Job

variable {job : Job} {world : World}

/-- A step that can only fail with a bare cause is not left out. -/
theorem attempt_eq_ok_iff_of_bare {α : Type} {step : String} {outcome : Outcome α}
    (hbare : outcome.Bare) {result : Option α × List Note} :
    job.attempt step outcome = .ok result ↔ ∃ value, outcome = .ok value ∧ result = (some value, []) := by
  unfold attempt
  cases outcome with
  | ok value => simp [eq_comm]
  | error failure => simp [Failure.isCodecMissing_of_isBare (hbare failure rfl)]

theorem attempt_real {α : Type} {step : String} {outcome : Outcome α} (hbare : outcome.Bare)
    {result : Option α × List Note} (hsimulated : job.simulated.attempt step outcome = .ok result) :
    ∃ value, outcome = .ok value ∧ result = (some value, []) ∧
      job.attempt step outcome = .ok result := by
  obtain ⟨value, hvalue, hresult⟩ := (attempt_eq_ok_iff_of_bare hbare).mp hsimulated
  exact ⟨value, hvalue, hresult, (attempt_eq_ok_iff_of_bare hbare).mpr ⟨value, hvalue, hresult⟩⟩

variable (hmode : job.mode = .real) (hmedium : job.medium.Equipped)

include hmode hmedium

theorem countRows_real {path : Path} {metadata : Option Metadata} {counted : Option Nat}
    {told : List Note} (hsimulated : job.simulated.countRows world path metadata =
      .ok (counted, told)) :
    ∃ rows notes, job.countRows world path metadata = .ok (rows, notes) := by
  rw [countRows] at hsimulated ⊢
  by_cases hmax : job.options.limits.maxRows.isSome = true
  · rw [if_pos (show job.simulated.options.limits.maxRows.isSome = true from hmax)] at hsimulated
    obtain ⟨-, -, -, hreal⟩ := attempt_real (Medium.bare_countRows hmedium _ _ _) hsimulated
    exact ⟨counted, told, by rw [if_pos hmax]; exact hreal⟩
  · exact ⟨none, [], by rw [if_neg hmax, hmode]⟩

theorem stateOf_real {path : Path} {metadata : Option Metadata} {found : FileState}
    {told : Remarks} (hsimulated : job.simulated.stateOf world path metadata = .ok (found, told)) :
    ∃ state remarks, job.stateOf world path metadata = .ok (state, remarks) := by
  rw [stateOf] at hsimulated ⊢
  split at hsimulated
  · rename_i content hnode
    obtain ⟨⟨counted, notes⟩, hcount, -⟩ := Outcome.bind_eq_ok_iff.mp hsimulated
    obtain ⟨rows, more, hrows⟩ := countRows_real hmode hmedium hcount
    exact ⟨_, _, Outcome.bind_eq_ok_iff.mpr ⟨(rows, more), hrows, rfl⟩⟩
  · exact ⟨_, _, rfl⟩

theorem observe_real {path : Path} {rolledOver : Bool} {found : Located} {told : Remarks}
    (hsimulated : job.simulated.observe world path rolledOver = .ok (found, told)) :
    ∃ file remarks, job.observe world path rolledOver = .ok (file, remarks) ∧
      job.LocatedAlike found file := by
  obtain ⟨metadata, state, hmetadata, hstate, rfl⟩ := observe_eq_ok_iff.mp hsimulated
  obtain ⟨real, remarks, hreal⟩ := stateOf_real hmode hmedium hstate
  have hobserve := observe_eq_ok_iff.mpr
    ⟨metadata, real, hmetadata, hreal, (rfl : (⟨path, metadata, real, rolledOver⟩ : Located) = _)⟩
  refine ⟨_, remarks, hobserve, ?_⟩
  obtain ⟨other, more, hother, halike⟩ := observe_simulated hmode hobserve
  rw [hsimulated, Except.ok.injEq, Prod.mk.injEq] at hother
  exact hother.1 ▸ halike

theorem locate_real {base : Path} {found : Located} {told : Remarks}
    (hsimulated : job.simulated.locate world base = .ok (found, told)) :
    ∃ file remarks, job.locate world base = .ok (file, remarks) ∧ job.LocatedAlike found file := by
  refine @exists_locate_of_alike job.simulated world job world base
    (fun file found => job.LocatedAlike found file) (fun file found halike => ?_)
    (fun path hpath => ?_) (fun _ _ _ path hnext => ?_) found told hsimulated
  · exact ⟨halike.state.present.symm, (Limits.check_of_alike halike.state).symm⟩
  · exact ⟨hpath, fun _ _ => observe_real hmode hmedium⟩
  · exact ⟨hnext, fun _ _ => observe_real hmode hmedium⟩

omit hmode in
theorem layoutFor_real {file found : Located} (halike : job.LocatedAlike found file)
    {candidates : Batch} {layout : Layout} {notes : List Note}
    (hsimulated : job.simulated.layoutFor world found candidates = .ok (layout, notes)) :
    job.layoutFor world file candidates = .ok (layout, notes) := by
  rw [layoutFor] at hsimulated ⊢
  rw [halike.state.present, halike.path, halike.metadata] at hsimulated
  split at hsimulated
  · rename_i hpresent
    obtain ⟨checked, hcheck, hresult⟩ := Outcome.bind_eq_ok_iff.mp hsimulated
    obtain ⟨-, -, -, hreal⟩ := attempt_real (Medium.bare_check hmedium _ _ _ _) hcheck
    rw [if_pos hpresent]
    exact Outcome.bind_eq_ok_iff.mpr ⟨checked, hreal, hresult⟩
  · rename_i hpresent
    rw [if_neg hpresent]
    exact hsimulated

omit hmode in
theorem readAll_real {files : List Path} {result : Option (List Batch) × List Note}
    (hsimulated : job.simulated.readAll world files = .ok result) :
    job.readAll world files = .ok result := by
  induction files generalizing result with
  | nil => exact hsimulated
  | cons file rest ih =>
    rw [readAll] at hsimulated ⊢
    obtain ⟨metadata, hmetadata, hsimulated⟩ := Outcome.bind_eq_ok_iff.mp hsimulated
    obtain ⟨read, hread, hsimulated⟩ := Outcome.bind_eq_ok_iff.mp hsimulated
    obtain ⟨value, -, rfl, hreal⟩ := attempt_real (Medium.bare_readRows hmedium _ _ _) hread
    obtain ⟨others, hothers, hresult⟩ := Outcome.bind_eq_ok_iff.mp hsimulated
    exact Outcome.bind_eq_ok_iff.mpr ⟨metadata, hmetadata, Outcome.bind_eq_ok_iff.mpr
      ⟨_, hreal, Outcome.bind_eq_ok_iff.mpr ⟨others, ih hothers, hresult⟩⟩⟩

omit hmode in
theorem survivors_real {base : Path} {candidates : Batch} {result : (Batch × Bool) × List Note}
    (hsimulated : job.simulated.survivors world base candidates = .ok result) :
    job.survivors world base candidates = .ok result := by
  rw [survivors] at hsimulated ⊢
  split at hsimulated
  · rename_i henabled
    rw [if_pos (show job.options.antiJoin.enabled = true from henabled)]
    obtain ⟨keys, hkeys, hsimulated⟩ := Outcome.bind_eq_ok_iff.mp hsimulated
    obtain ⟨files, hfiles, hsimulated⟩ := Outcome.bind_eq_ok_iff.mp hsimulated
    obtain ⟨read, hread, hresult⟩ := Outcome.bind_eq_ok_iff.mp hsimulated
    exact Outcome.bind_eq_ok_iff.mpr ⟨keys, hkeys, Outcome.bind_eq_ok_iff.mpr ⟨files, hfiles,
      Outcome.bind_eq_ok_iff.mpr ⟨read, readAll_real hmedium hread, hresult⟩⟩⟩
  · rename_i henabled
    rw [if_neg (show ¬ job.options.antiJoin.enabled = true from henabled)]
    exact hsimulated

/-- With a codec at hand a real preparation succeeds wherever a simulated one does. -/
theorem prepare_real {bucket : Bucket} {planned : Prepared}
    (hsimulated : job.simulated.prepare world bucket = .ok planned) :
    ∃ prepared, job.prepare world bucket = .ok prepared ∧ planned.Alike prepared := by
  obtain ⟨found, told, layout, checked, survivors, antiJoined, compared, hlocate, hlayout,
    hsurvivors, rfl⟩ := prepare_eq_ok_iff.mp hsimulated
  obtain ⟨file, remarks, hfile, halike⟩ := locate_real hmode hmedium hlocate
  exact ⟨_, prepare_eq_ok_iff.mpr ⟨file, remarks, layout, checked, survivors, antiJoined, compared,
    hfile, layoutFor_real hmedium halike hlayout, survivors_real hmedium hsurvivors,
    rfl⟩, rfl, halike.path, halike.state.present, rfl, rfl, rfl, halike.rolledOver, rfl⟩

end Job

end TableAppend
