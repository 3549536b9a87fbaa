import TableAppend.Proofs.Append.Preparation

/-!
# Preparing for real and in a simulation

A simulated preparation goes on where a real one fails for want of a codec, and it counts rows that a
real one does not need.  Wherever the real one succeeds, the simulated one takes the same decisions.
-/

namespace TableAppend

/-- Two preparations that differ at most in the number of stored rows and in what they remark. -/
structure Prepared.Alike (left right : Prepared) : Prop where
  key : left.key = right.key
  path : left.path = right.path
  present : left.present = right.present
  candidateRows : left.candidateRows = right.candidateRows
  survivors : left.survivors = right.survivors
  layout : left.layout = right.layout
  rolledOver : left.rolledOver = right.rolledOver
  antiJoined : left.antiJoined = right.antiJoined

/-- Two states of a file that do not differ in what limits ask for. -/
structure FileState.Alike (limits : Limits) (left right : FileState) : Prop where
  present : left.present = right.present
  bytes : left.bytes = right.bytes
  rows : limits.maxRows.isSome = true → left.rows = right.rows

theorem Limits.check_of_alike {limits : Limits} {left right : FileState}
    (halike : left.Alike limits right) : limits.check left = limits.check right := by
  have hbytes : limits.checkBytes left = limits.checkBytes right := by
    rw [checkBytes, checkBytes, halike.bytes]
  have hrows : limits.checkRows left = limits.checkRows right := by
    rw [checkRows, checkRows]
    cases hmax : limits.maxRows with
    | none => rfl
    | some limit => rw [halike.rows (by rw [hmax]; rfl)]
  rw [check, check, hbytes, hrows]

namespace Job

/-- The same work as a simulation. -/
def simulated (job : Job) : Job :=
  { job with mode := .simulated }

variable {job : Job} {world : World}

theorem attempt_simulated {α : Type} {step : String} {outcome : Outcome α} {result : Option α}
    {notes : List Note} (hmode : job.mode = .real)
    (hreal : job.attempt step outcome = .ok (result, notes)) :
    job.simulated.attempt step outcome = .ok (result, notes) := by
  unfold attempt at hreal ⊢
  cases outcome with
  | ok value => exact hreal
  | error failure => simp [hmode] at hreal

variable (hmode : job.mode = .real)

include hmode

theorem countRows_simulated {path : Path} {metadata : Option Metadata} {rows : Option Nat}
    {notes : List Note} (hreal : job.countRows world path metadata = .ok (rows, notes)) :
    ∃ counted told, job.simulated.countRows world path metadata = .ok (counted, told) ∧
      (job.options.limits.maxRows.isSome = true → counted = rows) := by
  rw [countRows] at hreal ⊢
  by_cases hmax : job.options.limits.maxRows.isSome = true
  · rw [if_pos hmax] at hreal
    refine ⟨rows, notes, ?_, fun _ => rfl⟩
    rw [if_pos (show job.simulated.options.limits.maxRows.isSome = true from hmax)]
    exact attempt_simulated hmode hreal
  · rw [if_neg (show ¬ job.simulated.options.limits.maxRows.isSome = true from hmax)]
    dsimp only [simulated]
    cases job.medium.countRows world.tree path metadata with
    | ok counted => exact ⟨some counted, [], rfl, fun h => absurd h hmax⟩
    | error failure => exact ⟨none, _, rfl, fun h => absurd h hmax⟩

theorem stateOf_simulated {path : Path} {metadata : Option Metadata} {state : FileState}
    {remarks : Remarks} (hreal : job.stateOf world path metadata = .ok (state, remarks)) :
    ∃ found told, job.simulated.stateOf world path metadata = .ok (found, told) ∧
      found.Alike job.options.limits state := by
  rw [stateOf] at hreal ⊢
  split at hreal
  · rename_i content hnode
    obtain ⟨⟨rows, notes⟩, hcount, hresult⟩ := Outcome.bind_eq_ok_iff.mp hreal
    obtain ⟨rfl, -⟩ := Prod.mk.inj (Except.ok.inj hresult)
    obtain ⟨counted, told, hcounted, hrows⟩ := countRows_simulated hmode hcount
    refine ⟨⟨true, counted, some content.toBytes.length⟩, _,
      Outcome.bind_eq_ok_iff.mpr ⟨(counted, told), hcounted, rfl⟩, rfl, rfl, hrows⟩
  · exact ⟨state, remarks, hreal, rfl, rfl, fun _ => rfl⟩

/-- Two located files that differ at most in a number of rows which no limit asks for. -/
structure LocatedAlike (job : Job) (left right : Located) : Prop where
  path : left.path = right.path
  metadata : left.metadata = right.metadata
  rolledOver : left.rolledOver = right.rolledOver
  state : left.state.Alike job.options.limits right.state

theorem observe_simulated {path : Path} {rolledOver : Bool} {file : Located} {remarks : Remarks}
    (hreal : job.observe world path rolledOver = .ok (file, remarks)) :
    ∃ found told, job.simulated.observe world path rolledOver = .ok (found, told) ∧
      job.LocatedAlike found file := by
  obtain ⟨metadata, state, hmetadata, hstate, rfl⟩ := observe_eq_ok_iff.mp hreal
  obtain ⟨found, told, hfound, halike⟩ := stateOf_simulated hmode hstate
  exact ⟨⟨path, metadata, found, rolledOver⟩, told,
    observe_eq_ok_iff.mpr ⟨metadata, found, hmetadata, hfound, rfl⟩, rfl, rfl, rfl, halike⟩

theorem locate_simulated {base : Path} {file : Located} {remarks : Remarks}
    (hreal : job.locate world base = .ok (file, remarks)) :
    ∃ found told, job.simulated.locate world base = .ok (found, told) ∧
      job.LocatedAlike found file := by
  refine @exists_locate_of_alike job world job.simulated world base job.LocatedAlike
    (fun found file halike => ?_) (fun path hpath => ?_) (fun _ _ _ path hnext => ?_) file remarks
    hreal
  · exact ⟨halike.state.present, Limits.check_of_alike halike.state⟩
  · exact ⟨hpath, fun _ _ => observe_simulated hmode⟩
  · exact ⟨hnext, fun _ _ => observe_simulated hmode⟩

theorem layoutFor_simulated {file found : Located} (halike : job.LocatedAlike found file)
    {candidates : Batch} {layout : Layout} {notes : List Note}
    (hreal : job.layoutFor world file candidates = .ok (layout, notes)) :
    job.simulated.layoutFor world found candidates = .ok (layout, notes) := by
  rw [layoutFor] at hreal ⊢
  rw [halike.state.present, halike.path, halike.metadata]
  split at hreal
  · rename_i hpresent
    obtain ⟨⟨checked?, checked⟩, hcheck, hresult⟩ := Outcome.bind_eq_ok_iff.mp hreal
    rw [if_pos hpresent]
    exact Outcome.bind_eq_ok_iff.mpr ⟨_, attempt_simulated hmode hcheck, hresult⟩
  · rename_i hpresent
    rw [if_neg hpresent]
    exact hreal

theorem readAll_simulated {files : List Path} {result : Option (List Batch) × List Note}
    (hreal : job.readAll world files = .ok result) :
    job.simulated.readAll world files = .ok result := by
  induction files generalizing result with
  | nil => exact hreal
  | cons file rest ih =>
    rw [readAll] at hreal ⊢
    obtain ⟨metadata, hmetadata, hreal⟩ := Outcome.bind_eq_ok_iff.mp hreal
    obtain ⟨⟨rows?, notes⟩, hread, hreal⟩ := Outcome.bind_eq_ok_iff.mp hreal
    refine Outcome.bind_eq_ok_iff.mpr ⟨metadata, hmetadata,
      Outcome.bind_eq_ok_iff.mpr ⟨(rows?, notes), attempt_simulated hmode hread, ?_⟩⟩
    cases rows? with
    | none => exact hreal
    | some rows =>
      obtain ⟨others, hothers, hresult⟩ := Outcome.bind_eq_ok_iff.mp hreal
      exact Outcome.bind_eq_ok_iff.mpr ⟨others, ih hothers, hresult⟩

theorem survivors_simulated {base : Path} {candidates : Batch}
    {result : (Batch × Bool) × List Note}
    (hreal : job.survivors world base candidates = .ok result) :
    job.simulated.survivors world base candidates = .ok result := by
  rw [survivors] at hreal ⊢
  split at hreal
  · rename_i henabled
    rw [if_pos (show job.simulated.options.antiJoin.enabled = true from henabled)]
    obtain ⟨keys, hkeys, hreal⟩ := Outcome.bind_eq_ok_iff.mp hreal
    obtain ⟨files, hfiles, hreal⟩ := Outcome.bind_eq_ok_iff.mp hreal
    obtain ⟨read, hread, hresult⟩ := Outcome.bind_eq_ok_iff.mp hreal
    exact Outcome.bind_eq_ok_iff.mpr ⟨keys, hkeys, Outcome.bind_eq_ok_iff.mpr ⟨files, hfiles,
      Outcome.bind_eq_ok_iff.mpr ⟨read, readAll_simulated hmode hread, hresult⟩⟩⟩
  · rename_i henabled
    rw [if_neg (show ¬ job.simulated.options.antiJoin.enabled = true from henabled)]
    exact hreal

/-- Where a real preparation succeeds, a simulated one takes the same decisions. -/
theorem prepare_simulated {bucket : Bucket} {prepared : Prepared}
    (hreal : job.prepare world bucket = .ok prepared) :
    ∃ planned, job.simulated.prepare world bucket = .ok planned ∧ planned.Alike prepared := by
  obtain ⟨file, found, layout, checked, survivors, antiJoined, compared, hlocate, hlayout,
    hsurvivors, rfl⟩ := prepare_eq_ok_iff.mp hreal
  obtain ⟨other, told, hother, halike⟩ := locate_simulated hmode hlocate
  exact ⟨_, prepare_eq_ok_iff.mpr ⟨other, told, layout, checked, survivors, antiJoined, compared,
    hother, layoutFor_simulated hmode halike hlayout, survivors_simulated hmode hsurvivors, rfl⟩,
    rfl, halike.path, halike.state.present, rfl, rfl, rfl, halike.rolledOver, rfl⟩

end Job

end TableAppend
