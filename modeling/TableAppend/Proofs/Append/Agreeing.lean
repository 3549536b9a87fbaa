import TableAppend.Proofs.Append.Failing
import TableAppend.Proofs.World.Missing

/-!
# One call in two worlds

What is checked before any partition is looked at rests on the options, the batch and on whether the
target is a directory.  Two worlds that agree on this therefore answer a call alike as soon as they
answer alike for each partition.  `Job.processAll_of_agrees` carries such an agreement through all
partitions, up to the first that fails.
-/

namespace TableAppend

open Change (run)
open World (SameAt)

/-! ## One partition -/

namespace Job

variable {job : Job} {first second : World} {base : Path} {bucket : Bucket}

/-- Of a family without other members only the base file is compared with candidates. -/
theorem survivors_of_sameAt (hsame : SameAt first second base)
    (hfirst : job.options.antiJoin.enabled = true → job.options.antiJoin.scope = .family →
      Family.siblings first.tree base = .ok [])
    (hsecond : job.options.antiJoin.enabled = true → job.options.antiJoin.scope = .family →
      Family.siblings second.tree base = .ok []) (candidates : Batch) :
    job.survivors second base candidates = job.survivors first base candidates := by
  by_cases henabled : job.options.antiJoin.enabled = true
  · have hfiles := baselineFiles_eq_base (hfirst henabled)
    have hsecondFiles := baselineFiles_eq_base (hsecond henabled)
    rw [FileTree.isFile, hsame.node?_eq, ← FileTree.isFile] at hsecondFiles
    refine survivors_of_same (hsecondFiles.trans hfiles.symm) (fun found hfound file hfile => ?_)
      candidates
    obtain rfl := Except.ok.inj (hfound.symm.trans hfiles)
    split at hfile
    · rename_i hbase
      obtain rfl := List.mem_singleton.mp hfile
      exact ⟨hbase, hsame⟩
    · exact absurd hfile List.not_mem_nil
  · rw [survivors, survivors, if_neg henabled, if_neg henabled]

/-- The same is decided about a partition if the same file is found and the same rows survive. -/
theorem prepare_of_located
    (hlocate : job.locate second (job.options.basePath bucket.key) =
      job.locate first (job.options.basePath bucket.key))
    (hnode : ∀ file found, job.locate first (job.options.basePath bucket.key) = .ok (file, found) →
      second.tree.node? file.path = first.tree.node? file.path)
    (hsurvivors : ∀ candidates, job.survivors second (job.options.basePath bucket.key) candidates =
      job.survivors first (job.options.basePath bucket.key) candidates) :
    job.prepare second bucket = job.prepare first bucket := by
  rw [prepare, prepare]
  dsimp only
  rw [hlocate]
  cases hfound : job.locate first (job.options.basePath bucket.key) with
  | error failure => rfl
  | ok located =>
    obtain ⟨file, found⟩ := located
    simp only [Outcome.ok_bind, hsurvivors,
      layoutFor_of_node? (hnode file found hfound) (present_of_locate hfound)]

/-- Without limits, and if only base files are compared, all decisions about a partition rest on its base
file and what is known of it. -/
theorem prepare_of_sameAt (hlimits : job.options.limits.isEnabled = false)
    (hscope : job.options.antiJoin.enabled = true → job.options.antiJoin.scope = .baseFile)
    (hsame : SameAt first second (job.options.basePath bucket.key)) :
    job.prepare second bucket = job.prepare first bucket := by
  have hnever : ∀ tree : FileTree, job.options.antiJoin.enabled = true →
      job.options.antiJoin.scope = .family →
        Family.siblings tree (job.options.basePath bucket.key) = .ok [] := by
    intro tree henabled hfamily
    rw [hscope henabled] at hfamily
    contradiction
  refine prepare_of_located ?_ (fun file found hfound => ?_)
    (survivors_of_sameAt hsame (hnever _) (hnever _))
  · rw [locate_of_unlimited hlimits, locate_of_unlimited hlimits, observe_of_same hsame]
  · rw [locate_of_unlimited hlimits] at hfound
    rw [(observe_spec hfound).1]
    exact hsame.node?_eq

/-- Where metadata cannot be read, nothing is decided. -/
theorem prepare_of_metadata_error (hlimits : job.options.limits.isEnabled = false) {failure : Failure}
    (hmetadata : first.metadata (job.options.basePath bucket.key) = .error failure) :
    job.prepare first bucket = .error failure := by
  rw [prepare]
  dsimp only
  rw [locate_of_unlimited hlimits, observe, hmetadata]
  rfl

theorem agrees_adapt {α : Type} {change : Change α} {left : World → World → Prop}
    (adapt : Failure → Failure) (hchange : change.Agrees first second left) :
    Change.Agrees (ExceptT.adapt adapt change) first second left := by
  rw [Change.Agrees, run_adapt, run_adapt]
  exact ⟨congrArg (Except.mapError adapt) hchange.1, hchange.2⟩

/-- Worlds that agree before the partitions that remain are treated alike by all of them, if they are by
each of them. -/
theorem processAll_of_agrees {agrees : List Bucket → World → World → Prop}
    {left : World → World → Prop} (hleft : ∀ first second, agrees [] first second → left first second)
    (hstep : ∀ bucket rest first second, agrees (bucket :: rest) first second →
      (job.process bucket).Agrees first second fun after later => left after later ∧
        ∀ action, (run (job.process bucket) first).1 = .ok action → agrees rest after later)
    {buckets : List Bucket} {report : Report} (hagrees : agrees buckets first second) :
    (job.processAll report buckets).Agrees first second left := by
  induction buckets generalizing report first second with
  | nil => exact Change.agrees_pure report (hleft _ _ hagrees)
  | cons bucket rest ih =>
    refine (agrees_adapt _ (hstep bucket rest first second hagrees)).bind
      (fun _ _ hrelated => hrelated.1) fun action after later hrun hrelated => ?_
    refine ih (hrelated.2 action ?_)
    have hresult := congrArg Prod.fst hrun
    rw [run_adapt] at hresult
    cases hprocess : (run (job.process bucket) first).1 with
    | error failure =>
      rw [hprocess] at hresult
      contradiction
    | ok found =>
      rw [hprocess] at hresult
      exact hresult

end Job

/-! ## A whole call -/

theorem Options.validate_of_lacks {lost : Set Location} {full bare : FileTree}
    (hlacks : FileTree.Lacks lost full bare) (options : Options) :
    options.validate bare = options.validate full := by
  rw [validate, validate, hlacks.isDirectory_eq]

namespace Appender

variable {appender : Appender} {options : Options} {batch : Batch} {first second world : World}

variable (hvalidate : options.validate second.tree = options.validate first.tree)

include hvalidate

/-- Two appends end at once and in the same way, or both get to the same partitions. -/
theorem append_eq_or_reaches :
    (∃ outcome, run (appender.append options batch) first = (outcome, first) ∧
      run (appender.append options batch) second = (outcome, second)) ∨
    ∃ format buckets, options.Reaches batch first.tree format buckets ∧
      options.Reaches batch second.tree format buckets := by
  rcases options.rejects_or_reaches batch first.tree with ⟨failure, hrejects⟩ |
    ⟨format, hvalid, hformat, hrows⟩ | ⟨format, buckets, hvalid, hformat, hrows, hbuckets⟩
  · exact .inl ⟨_, run_append_of_rejects hrejects, run_append_of_rejects (hrejects.congr hvalidate)⟩
  · exact .inl ⟨_, run_append_of_isEmpty hvalid hformat hrows,
      run_append_of_isEmpty (hvalidate.trans hvalid) hformat hrows⟩
  · exact .inr ⟨format, buckets, ⟨hvalid, hformat, hrows, hbuckets⟩,
      ⟨hvalidate.trans hvalid, hformat, hrows, hbuckets⟩⟩

/-- Two simulations are the same if they decide the same about each partition. -/
theorem simulate_of_prepare (hprepare : ∀ format buckets,
      options.Reaches batch first.tree format buckets → ∀ bucket ∈ buckets,
        (appender.job options format .simulated).prepare second bucket =
          (appender.job options format .simulated).prepare first bucket) :
    appender.simulate options batch second = appender.simulate options batch first := by
  rw [simulate, simulate, hvalidate]
  cases hvalid : options.validate first.tree with
  | error failure => rw [Outcome.error_bind, Outcome.error_bind]
  | ok value =>
    cases hformat : options.effectiveFormat with
    | error failure => simp only [Outcome.ok_bind, Outcome.error_bind]
    | ok format =>
      simp only [Outcome.ok_bind]
      cases hrows : batch.isEmpty with
      | true => simp only [↓reduceIte]
      | false =>
        cases hbuckets : options.routing.buckets batch with
        | error failure => simp only [Outcome.error_bind]
        | ok buckets =>
          have hall := Outcome.mapM_congr
            (hprepare format buckets ⟨hvalid, hformat, hrows, hbuckets⟩)
          simp only [Job.plan, hall, Outcome.ok_bind]

end Appender

end TableAppend
