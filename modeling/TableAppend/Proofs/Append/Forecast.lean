import TableAppend.Proofs.Append.Committable
import TableAppend.Proofs.Append.Equipped
import TableAppend.Proofs.Append.Parity

/-!
# What a plan does not foresee

A simulation prepares all partitions and writes none, so it cannot tell whether what it has prepared
can be written.  After a successful simulation an append succeeds exactly if that is so for every
partition, and `not_feasible_of_small_integers` shows that it need not be.
-/

namespace TableAppend

open Change (run)

/-- What is prepared for a partition can be written. -/
def Job.Feasible (job : Job) (world : World) (bucket : Bucket) : Prop :=
  ∀ prepared, job.prepare world bucket = .ok prepared → prepared.survivors.isEmpty = false →
    prepared.Committable job world.tree

namespace Job

variable {job : Job} {name : String} (hmode : job.mode = .real)
  (hname : job.options.target.fileName? = some name) (htarget : job.options.target.Descends)
  (hcodec : ∀ codec, job.medium = .columnar codec →
    ∃ encoding, codec = some (.standard encoding))

include hmode hname htarget hcodec

/-- A partition that was prepared at the start is written later exactly if it could be then. -/
theorem process_succeeds_iff {start world : World} (hstart : start.tree.WellFormed)
    (hworld : world.tree.WellFormed) (hledger : start.ledger = none) {bucket : Bucket}
    (hcolumns : bucket.rows.columns.Nodup)
    (hsame : World.SameBelow (job.options.place bucket.key) start world)
    (hpassable : world.tree.Passable (job.options.place bucket.key) ↔
      start.tree.Passable (job.options.place bucket.key))
    (hprepare : ∃ prepared, job.prepare start bucket = .ok prepared) :
    (∃ action after, run (job.process bucket) world = (.ok action, after)) ↔
      job.Feasible start bucket := by
  obtain ⟨prepared, hprepared⟩ := hprepare
  have hbase := Options.basePath_liesIn hname htarget bucket.key
  have hnow := prepare_congr hsame hstart hworld hbase hprepared
  have hkept := hsame.ledger_eq_none hbase hledger
  obtain ⟨hkey, hpath, -⟩ := prepare_spec hname htarget hworld hnow
  rw [← hkey] at hsame hpassable hpath
  have hcomplete : ∀ codec, job.medium = .columnar codec → prepared.layout.Complete :=
    fun codec hmedium => complete_of_prepare hmode hmedium hnow
  have hcommit : prepared.survivors.isEmpty = false →
      ((∃ action after, run (prepared.commit job) world = (.ok action, after)) ↔
        prepared.Committable job start.tree) := by
    intro hrows
    rw [commit_succeeds_iff hname htarget hworld hmode hkept hcodec hcolumns hnow hrows]
    exact ⟨fun h => h.congr hsame.symm hpassable.mp hpath hcomplete,
      fun h => h.congr hsame hpassable.mpr hpath hcomplete⟩
  constructor
  · rintro ⟨action, after, hprocess⟩ other hother hrows
    obtain rfl := Except.ok.inj (hprepared.symm.trans hother)
    obtain ⟨found, hfound, hrun⟩ := process_eq_ok_iff.mp hprocess
    obtain rfl := Except.ok.inj (hnow.symm.trans hfound)
    exact (hcommit hrows).mp ⟨action, after, hrun⟩
  · intro hfeasible
    cases hrows : prepared.survivors.isEmpty with
    | true =>
      exact ⟨_, _, process_eq_ok_iff.mpr
        ⟨prepared, hnow, Prepared.run_commit_of_isEmpty hrows world⟩⟩
    | false =>
      obtain ⟨action, after, hrun⟩ := (hcommit hrows).mpr (hfeasible prepared hprepared hrows)
      exact ⟨action, after, process_eq_ok_iff.mpr ⟨prepared, hnow, hrun⟩⟩

/-- Partitions that were all prepared at the start are written one after the other exactly if each of
them could be then.  The invariant is that those still to come see no difference to the start. -/
theorem processAll_succeeds_iff {start world : World} (hstart : start.tree.WellFormed)
    (hworld : world.tree.WellFormed) (hledger : start.ledger = none) {buckets : List Bucket}
    {report : Report} (hseparate : Separate job.options (buckets.map Bucket.key))
    (hcolumns : ∀ bucket ∈ buckets, bucket.rows.columns.Nodup)
    (hsame : ∀ bucket ∈ buckets, World.SameBelow (job.options.place bucket.key) start world)
    (hpassable : ∀ bucket ∈ buckets, (world.tree.Passable (job.options.place bucket.key) ↔
      start.tree.Passable (job.options.place bucket.key)))
    (hprepare : ∀ bucket ∈ buckets, ∃ prepared, job.prepare start bucket = .ok prepared) :
    (∃ last after, run (job.processAll report buckets) world = (.ok last, after)) ↔
      ∀ bucket ∈ buckets, job.Feasible start bucket := by
  induction buckets generalizing world report with
  | nil =>
    refine iff_of_true ⟨report, world, rfl⟩ ?_
    intro bucket hbucket
    contradiction
  | cons bucket rest ih =>
    rw [List.map_cons, Separate, List.pairwise_cons] at hseparate
    simp only [List.forall_mem_cons] at hcolumns hsame hpassable hprepare ⊢
    have hfirst := process_succeeds_iff hmode hname htarget hcodec hstart hworld hledger
      hcolumns.1 hsame.1 hpassable.1 hprepare.1
    have hlater : ∀ action between, run (job.process bucket) world = (.ok action, between) →
        ((∃ last after, run (job.processAll (report.add action) rest) between =
            (.ok last, after)) ↔ ∀ other ∈ rest, job.Feasible start other) := by
      intro action between hprocess
      have hconfined := confined_of_process hname htarget hworld hprocess
      apply ih hconfined.wellFormed hseparate.2 hcolumns.2
      · intro other hother
        obtain ⟨hbelow, habove⟩ := hseparate.1 other.key (List.mem_map_of_mem hother)
        exact (hsame.2 other hother).trans (hconfined.sameBelow _ habove hbelow)
      · intro other hother
        obtain ⟨hbelow, -⟩ := hseparate.1 other.key (List.mem_map_of_mem hother)
        exact (hconfined.passable_iff _ hbelow).trans (hpassable.2 other hother)
      · exact hprepare.2
    constructor
    · rintro ⟨last, after, hrun⟩
      obtain ⟨action, between, hprocess, hrest⟩ := processAll_cons_eq_ok_iff.mp hrun
      exact ⟨hfirst.mp ⟨action, between, hprocess⟩,
        (hlater action between hprocess).mp ⟨last, after, hrest⟩⟩
    · rintro ⟨hfeasible, hothers⟩
      obtain ⟨action, between, hprocess⟩ := hfirst.mpr hfeasible
      obtain ⟨last, after, hrest⟩ := (hlater action between hprocess).mpr hothers
      exact ⟨last, after, processAll_cons_eq_ok_iff.mpr ⟨action, between, hprocess, hrest⟩⟩

end Job

namespace Appender

/-- What is prepared for the partitions of a batch can be written. -/
def Feasible (appender : Appender) (options : Options) (batch : Batch) (world : World) : Prop :=
  ∀ format buckets, options.effectiveFormat = .ok format →
    options.routing.buckets batch = .ok buckets →
      ∀ bucket ∈ buckets, (appender.job options format .real).Feasible world bucket

variable {appender : Appender} {options : Options} {batch : Batch} {world : World} {plan : Plan}

/-- After a successful simulation an append succeeds exactly if nothing is in the way of writing what
is prepared: directories that can be made, places for the file, its metadata and temporary files, and
stored types that hold all values. -/
theorem append_succeeds_iff_of_simulate (hworld : world.tree.WellFormed)
    (hledger : world.ledger = none) (htarget : options.target.Descends)
    {encoding : Table → Bytes} (hcodec : appender.codec = some (.standard encoding))
    (hbatch : batch.WellFormed)
    (hplan : appender.simulate options batch world = .ok plan) :
    (∃ report after, run (appender.append options batch) world = (.ok report, after)) ↔
      appender.Feasible options batch world := by
  obtain ⟨format, hvalid, hformat, hcases⟩ := simulate_eq_ok_iff.mp hplan
  obtain ⟨name, hname⟩ := exists_fileName?_of_validate hvalid
  rcases hcases with ⟨hempty, -⟩ | ⟨hempty, buckets, planned, hbuckets, hplanned, -⟩
  · -- Without rows there is no partition.
    refine iff_of_true ⟨.empty, world, append_eq_ok_iff.mpr
      ⟨format, hvalid, hformat, .inl ⟨hempty, rfl, rfl⟩⟩⟩ ?_
    intro other buckets _ hbuckets bucket hbucket
    obtain ⟨-, hrows, hmem⟩ := Routing.mem_bucket hbuckets hbucket
    obtain ⟨row, hrow⟩ := List.exists_mem_of_ne_nil _ hrows
    rw [Batch.isEmpty, List.isEmpty_iff] at hempty
    have hnone := (hmem row hrow).1
    rw [hempty] at hnone
    contradiction
  · have hmedium : ∀ codec, (appender.job options format .real).medium = .columnar codec →
        ∃ encoding, codec = some (.standard encoding) := by
      intro codec hcolumnar
      cases format with
      | delimited dialect => contradiction
      | columnar => exact ⟨encoding, (Medium.columnar.inj hcolumnar).symm.trans hcodec⟩
    have hequipped : (appender.job options format .real).medium.Equipped := by
      cases format with
      | delimited dialect => rfl
      | columnar =>
        change (Medium.columnar appender.codec).unwritable? = none
        rw [hcodec]
        rfl
    have hprepare : ∀ bucket ∈ buckets, ∃ prepared,
        (appender.job options format .real).prepare world bucket = .ok prepared := by
      intro bucket hbucket
      obtain ⟨each, heach⟩ := Outcome.exists_of_mapM hplanned hbucket
      obtain ⟨prepared, hprepared, -⟩ :=
        @Job.prepare_real (appender.job options format .real) _ rfl hequipped _ _ heach
      exact ⟨prepared, hprepared⟩
    have hall := @Job.processAll_succeeds_iff (appender.job options format .real) _ rfl hname
      htarget hmedium _ _ hworld hworld hledger _ .empty (Routing.separate_buckets hbuckets options)
      (fun bucket hbucket => (Routing.mem_bucket hbuckets hbucket).1 ▸ hbatch.1)
      (fun _ _ => World.SameBelow.refl _ _) (fun _ _ => Iff.rfl) hprepare
    constructor
    · rintro ⟨report, after, hrun⟩ other found hother hfound
      obtain rfl := Except.ok.inj (hformat.symm.trans hother)
      obtain rfl := Except.ok.inj (hbuckets.symm.trans hfound)
      obtain ⟨same, -, hsame, ⟨hrows, -⟩ | ⟨-, others, hothers, hprocess⟩⟩ :=
        append_eq_ok_iff.mp hrun
      · rw [hrows] at hempty
        contradiction
      · obtain rfl := Except.ok.inj (hformat.symm.trans hsame)
        obtain rfl := Except.ok.inj (hbuckets.symm.trans hothers)
        exact hall.mp ⟨report, after, hprocess⟩
    · intro hfeasible
      obtain ⟨report, after, hprocess⟩ := hall.mpr (hfeasible format buckets hformat hbuckets)
      exact ⟨report, after, append_eq_ok_iff.mpr
        ⟨format, hvalid, hformat, .inr ⟨hempty, buckets, hbuckets, hprocess⟩⟩⟩

/-- A value that is added to a file of small integers: the stored value fails as it is saved again. -/
theorem not_feasible_of_small_integers :
    let appender : Appender := ⟨some .standard, 200⟩
    let options := Options.ofTarget ⟨"t.parquet"⟩
    let batch : Batch := ⟨["c"], [[.int 2]]⟩
    let stored : Table := ⟨[⟨"c", .int8, [.integer 1]⟩]⟩
    let world : World := ⟨FileTree.empty.set ["t.parquet"] (.file (.table stored)), none⟩
    world.tree.WellFormed ∧ options.target.Descends ∧ batch.WellFormed ∧
      (∃ plan, appender.simulate options batch world = .ok plan) ∧
      (¬ ∃ report after, run (appender.append options batch) world = (.ok report, after)) ∧
      ¬ appender.Feasible options batch world := by
  intro appender options batch stored world
  have hworld : world.tree.WellFormed :=
    @FileTree.WellFormed.set _ FileTree.wellFormed_empty ["t.parquet"] _ (by decide) (by decide)
      (by decide)
  have hplanned : (appender.simulate options batch world).toOption.isSome = true := by
    decide +kernel
  have happended : (run (appender.append options batch) world).1.toOption.isSome = false := by
    decide +kernel
  have hbatch : batch.WellFormed := by
    unfold Batch.WellFormed
    decide
  obtain ⟨plan, hplan⟩ : ∃ plan, appender.simulate options batch world = .ok plan := by
    cases hresult : appender.simulate options batch world with
    | ok plan => exact ⟨plan, rfl⟩
    | error failure =>
      rw [hresult] at hplanned
      contradiction
  have hfails : ¬ ∃ report after,
      run (appender.append options batch) world = (.ok report, after) := by
    rintro ⟨report, after, hrun⟩
    rw [hrun] at happended
    contradiction
  refine ⟨hworld, by decide, hbatch, ⟨plan, hplan⟩, hfails, ?_⟩
  rwa [← append_succeeds_iff_of_simulate hworld rfl (by decide) rfl hbatch hplan]

end Appender

end TableAppend
