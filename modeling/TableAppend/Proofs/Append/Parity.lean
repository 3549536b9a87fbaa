import TableAppend.Append.Plan
import TableAppend.Proofs.Append.Buckets
import TableAppend.Proofs.Append.Simulation

/-!
# A plan and the append it foretells

A simulation prepares every partition in the world as it is, and an append prepares a partition after
the earlier ones have been written.  Since these change nothing that the later ones look at, the append
does what the simulation has foretold.
-/

namespace TableAppend

open Change (run run_bind_eq_ok_iff run_inspect_eq_ok_iff run_ofOutcome_eq_ok_iff run_pure_eq_ok_iff)

/-- What is planned for a partition is what is done. -/
structure PlannedAction.Foretells (planned : PlannedAction) (done : Action) : Prop where
  path : planned.path = done.path
  partition : planned.key.text? = done.partition
  rows : planned.rowsToAppend = done.rowsWritten
  created : planned.creates = done.created
  rolledOver : planned.rolledOver = done.rolledOver
  antiJoined : planned.antiJoined = done.antiJoined

theorem foretells_of_alike {planned prepared : Prepared} (halike : planned.Alike prepared) :
    (PlannedAction.ofPrepared planned).Foretells prepared.action where
  path := halike.path
  partition := congrArg PartitionKey.text? halike.key
  rows := congrArg Batch.size halike.survivors
  created := by
    change planned.creates = prepared.creates
    rw [Prepared.creates, Prepared.creates, halike.present, halike.survivors]
  rolledOver := halike.rolledOver
  antiJoined := halike.antiJoined

/-! ## Reports as sums of actions -/

namespace Report

theorem actions_foldl_add (actions : List Action) (report : Report) :
    (actions.foldl add report).actions = report.actions ++ actions := by
  induction actions generalizing report with
  | nil => simp
  | cons action rest ih =>
    rw [List.foldl_cons, ih, add, List.append_assoc]
    rfl

theorem written_foldl_add (actions : List Action) (report : Report) :
    (actions.foldl add report).written =
      (actions.filter (·.rowsWritten ≠ 0)).foldl (fun paths action => addPath paths action.path)
        report.written := by
  induction actions generalizing report with
  | nil => rfl
  | cons action rest ih =>
    rw [List.foldl_cons, ih, add]
    by_cases hrows : action.rowsWritten = 0
    · rw [List.filter_cons_of_neg (by simpa using hrows)]
      simp only [hrows, ↓reduceIte]
    · rw [List.filter_cons_of_pos (by simpa using hrows), List.foldl_cons]
      simp only [hrows, ↓reduceIte]

end Report

theorem paths_of_foretells {planned : List PlannedAction} {actions : List Action}
    (hforetold : List.Forall₂ PlannedAction.Foretells planned actions) (paths : List Path) :
    (planned.filter (·.rowsToAppend ≠ 0)).foldl (fun paths each => Report.addPath paths each.path)
        paths =
      (actions.filter (·.rowsWritten ≠ 0)).foldl
        (fun paths action => Report.addPath paths action.path) paths := by
  induction hforetold generalizing paths with
  | nil => rfl
  | @cons plannedAction action _ _ hfirst _ ih =>
    by_cases hrows : action.rowsWritten = 0
    · rw [List.filter_cons_of_neg (by simpa [hfirst.rows] using hrows),
        List.filter_cons_of_neg (by simpa using hrows), ih]
    · rw [List.filter_cons_of_pos (by simpa [hfirst.rows] using hrows),
        List.filter_cons_of_pos (by simpa using hrows), List.foldl_cons, List.foldl_cons,
        hfirst.path, ih]

/-! ## Partition by partition -/

namespace Job

variable {job : Job} {name : String} (hmode : job.mode = .real)
  (hname : job.options.target.fileName? = some name) (htarget : job.options.target.Descends)

include hmode hname htarget

/-- Each partition is prepared after the earlier ones as it is in the world at the start.  The
invariant is that the partitions still to come see no difference to that world. -/
theorem plan_of_processAll {start world after : World} (hstart : start.tree.WellFormed)
    (hworld : world.tree.WellFormed) {buckets : List Bucket} {report last : Report}
    (hseparate : Separate job.options (buckets.map Bucket.key))
    (hsame : ∀ bucket ∈ buckets, World.SameBelow (job.options.place bucket.key) start world)
    (hrun : run (job.processAll report buckets) world = (.ok last, after)) :
    ∃ (planned : List Prepared) (actions : List Action),
      buckets.mapM (job.simulated.prepare start) = .ok planned ∧
      List.Forall₂ PlannedAction.Foretells (planned.map .ofPrepared) actions ∧
      last = actions.foldl Report.add report := by
  induction buckets generalizing world report with
  | nil =>
    obtain ⟨rfl, -⟩ := run_pure_eq_ok_iff.mp hrun
    exact ⟨[], [], rfl, .nil, rfl⟩
  | cons bucket rest ih =>
    obtain ⟨action, between, hprocess, hrest⟩ := processAll_cons_eq_ok_iff.mp hrun
    obtain ⟨prepared, hprepared, hcommit⟩ := process_eq_ok_iff.mp hprocess
    have hbase := Options.basePath_liesIn hname htarget bucket.key
    have hprepareStart := prepare_congr (hsame bucket List.mem_cons_self).symm hworld hstart hbase
      hprepared
    obtain ⟨planned, hplanned, halike⟩ := prepare_simulated hmode hprepareStart
    obtain rfl := Prepared.action_of_commit hcommit
    have hconfined := confined_of_process hname htarget hworld hprocess
    rw [List.map_cons, Separate, List.pairwise_cons] at hseparate
    have hsameRest : ∀ other ∈ rest,
        World.SameBelow (job.options.place other.key) start between := by
      intro other hother
      obtain ⟨hbelow, habove⟩ := hseparate.1 other.key (List.mem_map_of_mem hother)
      exact (hsame other (List.mem_cons_of_mem _ hother)).trans
        (hconfined.sameBelow _ habove hbelow)
    obtain ⟨others, actions, hothers, hforetold, hlast⟩ :=
      ih hconfined.wellFormed hseparate.2 hsameRest hrest
    refine ⟨planned :: others, prepared.action :: actions, ?_,
      .cons (foretells_of_alike halike) hforetold, hlast⟩
    rw [Outcome.mapM_eq_ok_iff] at hothers ⊢
    exact .cons hplanned hothers

end Job

namespace Appender

variable {appender : Appender} {options : Options} {batch : Batch} {world after : World}

/-- What an append consists of before the first partition is prepared. -/
theorem append_eq_ok_iff {report : Report} :
    run (appender.append options batch) world = (.ok report, after) ↔
      ∃ format, options.validate world.tree = .ok () ∧ options.effectiveFormat = .ok format ∧
        ((batch.isEmpty = true ∧ report = .empty ∧ after = world) ∨
          (batch.isEmpty = false ∧ ∃ buckets, options.routing.buckets batch = .ok buckets ∧
            run ((appender.job options format .real).processAll .empty buckets) world =
              (.ok report, after))) := by
  rw [append]
  constructor
  · intro hrun
    obtain ⟨⟨⟩, first, hvalid, hrest⟩ := run_bind_eq_ok_iff.mp hrun
    obtain ⟨hvalidate, rfl⟩ := run_inspect_eq_ok_iff.mp hvalid
    obtain ⟨format, second, hformat, hlast⟩ := run_bind_eq_ok_iff.mp hrest
    obtain ⟨heffective, rfl⟩ := run_ofOutcome_eq_ok_iff.mp hformat
    refine ⟨format, hvalidate, heffective, ?_⟩
    cases hempty : batch.isEmpty with
    | true =>
      rw [hempty] at hlast
      obtain ⟨rfl, rfl⟩ := run_pure_eq_ok_iff.mp hlast
      exact .inl ⟨rfl, rfl, rfl⟩
    | false =>
      rw [hempty] at hlast
      obtain ⟨buckets, third, hbuckets, hprocess⟩ := run_bind_eq_ok_iff.mp hlast
      obtain ⟨hrouted, rfl⟩ := run_ofOutcome_eq_ok_iff.mp hbuckets
      exact .inr ⟨rfl, buckets, hrouted, hprocess⟩
  · rintro ⟨format, hvalidate, heffective, hcases⟩
    refine run_bind_eq_ok_iff.mpr ⟨(), world, run_inspect_eq_ok_iff.mpr ⟨hvalidate, rfl⟩, ?_⟩
    refine run_bind_eq_ok_iff.mpr ⟨format, world,
      run_ofOutcome_eq_ok_iff.mpr ⟨heffective, rfl⟩, ?_⟩
    rcases hcases with ⟨hempty, rfl, rfl⟩ | ⟨hempty, buckets, hrouted, hprocess⟩
    · rw [hempty]
      exact run_pure_eq_ok_iff.mpr ⟨rfl, rfl⟩
    · rw [hempty]
      exact run_bind_eq_ok_iff.mpr ⟨buckets, world,
        run_ofOutcome_eq_ok_iff.mpr ⟨hrouted, rfl⟩, hprocess⟩

/-- An append to one partition only. -/
theorem append_of_prepared {format : Format} {bucket : Bucket} {prepared : Prepared}
    {action : Action} (hvalid : options.validate world.tree = .ok ())
    (hformat : options.effectiveFormat = .ok format) (hrows : batch.isEmpty = false)
    (hbuckets : options.routing.buckets batch = .ok [bucket])
    (hprepared : (appender.job options format .real).prepare world bucket = .ok prepared)
    (hcommit : run (prepared.commit (appender.job options format .real)) world =
      (.ok action, after)) :
    run (appender.append options batch) world = (.ok (Report.empty.add action), after) :=
  append_eq_ok_iff.mpr ⟨format, hvalid, hformat, .inr ⟨hrows, [bucket], hbuckets,
    Job.processAll_cons_eq_ok_iff.mpr ⟨action, after,
      Job.process_eq_ok_iff.mpr ⟨prepared, hprepared, hcommit⟩, rfl⟩⟩⟩

theorem exists_fileName?_of_validate (hvalid : options.validate world.tree = .ok ()) :
    ∃ name, options.target.fileName? = some name := by
  rw [Options.validate] at hvalid
  cases hname : options.target.fileName? with
  | some name => exact ⟨name, rfl⟩
  | none => simp [hname] at hvalid

/-- The marks and the routing of valid options are valid. -/
theorem validated_of_validate {tree : FileTree} (hvalid : options.validate tree = .ok ())
    {format : Format} (hformat : options.effectiveFormat = .ok format) :
    Options.validateFormat format = .ok () ∧ options.routing.validate = .ok () := by
  rw [Options.validate, hformat] at hvalid
  split at hvalid
  · contradiction
  · obtain ⟨found, hsame, hvalid⟩ := Outcome.bind_eq_ok_iff.mp hvalid
    rw [← Except.ok.inj hsame] at hvalid
    obtain ⟨⟨⟩, hmarks, hvalid⟩ := Outcome.bind_eq_ok_iff.mp hvalid
    obtain ⟨⟨⟩, hrouting, -⟩ := Outcome.bind_eq_ok_iff.mp hvalid
    exact ⟨hmarks, hrouting⟩

/-- The files matter for options only in that the target must not be a directory. -/
theorem validate_of_validate {tree after : FileTree} (hvalid : options.validate tree = .ok ())
    (htarget : after.isDirectory options.target = false) : options.validate after = .ok () := by
  have hbefore : tree.isDirectory options.target = false := by
    rw [Options.validate] at hvalid
    cases hdirectory : tree.isDirectory options.target with
    | false => rfl
    | true => simp [hdirectory] at hvalid
  rwa [Options.validate, htarget, ← hbefore]

/-- What a simulation consists of. -/
theorem simulate_eq_ok_iff {plan : Plan} :
    appender.simulate options batch world = .ok plan ↔
      ∃ format, options.validate world.tree = .ok () ∧ options.effectiveFormat = .ok format ∧
        ((batch.isEmpty = true ∧
            plan = ⟨(appender.job options format .simulated).medium.name, [], [], 0⟩) ∨
          (batch.isEmpty = false ∧ ∃ buckets planned, options.routing.buckets batch = .ok buckets ∧
            buckets.mapM ((appender.job options format .simulated).prepare world) = .ok planned ∧
            plan = {
              medium := (appender.job options format .simulated).medium.name
              actions := planned.map .ofPrepared
              warnings := planned.flatMap fun each => each.remarks.warnings
              totalRows := batch.size })) := by
  rw [simulate]
  constructor
  · intro hplan
    obtain ⟨⟨⟩, hvalid, hrest⟩ := Outcome.bind_eq_ok_iff.mp hplan
    obtain ⟨format, hformat, hlast⟩ := Outcome.bind_eq_ok_iff.mp hrest
    refine ⟨format, hvalid, hformat, ?_⟩
    dsimp only at hlast
    cases hempty : batch.isEmpty with
    | true =>
      rw [hempty] at hlast
      exact .inl ⟨rfl, (Except.ok.inj hlast).symm⟩
    | false =>
      rw [hempty] at hlast
      obtain ⟨buckets, hbuckets, hprepare⟩ := Outcome.bind_eq_ok_iff.mp hlast
      obtain ⟨planned, hplanned, hresult⟩ := Outcome.bind_eq_ok_iff.mp hprepare
      exact .inr ⟨rfl, buckets, planned, hbuckets, hplanned, (Except.ok.inj hresult).symm⟩
  · rintro ⟨format, hvalid, hformat, hcases⟩
    refine Outcome.bind_eq_ok_iff.mpr ⟨(), hvalid, Outcome.bind_eq_ok_iff.mpr ⟨format, hformat, ?_⟩⟩
    dsimp only
    rcases hcases with ⟨hempty, rfl⟩ | ⟨hempty, buckets, planned, hbuckets, hplanned, rfl⟩
    · rw [hempty]
      rfl
    · rw [hempty]
      exact Outcome.bind_eq_ok_iff.mpr ⟨buckets, hbuckets,
        Outcome.bind_eq_ok_iff.mpr ⟨planned, hplanned, rfl⟩⟩

/-- Whatever an append does has been foretold by the simulation, which fails only where the append
fails and changes nothing. -/
theorem simulate_foretells_append (appender : Appender) (options : Options) (batch : Batch)
    (world : World) (hworld : world.tree.WellFormed) (htarget : options.target.Descends) :
    (∀ report after, run (appender.append options batch) world = (.ok report, after) →
      ∃ plan, appender.simulate options batch world = .ok plan ∧
        List.Forall₂ PlannedAction.Foretells plan.actions report.actions ∧
          plan.paths = report.written) ∧
    (∀ failure, appender.simulate options batch world = .error failure →
      ∃ cause after, run (appender.append options batch) world = (.error cause, after)) ∧
    (run (Change.inspect (appender.simulate options batch)) world).2 = world := by
  have hforetell : ∀ report after,
      run (appender.append options batch) world = (.ok report, after) →
        ∃ plan, appender.simulate options batch world = .ok plan ∧
          List.Forall₂ PlannedAction.Foretells plan.actions report.actions ∧
            plan.paths = report.written := by
    intro report after hrun
    obtain ⟨format, hvalid, hformat, hcases⟩ := append_eq_ok_iff.mp hrun
    obtain ⟨name, hname⟩ := exists_fileName?_of_validate hvalid
    rcases hcases with ⟨hempty, rfl, -⟩ | ⟨hempty, buckets, hbuckets, hprocess⟩
    · exact ⟨⟨_, [], [], 0⟩, simulate_eq_ok_iff.mpr ⟨format, hvalid, hformat, .inl ⟨hempty, rfl⟩⟩,
        .nil, rfl⟩
    · obtain ⟨planned, actions, hplanned, hforetold, rfl⟩ :=
        @Job.plan_of_processAll (appender.job options format .real) _ rfl hname htarget
          _ _ _ hworld hworld _ _ _ (Routing.separate_buckets hbuckets options)
          (fun bucket _ => World.SameBelow.refl _ _) hprocess
      refine ⟨_, simulate_eq_ok_iff.mpr ⟨format, hvalid, hformat,
        .inr ⟨hempty, buckets, planned, hbuckets, hplanned, rfl⟩⟩, ?_, ?_⟩
      · rw [Report.actions_foldl_add]
        exact hforetold
      · rw [Report.written_foldl_add]
        exact paths_of_foretells hforetold []
  refine ⟨hforetell, ?_, rfl⟩
  intro failure hfailure
  rcases hrun : run (appender.append options batch) world with ⟨cause | report, after⟩
  · exact ⟨cause, after, rfl⟩
  · obtain ⟨plan, hplan, -, -⟩ := hforetell report after hrun
    rw [hfailure] at hplan
    contradiction

/-- Rows of two partitions, appended where there is nothing yet. -/
theorem simulate_foretells_append_of_two_partitions :
    let appender : Appender := ⟨some .standard, 200⟩
    let options : Options :=
      { Options.ofTarget ⟨"out/rows.csv"⟩ with routing := .byColumn "kind" }
    let batch : Batch := ⟨["kind", "id"], [[.text "a", .int 1], [.text "b", .int 2]]⟩
    let world : World := ⟨.empty, none⟩
    world.tree.WellFormed ∧ options.target.Descends ∧
      (∀ report after, run (appender.append options batch) world = (.ok report, after) →
        ∃ plan, appender.simulate options batch world = .ok plan ∧
          List.Forall₂ PlannedAction.Foretells plan.actions report.actions ∧
            plan.paths = report.written) ∧
      (∀ failure, appender.simulate options batch world = .error failure →
        ∃ cause after, run (appender.append options batch) world = (.error cause, after)) ∧
      (run (Change.inspect (appender.simulate options batch)) world).2 = world :=
  ⟨FileTree.wellFormed_empty, by decide,
    simulate_foretells_append _ _ _ _ FileTree.wellFormed_empty (by decide)⟩

end Appender

end TableAppend
