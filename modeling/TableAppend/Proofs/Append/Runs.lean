import TableAppend.Proofs.Append.Parity

/-!
# Runs of appends

A run is a row of appends each of which succeeds or fails in preparing a partition, so that whatever
has been begun to be written is written.  A partition is touched by a run only when it is itself
written, and `Runs.at_key` proves by induction over the run what every such writing preserves.
-/

namespace TableAppend

open Change (run)
open World (SameBelow)

/-! ## One append -/

/-- An append of a batch gets as far as these partitions. -/
structure Options.Reaches (options : Options) (batch : Batch) (tree : FileTree) (format : Format)
    (buckets : List Bucket) : Prop where
  valid : options.validate tree = .ok ()
  format : options.effectiveFormat = .ok format
  rows : batch.isEmpty = false
  routed : options.routing.buckets batch = .ok buckets

/-- Partitions are written in a row until the last one or one that cannot be prepared.  Each written
partition is kept with what was prepared for it. -/
inductive Job.Settles (job : Job) : World → List Bucket → List (Bucket × Prepared) → World → Prop
  | finished (world : World) : Settles job world [] [] world
  | stopped {world : World} {bucket : Bucket} {rest : List Bucket} {failure : Failure}
      (hfailure : job.prepare world bucket = .error failure) :
      Settles job world (bucket :: rest) [] world
  | written {world between after : World} {bucket : Bucket} {rest : List Bucket}
      {prepared : Prepared} {action : Action} {done : List (Bucket × Prepared)}
      (hprepared : job.prepare world bucket = .ok prepared)
      (hcommit : run (prepared.commit job) world = (.ok action, between))
      (hrest : Settles job between rest done after) :
      Settles job world (bucket :: rest) ((bucket, prepared) :: done) after

/-- An append that succeeds, or fails before anything is written or in preparing a partition. -/
inductive Appender.Settles (appender : Appender) (options : Options) (batch : Batch)
    (world : World) : List (Bucket × Prepared) → World → Prop
  | idle (hidle : ∀ format buckets, ¬ options.Reaches batch world.tree format buckets) :
      Settles appender options batch world [] world
  | served {format : Format} {buckets : List Bucket} {done : List (Bucket × Prepared)}
      {after : World} (hreaches : options.Reaches batch world.tree format buckets)
      (hsettles : (appender.job options format .real).Settles world buckets done after) :
      Settles appender options batch world done after

theorem Job.Settles.run_processAll {job : Job} {world after : World} {buckets : List Bucket}
    {done : List (Bucket × Prepared)} (hsettles : job.Settles world buckets done after)
    (report : Report) : (run (job.processAll report buckets) world).2 = after := by
  induction hsettles generalizing report with
  | finished world => rfl
  | @stopped world bucket rest failure hfailure =>
    have hprocess : run (job.process bucket) world = (.error failure, world) := by
      rw [process, Change.run_bind, Change.run_inspect, hfailure]
    rw [processAll, Change.run_bind, run_adapt, hprocess]
    rfl
  | @written world between after bucket rest prepared action done hprepared hcommit hrest ih =>
    have hprocess : run (job.process bucket) world = (.ok action, between) :=
      process_eq_ok_iff.mpr ⟨prepared, hprepared, hcommit⟩
    rw [processAll, Change.run_bind, run_adapt, hprocess]
    exact ih (report.add action)

theorem Job.Settles.mem_buckets {job : Job} {world after : World} {buckets : List Bucket}
    {done : List (Bucket × Prepared)} (hsettles : job.Settles world buckets done after)
    {each : Bucket × Prepared} (heach : each ∈ done) : each.1 ∈ buckets := by
  induction hsettles with
  | finished world => exact absurd heach List.not_mem_nil
  | stopped hfailure => exact absurd heach List.not_mem_nil
  | written hprepared hcommit hrest ih =>
    rcases List.mem_cons.mp heach with rfl | hlater
    · exact List.mem_cons_self
    · exact List.mem_cons_of_mem _ (ih hlater)

theorem Job.settles_of_processAll {job : Job} {world after : World} {buckets : List Bucket}
    {report last : Report}
    (hrun : run (job.processAll report buckets) world = (.ok last, after)) :
    ∃ done, job.Settles world buckets done after ∧
      last.actions = report.actions ++ done.map (fun each => each.2.action) ∧
        done.map Prod.fst = buckets := by
  induction buckets generalizing world report with
  | nil =>
    obtain ⟨rfl, rfl⟩ := Change.run_pure_eq_ok_iff.mp hrun
    exact ⟨[], .finished _, by simp, rfl⟩
  | cons bucket rest ih =>
    obtain ⟨action, between, hprocess, hrest⟩ := processAll_cons_eq_ok_iff.mp hrun
    obtain ⟨prepared, hprepared, hcommit⟩ := process_eq_ok_iff.mp hprocess
    obtain ⟨done, hsettles, hactions, hdone⟩ := ih hrest
    refine ⟨(bucket, prepared) :: done, .written hprepared hcommit hsettles, ?_,
      by rw [List.map_cons, hdone]⟩
    rw [hactions, Report.add, Prepared.action_of_commit hcommit]
    simp

section Append

variable {appender : Appender} {options : Options} {batch : Batch} {world : World} {format : Format}

/-- An append without rows does nothing. -/
theorem Appender.run_append_of_isEmpty (hvalid : options.validate world.tree = .ok ())
    (hformat : options.effectiveFormat = .ok format) (hrows : batch.isEmpty = true) :
    run (appender.append options batch) world = (.ok .empty, world) :=
  append_eq_ok_iff.mpr ⟨format, hvalid, hformat, .inl ⟨hrows, rfl, rfl⟩⟩

/-- An append that gets to its partitions processes them. -/
theorem Appender.run_append_of_reaches {buckets : List Bucket}
    (hreaches : options.Reaches batch world.tree format buckets) :
    run (appender.append options batch) world =
      run ((appender.job options format .real).processAll .empty buckets) world := by
  obtain ⟨hvalid, hformat, hrows, hbuckets⟩ := hreaches
  rw [append, Change.run_bind, Change.run_inspect, hvalid]
  dsimp only
  rw [Change.run_bind, Change.run_ofOutcome, hformat, hrows]
  change run (Change.ofOutcome (options.routing.buckets batch) >>= fun buckets =>
    (appender.job options format .real).processAll .empty buckets) world = _
  rw [Change.run_bind, Change.run_ofOutcome, hbuckets]

end Append

/-- The world that is left by an append. -/
theorem Appender.Settles.run_append {appender : Appender} {options : Options} {batch : Batch}
    {world after : World} {done : List (Bucket × Prepared)}
    (hsettles : appender.Settles options batch world done after) :
    (run (appender.append options batch) world).2 = after := by
  cases hsettles with
  | idle hidle =>
    rw [append, Change.run_bind, Change.run_inspect]
    cases hvalid : options.validate world.tree with
    | error failure => rfl
    | ok value =>
      dsimp only
      rw [Change.run_bind, Change.run_ofOutcome]
      cases hformat : options.effectiveFormat with
      | error failure => rfl
      | ok format =>
        cases hrows : batch.isEmpty with
        | true => rfl
        | false =>
          change (run (Change.ofOutcome (options.routing.buckets batch) >>= fun buckets =>
            (appender.job options format .real).processAll .empty buckets) world).2 = world
          rw [Change.run_bind, Change.run_ofOutcome]
          cases hbuckets : options.routing.buckets batch with
          | error failure => rfl
          | ok buckets => exact absurd ⟨hvalid, hformat, hrows, hbuckets⟩ (hidle format buckets)
  | @served format buckets done after hreaches hsettles =>
    rw [run_append_of_reaches hreaches]
    exact hsettles.run_processAll .empty

/-- An append that succeeds settles. -/
theorem Appender.settles_of_append {appender : Appender} {options : Options} {batch : Batch}
    {world after : World} {report : Report}
    (hrun : run (appender.append options batch) world = (.ok report, after)) :
    ∃ done, appender.Settles options batch world done after ∧
      report.actions = done.map (fun each => each.2.action) ∧
        ∀ format buckets, options.Reaches batch world.tree format buckets →
          done.map Prod.fst = buckets := by
  obtain ⟨format, hvalid, hformat, ⟨hrows, rfl, rfl⟩ | ⟨hrows, buckets, hbuckets, hprocess⟩⟩ :=
    append_eq_ok_iff.mp hrun
  · have hidle : ∀ {tree} format buckets, ¬ options.Reaches batch tree format buckets := by
      intro tree other buckets hreaches
      rw [hreaches.rows] at hrows
      contradiction
    exact ⟨[], .idle hidle, rfl, fun other buckets hreaches => absurd hreaches (hidle other buckets)⟩
  · obtain ⟨done, hsettles, hactions, hdone⟩ := Job.settles_of_processAll hprocess
    refine ⟨done, .served ⟨hvalid, hformat, hrows, hbuckets⟩ hsettles, hactions, ?_⟩
    intro other found hreaches
    rw [hdone, ← Except.ok.inj (hreaches.routed.symm.trans hbuckets)]

/-- The numbers of rows in the report of such an append are those of its partitions. -/
theorem Appender.exists_settles {appender : Appender} {options : Options} {batch : Batch}
    {world : World} {written : List ℕ}
    (hreport : (run (appender.append options batch) world).1.toOption.map
      (fun report => report.actions.map Action.rowsWritten) = some written) :
    ∃ done after, appender.Settles options batch world done after ∧
      done.map (fun each => each.2.survivors.size) = written := by
  rcases hrun : run (appender.append options batch) world with ⟨failure | report, after⟩
  · rw [hrun] at hreport
    cases hreport
  · obtain ⟨done, hsettles, hactions, -⟩ := Appender.settles_of_append hrun
    refine ⟨done, after, hsettles, ?_⟩
    rw [hrun] at hreport
    have hwritten : report.actions.map Action.rowsWritten = written := Option.some.inj hreport
    rw [← hwritten, hactions, List.map_map]
    rfl

/-! ## What an append does to one partition -/

namespace Job

/-- What becomes of a partition: it is written, or nothing changes in its directory. -/
inductive Touches (job : Job) (key : PartitionKey) (world after : World) (buckets : List Bucket) :
    List (Bucket × Prepared) → Prop
  | spared (hsame : SameBelow (job.options.place key) world after) :
      Touches job key world after buckets []
  | written {before between : World} {bucket : Bucket} {prepared : Prepared}
      (hbucket : bucket ∈ buckets) (hkey : bucket.key = key)
      (hsame : SameBelow (job.options.place key) world before)
      (hbefore : before.tree.WellFormed) (hledger : before.ledger = none)
      (hprepared : job.prepare before bucket = .ok prepared)
      (hcommit : run (prepared.commit job) before = (.ok prepared.action, between))
      (hbetween : between.tree.WellFormed) (hkept : between.ledger = none)
      (hrest : SameBelow (job.options.place key) between after) :
      Touches job key world after buckets [(bucket, prepared)]

variable {job : Job} {name : String} (hname : job.options.target.fileName? = some name)
  (htarget : job.options.target.Descends)

include hname htarget

theorem ledger_of_commit {world after : World} (hworld : world.tree.WellFormed)
    (hledger : world.ledger = none) {bucket : Bucket} {prepared : Prepared} {action : Action}
    (hprepared : job.prepare world bucket = .ok prepared)
    (hcommit : run (prepared.commit job) world = (.ok action, after)) : after.ledger = none := by
  cases hrows : prepared.survivors.isEmpty with
  | true =>
    rw [Prepared.run_commit_of_isEmpty hrows, Prod.mk.injEq] at hcommit
    rw [← hcommit.2, hledger]
  | false =>
    obtain ⟨hkey, hpath, -⟩ := prepare_spec hname htarget hworld hprepared
    rw [← hkey] at hpath
    obtain ⟨-, file, -, hfile⟩ := id hpath
    obtain ⟨content, metadata, hwritten⟩ :=
      Prepared.exists_written_of_commit hname htarget hworld hpath hledger hrows hcommit hfile
    exact hwritten.ledger

/-- Each partition is written at most once by an append, and the others leave it alone. -/
theorem Settles.touches {world after : World} (hworld : world.tree.WellFormed)
    (hledger : world.ledger = none) {buckets : List Bucket} {done : List (Bucket × Prepared)}
    (hseparate : Separate job.options (buckets.map Bucket.key)) (key : PartitionKey)
    (hapart : ∀ bucket ∈ buckets, bucket.key ≠ key →
      ¬ job.options.place bucket.key <+: job.options.place key ∧
        ¬ job.options.place key <+: job.options.place bucket.key)
    (hsettles : job.Settles world buckets done after) :
    after.tree.WellFormed ∧ after.ledger = none ∧
      job.Touches key world after buckets (done.filter fun each => each.1.key = key) := by
  induction hsettles with
  | finished world => exact ⟨hworld, hledger, .spared (SameBelow.refl _ _)⟩
  | stopped hfailure => exact ⟨hworld, hledger, .spared (SameBelow.refl _ _)⟩
  | @written world between after bucket rest prepared action done hprepared hcommit hrest ih =>
    rw [List.map_cons, Separate, List.pairwise_cons] at hseparate
    have hconfined := confined_of_process hname htarget hworld
      (process_eq_ok_iff.mpr ⟨prepared, hprepared, hcommit⟩)
    have hkept := ledger_of_commit hname htarget hworld hledger hprepared hcommit
    obtain ⟨hwellFormed, hlast, htouches⟩ := ih hconfined.wellFormed hkept hseparate.2
      fun other hother => hapart other (List.mem_cons_of_mem _ hother)
    refine ⟨hwellFormed, hlast, ?_⟩
    by_cases hkey : bucket.key = key
    · rw [List.filter_cons_of_pos (by simpa using hkey)]
      generalize hfilter : (done.filter fun each => each.1.key = key) = more at htouches
      cases htouches with
      | spared hsame =>
        obtain rfl := Prepared.action_of_commit hcommit
        exact .written List.mem_cons_self hkey (SameBelow.refl _ _) hworld hledger hprepared hcommit
          hconfined.wellFormed hkept hsame
      | @written before last other found hother hotherKey =>
        -- The partition would be written a second time.
        have hsegments := (hseparate.1 other.key (List.mem_map_of_mem hother)).1
        rw [hkey, hotherKey] at hsegments
        exact absurd (List.prefix_refl _) hsegments
    · rw [List.filter_cons_of_neg (by simpa using hkey)]
      obtain ⟨hbelow, habove⟩ := hapart bucket List.mem_cons_self hkey
      have hsame := hconfined.sameBelow _ habove hbelow
      generalize (done.filter fun each => each.1.key = key) = more at htouches
      cases htouches with
      | spared hrestSame => exact .spared (hsame.trans hrestSame)
      | written hother hotherKey hrestSame hbefore hbeforeLedger hfound hrun hbetween hstill
          hlastSame =>
        exact .written (List.mem_cons_of_mem _ hother) hotherKey (hsame.trans hrestSame) hbefore
          hbeforeLedger hfound hrun hbetween hstill hlastSame

end Job

/-- The partitions of a batch do not lie in the directories of others. -/
theorem Options.Reaches.apart {options : Options} {batch : Batch} {tree : FileTree} {format : Format}
    {buckets : List Bucket} (hreaches : options.Reaches batch tree format buckets)
    {key : PartitionKey} (hkind : key = none ↔ options.routing.scheme = .none) {bucket : Bucket}
    (hbucket : bucket ∈ buckets) (hne : bucket.key ≠ key) :
    ¬ options.place bucket.key <+: options.place key ∧
      ¬ options.place key <+: options.place bucket.key := by
  have hnone := Routing.bucket_key_eq_none_iff hreaches.routed hbucket
  have hpair : Job.Separate options [bucket.key, key] := by
    refine Job.separate_of_apart (Job.apart_of_nodup (by simpa using hne) (.inr ?_))
    intro hmem
    rcases List.mem_pair.mp hmem with h | h
    · exact hne (h.symm.trans (hkind.mpr (hnone.mp h.symm)).symm)
    · exact hne ((hnone.mpr (hkind.mp h.symm)).trans h)
  exact (List.pairwise_cons.mp hpair).1 key List.mem_cons_self

namespace Appender

variable {appender : Appender} {options : Options} {name : String}
  (hname : options.target.fileName? = some name) (htarget : options.target.Descends)
  {key : PartitionKey} (hkind : key = none ↔ options.routing.scheme = .none)

include hname htarget hkind

/-- An append leaves a partition alone or writes it once. -/
theorem Settles.touches {batch : Batch} {world after : World} {done : List (Bucket × Prepared)}
    (hworld : world.tree.WellFormed) (hledger : world.ledger = none)
    (hsettles : appender.Settles options batch world done after) :
    after.tree.WellFormed ∧ after.ledger = none ∧
      (((done.filter fun each => each.1.key = key) = [] ∧
          SameBelow (options.place key) world after) ∨
        ∃ format buckets, options.Reaches batch world.tree format buckets ∧
          (appender.job options format .real).Touches key world after buckets
            (done.filter fun each => each.1.key = key)) := by
  cases hsettles with
  | idle hidle => exact ⟨hworld, hledger, .inl ⟨rfl, SameBelow.refl _ _⟩⟩
  | @served format buckets done after hreaches hsettles =>
    obtain ⟨hwellFormed, hkept, htouches⟩ := @Job.Settles.touches
      (appender.job options format .real) _ hname htarget _ _ hworld hledger _ _
      (Routing.separate_buckets hreaches.routed options) key
      (fun _ hbucket hne => hreaches.apart hkind hbucket hne) hsettles
    exact ⟨hwellFormed, hkept, .inr ⟨format, buckets, hreaches, htouches⟩⟩

end Appender

/-! ## Many appends -/

/-- A row of appends, each with its options, and the partitions they have written. -/
inductive Appender.Runs (appender : Appender) (start : World) :
    List (Options × Batch) → List (Bucket × Prepared) → World → Prop
  | nothing : Runs appender start [] [] start
  | next {calls : List (Options × Batch)} {done more : List (Bucket × Prepared)}
      {world after : World} {options : Options} {batch : Batch}
      (hruns : Runs appender start calls done world)
      (hsettles : appender.Settles options batch world more after) :
      Runs appender start (calls ++ [(options, batch)]) (done ++ more) after

namespace Appender.Runs

variable {appender : Appender} {start world : World} {calls : List (Options × Batch)}
  {done : List (Bucket × Prepared)}

theorem trans {later : List (Options × Batch)} {more : List (Bucket × Prepared)} {after : World}
    (hruns : appender.Runs start calls done world)
    (hlater : appender.Runs world later more after) :
    appender.Runs start (calls ++ later) (done ++ more) after := by
  induction hlater with
  | nothing => simpa using hruns
  | next _ hsettles ih =>
    rw [← List.append_assoc, ← List.append_assoc]
    exact .next ih hsettles

/-- Whatever holds at the start, survives changes elsewhere and is kept whenever the partition is
written, holds of the partition after every run.  The first argument counts the appends. -/
theorem at_key {options : Options} {name : String} (hname : options.target.fileName? = some name)
    (htarget : options.target.Descends) {key : PartitionKey}
    (hkind : key = none ↔ options.routing.scheme = .none) (hstart : start.tree.WellFormed)
    (hledger : start.ledger = none)
    (hcalls : ∀ call ∈ calls, ∃ limits, call.1 = { options with limits })
    (hruns : appender.Runs start calls done world)
    {holds : ℕ → World → List (Bucket × Prepared) → Prop} (hfirst : holds 0 start [])
    (hmore : ∀ {count world done}, holds count world done → holds (count + 1) world done)
    (hframe : ∀ {count before after done}, before.tree.WellFormed → after.tree.WellFormed →
      before.ledger = none → SameBelow (options.place key) before after →
      holds count before done → holds count after done)
    (hwritten : ∀ {count call tree format buckets bucket prepared before after done},
      count < calls.length → call ∈ calls → call.1.Reaches call.2 tree format buckets →
      bucket ∈ buckets → bucket.key = key → before.tree.WellFormed → before.ledger = none →
      (appender.job call.1 format .real).prepare before bucket = .ok prepared →
      run (prepared.commit (appender.job call.1 format .real)) before =
        (.ok prepared.action, after) →
      holds count before done → holds (count + 1) after (done ++ [(bucket, prepared)])) :
    world.tree.WellFormed ∧ world.ledger = none ∧
      holds calls.length world (done.filter fun each => each.1.key = key) := by
  induction hruns with
  | nothing => exact ⟨hstart, hledger, hfirst⟩
  | @next calls done more world after callOptions batch hruns hsettles ih =>
    obtain ⟨hworld, hkept, hbefore⟩ := ih
      (fun call hcall => hcalls call (List.mem_append_left _ hcall))
      (fun hcount hcall => hwritten (by rw [List.length_append]; omega)
        (List.mem_append_left _ hcall))
    have hlast : (callOptions, batch) ∈ calls ++ [(callOptions, batch)] := by simp
    obtain ⟨limits, hoptions⟩ := hcalls _ hlast
    dsimp only at hoptions
    have hplace : callOptions.place key = options.place key := by rw [hoptions]; rfl
    obtain ⟨hafter, hafterLedger, hcases⟩ := @Appender.Settles.touches _ callOptions name
      (by rw [hoptions]; exact hname) (by rw [hoptions]; exact htarget) key
      (by rw [hoptions]; exact hkind) _ _ _ _ hworld hkept hsettles
    refine ⟨hafter, hafterLedger, ?_⟩
    rw [List.length_append, List.length_singleton, List.filter_append]
    generalize (more.filter fun each => each.1.key = key) = added at hcases
    rcases hcases with ⟨rfl, hsame⟩ | ⟨format, buckets, hreaches, htouches⟩
    · rw [List.append_nil]
      exact hframe hworld hafter hkept (hplace ▸ hsame) (hmore hbefore)
    · cases htouches with
      | spared hsame =>
        rw [List.append_nil]
        exact hframe hworld hafter hkept (hplace ▸ hsame) (hmore hbefore)
      | @written before between bucket prepared hbucket hbucketKey hsame hwellFormed hbeforeLedger
          hprepared hcommit hbetween hstill hrest =>
        have hheld := hframe hworld hwellFormed hkept (hplace ▸ hsame) hbefore
        exact hframe hbetween hafter hstill (hplace ▸ hrest)
          (hwritten (by simp) hlast hreaches hbucket hbucketKey hwellFormed hbeforeLedger hprepared
            hcommit hheld)

end Appender.Runs

end TableAppend
