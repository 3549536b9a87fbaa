import TableAppend.Proofs.Append.Parity
import TableAppend.Proofs.Append.Sparing

/-!
# Partitions in a row

An append that succeeds prepares and writes each of its partitions, and each one in the world that the
one before has left.  `Performs` keeps what was prepared on the way.
-/

namespace TableAppend

open Change (run run_bind_eq_ok_iff run_pure_eq_ok_iff)
open FileTree (destination)

/-- Partitions are written one after the other, all of them. -/
inductive Job.Performs (job : Job) : World → List Bucket → List Prepared → World → Prop
  | nothing (world : World) : Performs job world [] [] world
  | next {world between after : World} {bucket : Bucket} {rest : List Bucket} {prepared : Prepared}
      {done : List Prepared} (hprepared : job.prepare world bucket = .ok prepared)
      (hcommit : run (prepared.commit job) world = (.ok prepared.action, between))
      (hrest : Performs job between rest done after) :
      Performs job world (bucket :: rest) (prepared :: done) after

namespace Job

variable {job : Job} {world after : World} {buckets : List Bucket} {done : List Prepared}

theorem processAll_eq_ok_iff {report last : Report} :
    run (job.processAll report buckets) world = (.ok last, after) ↔
      ∃ done, job.Performs world buckets done after ∧
        last = (done.map Prepared.action).foldl Report.add report := by
  constructor
  · intro hrun
    induction buckets generalizing report world with
    | nil =>
      obtain ⟨rfl, rfl⟩ := run_pure_eq_ok_iff.mp hrun
      exact ⟨[], .nothing _, rfl⟩
    | cons bucket rest ih =>
      obtain ⟨action, between, hprocess, hrest⟩ := processAll_cons_eq_ok_iff.mp hrun
      obtain ⟨prepared, hprepared, hcommit⟩ := process_eq_ok_iff.mp hprocess
      obtain rfl := Prepared.action_of_commit hcommit
      obtain ⟨done, hdone, rfl⟩ := ih hrest
      exact ⟨prepared :: done, .next hprepared hcommit hdone, rfl⟩
  · rintro ⟨done, hdone, rfl⟩
    induction hdone generalizing report with
    | nothing world => exact run_pure_eq_ok_iff.mpr ⟨rfl, rfl⟩
    | next hprepared hcommit hrest ih =>
      exact processAll_cons_eq_ok_iff.mpr
        ⟨_, _, process_eq_ok_iff.mpr ⟨_, hprepared, hcommit⟩, ih⟩

namespace Performs

/-- Each file that receives rows lies in the directory of a partition. -/
theorem exists_bucket {name : String} (hname : job.options.target.fileName? = some name)
    (hperforms : job.Performs world buckets done after) {prepared : Prepared}
    (hprepared : prepared ∈ done) : ∃ bucket ∈ buckets, ∃ last,
      prepared.path.fileName? = some last ∧
        destination prepared.path = destination (job.options.directoryOf bucket.key) ++ [last] := by
  induction hperforms with
  | nothing world => contradiction
  | @next world between after bucket rest first done hfirst hcommit hrest ih =>
    rcases List.mem_cons.mp hprepared with rfl | hmem
    · exact ⟨bucket, List.mem_cons_self, destination_of_prepare hname hfirst⟩
    · obtain ⟨other, hother, hlies⟩ := ih hmem
      exact ⟨other, List.mem_cons_of_mem _ hother, hlies⟩

end Performs

end Job

/-- What has been done to the partitions of a batch, in their order. -/
theorem Appender.exists_performs_of_append {appender : Appender} {options : Options} {batch : Batch}
    {world after : World} {report : Report}
    (hrun : run (appender.append options batch) world = (.ok report, after)) :
    ∃ format, options.validate world.tree = .ok () ∧ options.effectiveFormat = .ok format ∧
      ((batch.isEmpty = true ∧ report = .empty ∧ after = world) ∨
        (batch.isEmpty = false ∧ ∃ buckets done, options.routing.buckets batch = .ok buckets ∧
          (appender.job options format .real).Performs world buckets done after ∧
            report.actions = done.map Prepared.action)) := by
  obtain ⟨format, hvalid, hformat, hcases⟩ := append_eq_ok_iff.mp hrun
  refine ⟨format, hvalid, hformat, hcases.imp_right ?_⟩
  rintro ⟨hrows, buckets, hbuckets, hprocess⟩
  obtain ⟨done, hdone, rfl⟩ := Job.processAll_eq_ok_iff.mp hprocess
  exact ⟨hrows, buckets, done, hbuckets, hdone, by
    rw [Report.actions_foldl_add]; rfl⟩

end TableAppend
