import TableAppend.Proofs.Append.Ledgers
import TableAppend.Proofs.Append.Parity

/-!
# Sessions

A session is a row of calls, appends and simulations, each in the world that the one before has left.
From an empty directory a session has the same answers with metadata in a ledger as with metadata in
files, and it leaves the same data files, as long as every partition is portable when it is its turn.
-/

namespace TableAppend

open Change (run run_bind)
open FileTree (steps)
open TableAppend.Path (KeepApart recordPlaces)
open World (Counterpart)

/-! ## Calls and answers -/

/-- What an appender is asked to do with a batch. -/
structure Call where
  mode : Mode
  options : Options
  batch : Batch

/-- A call for which no numbered member matters: files have no limits, and no whole family is compared.
Its partitions have data files whose metadata files can have their names. -/
structure Call.Unsearched (call : Call) (data : Set Path) : Prop where
  limits : call.options.limits.isEnabled = false
  scope : call.options.antiJoin.enabled = true → call.options.antiJoin.scope = .baseFile
  data : ∀ buckets, call.options.routing.buckets call.batch = .ok buckets → ∀ bucket ∈ buckets,
    call.options.basePath bucket.key ∈ data ∧ (call.options.basePath bucket.key).RecordsFit

/-- What is returned to a call, also where it fails. -/
inductive Answer where
  | report (outcome : Outcome Report)
  | plan (outcome : Outcome Plan)

namespace Appender

/-- The answer to a call, and the world it leaves. -/
def answer (appender : Appender) (call : Call) (world : World) : Answer × World :=
  match call.mode with
  | .real =>
    let (outcome, after) := run (appender.append call.options call.batch) world
    (.report outcome, after)
  | .simulated => (.plan (appender.simulate call.options call.batch world), world)

/-- The answers to a row of calls. -/
def session (appender : Appender) : List Call → World → List Answer × World
  | [], world => ([], world)
  | call :: rest, world =>
    let (first, between) := appender.answer call world
    let (others, after) := appender.session rest between
    (first :: others, after)

/-- Each partition of a call is portable when it is its turn. -/
def PortableCall (appender : Appender) (data : Set Path) (call : Call) (world : World) : Prop :=
  ∀ format buckets, call.options.Reaches call.batch world.tree format buckets →
    match call.mode with
    | .real => (appender.job call.options format .real).PortableAll data world buckets
    | .simulated => ∀ bucket ∈ buckets, (appender.job call.options format .simulated).Portable data
        world.tree (call.options.basePath bucket.key)

def PortableSession (appender : Appender) (data : Set Path) : List Call → World → Prop
  | [], _ => True
  | call :: rest, world => appender.PortableCall data call world ∧
      appender.PortableSession data rest (appender.answer call world).2

end Appender

/-! ## Calls without a search -/

section Unsearched

variable {data : Set Path} {appender : Appender} {call : Call} {calls : List Call} {world : World}

theorem Call.Unsearched.portable (hunsearched : call.Unsearched data) {format : Format}
    {mode : Mode} {buckets : List Bucket}
    (hbuckets : call.options.routing.buckets call.batch = .ok buckets) (tree : FileTree)
    {bucket : Bucket} (hbucket : bucket ∈ buckets) :
    (appender.job call.options format mode).Portable data tree
      (call.options.basePath bucket.key) := by
  obtain ⟨hmem, hfits⟩ := hunsearched.data buckets hbuckets bucket hbucket
  have hlimits : ¬ call.options.limits.isEnabled = true := Bool.eq_false_iff.mp hunsearched.limits
  refine ⟨hmem, hfits, ?_, fun henabled => absurd henabled hlimits,
    fun henabled => absurd henabled hlimits⟩
  rintro (henabled | ⟨henabled, hfamily⟩)
  · exact absurd henabled hlimits
  · have hscope := hunsearched.scope henabled
    rw [show call.options.antiJoin.scope = .family from hfamily] at hscope
    contradiction

/-- Such calls are portable in whatever state they find the files. -/
theorem Appender.portableSession_of_unsearched (hcalls : ∀ call ∈ calls, call.Unsearched data) :
    appender.PortableSession data calls world := by
  induction calls generalizing world with
  | nil => trivial
  | cons call rest ih =>
    refine ⟨fun format buckets hreaches => ?_, ih fun other hother =>
      hcalls other (List.mem_cons_of_mem _ hother)⟩
    have hall : ∀ {mode tree}, ∀ bucket ∈ buckets, (appender.job call.options format mode).Portable
        data tree (call.options.basePath bucket.key) := fun {_ tree} _ hbucket =>
      (hcalls call List.mem_cons_self).portable hreaches.routed tree hbucket
    cases call.mode with
    | simulated => exact hall
    | real =>
      dsimp only
      clear hreaches
      induction buckets generalizing world with
      | nil => trivial
      | cons bucket others ih =>
        exact ⟨hall bucket List.mem_cons_self, fun _ _ _ => ih fun other hother =>
          hall other (List.mem_cons_of_mem _ hother)⟩

end Unsearched

/-! ## One call -/

namespace Appender

variable {data : Set Path} {lost : Set Location} {ledger : Ledger} {files memory : World}
  {appender : Appender} {options : Options} {batch : Batch} {call : Call}
  (hworlds : Counterpart data lost ledger files memory) (hdata : KeepApart data)

include hworlds hdata

theorem append_of_counterpart (hportable : ∀ format buckets,
      options.Reaches batch files.tree format buckets →
        (appender.job options format .real).PortableAll data files buckets) :
    (run (appender.append options batch) memory).1 = (run (appender.append options batch) files).1 ∧
      ∃ lost ledger, Counterpart data lost ledger (run (appender.append options batch) files).2
        (run (appender.append options batch) memory).2 := by
  rcases append_eq_or_reaches (options.validate_of_lacks hworlds.lacks) with
    ⟨outcome, hfiles, hmemory⟩ | ⟨format, buckets, hreaches, hmemory⟩
  · rw [hmemory, hfiles]
    exact ⟨rfl, lost, ledger, hworlds⟩
  · obtain ⟨name, hname⟩ := exists_fileName?_of_validate hreaches.valid
    have htarget : (appender.job options format .real).options.target.fileName? = some name :=
      hname
    rw [run_append_of_reaches hmemory, run_append_of_reaches hreaches]
    exact Job.processAll_of_counterpart hdata htarget hworlds (hportable format buckets hreaches)

theorem simulate_of_counterpart (hportable : ∀ format buckets,
      options.Reaches batch files.tree format buckets → ∀ bucket ∈ buckets,
        (appender.job options format .simulated).Portable data files.tree
          (options.basePath bucket.key)) :
    appender.simulate options batch memory = appender.simulate options batch files :=
  simulate_of_prepare (options.validate_of_lacks hworlds.lacks) fun format buckets hreaches bucket
    hbucket => (hportable format buckets hreaches bucket hbucket).prepare_eq hworlds hdata rfl

/-- A call is answered alike, and the worlds that are left are counterparts. -/
theorem answer_of_counterpart (hportable : appender.PortableCall data call files) :
    (appender.answer call memory).1 = (appender.answer call files).1 ∧ ∃ lost ledger,
      Counterpart data lost ledger (appender.answer call files).2 (appender.answer call memory).2 := by
  rw [answer, answer]
  rw [PortableCall] at hportable
  cases hmode : call.mode with
  | real =>
    simp only [hmode] at hportable
    obtain ⟨hsame, hleft⟩ := append_of_counterpart hworlds hdata hportable
    exact ⟨congrArg Answer.report hsame, hleft⟩
  | simulated =>
    simp only [hmode] at hportable
    exact ⟨congrArg Answer.plan (simulate_of_counterpart hworlds hdata hportable), lost, ledger,
      hworlds⟩

end Appender

/-! ## Many calls -/

namespace Appender

variable {data : Set Path} {lost : Set Location} {ledger : Ledger} {files memory : World}
  {appender : Appender} {calls : List Call}

theorem session_of_counterpart (hdata : KeepApart data)
    (hworlds : Counterpart data lost ledger files memory)
    (hportable : appender.PortableSession data calls files) :
    (appender.session calls memory).1 = (appender.session calls files).1 ∧ ∃ lost ledger,
      Counterpart data lost ledger (appender.session calls files).2
        (appender.session calls memory).2 := by
  induction calls generalizing lost ledger files memory with
  | nil => exact ⟨rfl, lost, ledger, hworlds⟩
  | cons call rest ih =>
    obtain ⟨hfirst, hrest⟩ := hportable
    obtain ⟨hsame, lost, ledger, hbetween⟩ := answer_of_counterpart hworlds hdata hfirst
    obtain ⟨hothers, hleft⟩ := ih hbetween hrest
    refine ⟨?_, hleft⟩
    rw [session, session]
    dsimp only
    rw [hsame, hothers]

/-- From an empty directory the place of metadata makes no difference: all reports, plans and failures
are the same, and so are all files but those for metadata and all that is recorded. -/
theorem session_eq_of_portable (appender : Appender) (hdata : KeepApart data)
    (hportable : appender.PortableSession data calls ⟨.empty, none⟩) :
    let inFiles := appender.session calls ⟨.empty, none⟩
    let inLedger := appender.session calls ⟨.empty, some []⟩
    inLedger.1 = inFiles.1 ∧
      (∀ place ∉ recordPlaces data, inLedger.2.tree.get? place = inFiles.2.tree.get? place) ∧
        ∀ path ∈ data, path.RecordsFit → inLedger.2.metadata path = inFiles.2.metadata path := by
  obtain ⟨hanswers, lost, ledger, hleft⟩ :=
    session_of_counterpart hdata (World.counterpart_empty hdata) hportable
  refine ⟨hanswers, fun place hplace => ?_, fun path hpath hfits => hleft.metadata_eq hpath hfits⟩
  exact hleft.lacks.kept place fun hlost => hplace (hleft.within hlost)

/-- Two appends that compare with the stored rows, and a simulation between them. -/
theorem session_eq_of_portable_appends :
    let appender : Appender := ⟨some .standard, 200⟩
    let data : Set Path := {⟨"p.csv"⟩}
    let options : Options := ⟨⟨"p.csv"⟩, none, .onKeys ["id"], .off, .none⟩
    let calls : List Call := [⟨.real, options, ⟨["id"], [[.int 1]]⟩⟩,
      ⟨.simulated, options, ⟨["id"], [[.int 1], [.int 2]]⟩⟩,
      ⟨.real, options, ⟨["id"], [[.int 1], [.int 2]]⟩⟩]
    KeepApart data ∧ appender.PortableSession data calls ⟨.empty, none⟩ ∧
      (appender.session calls ⟨.empty, some []⟩).1 = (appender.session calls ⟨.empty, none⟩).1 := by
  intro appender data options calls
  have hsteps : steps ⟨"p.csv"⟩ = [.down "p.csv"] := by decide
  have hdata : KeepApart data := by
    refine .of_names ?_ ?_ ?_
    · rintro _ rfl
      exact ⟨"p.csv", by decide⟩
    · rintro _ rfl _ rfl -
      decide
    · rintro _ rfl text hdown
      rw [hsteps, List.mem_singleton] at hdown
      cases hdown
      exact Metadata.not_isRecordName (by decide) (by decide)
  have hfits : (Path.mk "p.csv").RecordsFit := by
    refine ⟨fun name hname => ?_, by decide⟩
    obtain rfl : name = "p.csv" := Option.some.inj (hname.symm.trans (by decide))
    decide
  have hcall : ∀ mode batch, (Call.mk mode options batch).Unsearched data := by
    refine fun mode batch => ⟨rfl, fun _ => rfl, fun buckets hbuckets bucket hbucket => ?_⟩
    obtain ⟨-, hrows, hmem⟩ := Routing.mem_bucket hbuckets hbucket
    obtain ⟨row, hrow⟩ := List.exists_mem_of_ne_nil _ hrows
    have hkey : none = bucket.key := Except.ok.inj (hmem row hrow).2
    rw [← hkey]
    exact ⟨rfl, hfits⟩
  have hportable : appender.PortableSession data calls ⟨.empty, none⟩ :=
    portableSession_of_unsearched (by simp [calls, hcall])
  exact ⟨hdata, hportable, (session_eq_of_portable appender hdata hportable).1⟩

end Appender

end TableAppend
