import TableAppend.Proofs.Append.Frame
import TableAppend.Proofs.Append.Interrupted
import TableAppend.Proofs.Append.Leaving
import TableAppend.Proofs.Append.Sequence
import TableAppend.Proofs.Columnar.Counts
import TableAppend.Proofs.Metadata

/-!
# Recorded numbers of rows

A run of appends to a columnar target may have appends in it that stop at a partition, because it cannot
be prepared or because the codec fails.  What is recorded of a file is still the number of rows that is
decoded from it, and the number of rows that the run has written to it.
-/

namespace TableAppend

open Change (run)
open Family (Base)
open FileTree (KeptBut Reachable)

/-! ## Rows that a run has written -/

namespace Action

/-- How many rows these actions have written to the file at a place. -/
def writtenTo (log : List Action) (place : Location) : ℕ :=
  ((log.filter fun action => action.path.location = place).map Action.rowsWritten).sum

variable {action : Action} {place : Location}

theorem writtenTo_append (log more : List Action) (place : Location) :
    writtenTo (log ++ more) place = writtenTo log place + writtenTo more place := by
  rw [writtenTo, List.filter_append, List.map_append, List.sum_append]
  rfl

theorem writtenTo_self (hplace : action.path.location = place) :
    writtenTo [action] place = action.rowsWritten := by
  simp [writtenTo, hplace]

theorem writtenTo_other (hplace : action.path.location ≠ place) : writtenTo [action] place = 0 := by
  simp [writtenTo, hplace]

theorem writtenTo_of_unwritten (hrows : action.rowsWritten = 0) (place : Location) :
    writtenTo [action] place = 0 := by
  by_cases hplace : action.path.location = place
  · rw [writtenTo_self hplace, hrows]
  · exact writtenTo_other hplace

end Action

open TableAppend.Action (writtenTo writtenTo_append writtenTo_other writtenTo_self writtenTo_of_unwritten)

/-! ## Files whose rows are counted -/

/-- A file at a place holds as many rows as have been written to it, and their number is recorded. -/
structure Family.Base.Counted (base : Base) (tree : FileTree) (log : List Action) (file : String) :
    Prop where
  rows : ∀ content, tree.get? (base.place ++ [file]) = some (.file content) →
    ∃ table encoded, content = .table ⟨table, encoded⟩ ∧
      table.HasRows (writtenTo log (base.place ++ [file])) ∧
      tree.get? (base.place ++ [file ++ Metadata.ending]) = some (.file (.bytes (Utf8.encode
        (Metadata.columnar (.ofNat (writtenTo log (base.place ++ [file])))).toText)))
  owned : ∀ content, tree.get? (base.place ++ [file ++ Metadata.ending]) = some (.file content) →
    ∃ data, tree.get? (base.place ++ [file]) = some (.file data)
  unwritten : (∀ content, tree.get? (base.place ++ [file]) ≠ some (.file content)) →
    writtenTo log (base.place ++ [file]) = 0

theorem Family.Base.Counted.congr {base : Base} {before after : FileTree} {log more : List Action}
    {file : String}
    (hdata : ∀ content, after.get? (base.place ++ [file]) = some (.file content) ↔
      before.get? (base.place ++ [file]) = some (.file content))
    (hmetadata : ∀ content, after.get? (base.place ++ [file ++ Metadata.ending]) =
      some (.file content) ↔
        before.get? (base.place ++ [file ++ Metadata.ending]) = some (.file content))
    (hwritten : writtenTo more (base.place ++ [file]) = writtenTo log (base.place ++ [file]))
    (hcounted : base.Counted before log file) : base.Counted after more file := by
  constructor
  · intro content hcontent
    rw [hwritten]
    simp only [hmetadata]
    exact hcounted.rows content ((hdata content).mp hcontent)
  · intro content hcontent
    simp only [hdata]
    exact hcounted.owned content ((hmetadata content).mp hcontent)
  · intro hnone
    rw [hwritten]
    exact hcounted.unwritten fun content hcontent => hnone content ((hdata content).mpr hcontent)

/-- All files are data files of a target or their metadata, and the rows of each are counted. -/
structure World.Counted (world : World) (log : List Action) (target : Path) {name : String}
    (hname : target.fileName? = some name) (htarget : target.Descends) : Prop where
  wellFormed : world.tree.WellFormed
  ledger : world.ledger = none
  counted : ∀ key file, (target.family hname htarget key).Kin file →
    (target.family hname htarget key).Counted world.tree log file
  placed : ∀ place content, world.tree.get? place = some (.file content) → ∃ key file,
    (target.family hname htarget key).Kin file ∧ ∃ ending ∈ ["", Metadata.ending],
      place = (target.family hname htarget key).place ++ [file ++ ending]

/-! ## One partition -/

namespace Job

variable {job : Job} {name : String} (hname : job.options.target.fileName? = some name)
  (htarget : job.options.target.Descends) {world after : World} {log : List Action}
  (hcounted : world.Counted log job.options.target hname htarget)

include hcounted

/-- There are no files under temporary names. -/
theorem no_temporary {place : Location} {key : PartitionKey} {file : String}
    (hkin : (job.options.target.family hname htarget key).Kin file) {ending : String}
    (hending : ending ∈ [Metadata.temporaryEnding, Metadata.ending ++ Metadata.temporaryEnding])
    (hplace : place = job.options.place key ++ [file ++ ending]) (content : Content) :
    world.tree.get? place ≠ some (.file content) := by
  intro hthere
  obtain ⟨other, found, hfound, last, hlast, hsame⟩ := hcounted.placed place content hthere
  have hendings : ∀ ending ∈ ["", Metadata.ending], ending ∈ Family.endings := by decide
  have htemporary : ∀ ending ∈ [Metadata.temporaryEnding,
      Metadata.ending ++ Metadata.temporaryEnding],
        ending ∈ Family.endings ∧ ending ∉ ["", Metadata.ending] := by decide
  obtain ⟨-, -, rfl⟩ := @Base.eq_of_place_eq (job.options.target.family hname htarget key)
    (job.options.target.family hname htarget other) file found rfl hkin hfound ending last
    (htemporary ending hending).1 (hendings last hlast) (hplace.symm.trans hsame)
  exact (htemporary ending hending).2 hlast

/-- A partition that stops an append changes nothing that is counted. -/
theorem counted_of_stops {bucket : Bucket} {cause : Failure} {gone : List Location}
    (hstops : job.Stops world bucket cause gone) (hsame : world.SameFiles gone after) :
    after.Counted log job.options.target hname htarget := by
  have hgone : ∀ place ∈ gone, ∃ key file,
      (job.options.target.family hname htarget key).Kin file ∧
        place = job.options.place key ++ [file ++ Metadata.temporaryEnding] := by
    cases hstops with
    | unprepared => exact fun place hplace => absurd hplace List.not_mem_nil
    | unsaved hprepared =>
      obtain ⟨-, hlies, -⟩ := prepare_spec hname htarget hcounted.wellFormed hprepared
      obtain ⟨file, hkin, hfile, -⟩ :=
        exists_finds_of_prepare hname htarget hprepared
      intro place hplace
      rw [List.mem_singleton] at hplace
      exact ⟨bucket.key, file, hkin, hplace.trans
        (hlies.temporary_location hfile)⟩
  have hfiles : ∀ place content, after.tree.get? place = some (.file content) ↔
      world.tree.get? place = some (.file content) := by
    intro place content
    by_cases hplace : place ∈ gone
    · obtain ⟨key, file, hkin, hlocation⟩ := hgone place hplace
      have hnone := no_temporary hname htarget hcounted hkin List.mem_cons_self hlocation content
      refine ⟨fun hthere => ?_, fun hthere => absurd hthere hnone⟩
      rcases hsame.gone place hplace with hkept | hnothing
      · exact absurd (hkept.symm.trans hthere) hnone
      · rw [hnothing] at hthere
        cases hthere
    · exact hsame.kept.file_iff hplace
  exact ⟨hsame.kept.wellFormed, hsame.ledger.trans hcounted.ledger,
    fun key file hkin => (hcounted.counted key file hkin).congr (hfiles _) (hfiles _) rfl,
    fun place content hthere => hcounted.placed place content ((hfiles _ _).mp hthere)⟩

section Committing

variable (hjob : job.SavesTables) {bucket : Bucket} {prepared : Prepared}
  (hprepared : job.prepare world bucket = .ok prepared)

include hjob hprepared

/-- The file to which rows have been written. -/
theorem counted_of_written (hbucket : bucket.rows.columns.Nodup) {file : String}
    (hkin : (job.options.target.family hname htarget bucket.key).Kin file)
    (hfile : prepared.path.location = job.options.place bucket.key ++ [file]) {content : Content}
    {metadata : Metadata} (hwritten : prepared.Written job world after file content metadata) :
    (job.options.target.family hname htarget bucket.key).Counted after.tree
      (log ++ [prepared.action]) file := by
  obtain ⟨hkey, hlies, -⟩ := prepare_spec hname htarget hcounted.wellFormed hprepared
  have hbefore := hcounted.counted bucket.key file hkin
  obtain ⟨tree, -, hstores⟩ := hwritten.stores
  obtain ⟨table, encoded, count, rfl, hrows, rfl, hcases⟩ :=
    hasRows_of_stores hjob hbucket hprepared hstores
  have htotal : writtenTo (log ++ [prepared.action]) (job.options.place bucket.key ++ [file]) =
      count := by
    rw [writtenTo_append, @writtenTo_self prepared.action _ hfile]
    change _ + prepared.survivors.size = _
    rcases hcases with ⟨habsent, rfl⟩ | ⟨old, kept, found, hnode, hfound, rfl⟩
    · have hnone := hbefore.unwritten fun content hthere => by
        have hpresent := present_of_node? hprepared
          ((FileTree.node?_eq_file_iff hcounted.wellFormed hlies.1).mpr
            ⟨hwritten.reachable.1, hfile ▸ hthere⟩)
        rw [habsent] at hpresent
        cases hpresent
      exact (congrArg (· + _) hnone).trans (Nat.zero_add _)
    · have hthere := ((FileTree.node?_eq_file_iff hcounted.wellFormed hlies.1).mp hnode).2
      obtain ⟨same, stored, hsame, hrecorded, -⟩ := hbefore.rows _ (hfile ▸ hthere)
      obtain ⟨rfl, -⟩ := Content.table.inj hsame
      exact congrArg (· + _) (hrecorded.unique hfound)
  have hdata := hwritten.data
  have hmetadata := hwritten.metadata
  rw [hkey] at hdata hmetadata
  refine ⟨fun content hcontent => ?_, fun _ _ => ⟨_, hdata⟩, fun hnone => absurd hdata (hnone _)⟩
  have hsame : content = .table ⟨table, encoded⟩ :=
    Node.file.inj (Option.some.inj (hcontent.symm.trans hdata))
  refine ⟨table, encoded, hsame, ?_, ?_⟩
  · exact htotal.symm ▸ hrows
  · exact htotal.symm ▸ hmetadata

omit hjob in
/-- Where rows are written, other files stay and no temporary file is left. -/
theorem placed_of_written {file : String}
    (hkin : (job.options.target.family hname htarget bucket.key).Kin file)
    (hfile : prepared.path.location = job.options.place bucket.key ++ [file]) {content : Content}
    {metadata : Metadata} (hwritten : prepared.Written job world after file content metadata)
    (hstay : FileTree.DirectoriesStay world.tree after.tree)
    (hkept : KeptBut prepared.path.places world.tree after.tree) {place : Location}
    {found : Content} (hthere : after.tree.get? place = some (.file found)) :
    ∃ key other, (job.options.target.family hname htarget key).Kin other ∧
      ∃ ending ∈ ["", Metadata.ending], place = job.options.place key ++ [other ++ ending] := by
  obtain ⟨hkey, hlies, -⟩ := prepare_spec hname htarget hcounted.wellFormed hprepared
  have hgone : ∀ ending ∈ ["", Metadata.ending],
      after.tree.get? (job.options.place bucket.key ++
        [file ++ ending ++ Metadata.temporaryEnding]) ≠ some (.file found) := by
    intro ending hending hleft
    have hnone := hwritten.temporaries ending hending
    rw [hkey] at hnone
    cases hbefore : world.tree.get? (job.options.place bucket.key ++
        [file ++ ending ++ Metadata.temporaryEnding]) with
    | none =>
      rw [hnone hbefore] at hleft
      cases hleft
    | some node =>
      cases node with
      | directory =>
        have hdirectory := FileTree.isDirectoryAt_iff.mp
          (hstay _ (FileTree.isDirectoryAt_iff.mpr hbefore))
        rw [hdirectory] at hleft
        cases hleft
      | file content =>
        refine no_temporary hname htarget hcounted hkin (?_ : ending ++ Metadata.temporaryEnding ∈ _)
          (by rw [String.append_assoc]) content hbefore
        rcases List.mem_pair.mp hending with rfl | rfl <;> decide
  have hcases : ∀ ending ∈ Family.endings, ending ∈ ["", Metadata.ending] ∨
      ∃ first ∈ ["", Metadata.ending], ending = first ++ Metadata.temporaryEnding := by decide
  by_cases hplace : place ∈ prepared.path.places
  · obtain ⟨ending, hending, rfl⟩ := (hlies.mem_places_iff hfile).mp hplace
    rcases hcases ending hending with hplain | ⟨first, hfirst, rfl⟩
    · exact ⟨bucket.key, file, hkin, ending, hplain, rfl⟩
    · rw [← String.append_assoc] at hthere
      exact absurd hthere (hgone first hfirst)
  · exact hcounted.placed place found ((hkept.file_iff hplace).mp hthere)

/-- A partition that is written is counted together with its action. -/
theorem counted_of_commit (hbucket : bucket.rows.columns.Nodup)
    (hcommit : run (prepared.commit job) world = (.ok prepared.action, after)) :
    after.Counted (log ++ [prepared.action]) job.options.target hname htarget := by
  cases hrows : prepared.survivors.isEmpty with
  | true =>
    rw [Prepared.run_commit_of_isEmpty hrows, Prod.mk.injEq] at hcommit
    obtain ⟨-, rfl⟩ := hcommit
    have hunwritten : prepared.action.rowsWritten = 0 := by
      rw [← not_ne_iff, Prepared.rowsWritten_action_ne_zero_iff, hrows]
      exact Bool.true_eq_false_eq_False
    exact { hcounted with
      counted := fun key file hkin => (hcounted.counted key file hkin).congr (fun _ => .rfl)
        (fun _ => .rfl) (by rw [writtenTo_append, writtenTo_of_unwritten hunwritten, Nat.add_zero]) }
  | false =>
    have hledger := hcounted.ledger
    obtain ⟨hkey, hlies, -⟩ := prepare_spec hname htarget hcounted.wellFormed hprepared
    obtain ⟨file, hkin, hfile, -⟩ :=
      exists_finds_of_prepare hname htarget hprepared
    have hplace : job.options.place prepared.key = job.options.place bucket.key := by rw [hkey]
    obtain ⟨content, metadata, hwritten⟩ := Prepared.exists_written_of_commit hname htarget
      hcounted.wellFormed (hplace ▸ hlies) hledger hrows hcommit (hplace ▸ hfile)
    have hkept := Prepared.keptBut_of_commit hname htarget hcounted.wellFormed (hplace ▸ hlies) hcommit
    rw [if_neg (Prepared.rowsWritten_action_ne_zero_iff.mpr hrows)] at hkept
    refine ⟨hkept.wellFormed, hwritten.ledger, fun key found hfound => ?_, fun place other hthere => ?_⟩
    · by_cases hsame : key = bucket.key ∧ found = file
      · obtain ⟨rfl, rfl⟩ := hsame
        exact counted_of_written hname htarget hcounted hjob hprepared hbucket hkin hfile hwritten
      · have hapart : ∀ ending ∈ Family.endings,
            job.options.place key ++ [found ++ ending] ∉ prepared.path.places :=
          fun ending => Options.notMem_places hname htarget hlies hfile hkin hfound hsame
        have hdata := hapart "" (by decide)
        rw [String.append_empty] at hdata
        refine (hcounted.counted key found hfound).congr (fun _ => hkept.file_iff hdata)
          (fun _ => hkept.file_iff (hapart Metadata.ending (by decide))) ?_
        rw [writtenTo_append, writtenTo_other, Nat.add_zero]
        rintro hlocation
        exact hdata (hlocation ▸ List.mem_cons_self)
    · exact placed_of_written hname htarget hcounted hprepared hkin hfile hwritten
        (prepared.keepsDirectories_commit job _ _ _ hcommit) hkept hthere

end Committing

/-- Partitions that are written one after the other are counted together with their actions. -/
theorem counted_of_performs (hjob : job.SavesTables) {buckets : List Bucket}
    (hbuckets : ∀ bucket ∈ buckets, bucket.rows.columns.Nodup) {done : List Prepared}
    (hperforms : job.Performs world buckets done after) :
    after.Counted (log ++ done.map Prepared.action) job.options.target hname htarget := by
  induction hperforms generalizing log with
  | nothing world =>
    rw [List.map_nil, List.append_nil]
    exact hcounted
  | @next world between after bucket rest prepared done hprepared hcommit hrest ih =>
    have hbetween := counted_of_commit hname htarget hcounted hjob hprepared
      (hbuckets bucket List.mem_cons_self) hcommit
    have hlast := ih hbetween fun other hother => hbuckets other (List.mem_cons_of_mem _ hother)
    rwa [List.append_assoc] at hlast

end Job

/-- A codec that never succeeds stops an append at each partition that has rows and a directory. -/
theorem Job.exists_stops_of_failing {job : Job} {codec : Codec}
    (hmedium : job.medium = .columnar (some codec))
    (hfails : ∀ schema rows, ∃ content failure, codec.save schema rows = .ok (content, some failure))
    {world : World} {bucket : Bucket}
    (hseen : (job.prepare world bucket).toOption.map (fun prepared =>
      let made := world.tree.makeDirectories (job.options.directoryOf prepared.key)
      (prepared.survivors.isEmpty, made.1.toOption.isSome,
        (Columnar.allRows made.2 prepared.path prepared.survivors prepared.layout).toOption.isSome,
        (Columnar.keptSchema made.2 prepared.path prepared.layout).toOption.isSome)) =
      some (false, true, true, true)) :
    ∃ cause gone, job.Stops world bucket cause gone := by
  rcases hprepared : job.prepare world bucket with failure | prepared
  · rw [hprepared] at hseen
    cases hseen
  rw [hprepared] at hseen
  simp only [Except.toOption, Option.map_some, Option.some.injEq, Prod.mk.injEq] at hseen
  obtain ⟨hrows, hmade, hall, hschema⟩ := hseen
  rcases hmakes : world.tree.makeDirectories (job.options.directoryOf prepared.key) with
    ⟨failure | ⟨⟩, tree⟩
  · rw [hmakes] at hmade
    cases hmade
  rw [hmakes] at hall hschema
  rcases hrowsOf : Columnar.allRows tree prepared.path prepared.survivors prepared.layout with
    failure | all
  · simp [hrowsOf] at hall
  rcases htypes : Columnar.keptSchema tree prepared.path prepared.layout with failure | schema
  · simp [htypes] at hschema
  rcases hsave : run (Columnar.save codec schema all
    (prepared.path.besides Metadata.temporaryEnding)) { world with tree } with ⟨cause | ⟨⟩, left⟩
  · exact ⟨cause, _, .unsaved hprepared hrows hmakes hmedium hrowsOf htypes hsave⟩
  · obtain ⟨content, failure, hfailing⟩ := hfails schema all
    obtain ⟨saved, first, hfirst, hrest⟩ := Change.run_bind_eq_ok_iff.mp hsave
    obtain ⟨hsaved, -⟩ := Change.run_ofOutcome_eq_ok_iff.mp hfirst
    obtain rfl := Except.ok.inj (hfailing.symm.trans hsaved)
    obtain ⟨⟨⟩, second, -, hthrow⟩ := Change.run_bind_eq_ok_iff.mp hrest
    cases hthrow

/-! ## Runs -/

/-- An append to a columnar target, with a codec that either fails or saves tables. -/
structure Appender.SavesTables (appender : Appender) (options : Options) (batch : Batch)
    (target : Path) : Prop where
  codec : ∀ codec, appender.codec = some codec → codec.Faithful
  target : options.target = target
  format : options.effectiveFormat = .ok .columnar
  batch : batch.WellFormed

/-- A run of appends to a target, beginning with an empty directory, and the actions of all partitions
that it has written.  Each append succeeds, is rejected before its first partition, or stops at a
partition that cannot be prepared or whose table the codec fails to save. -/
inductive World.Tallied (target : Path) : List Action → World → Prop
  | start : Tallied target [] ⟨.empty, none⟩
  | appended {log : List Action} {world : World} {appender : Appender} {options : Options}
      {batch : Batch} {report : Report} (htallied : Tallied target log world)
      (hsaves : appender.SavesTables options batch target)
      (hreport : (run (appender.append options batch) world).1 = .ok report) :
      Tallied target (log ++ report.actions) (run (appender.append options batch) world).2
  | rejected {log : List Action} {world : World} {appender : Appender} {options : Options}
      {batch : Batch} {failure : Failure} (htallied : Tallied target log world)
      (hsaves : appender.SavesTables options batch target)
      (hrejects : options.Rejects batch world.tree failure) :
      Tallied target log (run (appender.append options batch) world).2
  | stopped {log : List Action} {world middle : World} {appender : Appender} {options : Options}
      {batch : Batch} {done rest : List Bucket} {bucket : Bucket} {report : Report}
      {cause : Failure} {gone : List Location} (htallied : Tallied target log world)
      (hsaves : appender.SavesTables options batch target)
      (hreaches : options.Reaches batch world.tree .columnar (done ++ bucket :: rest))
      (hdone : run ((appender.job options .columnar .real).processAll .empty done) world =
        (.ok report, middle))
      (hstops : (appender.job options .columnar .real).Stops middle bucket cause gone) :
      Tallied target (log ++ report.actions) (run (appender.append options batch) world).2

namespace Appender

variable {appender : Appender} {options : Options} {batch : Batch} {world middle : World}
  {log : List Action} {name : String} (hname : options.target.fileName? = some name)
  (htarget : options.target.Descends)
  (hcodec : ∀ codec, appender.codec = some codec → codec.Faithful) (hbatch : batch.WellFormed)
  (hcounted : world.Counted log options.target hname htarget)

include hcodec hbatch hcounted

theorem counted_of_processAll {buckets done : List Bucket}
    (hbuckets : options.routing.buckets batch = .ok buckets) (hsubset : done ⊆ buckets)
    {report : Report} (hdone : run ((appender.job options .columnar .real).processAll .empty done)
      world = (.ok report, middle)) :
    middle.Counted (log ++ report.actions) options.target hname htarget := by
  have hjob : (appender.job options .columnar .real).SavesTables :=
    ⟨rfl, appender.codec, rfl, hcodec⟩
  obtain ⟨all, hperforms, rfl⟩ := Job.processAll_eq_ok_iff.mp hdone
  rw [Report.actions_foldl_add]
  exact @Job.counted_of_performs (appender.job options .columnar .real) name hname htarget world
    middle log hcounted hjob done
    (fun bucket hbucket => (Routing.wellFormed_bucket hbatch hbuckets (hsubset hbucket)).1)
    all hperforms

theorem counted_of_append {report : Report} {after : World}
    (hformat : options.effectiveFormat = .ok .columnar)
    (hrun : run (appender.append options batch) world = (.ok report, after)) :
    after.Counted (log ++ report.actions) options.target hname htarget := by
  obtain ⟨format, -, hsame, ⟨-, rfl, rfl⟩ | ⟨-, buckets, hbuckets, hall⟩⟩ :=
    append_eq_ok_iff.mp hrun
  · rw [Report.empty, List.append_nil]
    exact hcounted
  · obtain rfl : format = .columnar := Except.ok.inj (hsame.symm.trans hformat)
    exact counted_of_processAll hname htarget hcodec hbatch hcounted hbuckets (List.Subset.refl _)
      hall

theorem counted_of_stops {done rest : List Bucket} {bucket : Bucket} {report : Report}
    {cause : Failure} {gone : List Location}
    (hreaches : options.Reaches batch world.tree .columnar (done ++ bucket :: rest))
    (hdone : run ((appender.job options .columnar .real).processAll .empty done) world =
      (.ok report, middle))
    (hstops : (appender.job options .columnar .real).Stops middle bucket cause gone) :
    (run (appender.append options batch) world).2.Counted (log ++ report.actions) options.target hname
      htarget := by
  have hmiddle := counted_of_processAll hname htarget hcodec hbatch hcounted hreaches.routed
    (List.subset_append_left _ _) hdone
  obtain ⟨after, hprocess, hsame⟩ := @Job.Stops.exists_process
    (appender.job options .columnar .real) middle name hname htarget hmiddle.wellFormed _ _ _ hstops
  rw [run_append_of_reaches hreaches, Job.processAll_eq_error_iff.mpr
    ⟨done, bucket, rest, report, middle, cause, rfl, hdone, hprocess, rfl⟩]
  exact @Job.counted_of_stops (appender.job options .columnar .real) name hname htarget middle after
    _ hmiddle bucket cause gone hstops hsame

end Appender

/-- A data file beside its metadata.  It holds as many rows as have been written to it, and that is the
number that is recorded. -/
structure World.Recorded (world : World) (log : List Action) (directory : Location) (file : String) :
    Prop where
  table : ∃ table encoded,
    world.tree.get? (directory ++ [file]) = some (.file (.table ⟨table, encoded⟩)) ∧
      table.HasRows (writtenTo log (directory ++ [file]))
  metadata : world.tree.get? (directory ++ [file ++ Metadata.ending]) =
    some (.file (.bytes (Utf8.encode
      (Metadata.columnar (.ofNat (writtenTo log (directory ++ [file])))).toText)))

namespace World

variable {world : World} {log : List Action}

/-- Every file is a data file or the metadata of one. -/
theorem Counted.exists_recorded {target : Path} {name : String}
    {hname : target.fileName? = some name} {htarget : target.Descends}
    (hcounted : world.Counted log target hname htarget) {place : Location} {content : Content}
    (hthere : world.tree.get? place = some (.file content)) :
    ∃ directory file, (place = directory ++ [file] ∨
      place = directory ++ [file ++ Metadata.ending]) ∧ world.Recorded log directory file := by
  obtain ⟨key, file, hkin, ending, hending, rfl⟩ := hcounted.placed place content hthere
  have hfile := hcounted.counted key file hkin
  have hrecorded : ∀ data, world.tree.get? ((target.family hname htarget key).place ++ [file]) =
      some (.file data) → world.Recorded log (target.family hname htarget key).place file := by
    intro data hdata
    obtain ⟨table, encoded, rfl, hrows, hmetadata⟩ := hfile.rows data hdata
    exact ⟨⟨table, encoded, hdata, hrows⟩, hmetadata⟩
  rcases List.mem_pair.mp hending with rfl | rfl
  · rw [String.append_empty] at hthere ⊢
    exact ⟨_, file, .inl rfl, hrecorded content hthere⟩
  · obtain ⟨data, hdata⟩ := hfile.owned content hthere
    exact ⟨_, file, .inr rfl, hrecorded data hdata⟩

/-- The recorded number is found by whatever path leads to the file and to its metadata. -/
theorem Recorded.metadata_eq {directory : Location} {file : String}
    (hrecorded : world.Recorded log directory file) (hworld : world.tree.WellFormed)
    (hledger : world.ledger = none) {path : Path} (hpath : path.Descends)
    (hlocation : path.location = directory ++ [file]) (hreach : Reachable (Metadata.path path)) :
    world.metadata path =
      .ok (some (.columnar (.ofNat (writtenTo log (directory ++ [file]))))) := by
  obtain ⟨name, hname⟩ := Path.exists_fileName?_of_location hpath (by rw [hlocation]; simp)
  have hlies : path.LiesIn directory := by
    have hlast := Path.liesIn_dropLast hpath hname
    rwa [hlocation, List.dropLast_concat] at hlast
  have hbeside := hlies.metadata_location hlocation
  have hnode := (FileTree.node?_eq_file_iff hworld (Path.liesIn_metadata hlies).1).mpr
    ⟨hreach, hbeside ▸ hrecorded.metadata⟩
  rw [World.metadata_of_node? hledger hnode, Metadata.ofText?_toText]

end World

namespace World.Tallied

variable {target : Path} {log : List Action} {world : World}

theorem counted (htallied : Tallied target log world) {name : String}
    (hname : target.fileName? = some name) (htarget : target.Descends) :
    world.Counted log target hname htarget := by
  induction htallied with
  | start =>
    have hnone := FileTree.get?_empty_ne_file
    exact ⟨FileTree.wellFormed_empty, rfl, fun key file hkin =>
      ⟨fun content hcontent => absurd hcontent (hnone _ _),
        fun content hcontent => absurd hcontent (hnone _ _), fun _ => rfl⟩,
      fun place content hthere => absurd hthere (hnone _ _)⟩
  | appended htallied hsaves hreport ih =>
    obtain ⟨hcodec, rfl, hformat, hbatch⟩ := hsaves
    exact Appender.counted_of_append hname htarget hcodec hbatch ih hformat (Prod.ext hreport rfl)
  | rejected htallied hsaves hrejects ih =>
    rw [Appender.run_append_of_rejects hrejects]
    exact ih
  | stopped htallied hsaves hreaches hdone hstops ih =>
    obtain ⟨hcodec, rfl, -, hbatch⟩ := hsaves
    exact Appender.counted_of_stops hname htarget hcodec hbatch ih hreaches hdone hstops

/-- Where the target names no file, no append comes to a partition. -/
theorem eq_start_of_unnamed (htallied : Tallied target log world)
    (hunnamed : target.fileName? = none) : world = ⟨.empty, none⟩ := by
  induction htallied with
  | start => rfl
  | appended htallied hsaves hreport ih =>
    obtain ⟨format, hvalid, -⟩ := Appender.append_eq_ok_iff.mp (Prod.ext hreport rfl)
    obtain ⟨name, hname⟩ := Appender.exists_fileName?_of_validate hvalid
    rw [hsaves.target, hunnamed] at hname
    cases hname
  | rejected htallied hsaves hrejects ih =>
    rw [Appender.run_append_of_rejects hrejects]
    exact ih
  | stopped htallied hsaves hreaches hdone hstops ih =>
    obtain ⟨name, hname⟩ := Appender.exists_fileName?_of_validate hreaches.valid
    rw [hsaves.target, hunnamed] at hname
    cases hname

/-- However appends succeed and fail, the recorded number of rows stays that of the rows.  Every file is a
data file, which holds as many rows as have been written to it and has that number recorded, or the
metadata of one; and so the number that is recorded and the number that is found by decoding the file
are one number of 64 bits. -/
theorem recorded_counts (target : Path) (log : List Action) (world : World)
    (htallied : Tallied target log world) (htarget : target.Descends) :
    (∀ place content, world.tree.get? place = some (.file content) → ∃ directory file,
      (place = directory ++ [file] ∨ place = directory ++ [file ++ Metadata.ending]) ∧
        world.Recorded log directory file) ∧
    ∀ path table encoded, path.Descends → Reachable (Metadata.path path) →
      world.tree.node? path = some (.file (.table ⟨table, encoded⟩)) →
        table.HasRows (writtenTo log path.location) ∧
        world.metadata path = .ok (some (.columnar (.ofNat (writtenTo log path.location)))) ∧
        ∀ codec, Columnar.countRows world.tree (some codec) path none =
            .ok (writtenTo log path.location) ∧
          UInt64.ofNat <$> (world.metadata path >>= Columnar.countRows world.tree (some codec) path) =
            UInt64.ofNat <$> Columnar.countRows world.tree (some codec) path none := by
  cases hname : target.fileName? with
  | none =>
    obtain rfl := htallied.eq_start_of_unnamed hname
    have hnone := FileTree.get?_empty_ne_file
    exact ⟨fun place content hthere => absurd hthere (hnone _ _), fun path table _ hpath _ hnode =>
      absurd ((FileTree.node?_eq_file_iff FileTree.wellFormed_empty hpath).mp hnode).2 (hnone _ _)⟩
  | some name =>
    have hcounted := htallied.counted hname htarget
    refine ⟨fun place content hthere => hcounted.exists_recorded hthere, ?_⟩
    intro path table encoded hpath hreach hnode
    obtain ⟨-, hdata⟩ := (FileTree.node?_eq_file_iff hcounted.wellFormed hpath).mp hnode
    obtain ⟨directory, file, hplace, hrecorded⟩ := hcounted.exists_recorded hdata
    have hlocation : path.location = directory ++ [file] := by
      refine hplace.resolve_right fun hmetadata => ?_
      rw [hmetadata, hrecorded.metadata] at hdata
      cases hdata
    have hrows : table.HasRows (writtenTo log path.location) := by
      obtain ⟨found, kept, hfound, hrows⟩ := hrecorded.table
      rw [hlocation, hfound] at hdata
      cases hdata
      rw [hlocation]
      exact hrows
    have hmetadata := hrecorded.metadata_eq hcounted.wellFormed hcounted.ledger hpath hlocation hreach
    rw [← hlocation] at hmetadata
    refine ⟨hrows, hmetadata, fun codec => ?_⟩
    have hcounts := Columnar.countRows_of_hasRows hnode hrows codec
    refine ⟨hcounts, ?_⟩
    rw [hcounts, hmetadata, Outcome.ok_bind, Columnar.countRows_recorded, Outcome.map_ok,
      Outcome.map_ok, UInt64.ofNat_toNat]

/-- A file is to be written again by a codec that leaves a part of it and fails. -/
theorem recorded_counts_of_failing_codec :
    let failing : Codec := ⟨fun _ _ => .ok (.bytes [], some (.io .notFound))⟩
    let options := Options.ofTarget ⟨"rows.parquet"⟩
    let batch : Batch := ⟨["id"], [[.int 1], [.int 2]]⟩
    let between := (run ((Appender.mk (some .standard) 200).append options batch) ⟨.empty, none⟩).2
    let world := (run ((Appender.mk (some failing) 200).append options batch) between).2
    options.target.Descends ∧ ∃ log, World.Tallied options.target log world ∧
      (∀ place content, world.tree.get? place = some (.file content) → ∃ directory file,
        (place = directory ++ [file] ∨ place = directory ++ [file ++ Metadata.ending]) ∧
          world.Recorded log directory file) ∧
      ∀ path table encoded, path.Descends → Reachable (Metadata.path path) →
        world.tree.node? path = some (.file (.table ⟨table, encoded⟩)) →
          table.HasRows (writtenTo log path.location) ∧
          world.metadata path = .ok (some (.columnar (.ofNat (writtenTo log path.location)))) ∧
          ∀ codec, Columnar.countRows world.tree (some codec) path none =
              .ok (writtenTo log path.location) ∧
            UInt64.ofNat <$> (world.metadata path >>=
                Columnar.countRows world.tree (some codec) path) =
              UInt64.ofNat <$> Columnar.countRows world.tree (some codec) path none := by
  intro failing options batch between world
  have hbatch : batch.WellFormed := ⟨by decide, by decide⟩
  have hformat : options.effectiveFormat = .ok .columnar := by decide +kernel
  have hfirst : ∃ log, World.Tallied options.target log between := by
    rcases hrun : (run ((Appender.mk (some .standard) 200).append options batch)
      ⟨.empty, none⟩).1 with failure | report
    · have hsucceeds : (run ((Appender.mk (some .standard) 200).append options batch)
        ⟨.empty, none⟩).1.toOption.isSome = true := by decide +kernel
      rw [hrun] at hsucceeds
      cases hsucceeds
    · exact ⟨_, .appended .start ⟨by rintro codec ⟨⟩; exact Codec.faithful_standard, rfl, hformat,
        hbatch⟩ hrun⟩
  obtain ⟨log, hbetween⟩ := hfirst
  obtain ⟨cause, gone, hstops⟩ := @Job.exists_stops_of_failing
    ((Appender.mk (some failing) 200).job options .columnar .real) failing rfl
    (fun _ _ => ⟨_, _, rfl⟩) between ⟨none, batch⟩ (by decide +kernel)
  have hreaches : options.Reaches batch between.tree .columnar ([] ++ ⟨none, batch⟩ :: []) :=
    ⟨by decide +kernel, hformat, rfl, by decide +kernel⟩
  have hworld : World.Tallied options.target (log ++ []) world :=
    .stopped hbetween ⟨by rintro codec ⟨⟩ schema rows content ⟨⟩, rfl, hformat, hbatch⟩ hreaches rfl
      hstops
  exact ⟨by decide, _, hworld, recorded_counts options.target _ world hworld (by decide)⟩

end World.Tallied

end TableAppend
