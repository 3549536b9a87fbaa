import TableAppend.Proofs.Append.Interrupted
import TableAppend.Proofs.World.Transfer

/-!
# Batches with their rows in another order

Each partition does in a row of them what it does on its own at the start, since the others change
nothing that it looks at.  Which partition is written first therefore makes no difference, and a batch
whose rows are rearranged, but for the order of the rows in each partition, is appended to the same
effect.
-/

namespace TableAppend

open Change (run)
open FileTree (DirectoryMade)
open World (Agree ChangedBelow SameBelow)

/-! ## What a partition changes -/

/-- The change of a world in which some rows come to a directory, as it is seen from outside: if there
are any, the directory and those above it are there. -/
structure World.Entered (place : Location) (rows : ℕ) (before after : World) : Prop where
  wellFormed : after.tree.WellFormed
  get?_eq : ∀ other, ¬ place <+: other → after.tree.get? other =
    if rows ≠ 0 ∧ other <+: place then some .directory else before.tree.get? other
  lookup_eq : ∀ path : Path, ¬ place <+: path.location →
    after.ledger.map (fun ledger => ledger.lookup path) =
      before.ledger.map (fun ledger => ledger.lookup path)

theorem World.entered_none {place : Location} {world : World} (hworld : world.tree.WellFormed) :
    Entered place 0 world world := by
  refine ⟨hworld, ?_, fun _ _ => rfl⟩
  intro other _
  rw [if_neg fun h => h.1 rfl]

theorem World.entered_of_directoryMade {place : Location} {world after : World} {tree : FileTree}
    (hmade : DirectoryMade world.tree tree place)
    (hchanged : ChangedBelow place { world with tree } after) {rows : ℕ} (hrows : rows ≠ 0) :
    Entered place rows world after := by
  refine ⟨hchanged.wellFormed, ?_, hchanged.lookup_eq⟩
  intro other hother
  refine (hchanged.get?_eq other hother).trans ((hmade.get?_eq other).trans ?_)
  simp only [hrows, ne_eq, not_false_eq_true, true_and]

theorem World.Agree.directoryMade {place : Location} {first second : World}
    {firstTree secondTree : FileTree} (hagree : Agree place first second)
    (hfirst : DirectoryMade first.tree firstTree place)
    (hsecond : DirectoryMade second.tree secondTree place) :
    Agree place { first with tree := firstTree } { second with tree := secondTree } := by
  refine ⟨?_, hagree.lookup_eq⟩
  intro other hother
  refine (hsecond.get?_eq other).trans (Eq.trans ?_ (hfirst.get?_eq other).symm)
  rw [hagree.get?_eq other hother]

namespace Job

variable {job : Job} {name : String} (hname : job.options.target.fileName? = some name)
  (htarget : job.options.target.Descends)

include hname htarget

/-- What is done for a partition in one world is done in another one in which the directory of the
partition is the same. -/
theorem process_transfer {first second after : World} (hfirst : first.tree.WellFormed)
    (hsecond : second.tree.WellFormed) {bucket : Bucket}
    (hsame : SameBelow (job.options.place bucket.key) first second)
    (hpassable : first.tree.Passable (job.options.place bucket.key) →
      second.tree.Passable (job.options.place bucket.key)) {action : Action}
    (hrun : run (job.process bucket) first = (.ok action, after)) :
    ∃ later, run (job.process bucket) second = (.ok action, later) ∧
      Agree (job.options.place bucket.key) after later ∧
      World.Entered (job.options.place bucket.key) action.rowsWritten second later := by
  obtain ⟨prepared, hprepared, hcommit⟩ := process_eq_ok_iff.mp hrun
  have hbase := Options.basePath_liesIn hname htarget bucket.key
  have hprepareLater := prepare_congr hsame hfirst hsecond hbase hprepared
  obtain ⟨hkey, hpath, -⟩ := prepare_spec hname htarget hfirst hprepared
  rw [← hkey] at hpath hsame hpassable ⊢
  obtain rfl := Prepared.action_of_commit hcommit
  cases hrows : prepared.survivors.isEmpty with
  | true =>
    rw [Prepared.run_commit_of_isEmpty hrows, Prod.mk.injEq] at hcommit
    have hzero : prepared.action.rowsWritten = 0 :=
      List.length_eq_zero_iff.mpr (List.isEmpty_iff.mp hrows)
    rw [hzero, ← hcommit.2]
    exact ⟨second, process_eq_ok_iff.mpr ⟨prepared, hprepareLater,
      Prepared.run_commit_of_isEmpty hrows second⟩, hsame.agree, World.entered_none hsecond⟩
  | false =>
    have hsome : prepared.action.rowsWritten ≠ 0 := by
      rw [Batch.isEmpty, List.isEmpty_eq_false_iff] at hrows
      exact mt List.length_eq_zero_iff.mp hrows
    obtain ⟨tree, metadata, written, hmakes, hwritten, hrecorded, -⟩ :=
      (Prepared.commit_eq_ok_iff hrows).mp hcommit
    obtain ⟨hmade, husable⟩ := Prepared.directoryMade_of_commit hname htarget hfirst hmakes
    obtain ⟨htrimmed, htext⟩ := Options.trimmed_directoryOf hname prepared.key
    obtain ⟨other, hmakesLater⟩ := FileTree.exists_makeDirectories hsecond
      (Options.descends_directoryOf hname htarget prepared.key) htrimmed htext husable
      (hpassable hmade.passable)
    have hmadeLater := (Prepared.directoryMade_of_commit hname htarget hsecond hmakesLater).1
    obtain ⟨writtenLater, hwrittenLater, hagreeWritten, hbelowWritten⟩ :=
      @Medium.write_transfer job.medium written { first with tree } { second with tree := other }
        prepared.path _ _ _ _ hpath (hsame.agree.directoryMade hmade hmadeLater) hmade.wellFormed
        hmadeLater.wellFormed hmadeLater.isDirectoryAt hwritten
    have hdirectoryWritten : writtenLater.tree.isDirectoryAt (job.options.place prepared.key) =
        true := by
      obtain ⟨data, content, hplaced, rfl⟩ := Prepared.exists_placed_of_written hname htarget
        hsecond hpath hmakesLater hwrittenLater
      exact hplaced.isDirectoryAt
    have hwrittenWellFormed :=
      (@Medium.keptBut_of_write { first with tree } _ _ _ _ hmade.wellFormed hpath _ _ _
        hwritten).wellFormed
    obtain ⟨later, hrecordedLater, hagree, hbelow⟩ := World.record_transfer hagreeWritten
      hwrittenWellFormed hbelowWritten.wellFormed hdirectoryWritten hpath hrecorded
    exact ⟨later, process_eq_ok_iff.mpr ⟨prepared, hprepareLater,
      (Prepared.commit_eq_ok_iff hrows).mpr
        ⟨other, metadata, writtenLater, hmakesLater, hwrittenLater, hrecordedLater, rfl⟩⟩, hagree,
      World.entered_of_directoryMade hmadeLater (hbelowWritten.trans hbelow) hsome⟩

/-! ## A row of partitions -/

omit hname htarget in
/-- A partition that is written on its own, and in which rows survive. -/
def Enters (job : Job) (start : World) (bucket : Bucket) (place : Location) : Prop :=
  ∃ action after, run (job.process bucket) start = (.ok action, after) ∧
    action.rowsWritten ≠ 0 ∧ place <+: job.options.place bucket.key

/-- What a row of partitions leaves: in the directory of each what it leaves on its own at the start,
and elsewhere what was there before, but for the directories on the way. -/
structure LeftBy (job : Job) (start current : World) (buckets : List Bucket)
    (actions : List Action) (after : World) : Prop where
  wellFormed : after.tree.WellFormed
  each : List.Forall₂ (fun bucket action => ∃ left,
    run (job.process bucket) start = (.ok action, left) ∧
      Agree (job.options.place bucket.key) left after) buckets actions
  entered : ∀ other, (∀ bucket ∈ buckets, ¬ job.options.place bucket.key <+: other) →
    (∃ bucket ∈ buckets, job.Enters start bucket other) → after.tree.get? other = some .directory
  spared : ∀ other, (∀ bucket ∈ buckets, ¬ job.options.place bucket.key <+: other) →
    (¬ ∃ bucket ∈ buckets, job.Enters start bucket other) →
      after.tree.get? other = current.tree.get? other
  lookup_eq : ∀ path : Path, (∀ bucket ∈ buckets, ¬ job.options.place bucket.key <+: path.location) →
    after.ledger.map (fun ledger => ledger.lookup path) =
      current.ledger.map (fun ledger => ledger.lookup path)

omit hname htarget in
theorem LeftBy.agree_before {start between : World} {key : PartitionKey} {rest : List Bucket}
    {actions : List Action} {after : World}
    (hseparate : ∀ other ∈ rest.map Bucket.key,
      ¬ job.options.place key <+: job.options.place other ∧
        ¬ job.options.place other <+: job.options.place key)
    (hleft : job.LeftBy start between rest actions after) :
    Agree (job.options.place key) between after := by
  have hapart : ∀ other, job.options.place key <+: other →
      ∀ bucket ∈ rest, ¬ job.options.place bucket.key <+: other := by
    intro other hother bucket hbucket hupper
    obtain ⟨hbelow, habove⟩ := hseparate bucket.key (List.mem_map_of_mem hbucket)
    rcases List.prefix_or_prefix_of_prefix hother hupper with h | h
    · exact hbelow h
    · exact habove h
  refine ⟨?_, fun path hpath => hleft.lookup_eq path (hapart _ hpath)⟩
  intro other hother
  refine hleft.spared other (hapart other hother) ?_
  rintro ⟨bucket, hbucket, -, -, -, -, hupper⟩
  exact (hseparate bucket.key (List.mem_map_of_mem hbucket)).1 (hother.trans hupper)

/-- Partitions each of which can be written on its own at the start can be written in a row.  The
invariant is that those still to come see no difference to the start. -/
theorem processAll_of_each {start current : World} (hstart : start.tree.WellFormed)
    (hcurrent : current.tree.WellFormed) {buckets : List Bucket} (report : Report)
    (hseparate : Separate job.options (buckets.map Bucket.key))
    (hsame : ∀ bucket ∈ buckets, SameBelow (job.options.place bucket.key) start current)
    (hpassable : ∀ bucket ∈ buckets, start.tree.Passable (job.options.place bucket.key) →
      current.tree.Passable (job.options.place bucket.key))
    (heach : ∀ bucket ∈ buckets, ∃ action left,
      run (job.process bucket) start = (.ok action, left)) :
    ∃ actions after,
      run (job.processAll report buckets) current = (.ok (actions.foldl Report.add report), after) ∧
        job.LeftBy start current buckets actions after := by
  induction buckets generalizing current report with
  | nil =>
    refine ⟨[], current, rfl, hcurrent, .nil, ?_, fun _ _ _ => rfl, fun _ _ => rfl⟩
    rintro other - ⟨bucket, hbucket, -⟩
    exact absurd hbucket List.not_mem_nil
  | cons bucket rest ih =>
    obtain ⟨action, left, hprocess⟩ := heach bucket List.mem_cons_self
    obtain ⟨between, hbetween, hagree, hentered⟩ := process_transfer hname htarget hstart hcurrent
      (hsame bucket List.mem_cons_self) (hpassable bucket List.mem_cons_self) hprocess
    have hconfined := confined_of_process hname htarget hcurrent hbetween
    rw [List.map_cons, Separate, List.pairwise_cons] at hseparate
    have hsameRest : ∀ other ∈ rest, SameBelow (job.options.place other.key) start between := by
      intro other hother
      obtain ⟨hbelow, habove⟩ := hseparate.1 other.key (List.mem_map_of_mem hother)
      exact (hsame other (List.mem_cons_of_mem _ hother)).trans (hconfined.sameBelow _ habove hbelow)
    have hpassableRest : ∀ other ∈ rest, start.tree.Passable (job.options.place other.key) →
        between.tree.Passable (job.options.place other.key) := by
      intro other hother hstill
      have hbelow := (hseparate.1 other.key (List.mem_map_of_mem hother)).1
      exact (hconfined.passable_iff _ hbelow).mpr
        (hpassable other (List.mem_cons_of_mem _ hother) hstill)
    obtain ⟨actions, after, hrun, hleft⟩ := ih hconfined.wellFormed (report.add action) hseparate.2
      hsameRest hpassableRest fun other hother => heach other (List.mem_cons_of_mem _ hother)
    refine ⟨action :: actions, after,
      processAll_cons_eq_ok_iff.mpr ⟨action, between, hbetween, hrun⟩, hleft.wellFormed,
      .cons ⟨left, hprocess, hagree.trans (hleft.agree_before hseparate.1)⟩ hleft.each, ?_, ?_, ?_⟩
    · intro other hapart hexists
      rw [List.forall_mem_cons] at hapart
      by_cases hlater : ∃ found ∈ rest, job.Enters start found other
      · exact hleft.entered other hapart.2 hlater
      · obtain ⟨found, hfound, henters⟩ := hexists
        rcases List.mem_cons.mp hfound with rfl | hrest
        · obtain ⟨done, world, hdone, hrows, hupper⟩ := henters
          rw [hprocess, Prod.mk.injEq, Except.ok.injEq] at hdone
          rw [hleft.spared other hapart.2 hlater, hentered.get?_eq other hapart.1,
            if_pos ⟨hdone.1 ▸ hrows, hupper⟩]
        · exact absurd ⟨found, hrest, henters⟩ hlater
    · intro other hapart hnone
      rw [List.forall_mem_cons] at hapart
      have hlater : ¬ ∃ found ∈ rest, job.Enters start found other := by
        rintro ⟨found, hfound, henters⟩
        exact hnone ⟨found, List.mem_cons_of_mem _ hfound, henters⟩
      have hnow : ¬ (action.rowsWritten ≠ 0 ∧ other <+: job.options.place bucket.key) := by
        rintro ⟨hrows, hupper⟩
        exact hnone ⟨bucket, List.mem_cons_self, action, left, hprocess, hrows, hupper⟩
      rw [hleft.spared other hapart.2 hlater, hentered.get?_eq other hapart.1, if_neg hnow]
    · intro path hapart
      rw [List.forall_mem_cons] at hapart
      exact (hleft.lookup_eq path hapart.2).trans (hentered.lookup_eq path hapart.1)

/-- Partitions that are written in a row can each be written on its own at the start. -/
theorem each_of_processAll {start current after : World} (hstart : start.tree.WellFormed)
    (hcurrent : current.tree.WellFormed) {buckets : List Bucket} {report last : Report}
    (hseparate : Separate job.options (buckets.map Bucket.key))
    (hsame : ∀ bucket ∈ buckets, SameBelow (job.options.place bucket.key) start current)
    (hpassable : ∀ bucket ∈ buckets, current.tree.Passable (job.options.place bucket.key) →
      start.tree.Passable (job.options.place bucket.key))
    (hrun : run (job.processAll report buckets) current = (.ok last, after)) :
    ∀ bucket ∈ buckets, ∃ action left, run (job.process bucket) start = (.ok action, left) := by
  induction buckets generalizing current report with
  | nil => exact fun bucket hbucket => absurd hbucket List.not_mem_nil
  | cons bucket rest ih =>
    obtain ⟨action, between, hprocess, hrest⟩ := processAll_cons_eq_ok_iff.mp hrun
    obtain ⟨left, hleft, -, -⟩ := process_transfer hname htarget hcurrent hstart
      (hsame bucket List.mem_cons_self).symm (hpassable bucket List.mem_cons_self) hprocess
    have hconfined := confined_of_process hname htarget hcurrent hprocess
    rw [List.map_cons, Separate, List.pairwise_cons] at hseparate
    rw [List.forall_mem_cons]
    refine ⟨⟨action, left, hleft⟩, ih hconfined.wellFormed hseparate.2 ?_ ?_ hrest⟩
    · intro other hother
      obtain ⟨hbelow, habove⟩ := hseparate.1 other.key (List.mem_map_of_mem hother)
      exact (hsame other (List.mem_cons_of_mem _ hother)).trans (hconfined.sameBelow _ habove hbelow)
    · intro other hother hstill
      have hbelow := (hseparate.1 other.key (List.mem_map_of_mem hother)).1
      exact hpassable other (List.mem_cons_of_mem _ hother)
        ((hconfined.passable_iff _ hbelow).mp hstill)

/-! ## Another order -/

omit hname htarget in
theorem LeftBy.exists_of_mem {start current after : World} {buckets : List Bucket}
    {actions : List Action} (hleft : job.LeftBy start current buckets actions after)
    {bucket : Bucket} (hbucket : bucket ∈ buckets) :
    ∃ action left, run (job.process bucket) start = (.ok action, left) ∧
      Agree (job.options.place bucket.key) left after := by
  obtain ⟨action, -, left, hrun, hagree⟩ := Outcome.exists_of_forall₂ hleft.each.flip hbucket
  exact ⟨action, left, hrun, hagree⟩

omit hname htarget in
/-- The order of the partitions makes no difference to what they leave. -/
theorem LeftBy.agree_of_perm {start current first second : World} {buckets others : List Bucket}
    {actions otherActions : List Action} (hperm : others.Perm buckets)
    (hfirst : job.LeftBy start current buckets actions first)
    (hsecond : job.LeftBy start current others otherActions second) : Agree [] first second := by
  have hsplit : ∀ place : Location,
      (∃ bucket ∈ buckets, job.options.place bucket.key <+: place) ∨
        ((∀ bucket ∈ buckets, ¬ job.options.place bucket.key <+: place) ∧
          ∀ bucket ∈ others, ¬ job.options.place bucket.key <+: place) := by
    intro place
    by_cases hbelow : ∃ bucket ∈ buckets, job.options.place bucket.key <+: place
    · exact .inl hbelow
    · push Not at hbelow
      exact .inr ⟨hbelow, fun bucket hbucket => hbelow bucket (hperm.mem_iff.mp hbucket)⟩
  have hbelow : ∀ bucket ∈ buckets, Agree (job.options.place bucket.key) first second := by
    intro bucket hbucket
    obtain ⟨action, left, hrun, hagree⟩ := hfirst.exists_of_mem hbucket
    obtain ⟨other, still, hother, hagreeOther⟩ :=
      hsecond.exists_of_mem (hperm.mem_iff.mpr hbucket)
    rw [hrun, Prod.mk.injEq] at hother
    rw [← hother.2] at hagreeOther
    exact hagree.symm.trans hagreeOther
  have hentered : ∀ place, (∃ bucket ∈ others, job.Enters start bucket place) ↔
      ∃ bucket ∈ buckets, job.Enters start bucket place := by
    intro place
    simp only [hperm.mem_iff]
  constructor
  · intro place _
    rcases hsplit place with ⟨bucket, hbucket, hupper⟩ | ⟨hapart, hapartOther⟩
    · exact (hbelow bucket hbucket).get?_eq place hupper
    · by_cases henters : ∃ bucket ∈ buckets, job.Enters start bucket place
      · rw [hfirst.entered place hapart henters,
          hsecond.entered place hapartOther ((hentered place).mpr henters)]
      · rw [hfirst.spared place hapart henters,
          hsecond.spared place hapartOther (mt (hentered place).mp henters)]
  · intro path _
    rcases hsplit path.location with ⟨bucket, hbucket, hupper⟩ | ⟨hapart, hapartOther⟩
    · exact (hbelow bucket hbucket).lookup_eq path hupper
    · rw [hfirst.lookup_eq path hapart, hsecond.lookup_eq path hapartOther]

omit hname htarget in
theorem LeftBy.actions_perm {start current first second : World} {buckets others : List Bucket}
    {actions otherActions : List Action} (hperm : others.Perm buckets)
    (hfirst : job.LeftBy start current buckets actions first)
    (hsecond : job.LeftBy start current others otherActions second) :
    otherActions.Perm actions := by
  have hactions : ∀ {after buckets actions}, job.LeftBy start current buckets actions after →
      actions.map some = buckets.map fun bucket =>
        (run (job.process bucket) start).1.toOption := by
    intro after buckets actions hleft
    have heach := hleft.each
    clear hleft
    induction heach with
    | nil => rfl
    | cons hthere hothers ih =>
      obtain ⟨left, hrun, -⟩ := hthere
      rw [List.map_cons, List.map_cons, hrun, ih]
      rfl
  have hmapped := hperm.map fun bucket => (run (job.process bucket) start).1.toOption
  rw [← hactions hfirst, ← hactions hsecond] at hmapped
  exact (List.map_perm_map_iff (Option.some_injective _)).mp hmapped

end Job

/-! ## A whole append -/

theorem Report.written_perm {actions others : List Action} (hperm : others.Perm actions)
    (hdistinct : (actions.map Action.path).Pairwise fun first second => first.same second = false)
    (hdistinctOthers : (others.map Action.path).Pairwise
      fun first second => first.same second = false) :
    (others.foldl add .empty).written.Perm (actions.foldl add .empty).written := by
  rw [written_eq_map hdistinct, written_eq_map hdistinctOthers]
  exact (hperm.filter _).map _

namespace Appender

/-- Rows that are rearranged, but for the rows of each partition, are appended to the same effect. -/
theorem append_of_rearranged {appender : Appender} {options : Options} {world : World}
    (hworld : world.tree.WellFormed) (htarget : options.target.Descends) {first second : Batch}
    (hcolumns : second.columns = first.columns) (hrows : second.rows.Perm first.rows)
    (hkept : ∀ key, options.routing.restrict [key] second = options.routing.restrict [key] first)
    {report : Report} {after : World}
    (hrun : run (appender.append options first) world = (.ok report, after)) :
    ∃ other later, run (appender.append options second) world = (.ok other, later) ∧
      Agree [] after later ∧ other.actions.Perm report.actions ∧
        other.written.Perm report.written := by
  obtain ⟨format, hvalid, hformat, hcases⟩ := append_eq_ok_iff.mp hrun
  obtain ⟨name, hname⟩ := exists_fileName?_of_validate hvalid
  have hempty : second.isEmpty = first.isEmpty := by
    rw [Bool.eq_iff_iff, Batch.isEmpty, Batch.isEmpty, List.isEmpty_iff, List.isEmpty_iff]
    constructor
    · intro hnil
      rw [hnil] at hrows
      exact hrows.symm.eq_nil
    · intro hnil
      rw [hnil] at hrows
      exact hrows.eq_nil
  rcases hcases with ⟨hnil, rfl, rfl⟩ | ⟨hsome, buckets, hbuckets, hprocess⟩
  · exact ⟨.empty, after, append_eq_ok_iff.mpr
      ⟨format, hvalid, hformat, .inl ⟨hempty.trans hnil, rfl, rfl⟩⟩, Agree.refl _ _, .refl _, .refl _⟩
  obtain ⟨others, hothers, hperm⟩ := Routing.buckets_perm hcolumns hrows hkept hbuckets
  have hseparate := Routing.separate_buckets hbuckets options
  have hseparateOthers := Routing.separate_buckets hothers options
  have heach := @Job.each_of_processAll (appender.job options format .real) _ hname htarget _ _ _
    hworld hworld _ _ _ hseparate (fun _ _ => SameBelow.refl _ _) (fun _ _ h => h) hprocess
  obtain ⟨actions, left, hfirst, hleft⟩ := @Job.processAll_of_each
    (appender.job options format .real) _ hname htarget _ _ hworld hworld _ .empty hseparate
    (fun _ _ => SameBelow.refl _ _) (fun _ _ h => h) heach
  obtain ⟨otherActions, later, hsecond, hlater⟩ := @Job.processAll_of_each
    (appender.job options format .real) _ hname htarget _ _ hworld hworld _ .empty hseparateOthers
    (fun _ _ => SameBelow.refl _ _) (fun _ _ h => h)
    (fun bucket hbucket => heach bucket (hperm.mem_iff.mp hbucket))
  rw [hprocess, Prod.mk.injEq, Except.ok.injEq] at hfirst
  obtain ⟨rfl, rfl⟩ := hfirst
  have hactions := hleft.actions_perm hperm hlater
  refine ⟨_, later, append_eq_ok_iff.mpr ⟨format, hvalid, hformat,
    .inr ⟨hempty.trans hsome, others, hothers, hsecond⟩⟩, hleft.agree_of_perm hperm hlater, ?_, ?_⟩
  · rw [Report.actions_foldl_add, Report.actions_foldl_add]
    exact hactions
  · obtain ⟨found, hfound, hlies, -⟩ := @Job.actions_of_processAll
      (appender.job options format .real) _ _ hname htarget hworld _ _ _ _ hprocess
    obtain ⟨otherFound, hotherFound, hotherLies, -⟩ := @Job.actions_of_processAll
      (appender.job options format .real) _ _ hname htarget hworld _ _ _ _ hsecond
    have hsame : ∀ {left right : List Action}, left.foldl Report.add .empty =
        right.foldl Report.add .empty → left = right := by
      intro left right hreports
      have hfound := congrArg Report.actions hreports
      rwa [Report.actions_foldl_add, Report.actions_foldl_add] at hfound
    rw [← hsame hfound] at hlies
    rw [← hsame hotherFound] at hotherLies
    exact Report.written_perm hactions (Job.paths_pairwise hseparate hlies)
      (Job.paths_pairwise hseparateOthers hotherLies)

/-- Rows of two partitions, the first row of the one before or after that of the other. -/
theorem append_of_rearranged_two_partitions :
    let appender : Appender := ⟨some .standard, 200⟩
    let options : Options := { Options.ofTarget ⟨"rows.csv"⟩ with routing := .byColumn "kind" }
    let first : Batch :=
      ⟨["kind", "id"], [[.text "a", .int 1], [.text "b", .int 2], [.text "a", .int 3]]⟩
    let second : Batch :=
      ⟨["kind", "id"], [[.text "b", .int 2], [.text "a", .int 1], [.text "a", .int 3]]⟩
    let world : World := ⟨.empty, none⟩
    world.tree.WellFormed ∧ options.target.Descends ∧ second.columns = first.columns ∧
      second.rows.Perm first.rows ∧
      (∀ key, options.routing.restrict [key] second = options.routing.restrict [key] first) ∧
      ∃ report after other later, run (appender.append options first) world = (.ok report, after) ∧
        run (appender.append options second) world = (.ok other, later) ∧ Agree [] after later ∧
          other.actions.Perm report.actions ∧ other.written.Perm report.written := by
  intro appender options first second world
  have hkept : ∀ key,
      options.routing.restrict [key] second = options.routing.restrict [key] first := by
    intro key
    have hearly := @Routing.leadsTo_iff options.routing ["kind", "id"] [key] [.text "a", .int 1]
      (some ⟨"kind=a", by decide⟩) (by decide +kernel)
    have hother := @Routing.leadsTo_iff options.routing ["kind", "id"] [key] [.text "b", .int 2]
      (some ⟨"kind=b", by decide⟩) (by decide +kernel)
    rw [List.mem_singleton] at hearly hother
    simp only [Routing.restrict, first, second, List.filter_cons]
    by_cases hkey : options.routing.leadsTo ["kind", "id"] [key] [.text "a", .int 1] = true
    · have hnot : ¬ options.routing.leadsTo ["kind", "id"] [key] [.text "b", .int 2] = true := by
        rw [hother, ← hearly.mp hkey]
        decide
      simp only [hkey, hnot, Bool.false_eq_true, ↓reduceIte]
    · simp only [hkey, Bool.false_eq_true, ↓reduceIte]
  have hsucceeds : (run (appender.append options first) world).1.toOption.isSome = true := by
    decide +kernel
  rcases hrun : run (appender.append options first) world with ⟨failure | report, after⟩
  · rw [hrun] at hsucceeds
    cases hsucceeds
  · have hrows : second.rows.Perm first.rows := by decide
    obtain ⟨other, later, hlater, hagree, hactions, hwritten⟩ :=
      @append_of_rearranged appender options world FileTree.wellFormed_empty (by decide)
        first second rfl hrows hkept report after hrun
    exact ⟨FileTree.wellFormed_empty, by decide, rfl, hrows, hkept, report, after, other, later,
      rfl, hlater, hagree, hactions, hwritten⟩

end Appender

end TableAppend
