import TableAppend.Proofs.Append.Frame
import TableAppend.Proofs.Append.Growth
import TableAppend.Proofs.Family.Active

/-!
# Going on in one file

With a limit on its files, an append writes to the active member of a family, or to a new member if the
active one is full.  The active one stays active, and a new one becomes active unless there is a member
with a higher number.  Later appends then go on in that file until it is full.
-/

namespace TableAppend

open Change (run)
open Family (Base Received)
open World (SameBelow)

theorem PartitionKey.text?_injective : Function.Injective PartitionKey.text? := by
  refine Option.map_injective ?_
  rintro ⟨first, hfirst⟩ ⟨second, hsecond⟩ (rfl : first = second)
  rfl

/-- A new member of a family, in a directory that can be searched, whose number no sibling exceeds. -/
structure Family.Leads (tree : FileTree) (base path : Path) : Prop where
  listed : base.directory.listed?.isSome = true
  extension : base.extension? ≠ some Metadata.extension
  numbered : ∃ parts number, NameParts.ofPath base = .ok parts ∧ 0 < number ∧
    number < UInt64.size ∧ path = base.withFileName (parts.numbered number) ∧
      ∀ numbered, siblings tree base = .ok numbered → ∀ member ∈ numbered, member.1 ≤ number

/-! ## The file that is located -/

namespace Job

variable {job : Job} {world : World} (hlimits : job.options.limits.isEnabled = true) {base : Path}

include hlimits

theorem locate_of_active {path : Path} (hactive : Family.active world.tree base = .ok path) :
    job.locate world base =
      job.observe world path false >>= job.rollOver world base path := by
  rw [locate_eq, firstChoice, if_pos hlimits, hactive, Outcome.ok_bind]

/-- Without a new member the rows go to the active one. -/
theorem active_of_locate {file : Located} {remarks : Remarks}
    (hlocate : job.locate world base = .ok (file, remarks)) (hkept : file.rolledOver = false) :
    Family.active world.tree base = .ok file.path := by
  rcases observe_of_locate hlocate with ⟨path, seen, hchoice, hobserve⟩ | ⟨next, seen, -, -, hnext⟩
  · rw [firstChoice, if_pos hlimits] at hchoice
    rw [(observe_spec hobserve).1, hchoice]
  · obtain ⟨-, hrolled, -⟩ := observe_spec hnext
    rw [hkept] at hrolled
    cases hrolled

/-- While the active member is not full, the rows go to it. -/
theorem path_of_locate (hmode : job.mode = .real) {path : Path}
    (hactive : Family.active world.tree base = .ok path)
    (hroom : ∀ content, world.tree.node? path = some (.file content) → ¬ job.IsFull world path)
    {file : Located} {remarks : Remarks}
    (hlocate : job.locate world base = .ok (file, remarks)) :
    file.path = path ∧ file.rolledOver = false := by
  obtain ⟨other, hchoice, hcases⟩ := locate_cases hmode hlocate
  rw [firstChoice, if_pos hlimits, hactive, Except.ok.injEq] at hchoice
  subst hchoice
  rcases hcases with ⟨-, hpath, hkept, -⟩ | ⟨content, hnode, ⟨-, hpath, hkept, -⟩ | ⟨hfull, -⟩⟩
  · exact ⟨hpath, hkept⟩
  · exact ⟨hpath, hkept⟩
  · exact absurd hfull (hroom content hnode)

end Job

/-! ## Rows of one partition -/

theorem Prepared.Written.received {prepared : Prepared} {job : Job} {before after : World}
    {file : String} {content : Content} {metadata : Metadata}
    (hwritten : prepared.Written job before after file content metadata) {base : Base}
    (hplace : job.options.place prepared.key = base.place) :
    Received base before.tree after.tree file := by
  constructor
  · rw [← hplace]
    exact ⟨content, hwritten.data⟩
  · rw [← hplace]
    exact ⟨_, hwritten.metadata⟩
  · rw [← hplace]
    exact hwritten.others

namespace Job

variable {job : Job} {name : String} (hname : job.options.target.fileName? = some name)
  (htarget : job.options.target.Descends) (hlimits : job.options.limits.isEnabled = true)
  {world after : World} (hworld : world.tree.WellFormed) (hledger : world.ledger = none)
  {bucket : Bucket} {prepared : Prepared} (hprepared : job.prepare world bucket = .ok prepared)
  (hcommit : run (prepared.commit job) world = (.ok prepared.action, after))
  (hafter : after.tree.WellFormed)

include hname htarget hlimits hworld hledger hprepared hcommit hafter

/-- The active member stays active when it receives rows. -/
theorem active_of_commit (hkept : prepared.rolledOver = false) :
    Family.active world.tree (job.options.basePath bucket.key) = .ok prepared.path ∧
      Family.active after.tree (job.options.basePath bucket.key) = .ok prepared.path := by
  let base := job.options.family hname htarget bucket.key
  obtain ⟨hkey, hpath, -⟩ := prepare_spec hname htarget hworld hprepared
  have hactive : Family.active world.tree base.path = .ok prepared.path := by
    obtain ⟨file, found, layout, checked, survivors, antiJoined, compared, hlocate, -, -, rfl⟩ :=
      prepare_eq_ok_iff.mp hprepared
    exact active_of_locate hlimits hlocate hkept
  refine ⟨hactive, ?_⟩
  cases hrows : prepared.survivors.isEmpty with
  | true =>
    rw [Prepared.run_commit_of_isEmpty hrows, Prod.mk.injEq] at hcommit
    rw [← hcommit.2]
    exact hactive
  | false =>
    obtain ⟨file, hfile, hdots, hfound⟩ := base.exists_file_of_active hactive
    have hplace : job.options.place prepared.key = base.place := by
      rw [hkey]
      rfl
    obtain ⟨content, metadata, hwritten⟩ := Prepared.exists_written_of_commit hname htarget hworld
      (hkey ▸ hpath) hledger hrows hcommit (hplace ▸ hfile)
    have hsiblings := (hwritten.received hplace).siblings_eq hworld hafter hdots hfound
    rw [Family.active] at hactive ⊢
    change (Family.siblings after.tree base.path >>= _) = _
    rw [hsiblings]
    exact hactive

omit hlimits in
/-- A new member becomes active if its number is the highest one. -/
theorem active_of_leads (hrows : prepared.survivors.isEmpty = false)
    (hleads : Family.Leads world.tree (job.options.basePath bucket.key) prepared.path) :
    ∃ path, Family.active after.tree (job.options.basePath bucket.key) = .ok path ∧
      path.location = prepared.path.location := by
  let base := job.options.family hname htarget bucket.key
  obtain ⟨hlisted, hextension, parts, number, hparts, hpositive, hsmall, hpath, hhighest⟩ := hleads
  obtain ⟨listed, hlisted⟩ := Option.isSome_iff_exists.mp hlisted
  obtain ⟨hkey, hliesIn, -⟩ := prepare_spec hname htarget hworld hprepared
  have hplace : job.options.place prepared.key = base.place := by
    rw [hkey]
    rfl
  obtain ⟨number, rfl⟩ := Nat.exists_eq_add_one.mpr hpositive
  obtain rfl : Family.NameParts.ofName base.name = parts :=
    Except.ok.inj (base.ofPath_eq.symm.trans hparts)
  have hmember : prepared.path = base.member (number + 1) := hpath
  have hfile : prepared.path.location = base.place ++ [base.memberName (number + 1)] := by
    rw [hmember, base.location_member]
  obtain ⟨content, metadata, hwritten⟩ := Prepared.exists_written_of_commit hname htarget hworld
    (hkey ▸ hliesIn) hledger hrows hcommit (hplace ▸ hfile)
  refine ⟨base.found listed (number + 1), (hwritten.received hplace).active_eq hworld hafter
    (base.dots_memberName (number + 1)) hlisted hextension rfl hsmall (hmember ▸ hwritten.reachable)
    hhighest, ?_⟩
  rw [hfile, @Base.location_found base listed hlisted]

end Job

/-! ## Whole appends -/

theorem Job.Settles.key_eq {job : Job} {world after : World} {buckets : List Bucket}
    {done : List (Bucket × Prepared)} (hsettles : job.Settles world buckets done after)
    {each : Bucket × Prepared} (heach : each ∈ done) : each.2.key = each.1.key := by
  induction hsettles with
  | finished world => exact absurd heach List.not_mem_nil
  | stopped hfailure => exact absurd heach List.not_mem_nil
  | written hprepared hcommit hrest ih =>
    rcases List.mem_cons.mp heach with rfl | hlater
    · obtain ⟨_, _, _, _, _, _, _, -, -, -, rfl⟩ := Job.prepare_eq_ok_iff.mp hprepared
      rfl
    · exact ih hlater

namespace Job.Touches

variable {job : Job} {name : String} (hname : job.options.target.fileName? = some name)
  (htarget : job.options.target.Descends) (hlimits : job.options.limits.isEnabled = true)
  {key : PartitionKey} {world after : World} {buckets : List Bucket}
  {done : List (Bucket × Prepared)} (htouches : job.Touches key world after buckets done)
  (hworld : world.tree.WellFormed) (hafter : after.tree.WellFormed)

include hname htarget hlimits htouches hworld hafter

/-- While the active member is not full, it stays active and receives all rows. -/
theorem stays_active (hmode : job.mode = .real) {path : Path}
    (hactive : Family.active world.tree (job.options.basePath key) = .ok path)
    (hroom : ¬ job.IsFull world path) :
    Family.active after.tree (job.options.basePath key) = .ok path ∧
      ∀ each ∈ done, each.2.path = path ∧ each.2.rolledOver = false := by
  have hbase := job.options.basePath_liesIn hname htarget key
  cases htouches with
  | spared hsame =>
    exact ⟨(Family.active_congr hsame hworld hafter hbase).trans hactive, by simp⟩
  | @written before between bucket prepared hbucket hkey hsame hbefore hledger hprepared hcommit
      hbetween hkept hrest =>
    have hactiveBefore := (Family.active_congr hsame hworld hbefore hbase).trans hactive
    have hlies := Family.active_liesIn hworld hbase hactive
    have hroomBefore : ∀ content, before.tree.node? path = some (.file content) →
        ¬ job.IsFull before path := by
      intro content hnode hfull
      have hnodeWorld := (hsame.node?_eq hworld hbefore hlies).symm.trans hnode
      exact hroom (hfull.congr hnode hnodeWorld (hsame.metadata_eq hworld hbefore hlies).symm)
    obtain ⟨file, found, layout, checked, survivors, antiJoined, compared, hlocate, -, -, hshape⟩ :=
      prepare_eq_ok_iff.mp hprepared
    rw [hkey] at hlocate
    have hfile := path_of_locate hlimits hmode hactiveBefore hroomBefore hlocate
    have hpath : prepared.path = path ∧ prepared.rolledOver = false := by
      rw [hshape]
      exact hfile
    obtain ⟨-, hactiveBetween⟩ := active_of_commit hname htarget hlimits hbefore hledger hprepared
      hcommit hbetween hpath.2
    rw [hkey, hpath.1] at hactiveBetween
    exact ⟨(Family.active_congr hrest hbetween hafter hbase).trans hactiveBetween, by simpa⟩

/-- What has received rows is active, also if it is new and has the highest number. -/
theorem leaves_active {each : Bucket × Prepared} (heach : each ∈ done)
    (hrows : each.2.survivors.isEmpty = false)
    (hleads : each.2.rolledOver = true →
      Family.Leads world.tree (job.options.basePath key) each.2.path) :
    ∃ path, Family.active after.tree (job.options.basePath key) = .ok path ∧
      path.location = each.2.path.location := by
  have hbase := job.options.basePath_liesIn hname htarget key
  cases htouches with
  | spared hsame => exact absurd heach List.not_mem_nil
  | @written before between bucket prepared hbucket hkey hsame hbefore hledger hprepared hcommit
      hbetween hkept hrest =>
    obtain rfl := List.mem_singleton.mp heach
    have hlast := Family.active_congr hrest hbetween hafter hbase
    cases hrolled : prepared.rolledOver with
    | false =>
      obtain ⟨-, hactive⟩ := active_of_commit hname htarget hlimits hbefore hledger hprepared hcommit
        hbetween hrolled
      rw [hkey] at hactive
      exact ⟨prepared.path, hlast.trans hactive, rfl⟩
    | true =>
      obtain ⟨hlisted, hextension, parts, number, hparts, hpositive, hsmall, hpath, hhighest⟩ :=
        hleads hrolled
      have hleadsBefore : Family.Leads before.tree (job.options.basePath bucket.key)
          prepared.path := by
        rw [hkey]
        refine ⟨hlisted, hextension, parts, number, hparts, hpositive, hsmall, hpath, ?_⟩
        rw [Family.siblings_congr hsame hworld hbefore hbase]
        exact hhighest
      obtain ⟨path, hactive, hlocation⟩ := active_of_leads hname htarget hbefore hledger
        hprepared hcommit hbetween hrows hleadsBefore
      rw [hkey] at hactive
      exact ⟨path, hlast.trans hactive, hlocation⟩

end Job.Touches

namespace Appender

/-- Appends that succeed one after the other, each of which begins while a file is not full. -/
inductive WhileRoom (appender : Appender) (options : Options) (job : Job) (path : Path) :
    World → List Report → World → Prop
  | none (world : World) : WhileRoom appender options job path world [] world
  | next {world between after : World} {batch : Batch} {report : Report} {reports : List Report}
      (hroom : ¬ job.IsFull world path)
      (hrun : run (appender.append options batch) world = (.ok report, between))
      (hrest : WhileRoom appender options job path between reports after) :
      WhileRoom appender options job path world (report :: reports) after

variable {appender : Appender} {options : Options} {format : Format}
  (hformat : options.effectiveFormat = .ok format) (htarget : options.target.Descends)
  {world after : World} (hworld : world.tree.WellFormed) (hledger : world.ledger = none)

include hformat htarget hworld hledger

/-- The actions of a successful append for one partition. -/
theorem touches_of_append {key : PartitionKey} (hkind : key = none ↔ options.routing.scheme = .none)
    {batch : Batch} {report : Report}
    (hrun : run (appender.append options batch) world = (.ok report, after)) :
    after.tree.WellFormed ∧ after.ledger = none ∧
      ∃ name buckets done, options.target.fileName? = some name ∧
        (appender.job options format .real).Touches key world after buckets done ∧
          ∀ action ∈ report.actions, action.partition = key.text? →
            ∃ each ∈ done, action = each.2.action := by
  obtain ⟨other, hvalid, hother, -⟩ := append_eq_ok_iff.mp hrun
  obtain rfl : other = format := Except.ok.inj (hother.symm.trans hformat)
  obtain ⟨name, hname⟩ := exists_fileName?_of_validate hvalid
  obtain ⟨done, hsettles, hactions, -⟩ := settles_of_append hrun
  obtain ⟨hafter, hkept, htouches⟩ := hsettles.touches hname htarget hkind hworld hledger
  have hkeys : ∀ each ∈ done, each.2.key = each.1.key := by
    cases hsettles with
    | idle hidle => exact fun each heach => absurd heach List.not_mem_nil
    | served hreaches hsettles => exact fun each heach => hsettles.key_eq heach
  have hmem : ∀ action ∈ report.actions, action.partition = key.text? →
      ∃ each ∈ done.filter fun each => each.1.key = key, action = each.2.action := by
    intro action haction hpartition
    rw [hactions] at haction
    obtain ⟨each, heach, rfl⟩ := List.mem_map.mp haction
    have hkey : each.1.key = key := by
      rw [← hkeys each heach]
      exact PartitionKey.text?_injective hpartition
    exact ⟨each, List.mem_filter.mpr ⟨heach, by simpa using hkey⟩, rfl⟩
  refine ⟨hafter, hkept, ?_⟩
  rcases htouches with ⟨hnone, hsame⟩ | ⟨format, buckets, hreaches, htouches⟩
  · exact ⟨name, [], [], hname, .spared hsame, hnone ▸ hmem⟩
  · obtain rfl : format = other := Except.ok.inj (hreaches.format.symm.trans hother)
    exact ⟨name, buckets, _, hname, htouches, hmem⟩

/-- While the active member is not full, appends write to no other one. -/
theorem stays_active_while_room (hlimits : options.limits.isEnabled = true) {key : PartitionKey}
    (hkind : key = none ↔ options.routing.scheme = .none) {path : Path}
    (hactive : Family.active world.tree (options.basePath key) = .ok path) {reports : List Report}
    (hruns : appender.WhileRoom options (appender.job options format .real) path world reports
      after) :
    Family.active after.tree (options.basePath key) = .ok path ∧
      ∀ report ∈ reports, ∀ action ∈ report.actions, action.partition = key.text? →
        action.path = path ∧ action.rolledOver = false := by
  induction hruns with
  | none world => exact ⟨hactive, by simp⟩
  | @next world between after batch report reports hroom hrun hrest ih =>
    obtain ⟨hbetween, hkept, name, buckets, done, hname, htouches, hactions⟩ :=
      touches_of_append hformat htarget hworld hledger hkind hrun
    obtain ⟨hactiveBetween, hpaths⟩ := @Job.Touches.stays_active
      (appender.job options format .real) _ hname htarget hlimits _ _ _ _ _ htouches hworld hbetween
      rfl path hactive hroom
    obtain ⟨hlast, hlater⟩ := ih hbetween hkept hactiveBetween
    refine ⟨hlast, List.forall_mem_cons.mpr ⟨?_, hlater⟩⟩
    intro action haction hpartition
    obtain ⟨each, heach, rfl⟩ := hactions action haction hpartition
    exact hpaths each heach

end Appender

/-- A file that receives rows of a partition is its active member afterwards, if it is an old one or
if no sibling has a higher number, and later rows of the partition go to it until it is full. -/
theorem Appender.append_leaves_active (appender : Appender) (options : Options) (format : Format)
    (hformat : options.effectiveFormat = .ok format) (htarget : options.target.Descends)
    (hlimits : options.limits.isEnabled = true) (batch : Batch) (world : World)
    (hworld : world.tree.WellFormed) (hledger : world.ledger = none) (report : Report)
    (after : World) (hrun : run (appender.append options batch) world = (.ok report, after))
    (action : Action) (haction : action ∈ report.actions) (hrows : action.rowsWritten ≠ 0)
    (key : PartitionKey) (hkey : action.partition = key.text?)
    (hleads : action.rolledOver = true →
      Family.Leads world.tree (options.basePath key) action.path) :
    ∃ path, Family.active after.tree (options.basePath key) = .ok path ∧
      path.location = action.path.location ∧
        ∀ reports last, appender.WhileRoom options (appender.job options format .real) path after
          reports last → Family.active last.tree (options.basePath key) = .ok path ∧
            ∀ later ∈ reports, ∀ next ∈ later.actions, next.partition = key.text? →
              next.path = path ∧ next.rolledOver = false := by
  have hkind : key = none ↔ options.routing.scheme = .none := by
    obtain ⟨done, hsettles, hactions, -⟩ := settles_of_append hrun
    rw [hactions] at haction
    obtain ⟨each, heach, rfl⟩ := List.mem_map.mp haction
    cases hsettles with
    | idle hidle => exact absurd heach List.not_mem_nil
    | served hreaches hsettles =>
      obtain rfl : each.1.key = key := by
        rw [← hsettles.key_eq heach]
        exact PartitionKey.text?_injective hkey
      exact Routing.bucket_key_eq_none_iff hreaches.routed (hsettles.mem_buckets heach)
  obtain ⟨hafter, hkept, name, buckets, done, hname, htouches, hactions⟩ :=
    touches_of_append hformat htarget hworld hledger hkind hrun
  obtain ⟨each, heach, rfl⟩ := hactions action haction hkey
  obtain ⟨path, hactive, hlocation⟩ := @Job.Touches.leaves_active
    (appender.job options format .real) _ hname htarget hlimits _ _ _ _ _ htouches hworld hafter
    each heach (Prepared.rowsWritten_action_ne_zero_iff.mp hrows) hleads
  exact ⟨path, hactive, hlocation, fun reports last hruns =>
    stays_active_while_room hformat htarget hafter hkept hlimits hkind hactive hruns⟩

/-- A base file that has as many rows as it may have, so that a further row goes to a new file. -/
theorem Appender.append_leaves_active_after_full_file :
    let appender : Appender := ⟨none, 200⟩
    let options : Options := { Options.ofTarget ⟨"p.csv"⟩ with limits := ⟨some 1, none⟩ }
    let batch : Batch := ⟨["id"], [[.int 2]]⟩
    let world : World :=
      ⟨FileTree.empty.set ["p.csv"] (.file (.bytes (Utf8.encode "id\n1\n"))), none⟩
    let job := appender.job options (.delimited .commaSeparated) .real
    world.tree.WellFormed ∧ options.target.Descends ∧ options.limits.isEnabled = true ∧
      ∃ report after action, run (appender.append options batch) world = (.ok report, after) ∧
        action ∈ report.actions ∧ action.rowsWritten ≠ 0 ∧ action.rolledOver = true ∧
          ∃ path, Family.active after.tree (options.basePath none) = .ok path ∧
            path.location = action.path.location ∧
              ∀ reports last, appender.WhileRoom options job path after reports last →
                Family.active last.tree (options.basePath none) = .ok path ∧
                  ∀ later ∈ reports, ∀ next ∈ later.actions, next.partition = none →
                    next.path = path ∧ next.rolledOver = false := by
  intro appender options batch world job
  have hworld : world.tree.WellFormed :=
    @FileTree.WellFormed.set _ FileTree.wellFormed_empty ["p.csv"] _ (by decide) (by decide)
      (by decide)
  have hactions : (run (appender.append options batch) world).1.toOption.map
      (fun report => report.actions.map fun action =>
        (action.path, action.partition, action.rowsWritten, action.rolledOver)) =
      some [(⟨"p_1.csv"⟩, none, 1, true)] := by
    decide +kernel
  rcases hrun : run (appender.append options batch) world with ⟨failure | report, after⟩
  · rw [hrun] at hactions
    cases hactions
  · rw [hrun] at hactions
    obtain ⟨action, hsingle, haction⟩ := List.map_eq_singleton_iff.mp (Option.some.inj hactions)
    simp only [Prod.mk.injEq] at haction
    obtain ⟨hpath, hpartition, hrows, hrolled⟩ := haction
    have hleads : Family.Leads world.tree (options.basePath none) action.path := by
      rw [hpath]
      refine ⟨by decide +kernel, by decide +kernel, ⟨"p", ".csv"⟩, 1, by decide +kernel, by decide,
        by decide, by decide +kernel, ?_⟩
      intro numbered hsiblings member hmember
      have hnone : Family.siblings world.tree (options.basePath none) = .ok [] := by decide +kernel
      obtain rfl : [] = numbered := Except.ok.inj (hnone.symm.trans hsiblings)
      exact absurd hmember List.not_mem_nil
    have hmem : action ∈ report.actions := by
      rw [hsingle]
      exact List.mem_singleton_self action
    have hwritten : action.rowsWritten ≠ 0 := by
      rw [hrows]
      decide
    exact ⟨hworld, by decide, by decide, report, after, action, rfl, hmem, hwritten, hrolled,
      append_leaves_active appender options (.delimited .commaSeparated) (by decide +kernel)
        (by decide) (by decide) batch world hworld rfl report after hrun action hmem hwritten none
        hpartition fun _ => hleads⟩

/-- Rows for a full family with a gap in its numbers go to a file in the gap, and the member with the
highest number stays active. -/
theorem Appender.append_leaves_other_active :
    let appender : Appender := ⟨none, 200⟩
    let options : Options := { Options.ofTarget ⟨"p.csv"⟩ with limits := ⟨some 1, none⟩ }
    let batch : Batch := ⟨["id"], [[.int 2]]⟩
    let full : Node := .file (.bytes (Utf8.encode "id\n1\n"))
    let metadata : Node :=
      .file (.bytes (Utf8.encode (Delimited.metadataOf .commaSeparated).toText))
    let world : World := ⟨((FileTree.empty.set ["p.csv"] full).set ["p_5.csv"] full).set
      ["p_5.csv.meta"] metadata, none⟩
    ∃ report after action, run (appender.append options batch) world = (.ok report, after) ∧
      report.actions = [action] ∧ action.rowsWritten = 1 ∧ action.path = ⟨"p_1.csv"⟩ ∧
        Family.active after.tree (options.basePath none) = .ok ⟨"p_5.csv"⟩ := by
  intro appender options batch full metadata world
  let job := appender.job options (.delimited .commaSeparated) .real
  let written := (run (job.medium.write ⟨"p_1.csv"⟩ batch .new) ⟨world.tree, world.ledger⟩).2
  have hbase : job.options.basePath none = ⟨"p.csv"⟩ := by decide +kernel
  have hparts : Family.NameParts.ofPath ⟨"p.csv"⟩ = .ok ⟨"p", ".csv"⟩ := by decide +kernel
  have hlisted : (Path.mk "p.csv").directory.listed? = some ⟨"."⟩ := by decide +kernel
  -- No name that is listed has a higher number than five, before the append and after it.
  have hactive : ∀ tree : FileTree, (tree.nodes.map Prod.fst).Nodup →
      tree.find (Path.mk "p.csv").directory = .ok ([], .directory) →
      "p_5.csv" ∈ tree.namesIn [] →
      Family.sibling? tree ⟨"."⟩ ⟨"p", ".csv"⟩ "p_5.csv" = some (5, ⟨"p_5.csv"⟩) →
      (∀ name ∈ tree.namesIn [], (Family.sibling? tree ⟨"."⟩ ⟨"p", ".csv"⟩ name).all
        fun member => decide (member.1 ≤ 5)) →
      Family.active tree ⟨"p.csv"⟩ = .ok ⟨"p_5.csv"⟩ := by
    intro tree hdistinct hfind hmem hsibling hhighest
    refine @Family.active_of_highest _ hdistinct _ _ _ hparts _ hlisted 5 (by decide)
      ((FileTree.mem_list_of_find hfind).mpr hmem) hsibling ?_
    intro name hname member hmember
    have hle := hhighest name ((FileTree.mem_list_of_find hfind).mp hname)
    rw [hmember] at hle
    exact of_decide_eq_true hle
  have hbefore : Family.active world.tree ⟨"p.csv"⟩ = .ok ⟨"p_5.csv"⟩ :=
    hactive world.tree (by decide) (by decide +kernel) (by decide +kernel) (by decide +kernel)
      (by decide +kernel)
  obtain ⟨prepared, hprepared, ⟨-, hpath, hsurvivors, -⟩, hcommit⟩ := @Job.exists_commit job world
    ⟨none, batch⟩ none ⟨"p_1.csv"⟩ batch .new true
    (by
      simp only [Job.prepare, hbase,
        Job.locate_of_active (by decide : job.options.limits.isEnabled = true) hbefore]
      decide +kernel)
    (by decide) world.tree (Delimited.metadataOf .commaSeparated) (by decide +kernel)
    (by decide +kernel) (by decide +kernel)
  refine ⟨_, _, prepared.action, append_of_prepared (by decide +kernel) (by decide +kernel)
    (by decide) rfl hprepared hcommit, rfl, ?_, hpath, ?_⟩
  · change prepared.survivors.size = 1
    rw [hsurvivors]
    rfl
  · exact hactive _ (by decide +kernel) (by decide +kernel) (by decide +kernel) (by decide +kernel)
      (by decide +kernel)

end TableAppend
