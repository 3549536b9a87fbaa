import TableAppend.Proofs.Append.Unrecorded

/-!
# Appends that are cut off

An append may be cut off when the rows of a partition are in their file and the metadata of this file
have not been recorded.  A member that was there before keeps the metadata it had, and a new base file
belongs to its family without any, so that later appends find all keys that have been stored.  A new
sibling without metadata is no member of its family, and its rows are written once more.
-/

namespace TableAppend

open Batch (keyOn keysOn)
open Change (run)
open Delimited (metadataOf)
open Family (Base HoldsTables StoresTables)
open World (Confined SameBelow)

/-! ## A partition that is cut off -/

/-- The world in which the writing of a partition is cut off: the rows are in their file, and to record
its metadata is what would come next. -/
structure Prepared.CutOff (prepared : Prepared) (job : Job) (world cut : World) : Prop where
  rows : prepared.survivors.isEmpty = false
  written : ∃ tree metadata after,
    world.tree.makeDirectories (job.options.directoryOf prepared.key) = (.ok (), tree) ∧
      run (job.medium.write prepared.path prepared.survivors prepared.layout) { world with tree } =
        (.ok metadata, cut) ∧
      run (World.recordMetadata prepared.path metadata) cut = (.ok (), after)

namespace Prepared.CutOff

variable {prepared : Prepared} {job : Job} {world cut : World} {name : String}
  (hname : job.options.target.fileName? = some name)
  (htarget : job.options.target.Descends) (hworld : world.tree.WellFormed)
  (hpath : prepared.path.LiesIn (job.options.place prepared.key))
  (hcut : prepared.CutOff job world cut)

include hname htarget hworld hpath hcut

theorem confined : Confined (job.options.place prepared.key) world cut := by
  obtain ⟨tree, metadata, after, hmakes, hwritten, -⟩ := hcut.written
  have hdirectory := World.confined_of_directoryMade
    (directoryMade_of_commit hname htarget hworld hmakes).1
  exact hdirectory.trans (Medium.confined_of_write hdirectory.wellFormed hpath hwritten)

theorem ledger_eq : cut.ledger = world.ledger := by
  obtain ⟨tree, metadata, after, hmakes, hwritten, -⟩ := hcut.written
  obtain ⟨data, content, -, rfl⟩ :=
    exists_placed_of_written hname htarget hworld hpath hmakes hwritten
  rfl

omit hname htarget hworld hpath in
theorem exists_commit : ∃ after, run (prepared.commit job) world = (.ok prepared.action, after) := by
  obtain ⟨tree, metadata, after, hmakes, hwritten, hrecorded⟩ := hcut.written
  exact ⟨after, (commit_eq_ok_iff hcut.rows).mpr
    ⟨tree, metadata, cut, hmakes, hwritten, hrecorded, rfl⟩⟩

/-- Only the metadata are not yet what they are when the writing has been completed. -/
theorem get?_of_commit (hledger : world.ledger = none) {file : String}
    (hfile : prepared.path.location = job.options.place prepared.key ++ [file])
    (hnone : world.tree.get? (job.options.place prepared.key ++
      [file ++ Metadata.ending ++ Metadata.temporaryEnding]) = none) {action : Action} {after : World}
    (hcommit : run (prepared.commit job) world = (.ok action, after)) :
    cut.tree.get? (job.options.place prepared.key ++ [file ++ Metadata.ending]) =
        world.tree.get? (job.options.place prepared.key ++ [file ++ Metadata.ending]) ∧
      ∀ other ≠ file ++ Metadata.ending,
        cut.tree.get? (job.options.place prepared.key ++ [other]) =
          after.tree.get? (job.options.place prepared.key ++ [other]) := by
  obtain ⟨tree, metadata, left, hmakes, hwritten, hrecorded⟩ := hcut.written
  have hcompleted := (commit_eq_ok_iff hcut.rows).mpr
    ⟨tree, metadata, cut, hmakes, hwritten, hrecorded, rfl⟩
  obtain rfl := (Prod.mk.inj (hcompleted.symm.trans hcommit)).2
  obtain ⟨data, content, hplaced, rfl⟩ :=
    exists_placed_of_written hname htarget hworld hpath hmakes hwritten
  obtain ⟨-, -, last, hlast, rfl⟩ := @World.exists_filePut_of_recordMetadata _
    { world with tree := data } hledger _ hplaced.put.wellFormed _ hpath _ hrecorded
  have hne : ∀ first second : String, first ≠ second →
      job.options.place prepared.key ++ [file ++ first] ≠
        job.options.place prepared.key ++ [file ++ second] := by
    intro first second hdiffers hsame
    have hnames := (List.cons.inj (List.append_cancel_left hsame)).1
    exact hdiffers ((String.append_right_inj file).mp hnames)
  have hdata : ∀ ending : String, ending ≠ "" → ending ≠ Metadata.temporaryEnding →
      data.get? (job.options.place prepared.key ++ [file ++ ending]) =
        world.tree.get? (job.options.place prepared.key ++ [file ++ ending]) := by
    intro ending hempty htemporary
    have hplain := hne ending "" hempty
    rw [String.append_empty, ← hfile] at hplain
    rw [hplaced.get?_other hplain, if_neg]
    · intro hupper
      simpa using hupper.length_le
    · rw [hpath.temporary_location hfile]
      exact hne ending _ htemporary
  refine ⟨hdata _ (by decide) (by decide), fun other hother => ?_⟩
  have hthere : job.options.place prepared.key ++ [other] ≠
      job.options.place prepared.key ++ [file ++ Metadata.ending] :=
    fun hsame => hother (List.cons.inj (List.append_cancel_left hsame)).1
  rw [hlast.get?_eq, hpath.metadata_location hfile, if_neg hthere,
    hpath.metadata_temporary_location hfile]
  simp only [List.mem_singleton]
  split
  · rename_i hsame
    rw [String.append_assoc] at hnone
    rw [hsame, hdata _ (by decide) (by decide), hnone]
  · rfl

end Prepared.CutOff

/-- The world in which writing is cut off can be told by the parts of what is prepared. -/
theorem Job.exists_cutOff {job : Job} {world : World} {bucket : Bucket} {key : PartitionKey}
    {path : Path} {survivors : Batch} {layout : Layout} {rolledOver : Bool}
    (hprepared : (job.prepare world bucket).toOption.map (fun prepared =>
      (prepared.key, prepared.path, prepared.survivors, prepared.layout, prepared.rolledOver)) =
        some (key, path, survivors, layout, rolledOver))
    (hrows : survivors.isEmpty = false) {tree : FileTree} {metadata : Metadata}
    (hmakes : world.tree.makeDirectories (job.options.directoryOf key) = (.ok (), tree))
    (hwritten : (run (job.medium.write path survivors layout) { world with tree }).1 = .ok metadata)
    (hrecorded : (run (World.recordMetadata path metadata)
      (run (job.medium.write path survivors layout) { world with tree }).2).1 = .ok ()) :
    ∃ prepared, job.prepare world bucket = .ok prepared ∧ prepared.rolledOver = rolledOver ∧
      prepared.CutOff job world (run (job.medium.write path survivors layout) { world with tree }).2 ∧
        run (prepared.commit job) world = (.ok prepared.action,
          (run (World.recordMetadata path metadata)
            (run (job.medium.write path survivors layout) { world with tree }).2).2) := by
  obtain ⟨prepared, hfound, ⟨rfl, rfl, rfl, rfl, rfl⟩, hcommit⟩ :=
    exists_commit hprepared hrows hmakes hwritten hrecorded
  exact ⟨prepared, hfound, rfl, ⟨hrows, tree, metadata, _, hmakes, Prod.ext hwritten rfl,
    Prod.ext hrecorded rfl⟩, hcommit⟩

/-! ## The tables of a family that is cut off -/

/-- The metadata of a member are the same as before, and if they are to be added, the member is the
base file. -/
theorem Family.HoldsTables.stores_of_completed {dialect : Dialect} {keys : List String}
    {before after cut : FileTree} {base : Base} {tables others : List Batch} {number : ℕ}
    (hbefore : HoldsTables dialect keys before base tables)
    (hafter : HoldsTables dialect keys after base others)
    (hnumber : number < others.length) (hfirst : tables.length ≤ number → number = 0)
    (hmetadata : cut.get? (base.place ++ [base.memberName number ++ Metadata.ending]) =
      before.get? (base.place ++ [base.memberName number ++ Metadata.ending]))
    (hothers : ∀ other ≠ base.memberName number ++ Metadata.ending,
      cut.get? (base.place ++ [other]) = after.get? (base.place ++ [other])) :
    StoresTables dialect keys cut base others := by
  by_cases hlt : number < tables.length
  · refine .recorded (hafter.of_get?_eq fun other => ?_)
    by_cases hsame : other = base.memberName number ++ Metadata.ending
    · rw [hsame, hmetadata, hbefore.metadata number hlt, hafter.metadata number hnumber]
    · exact hothers other hsame
  · obtain rfl := hfirst (Nat.le_of_not_lt hlt)
    have hnone := hbefore.holds.get?_eq_none (by decide : Metadata.ending ∈ Family.endings)
      (.inl (Nat.le_of_not_lt hlt))
    refine .unrecorded (hmetadata.trans hnone) (hafter.of_get?_eq fun other => ?_)
    rw [Base.get?_recorded]
    split
    · rename_i hsame
      rw [hsame]
      exact (hafter.metadata 0 hnumber).symm
    · rename_i hne
      exact hothers other fun hsame => hne (by rw [hsame]; rfl)

namespace Job

section Cutting

variable {job : Job} {name : String} (hname : job.options.target.fileName? = some name)
  (htarget : job.options.target.Descends) {bucket : Bucket} {listed : Path}
  (hlisted : (job.options.basePath bucket.key).directory.listed? = some listed)
  (hextension : (job.options.basePath bucket.key).extension? ≠ some Metadata.extension)
  {world cut : World} (hworld : world.tree.WellFormed) (hledger : world.ledger = none)
  {prepared : Prepared} (hprepared : job.prepare world bucket = .ok prepared)
  (hkept : prepared.rolledOver = false)

include hlisted hextension hworld hprepared hkept

/-- Rows that do not roll over go to a file that is there, if the family has one. -/
theorem present_of_prepare {count : ℕ} (hcount : count ≤ UInt64.size)
    (hholds : Family.Holds world.tree (job.options.family hname htarget bucket.key) count)
    (hpositive : 0 < count) : ∃ content, world.tree.node? prepared.path = some (.file content) := by
  obtain ⟨file, remarks, layout, checked, survivors, antiJoined, compared, hlocate, -, -, rfl⟩ :=
    prepare_eq_ok_iff.mp hprepared
  rcases observe_of_locate hlocate with ⟨path, seen, hpath, hfound⟩ | ⟨path, seen, -, -, hfresh⟩
  · have hfirst : job.firstChoice world.tree (job.options.basePath bucket.key) = _ :=
      firstChoice_eq hholds hworld hlisted hextension hcount
    have hnumber : (if job.options.limits.isEnabled then count - 1 else 0) < count := by
      split <;> omega
    obtain ⟨content, hnode, -⟩ := hholds.node?_member hworld hnumber
    have hthere := (hholds.node?_found hworld hlisted hnumber).1.trans hnode
    rw [hpath, Except.ok.injEq] at hfirst
    rw [← hfirst, ← (observe_spec hfound).1] at hthere
    exact ⟨content, hthere⟩
  · obtain ⟨-, hrolled, -⟩ := observe_spec hfresh
    exact absurd (hrolled.symm.trans hkept) (by decide)

variable {dialect : Dialect} {keys : List String} (hjob : job.DropsStored dialect keys)
  (hbucket : bucket.rows.Keyed keys) {tables : List Batch} (hcount : tables.length ≤ UInt64.size)
  (hfamily : HoldsTables dialect keys world.tree (job.options.family hname htarget bucket.key) tables)
  (hcut : prepared.CutOff job world cut)

include hledger hjob hbucket hcount hfamily hcut

/-- The keys have come to the tables of a partition that is cut off.  At most the metadata of its base
file are not recorded. -/
theorem exists_stores_of_cutOff :
    ∃ others, others.length ≤ tables.length + 1 ∧
      StoresTables dialect keys cut.tree (job.options.family hname htarget bucket.key) others ∧
      (others.flatMap (keysOn keys)).Perm (tables.flatMap (keysOn keys) ++
        ((Delimited.storedForm bucket.rows).keysOn keys).filter fun key =>
          !(tables.flatMap (keysOn keys)).contains key) := by
  obtain ⟨hkey, hpath, -⟩ := prepare_spec hname htarget hworld hprepared
  rw [← hkey] at hpath
  obtain ⟨after, hcommit⟩ := hcut.exists_commit
  obtain ⟨others, hlength, hheld, hperm⟩ := exists_tables_of_commit hname htarget hjob hlisted
    hextension hbucket hworld hledger hcount hfamily hprepared hcommit
  obtain ⟨number, content, metadata, hgrows⟩ := @grows_of_commit job _ hname htarget hjob.mode _ _
    hworld hledger bucket _ hfamily.holds _ hlisted hextension hcount _ _ hprepared hcommit hcut.rows
  have hplace : job.options.place prepared.key =
      (job.options.family hname htarget bucket.key).place := by rw [hkey]; rfl
  have hfile := hgrows.location_eq hlisted
  have hnone := @Family.Holds.get?_eq_none world.tree _ _ hfamily.holds number
    (Metadata.ending ++ Metadata.temporaryEnding) (by decide) (.inr ⟨by decide, by decide⟩)
  rw [← hplace] at hfile
  rw [← String.append_assoc, ← hplace] at hnone
  obtain ⟨hmetadata, hothers⟩ := hcut.get?_of_commit hname htarget hworld hpath hledger hfile hnone
    hcommit
  rw [hplace] at hmetadata hothers
  have hnumber : number < others.length := by
    by_contra hge
    have habsent := @Family.Holds.get?_eq_none after.tree _ _ hheld.holds number "" (by decide)
      (.inl (Nat.le_of_not_lt hge))
    rw [String.append_empty, ← hplace, hgrows.written.data] at habsent
    cases habsent
  have hfirst : tables.length ≤ number → number = 0 := by
    intro hnew
    have hle := hgrows.chooses.le
    by_contra hpositive
    obtain ⟨there, hthere⟩ := present_of_prepare hname htarget hlisted hextension hworld hprepared hkept
      hcount hfamily.holds (by omega)
    rcases hgrows.path with ⟨hlt, -⟩ | ⟨heq, hmember, -⟩
    · omega
    · have hnone := node?_member_of_le hfamily.holds hworld (Nat.le_refl tables.length)
      rw [← hmember, hthere] at hnone
      cases hnone
  exact ⟨others, hlength, @Family.HoldsTables.stores_of_completed dialect keys world.tree after.tree
    cut.tree _ tables others number hfamily hheld hnumber hfirst hmetadata hothers, hperm⟩

end Cutting

end Job

/-! ## The keys of a partition -/

section Storing

variable {appender : Appender} {options : Options} {name : String}
  (hname : options.target.fileName? = some name) (htarget : options.target.Descends)
  {dialect : Dialect} {keys : List String} {key : PartitionKey} {count : ℕ} {before after : World}
  {done : List (Bucket × Prepared)}

/-- The tables of a partition have the keys of these rows, each once, after it has been written at most
so many times. -/
def Options.StoresKeys (dialect : Dialect) (keys : List String) (key : PartitionKey) (count : ℕ)
    (world : World) (done : List (Bucket × Prepared)) : Prop :=
  ∃ tables, tables.length ≤ count ∧
    StoresTables dialect keys world.tree (options.family hname htarget key) tables ∧
      Family.StoresOnce keys tables done

namespace Options.StoresKeys

variable {hname htarget}

theorem mono (hstores : StoresKeys hname htarget dialect keys key count before done) :
    StoresKeys hname htarget dialect keys key (count + 1) before done := by
  obtain ⟨tables, hlength, hrest⟩ := hstores
  exact ⟨tables, by omega, hrest⟩

theorem congr (hsame : SameBelow (options.place key) before after)
    (hstores : StoresKeys hname htarget dialect keys key count before done) :
    StoresKeys hname htarget dialect keys key count after done := by
  obtain ⟨tables, hlength, htables, honce⟩ := hstores
  exact ⟨tables, hlength, htables.congr hsame, honce⟩

variable (hextension : options.target.extension? ≠ some Metadata.extension)
  (hoptions : options.DropsStored dialect keys)
  {call : Options × Batch} (hsends : options.Sends keys call) {tree : FileTree} {format : Format}
  {buckets : List Bucket} (hreaches : call.1.Reaches call.2 tree format buckets) {bucket : Bucket}
  (hbucket : bucket ∈ buckets) {listed : Path}
  (hlisted : (options.basePath bucket.key).directory.listed? = some listed)
  (hcount : count < UInt64.size)

include hextension hoptions hsends hreaches hbucket hlisted hcount

theorem written (hbefore : before.tree.WellFormed) (hledger : before.ledger = none)
    {prepared : Prepared}
    (hprepared : (appender.job call.1 format .real).prepare before bucket = .ok prepared)
    {action : Action}
    (hcommit : run (prepared.commit (appender.job call.1 format .real)) before = (.ok action, after))
    (hstores : StoresKeys hname htarget dialect keys bucket.key count before done) :
    StoresKeys hname htarget dialect keys bucket.key (count + 1) after
      (done ++ [(bucket, prepared)]) := by
  obtain ⟨tables, hlength, htables, honce⟩ := hstores
  have hjob := @Options.Sends.dropsStored appender _ _ _ hoptions _ hsends _ hreaches.format
  obtain ⟨limits, batch, rfl⟩ := hsends.exists_eq
  obtain ⟨others, hothers, hafter, hperm⟩ := @Job.exists_stores_of_commit
    (appender.job { options with limits } format .real) name hname htarget bucket listed hlisted
    ((Options.extension?_basePath hname bucket.key).trans_ne hextension) before after hbefore hledger
    dialect keys hjob (Routing.keyed_bucket hreaches.routed hbucket hsends.keyed) tables (by omega)
    htables prepared hprepared _ hcommit
  exact ⟨others, by omega, hafter,
    honce.add (hsends.distinct buckets hreaches.routed bucket hbucket) hperm⟩

theorem cutOff (hbefore : before.tree.WellFormed) (hledger : before.ledger = none)
    {prepared : Prepared}
    (hprepared : (appender.job call.1 format .real).prepare before bucket = .ok prepared)
    (hkept : prepared.rolledOver = false)
    (hcut : prepared.CutOff (appender.job call.1 format .real) before after) {tables : List Batch}
    (hlength : tables.length ≤ count)
    (htables : HoldsTables dialect keys before.tree (options.family hname htarget bucket.key) tables)
    (honce : Family.StoresOnce keys tables done) :
    StoresKeys hname htarget dialect keys bucket.key (count + 1) after
      (done ++ [(bucket, prepared)]) := by
  have hjob := @Options.Sends.dropsStored appender _ _ _ hoptions _ hsends _ hreaches.format
  obtain ⟨limits, batch, rfl⟩ := hsends.exists_eq
  obtain ⟨others, hothers, hafter, hperm⟩ := @Job.exists_stores_of_cutOff
    (appender.job { options with limits } format .real) name hname htarget bucket listed hlisted
    ((Options.extension?_basePath hname bucket.key).trans_ne hextension) before after hbefore hledger
    prepared hprepared hkept dialect keys hjob
    (Routing.keyed_bucket hreaches.routed hbucket hsends.keyed) tables (by omega) htables hcut
  exact ⟨others, by omega, hafter,
    honce.add (hsends.distinct buckets hreaches.routed bucket hbucket) hperm⟩

end Options.StoresKeys

variable (hextension : options.target.extension? ≠ some Metadata.extension)
  (hoptions : options.DropsStored dialect keys) {listed : Path}
  (hlisted : (options.basePath key).directory.listed? = some listed)

include hextension hoptions hlisted

/-- Whatever becomes of a partition in an append, its tables have its keys. -/
theorem Job.Touches.storesKeys {call : Options × Batch} (hsends : options.Sends keys call)
    {tree : FileTree} {format : Format} {buckets some : List Bucket}
    (hreaches : call.1.Reaches call.2 tree format buckets) (hsome : some ⊆ buckets)
    (hcount : count < UInt64.size) {more : List (Bucket × Prepared)}
    (htouches : (appender.job call.1 format .real).Touches key before after some more)
    (hstores : options.StoresKeys hname htarget dialect keys key count before done) :
    options.StoresKeys hname htarget dialect keys key (count + 1) after (done ++ more) := by
  have hplace := hsends.place_eq key
  cases htouches with
  | spared hsame =>
    rw [List.append_nil]
    exact (hstores.congr (hplace ▸ hsame)).mono
  | @written first last bucket prepared hbucket hkey hsame hfirst hledger hprepared hcommit hlast hkept
      hrest =>
    subst hkey
    have hwritten := (hstores.congr (hplace ▸ hsame)).written hextension hoptions hsends hreaches
      (hsome hbucket) hlisted hcount hfirst hledger hprepared hcommit
    exact hwritten.congr (hplace ▸ hrest)

/-- Appends that follow keep the keys of a partition stored once. -/
theorem Appender.Runs.storesKeys (hkind : key = none ↔ options.routing.scheme = .none)
    {calls : List (Options × Batch)} (hcalls : ∀ call ∈ calls, options.Sends keys call)
    (hcount : count + calls.length ≤ UInt64.size) (hbefore : before.tree.WellFormed)
    (hledger : before.ledger = none)
    (hstores : options.StoresKeys hname htarget dialect keys key count before done)
    {more : List (Bucket × Prepared)} (hruns : appender.Runs before calls more after) :
    after.tree.WellFormed ∧ after.ledger = none ∧
      options.StoresKeys hname htarget dialect keys key (count + calls.length) after
        (done ++ more.filter fun each => each.1.key = key) := by
  refine @Appender.Runs.at_key _ _ _ _ _ _ _ hname htarget _ hkind hbefore hledger
    (fun call hcall => (hcalls call hcall).options_eq) hruns
    (fun number world more => options.StoresKeys hname htarget dialect keys key (count + number) world
      (done ++ more)) ?_ (fun hheld => hheld.mono) (fun _ _ _ hsame hheld => hheld.congr hsame) ?_
  · rw [List.append_nil]
    exact hstores
  · rintro number call tree format buckets bucket prepared first last more hnumber hcall hreaches
      hbucket rfl hfirst hfirstLedger hprepared hcommit hheld
    have hlt : count + number < UInt64.size := by omega
    rw [← List.append_assoc]
    exact hheld.written hextension hoptions (hcalls call hcall) hreaches hbucket hlisted hlt hfirst
      hfirstLedger hprepared hcommit

end Storing

/-! ## An append that is cut off -/

/-- An append is cut off at a partition after the ones before it have been written. -/
inductive Appender.CutsOff (appender : Appender) (options : Options) (batch : Batch) (world : World) :
    List (Bucket × Prepared) → Bucket → Prepared → World → Prop
  | reached {format : Format} {before rest : List Bucket} {bucket : Bucket}
      {done : List (Bucket × Prepared)} {between cut : World} {prepared : Prepared}
      (hreaches : options.Reaches batch world.tree format (before ++ bucket :: rest))
      (hsettles : (appender.job options format .real).Settles world before done between)
      (hall : done.map Prod.fst = before)
      (hprepared : (appender.job options format .real).prepare between bucket = .ok prepared)
      (hcut : prepared.CutOff (appender.job options format .real) between cut) :
      CutsOff appender options batch world done bucket prepared cut

theorem Appender.CutsOff.storesKeys {appender : Appender} {options : Options} {name : String}
    (hname : options.target.fileName? = some name) (htarget : options.target.Descends)
    (hextension : options.target.extension? ≠ some Metadata.extension) {dialect : Dialect}
    {keys : List String} (hoptions : options.DropsStored dialect keys) {call : Options × Batch}
    (hsends : options.Sends keys call) {world cut : World} (hworld : world.tree.WellFormed)
    (hledger : world.ledger = none) {done : List (Bucket × Prepared)} {bucket : Bucket}
    {prepared : Prepared} (hcut : appender.CutsOff call.1 call.2 world done bucket prepared cut)
    (hkept : prepared.rolledOver = false) {key : PartitionKey}
    (hkind : key = none ↔ options.routing.scheme = .none) {listed : Path}
    (hlisted : (options.basePath key).directory.listed? = some listed) {count : ℕ}
    (hcount : count < UInt64.size) {tables : List Batch} (hlength : tables.length ≤ count)
    (htables : HoldsTables dialect keys world.tree (options.family hname htarget key) tables)
    {earlier : List (Bucket × Prepared)} (honce : Family.StoresOnce keys tables earlier) :
    cut.tree.WellFormed ∧ cut.ledger = none ∧
      options.StoresKeys hname htarget dialect keys key (count + 1) cut
        (earlier ++ (done ++ [(bucket, prepared)]).filter fun each => each.1.key = key) := by
  obtain ⟨limits, hcallOptions⟩ := hsends.options_eq
  have hcallName : call.1.target.fileName? = some name := by rw [hcallOptions]; exact hname
  have hcallTarget : call.1.target.Descends := by rw [hcallOptions]; exact htarget
  have hcallKind : key = none ↔ call.1.routing.scheme = .none := hsends.routing_eq ▸ hkind
  have hplace := hsends.place_eq key
  cases hcut with
  | @reached format before rest _ _ between _ _ hreaches hsettles hall hprepared hcut =>
    have hseparate := Routing.separate_buckets hreaches.routed call.1
    rw [List.map_append] at hseparate
    obtain ⟨hbefore, -, hacross⟩ := List.pairwise_append.mp hseparate
    obtain ⟨hbetween, hbetweenLedger, htouches⟩ := @Job.Settles.touches
      (appender.job call.1 format .real) name hcallName hcallTarget world between hworld hledger before
      done hbefore key
      (fun _ hother hne => hreaches.apart hcallKind (List.mem_append_left _ hother) hne) hsettles
    obtain ⟨hkey, hpath, -⟩ := @Job.prepare_spec (appender.job call.1 format .real) between name
      hcallName hcallTarget hbetween bucket prepared hprepared
    rw [← hkey] at hpath
    have hconfined := @Prepared.CutOff.confined prepared (appender.job call.1 format .real) between cut
      name hcallName hcallTarget hbetween hpath hcut
    have hcutLedger := @Prepared.CutOff.ledger_eq prepared (appender.job call.1 format .real) between cut
      name hcallName hcallTarget hbetween hpath hcut
    refine ⟨hconfined.wellFormed, hcutLedger.trans hbetweenLedger, ?_⟩
    have hmem : bucket ∈ before ++ bucket :: rest := by simp
    rw [List.filter_append]
    by_cases hbucket : bucket.key = key
    · subst hbucket
      -- The partitions before it are other ones.
      have hnone : (done.filter fun each => each.1.key = bucket.key) = [] := by
        refine List.filter_eq_nil_iff.mpr fun each heach hsame => ?_
        have hsegments := (hacross each.1.key (List.mem_map_of_mem (hsettles.mem_buckets heach))
          bucket.key (by simp)).1
        rw [of_decide_eq_true hsame] at hsegments
        exact hsegments (List.prefix_refl _)
      rw [hnone] at htouches ⊢
      cases htouches with
      | spared hsame =>
        rw [List.nil_append, List.filter_cons_of_pos (by simp), List.filter_nil]
        have hheld : HoldsTables dialect keys between.tree
            (options.family hname htarget bucket.key) tables := by
          change SameBelow (call.1.place bucket.key) world between at hsame
          rw [hplace] at hsame
          exact htables.congr hsame
        exact Options.StoresKeys.cutOff hextension hoptions hsends hreaches hmem hlisted hcount hbetween
          hbetweenLedger hprepared hkept hcut hlength hheld honce
    · rw [List.filter_cons_of_neg (by simpa using hbucket), List.filter_nil, List.append_nil]
      have hstores : options.StoresKeys hname htarget dialect keys key count world earlier :=
        ⟨tables, hlength, .recorded htables, honce⟩
      have hheld := htouches.storesKeys hname htarget hextension hoptions hlisted hsends hreaches
        (List.subset_append_left _ _) hcount hstores
      obtain ⟨hbelow, habove⟩ := hreaches.apart hcallKind hmem hbucket
      rw [← hkey] at hbelow habove
      exact hheld.congr (hplace ▸ hconfined.sameBelow _ habove hbelow)

/-- If an append is cut off after the rows of a partition are in the base file or in a member that was
there before, and then it is repeated and others follow, every key is stored once: the files beside the
base file of a partition are its members and their metadata, and they have the keys that were sent. -/
theorem Appender.CutsOff.repeated_stores_once {appender : Appender} {options : Options} {name : String}
    (hname : options.target.fileName? = some name) (htarget : options.target.Descends)
    (hextension : options.target.extension? ≠ some Metadata.extension)
    (hlisted : options.baseDirectory.listed?.isSome = true) {dialect : Dialect} {keys : List String}
    (hoptions : options.DropsStored dialect keys) {calls later : List (Options × Batch)}
    {call : Options × Batch} (hcalls : ∀ other ∈ calls ++ call :: later, options.Sends keys other)
    (hcount : calls.length + 2 + later.length ≤ UInt64.size)
    {done now more : List (Bucket × Prepared)} {world cut after : World}
    (hruns : appender.Runs ⟨.empty, none⟩ calls done world) {bucket : Bucket} {prepared : Prepared}
    (hcut : appender.CutsOff call.1 call.2 world now bucket prepared cut)
    (hkept : prepared.rolledOver = false)
    (hlater : appender.Runs cut (call :: later) more after) {key : PartitionKey}
    (hkind : key = none ↔ options.routing.scheme = .none) :
    ∃ files tables, Family.members after.tree (options.basePath key) = .ok files ∧
      (appender.job options (.delimited dialect) .real).readAll after files =
        .ok (some tables, []) ∧
      Family.StoresOnce keys tables
        ((done ++ now ++ (bucket, prepared) :: more).filter fun each => each.1.key = key) ∧
      ∀ other, (after.tree.get? (options.place key ++ [other])).isSome = true → ∃ file ∈ files,
        options.place key ++ [other] = file.location ∨
          options.place key ++ [other] = (Metadata.path file).location := by
  obtain ⟨listed, hsearched⟩ : ∃ listed, (options.basePath key).directory.listed? = some listed := by
    rw [← Option.isSome_iff_exists, Options.isSome_listed?_basePath hname]
    exact hlisted
  have hsends := hcalls call (by simp)
  obtain ⟨hworld, hledger, tables, hlength, htables, honce⟩ := Appender.Runs.exists_tables hname htarget
    hextension hoptions (fun other hother => hcalls other (List.mem_append_left _ hother)) (by omega)
    hruns hkind hsearched
  obtain ⟨hcutWorld, hcutLedger, hstores⟩ := hcut.storesKeys hname htarget hextension hoptions hsends
    hworld hledger hkept hkind hsearched (by omega) hlength htables honce
  have hlaterCalls : ∀ other ∈ call :: later, options.Sends keys other :=
    fun other hother => hcalls other (List.mem_append_right _ hother)
  obtain ⟨hafter, hafterLedger, others, hothers, hheld, honceAfter⟩ :=
    Appender.Runs.storesKeys hname htarget hextension hoptions hsearched hkind hlaterCalls
      (by rw [List.length_cons]; omega) hcutWorld hcutLedger hstores hlater
  have hbase : (options.basePath key).extension? ≠ some Metadata.extension :=
    (Options.extension?_basePath hname key).trans_ne hextension
  rw [List.length_cons] at hothers
  have hmembers := @Family.StoresTables.members_eq dialect keys (options.family hname htarget key) others
    after hafter listed hsearched hbase (by omega) hheld
  have hread := @Family.StoresTables.forall₂_readRows dialect keys (options.family hname htarget key)
    others after hafter hafterLedger listed hsearched hheld hoptions.valid
  have hall : done ++ now ++ (bucket, prepared) :: more =
      done ++ (now ++ [(bucket, prepared)]) ++ more := by simp
  rw [hall, List.filter_append, List.filter_append]
  refine ⟨_, others, hmembers, Job.readAll_eq_ok hread, honceAfter, fun other hother => ?_⟩
  obtain ⟨number, hnumber, hcases⟩ := @Family.StoresTables.exists_found dialect keys
    (options.family hname htarget key) others after listed hsearched hheld other hother
  exact ⟨_, List.mem_map_of_mem (List.mem_range.mpr hnumber), hcases⟩

theorem Appender.CutsOff.repeated_stores_once_of_one_row :
    let appender : Appender := ⟨none, 200⟩
    let options : Options :=
      { Options.ofTarget ⟨"d/p.csv"⟩ with antiJoin := ⟨true, ["id"], false, .family⟩ }
    let batch : Batch := ⟨["id"], [[.text "1"]]⟩
    ∃ bucket prepared cut more after,
      appender.CutsOff options batch ⟨.empty, none⟩ [] bucket prepared cut ∧
        appender.Runs cut [(options, batch)] more after ∧
        cut.tree.get? ["d", "p.csv.meta"] = none ∧
        ∃ tables, Family.StoresOnce ["id"] tables
          (((bucket, prepared) :: more).filter fun each => each.1.key = none) := by
  intro appender options batch
  let job := appender.job options (.delimited .commaSeparated) .real
  let bucket : Bucket := ⟨none, batch⟩
  let path : Path := ⟨"d/p.csv"⟩
  let tree := (FileTree.empty.makeDirectories ⟨"d"⟩).2
  let cut := (run (job.medium.write path batch .new) ⟨tree, none⟩).2
  have hreaches : options.Reaches batch FileTree.empty (.delimited .commaSeparated) [bucket] :=
    ⟨by decide +kernel, by decide +kernel, by decide +kernel, rfl⟩
  obtain ⟨prepared, hprepared, hkept, hwritten, -⟩ := @Job.exists_cutOff job ⟨.empty, none⟩ bucket none
    path batch .new false (by decide +kernel) (by decide) tree (metadataOf .commaSeparated)
    (by decide +kernel) (by decide +kernel) (by decide +kernel)
  have hcut : appender.CutsOff options batch ⟨.empty, none⟩ [] bucket prepared cut :=
    @Appender.CutsOff.reached appender options batch _ _ [] [] bucket [] _ cut prepared hreaches
      (.finished _) rfl hprepared hwritten
  obtain ⟨more, after, hsettles, -⟩ := @Appender.exists_settles appender options batch cut [0]
    (by decide +kernel)
  have hruns : appender.Runs cut [(options, batch)] more after := .next .nothing hsettles
  have hname : options.target.fileName? = some "p.csv" := by decide +kernel
  have hoptions : options.DropsStored .commaSeparated ["id"] :=
    ⟨by decide +kernel, by decide +kernel, rfl, by decide⟩
  have hsends : options.Sends ["id"] (options, batch) := by
    refine ⟨⟨options.limits, rfl⟩, ⟨⟨by decide, by decide⟩, by decide, by decide⟩, ?_⟩
    intro buckets hbuckets bucket hbucket
    obtain rfl : [(⟨none, batch⟩ : Bucket)] = buckets := Except.ok.inj hbuckets
    obtain rfl := List.mem_singleton.mp hbucket
    exact List.nodup_singleton _
  obtain ⟨files, tables, -, -, honce, -⟩ := Appender.CutsOff.repeated_stores_once hname (by decide)
    (by decide +kernel) (by decide +kernel) hoptions (by simpa using hsends) (by decide) .nothing hcut
    hkept hruns (by decide : (none : PartitionKey) = none ↔ options.routing.scheme = .none)
  exact ⟨bucket, prepared, cut, more, after, hcut, hruns, by decide +kernel, tables, honce⟩

/-- A new sibling that is cut off is no member of its family, so that its rows are stored again. -/
theorem Appender.CutsOff.stores_twice :
    let appender : Appender := ⟨none, 200⟩
    let options : Options :=
      { Options.ofTarget ⟨"p.csv"⟩ with
        antiJoin := ⟨true, ["id"], false, .family⟩, limits := ⟨some 1, none⟩ }
    let first : Batch := ⟨["id"], [[.text "1"]]⟩
    let second : Batch := ⟨["id"], [[.text "2"]]⟩
    ∃ done world bucket prepared cut more after,
      appender.Runs ⟨.empty, none⟩ [(options, first)] done world ∧
        appender.CutsOff options second world [] bucket prepared cut ∧
        appender.Runs cut [(options, second)] more after ∧
        after.tree.get? ["p_1.csv"] = some (.file (.bytes (Utf8.encode "id\n2\n"))) ∧
        after.tree.get? ["p_2.csv"] = some (.file (.bytes (Utf8.encode "id\n2\n"))) := by
  intro appender options first second
  let job := appender.job options (.delimited .commaSeparated) .real
  let world := (run (appender.append options first) ⟨.empty, none⟩).2
  let bucket : Bucket := ⟨none, second⟩
  let cut := (run (job.medium.write ⟨"p_1.csv"⟩ second .new) ⟨world.tree, world.ledger⟩).2
  let written := (run (job.medium.write ⟨"p_2.csv"⟩ second .new) ⟨cut.tree, cut.ledger⟩).2
  have hbase : job.options.basePath bucket.key = ⟨"p.csv"⟩ := by decide +kernel
  have hparts : Family.NameParts.ofPath ⟨"p.csv"⟩ = .ok ⟨"p", ".csv"⟩ := by decide +kernel
  have hlisted : (Path.mk "p.csv").directory.listed? = some ⟨"."⟩ := by decide +kernel
  -- No sibling has metadata, before the cut and after it.
  have hworldAlone : Family.siblings world.tree ⟨"p.csv"⟩ = .ok [] :=
    @Family.siblings_eq_nil _ _ _ hparts _ hlisted [] (by decide +kernel) (by decide +kernel)
  have hcutAlone : Family.siblings cut.tree ⟨"p.csv"⟩ = .ok [] :=
    @Family.siblings_eq_nil _ _ _ hparts _ hlisted [] (by decide +kernel) (by decide +kernel)
  obtain ⟨prepared, hprepared, -, hcutOff, -⟩ := @Job.exists_cutOff job world bucket none ⟨"p_1.csv"⟩
    second .new true
    (by
      simp only [Job.prepare, hbase, Job.locate_of_alone hworldAlone, Job.survivors,
        Job.baselineFiles_of_alone hworldAlone]
      decide +kernel)
    (by decide) world.tree (metadataOf .commaSeparated) (by decide +kernel)
    (by decide +kernel) (by decide +kernel)
  obtain ⟨again, hagain, -, -, hcommit⟩ := @Job.exists_cutOff job cut bucket none ⟨"p_2.csv"⟩
    second .new true
    (by
      simp only [Job.prepare, hbase, Job.locate_of_alone hcutAlone, Job.survivors,
        Job.baselineFiles_of_alone hcutAlone]
      decide +kernel)
    (by decide) cut.tree (metadataOf .commaSeparated) (by decide +kernel)
    (by decide +kernel) (by decide +kernel)
  have hreaches : ∀ tree ∈ [world.tree, cut.tree],
      options.Reaches second tree (.delimited .commaSeparated) [bucket] := by
    intro tree htree
    refine ⟨?_, by decide +kernel, by decide +kernel, rfl⟩
    rcases List.mem_pair.mp htree with rfl | rfl <;> decide +kernel
  obtain ⟨done, left, hfirst, -⟩ := @Appender.exists_settles appender options first ⟨.empty, none⟩ [1]
    (by decide +kernel)
  obtain rfl : world = left := hfirst.run_append
  refine ⟨done, world, bucket, prepared, cut, _, _, .next .nothing hfirst,
    .reached (hreaches _ (by simp)) (.finished world) rfl hprepared hcutOff,
    .next .nothing (.served (hreaches _ (by simp)) (.written hagain hcommit (.finished _))), ?_, ?_⟩
  · decide +kernel
  · decide +kernel
end TableAppend
