import TableAppend.Proofs.Append.Recovery
import TableAppend.Proofs.World.Doubling
import TableAppend.Proofs.World.Storing

/-!
# Appending a batch twice

Without limits and without an anti-join each partition of a batch has one file.  What an append has put
there can be read, and the same rows can be added again: each file then holds its rows twice, in the
same order.  Two things can stand in the way.  The directory of a partition may take the place of the
target, and a delimited file may begin with a byte order mark.
-/

namespace TableAppend

open Change (run run_bind_eq_ok_iff run_pure_eq_ok_iff)
open FileTree (destination DirectoriesStay Puts SameDirectories Writable)

/-! ## Preparing without limits and comparisons -/

namespace Job

variable {job : Job} {name : String} {world after : World} {bucket : Bucket}

/-- A job that writes all rows of a partition to its base file. -/
structure WritesAll (job : Job) (name : String) : Prop extends job.WritesBases name where
  joinless : job.options.antiJoin.enabled = false

variable (hwrites : job.WritesAll name)

include hwrites

theorem survivors_of_joinless (world : World) (base : Path) (candidates : Batch) :
    job.survivors world base candidates = .ok ((candidates, false), []) := by
  simp [survivors, hwrites.joinless]

theorem maxRows_eq_none : job.options.limits.maxRows = none := by
  have hunlimited := hwrites.unlimited
  rw [Limits.isEnabled, Bool.or_eq_false_iff, Option.isSome_eq_false_iff,
    Option.isNone_iff_eq_none] at hunlimited
  exact hunlimited.1

/-- All rows go to the base file: a new one, or the one that is there if it is accepted for them. -/
theorem prepared_cases {prepared : Prepared} (hprepared : job.prepare world bucket = .ok prepared) :
    prepared.key = bucket.key ∧ prepared.path = job.options.basePath bucket.key ∧
      prepared.survivors = job.medium.storedForm bucket.rows ∧
        (((∀ content, world.tree.node? (job.options.basePath bucket.key) ≠ some (.file content)) ∧
            prepared.layout = .new) ∨
          ∃ content known,
            world.tree.node? (job.options.basePath bucket.key) = some (.file content) ∧
              job.medium.check world.tree (job.options.basePath bucket.key) known
                (job.medium.storedForm bucket.rows) = .ok prepared.layout) := by
  obtain ⟨file, found, layout, checked, survivors, antiJoined, compared, hlocate, hlayout,
    hsurvivors, rfl⟩ := prepare_eq_ok_iff.mp hprepared
  rw [locate_of_unlimited hwrites.unlimited] at hlocate
  rw [survivors_of_joinless hwrites, Except.ok.injEq, Prod.mk.injEq, Prod.mk.injEq] at hsurvivors
  obtain ⟨known, state, hknown, hstate, rfl⟩ := observe_eq_ok_iff.mp hlocate
  refine ⟨rfl, rfl, hsurvivors.1.1.symm, ?_⟩
  rcases ((layoutFor_real_eq_ok_iff hwrites.real).mp hlayout).2 with
    ⟨habsent, hnew⟩ | ⟨hpresent, hcheck⟩
  · refine .inl ⟨fun content hnode => ?_, hnew⟩
    obtain ⟨rows, notes, -, hfound⟩ := countRows_of_stateOf hstate hnode
    rw [hfound] at habsent
    contradiction
  · obtain ⟨content, hnode⟩ := present_of_stateOf hstate hpresent
    exact .inr ⟨content, known, hnode, hcheck⟩

/-- Where there is no file yet, all rows go to a new one. -/
theorem prepared_of_absent
    (habsent : ∀ content, world.tree.node? (job.options.basePath bucket.key) ≠ some (.file content))
    {prepared : Prepared} (hprepared : job.prepare world bucket = .ok prepared) :
    prepared.key = bucket.key ∧ prepared.path = job.options.basePath bucket.key ∧
      prepared.survivors = job.medium.storedForm bucket.rows ∧ prepared.layout = .new := by
  obtain ⟨hkey, hpath, hsurvivors, ⟨-, hlayout⟩ | ⟨content, -, hnode, -⟩⟩ :=
    prepared_cases hwrites hprepared
  · exact ⟨hkey, hpath, hsurvivors, hlayout⟩
  · exact absurd hnode (habsent content)

/-- Where there is a file, all rows go to it if it is accepted for them. -/
theorem exists_prepare_of_accepted {content : Content} {known : Option Metadata} {layout : Layout}
    (hnode : world.tree.node? (job.options.basePath bucket.key) = some (.file content))
    (hknown : world.metadata (job.options.basePath bucket.key) = .ok known)
    (hcheck : job.medium.check world.tree (job.options.basePath bucket.key) known
      (job.medium.storedForm bucket.rows) = .ok layout) :
    ∃ prepared, job.prepare world bucket = .ok prepared ∧ prepared.key = bucket.key ∧
      prepared.path = job.options.basePath bucket.key ∧
        prepared.survivors = job.medium.storedForm bucket.rows ∧ prepared.layout = layout := by
  have hcount : job.countRows world (job.options.basePath bucket.key) known = .ok (none, []) := by
    simp [countRows, maxRows_eq_none hwrites, hwrites.real]
  obtain ⟨state, remarks, hstate, hpresent⟩ : ∃ state remarks,
      job.stateOf world (job.options.basePath bucket.key) known = .ok (state, remarks) ∧
        state.present = true := by
    simp only [stateOf, hnode, hcount, Outcome.ok_bind]
    exact ⟨_, _, rfl, rfl⟩
  have hlocate : job.locate world (job.options.basePath bucket.key) =
      .ok (⟨job.options.basePath bucket.key, known, state, false⟩, remarks) := by
    rw [locate_of_unlimited hwrites.unlimited]
    exact observe_eq_ok_iff.mpr ⟨known, state, hknown, hstate, rfl⟩
  have hlayout : job.layoutFor world ⟨job.options.basePath bucket.key, known, state, false⟩
      (job.medium.storedForm bucket.rows) = .ok (layout, []) :=
    (layoutFor_real_eq_ok_iff hwrites.real).mpr ⟨rfl, .inr ⟨hpresent, hcheck⟩⟩
  exact ⟨_, prepare_eq_ok_iff.mpr ⟨_, _, _, _, _, _, _, hlocate, hlayout,
    survivors_of_joinless hwrites world _ _, rfl⟩, rfl, rfl, rfl, rfl⟩

omit hwrites

/-! ## What one partition leaves -/

theorem directoryOf_text_ne_empty (options : Options) (key : PartitionKey) :
    (options.directoryOf key).text ≠ "" := by
  cases key with
  | none =>
    change options.target.directory.text ≠ ""
    rw [Path.directory]
    split
    · split
      · decide
      · assumption
    · decide
  | some segment => exact FileTree.text_join_ne_empty segment.isName _

/-- The rows of a partition are stored in its base file, and its directories have been made. -/
structure Deposits (job : Job) (key : PartitionKey) (world after : World) (content : Content)
    (metadata : Metadata) : Prop where
  stored : ∃ tree, world.tree.makeDirectories (job.options.directoryOf key) = (.ok (), tree) ∧
    (∀ file ∈ job.medium.files (job.options.basePath key), tree.Writable file) ∧
      after = ⟨job.medium.store tree (job.options.basePath key) content metadata, none⟩

/-- The base file of a partition holds a content and can be written again. -/
structure Stored (job : Job) (key : PartitionKey) (world : World) (content : Content)
    (metadata : Metadata) : Prop where
  files : world.ledger = none
  directory : world.tree.isDirectory (job.options.directoryOf key) = true
  holds : job.medium.Holds world.tree (job.options.basePath key) content metadata

section Deposits

variable {key other : PartitionKey} {content found : Content} {metadata known : Metadata}
  (hname : job.options.target.fileName? = some name)

include hname

theorem Deposits.isStored (hdeposits : job.Deposits key world after content metadata) :
    job.Stored key after content metadata := by
  obtain ⟨tree, hmade, hwritable, rfl⟩ := hdeposits.stored
  have hbase := Options.fileName?_basePath hname key
  refine ⟨rfl, ?_, job.medium.holds_store hbase hwritable content metadata⟩
  have hdirectory := FileTree.isDirectory_of_makeDirectories
    (directoryOf_text_ne_empty job.options key) hmade
  exact (job.medium.sameDirectories_store hwritable content metadata).stay.isDirectory hdirectory

/-- No other files come than the base file and its metadata file. -/
theorem Deposits.file (hdeposits : job.Deposits key world after content metadata) {place : Location}
    (hfound : after.tree.get? place = some (.file found)) :
    place = destination (job.options.basePath key) ∨
      place = destination (Metadata.path (job.options.basePath key)) ∨
        world.tree.get? place = some (.file found) := by
  obtain ⟨tree, hmade, hwritable, rfl⟩ := hdeposits.stored
  have hbase := Options.fileName?_basePath hname key
  rcases job.medium.file_of_store hbase hwritable hfound with hdata | hrecord | htree
  · exact .inl hdata
  · exact .inr (.inl hrecord)
  · exact .inr (.inr ((FileTree.file_makeEach_iff hmade).mp htree))

/-- The files of a partition lie in its directory. -/
theorem exists_destination_of_mem_files {segment : Segment} :
    ∀ file ∈ job.medium.files (job.options.basePath (some segment)), ∃ last,
      destination file = destination job.options.baseDirectory ++ [segment.text] ++ [last] := by
  have hbase := Options.fileName?_basePath hname (some segment)
  obtain ⟨beside, hpath, hscratch, hmetadata, htemporary⟩ := FileTree.exists_destinations hbase
  have hjoin : destination (job.options.basePath (some segment)) =
      destination job.options.baseDirectory ++ [segment.text] ++ [name] := by
    rw [Options.basePath, hname, Option.getD_some, PartitionKey.directory,
      FileTree.destination_join _ (Path.isName_of_fileName? hname),
      FileTree.destination_join _ segment.isName]
  have hbeside := (List.append_inj' (hpath.symm.trans hjoin) rfl).1
  rw [← hbeside]
  refine Medium.forall_mem_files_iff.mpr ⟨⟨_, hpath⟩, ⟨_, hmetadata⟩, ⟨_, htemporary⟩, ?_⟩
  intro temporary hmem
  rw [job.medium.eq_of_mem_scratch hmem]
  exact ⟨_, hscratch⟩

theorem destination_ne_of_apart (hapart : Apart key other) {file written : Path}
    (hfile : file ∈ job.medium.files (job.options.basePath key))
    (hwritten : written ∈ job.medium.files (job.options.basePath other)) :
    destination file ≠ destination written := by
  obtain ⟨segment, another, rfl, rfl, hne⟩ := hapart
  obtain ⟨last, hlast⟩ := exists_destination_of_mem_files hname file hfile
  obtain ⟨final, hfinal⟩ := exists_destination_of_mem_files hname written hwritten
  intro hsame
  rw [hlast, hfinal, List.append_assoc, List.append_assoc] at hsame
  have htext := (List.cons.inj (List.append_cancel_left hsame)).1
  cases segment
  cases another
  exact hne (by simpa using htext)

/-- What is stored for one partition leaves the others as they are. -/
theorem Deposits.elsewhere (hdeposits : job.Deposits other world after found known)
    (hapart : Apart key other) (hstored : job.Stored key world content metadata) :
    job.Stored key after content metadata := by
  obtain ⟨tree, hmade, hwritable, rfl⟩ := hdeposits.stored
  obtain ⟨segment, another, rfl, rfl, -⟩ := id hapart
  have hbase : world.tree.isDirectory job.options.baseDirectory = true :=
    FileTree.isDirectory_of_join segment.isName
      (directoryOf_text_ne_empty job.options none) hstored.directory
  have hstay : DirectoriesStay world.tree
      (job.medium.store tree (job.options.basePath (some another)) found known) :=
    (FileTree.directoriesStay_makeEach hmade).trans
      (job.medium.sameDirectories_store hwritable found known).stay
  refine ⟨rfl, hstay.isDirectory hstored.directory, hstored.holds.of_stay hstay fun file hfile => ?_⟩
  have hmakes : tree.get? (destination file) = world.tree.get? (destination file) := by
    obtain ⟨last, hlast⟩ := exists_destination_of_mem_files hname file hfile
    refine FileTree.get?_makeDirectories_join another.isName hbase hmade fun hsame => ?_
    rw [hlast] at hsame
    simpa using congrArg List.length hsame
  rw [← hmakes]
  exact job.medium.get?_store hwritable
    (fun written hwritten => destination_ne_of_apart hname hapart hfile hwritten) found known

end Deposits

/-! ## Writing one partition -/

section Commit

variable {prepared : Prepared} (hname : job.options.target.fileName? = some name)
  (hpath : prepared.path = job.options.basePath prepared.key)
  (hsurvivors : prepared.survivors.isEmpty = false)

include hname hpath hsurvivors

theorem exists_commit_iff (hledger : world.ledger = none)
    (hadds : prepared.layout.columns.isSome = true → ∀ tree,
      world.tree.makeDirectories (job.options.directoryOf prepared.key) = (.ok (), tree) →
        tree.Writable prepared.path) :
    (∃ action, run (prepared.commit job) world = (.ok action, after)) ↔
      ∃ tree, world.tree.makeDirectories (job.options.directoryOf prepared.key) = (.ok (), tree) ∧
        (∀ file ∈ job.medium.files prepared.path, tree.Writable file) ∧
          ∃ content metadata, job.medium.Stores tree prepared.path prepared.survivors
              prepared.layout content metadata ∧
            after = ⟨job.medium.store tree prepared.path content metadata, none⟩ := by
  have hbase : prepared.path.fileName? = some name :=
    hpath ▸ Options.fileName?_basePath hname prepared.key
  have hiff {tree : FileTree}
      (hmade : world.tree.makeDirectories (job.options.directoryOf prepared.key) = (.ok (), tree)) :=
    have hfiles : (World.mk tree world.ledger).ledger = none := hledger
    @Medium.write_and_record_iff _ after _ name prepared.survivors _ job.medium hbase hfiles
      fun hlayout => hadds hlayout tree hmade
  constructor
  · rintro ⟨action, hrun⟩
    obtain ⟨tree, metadata, written, hmade, hwrite, hrecord, -⟩ :=
      (Prepared.commit_eq_ok_iff hsurvivors).mp hrun
    exact ⟨tree, hmade, (hiff hmade).mp ⟨metadata, written, hwrite, hrecord⟩⟩
  · rintro ⟨tree, hmade, hstores⟩
    obtain ⟨metadata, written, hwrite, hrecord⟩ := (hiff hmade).mpr hstores
    exact ⟨prepared.action, (Prepared.commit_eq_ok_iff hsurvivors).mpr
      ⟨tree, metadata, written, hmade, hwrite, hrecord, rfl⟩⟩

end Commit

section Process

variable (hwrites : job.WritesAll name) (hrows : bucket.rows.isEmpty = false)

include hwrites hrows

/-- The first rows of a partition are stored in a new file. -/
theorem exists_deposits_of_process (hledger : world.ledger = none)
    (habsent : ∀ content, world.tree.get? (destination (job.options.basePath bucket.key)) ≠
      some (.file content))
    {action : Action} (hrun : run (job.process bucket) world = (.ok action, after)) :
    ∃ tree content metadata,
      job.medium.Stores tree (job.options.basePath bucket.key) (job.medium.storedForm bucket.rows)
        .new content metadata ∧
      job.Deposits bucket.key world after content metadata := by
  obtain ⟨prepared, hprepared, hcommit⟩ := process_eq_ok_iff.mp hrun
  obtain ⟨hkey, hpath, hsurvivors, hlayout⟩ := prepared_of_absent hwrites
    (fun content hnode => habsent content (FileTree.get?_of_node? hnode)) hprepared
  have hnonempty : prepared.survivors.isEmpty = false := by
    rw [hsurvivors, job.medium.isEmpty_storedForm, hrows]
  obtain ⟨tree, hmade, hwritable, content, metadata, hstores, hafter⟩ :=
    (exists_commit_iff hwrites.name (hkey ▸ hpath) hnonempty hledger
      (by rw [hlayout]; exact fun hadds => absurd hadds (by decide))).mp ⟨action, hcommit⟩
  rw [hkey] at hmade
  rw [hpath] at hwritable hstores hafter
  rw [hsurvivors, hlayout] at hstores
  exact ⟨tree, content, metadata, hstores, ⟨tree, hmade, hwritable, hafter⟩⟩

/-- The same rows can then be stored again. -/
theorem exists_process_again {stored : List (List Cell)} {once twice : Content}
    {first second : Metadata} (hstored : job.Stored bucket.key world once first)
    (hdoubles : job.medium.Doubles bucket.rows stored once twice first second) :
    ∃ action after, run (job.process bucket) world = (.ok action, after) ∧
      job.Deposits bucket.key world after twice second := by
  obtain ⟨layout, hcheck, hstores⟩ := hdoubles.adds _ _ hstored.holds.data
  obtain ⟨prepared, hprepared, hkey, hpath, hsurvivors, hlayout⟩ := exists_prepare_of_accepted hwrites
    hstored.holds.data (hstored.holds.metadata_eq hstored.files) hcheck
  have hnonempty : prepared.survivors.isEmpty = false := by
    rw [hsurvivors, job.medium.isEmpty_storedForm, hrows]
  have hmade := FileTree.makeDirectories_eq_self hstored.directory
  obtain ⟨action, hcommit⟩ := (exists_commit_iff hwrites.name (hkey ▸ hpath) hnonempty hstored.files
    fun _ tree htree => by
      rw [hkey, hmade, Prod.mk.injEq] at htree
      rw [hpath, ← htree.2]
      exact hstored.holds.writable _ List.mem_cons_self).mpr
    ⟨world.tree, hkey ▸ hmade, hpath ▸ hstored.holds.writable, twice, second,
      by rw [hpath, hsurvivors, hlayout]; exact hstores, rfl⟩
  refine ⟨action, _, process_eq_ok_iff.mpr ⟨prepared, hprepared, hcommit⟩, ?_⟩
  exact ⟨world.tree, hmade, hstored.holds.writable, by rw [hpath]⟩

end Process

/-! ## Writing all partitions -/

/-- Contents are stored for partitions one after the other. -/
inductive DepositsAll (job : Job) :
    World → List (PartitionKey × Content × Metadata) → World → Prop
  | nothing (world : World) : DepositsAll job world [] world
  | next {world between after : World} {key : PartitionKey} {content : Content}
      {metadata : Metadata} {rest : List (PartitionKey × Content × Metadata)}
      (hfirst : job.Deposits key world between content metadata)
      (hrest : DepositsAll job between rest after) :
      DepositsAll job world ((key, content, metadata) :: rest) after

namespace DepositsAll

variable {done : List (PartitionKey × Content × Metadata)}
  (hname : job.options.target.fileName? = some name) (hall : job.DepositsAll world done after)

include hname hall

theorem elsewhere {key : PartitionKey} {content : Content} {metadata : Metadata}
    (hapart : ∀ each ∈ done, Apart key each.1) (hstored : job.Stored key world content metadata) :
    job.Stored key after content metadata := by
  induction hall with
  | nothing world => exact hstored
  | next hfirst hrest ih =>
    rw [List.forall_mem_cons] at hapart
    exact ih hapart.2 (hfirst.elsewhere hname hapart.1 hstored)

/-- What has been stored for one partition is still there after the others. -/
theorem stored (hapart : (done.map Prod.fst).Pairwise Apart)
    {each : PartitionKey × Content × Metadata} (heach : each ∈ done) :
    job.Stored each.1 after each.2.1 each.2.2 := by
  induction hall with
  | nothing world => exact absurd heach List.not_mem_nil
  | next hfirst hrest ih =>
    rw [List.map_cons, List.pairwise_cons] at hapart
    rcases List.mem_cons.mp heach with hsame | hmem
    · rw [hsame]
      exact hrest.elsewhere hname (fun other hother =>
        hapart.1 _ (List.mem_map_of_mem hother)) (hfirst.isStored hname)
    · exact ih hapart.2 hmem

theorem file {place : Location} {found : Content}
    (hfound : after.tree.get? place = some (.file found)) :
    world.tree.get? place = some (.file found) ∨ ∃ each ∈ done,
      place = destination (job.options.basePath each.1) ∨
        place = destination (Metadata.path (job.options.basePath each.1)) := by
  induction hall with
  | nothing world => exact .inl hfound
  | next hfirst hrest ih =>
    rcases ih hfound with hbefore | ⟨each, heach, hplace⟩
    · rcases hfirst.file hname hbefore with hdata | hrecord | hworld
      · exact .inr ⟨_, List.mem_cons_self, .inl hdata⟩
      · exact .inr ⟨_, List.mem_cons_self, .inr hrecord⟩
      · exact .inl hworld
    · exact .inr ⟨each, List.mem_cons_of_mem _ heach, hplace⟩

/-- A file that was not there before belongs to one of the partitions. -/
theorem exists_bucket {buckets : List Bucket} (hkeys : done.map Prod.fst = buckets.map Bucket.key)
    {place : Location} {found : Content} (hfound : after.tree.get? place = some (.file found)) :
    world.tree.get? place = some (.file found) ∨ ∃ bucket ∈ buckets,
      place = destination (job.options.basePath bucket.key) ∨
        place = destination (Metadata.path (job.options.basePath bucket.key)) := by
  refine (hall.file hname hfound).imp_right ?_
  rintro ⟨each, heach, hplace⟩
  obtain ⟨bucket, hbucket, hkey⟩ := List.mem_map.mp (hkeys ▸ List.mem_map_of_mem heach)
  exact ⟨bucket, hbucket, hkey ▸ hplace⟩

end DepositsAll

section All

variable (hwrites : job.WritesAll name) {buckets : List Bucket}
  (hrows : ∀ bucket ∈ buckets, bucket.rows.isEmpty = false)
  (hapart : (buckets.map Bucket.key).Pairwise Apart)

include hwrites hrows hapart

/-- Where no partition has a file yet, a new one is made for each. -/
theorem exists_depositsAll_of_processAll (hledger : world.ledger = none)
    (habsent : ∀ bucket ∈ buckets, ∀ content,
      world.tree.get? (destination (job.options.basePath bucket.key)) ≠ some (.file content))
    {report last : Report}
    (hrun : run (job.processAll report buckets) world = (.ok last, after)) :
    ∃ done, job.DepositsAll world done after ∧ done.map Prod.fst = buckets.map Bucket.key ∧
      ∀ bucket ∈ buckets, ∃ tree content metadata, (bucket.key, content, metadata) ∈ done ∧
        job.medium.Stores tree (job.options.basePath bucket.key)
          (job.medium.storedForm bucket.rows) .new content metadata := by
  induction buckets generalizing world report with
  | nil =>
    obtain ⟨-, rfl⟩ := run_pure_eq_ok_iff.mp hrun
    exact ⟨[], .nothing _, rfl, fun bucket hbucket => absurd hbucket List.not_mem_nil⟩
  | cons bucket rest ih =>
    rw [List.forall_mem_cons] at hrows habsent
    rw [List.map_cons, List.pairwise_cons] at hapart
    obtain ⟨action, between, hprocess, hrest⟩ := processAll_cons_eq_ok_iff.mp hrun
    obtain ⟨tree, content, metadata, hstores, hdeposits⟩ :=
      exists_deposits_of_process hwrites hrows.1 hledger habsent.1 hprocess
    have hstill : ∀ other ∈ rest, ∀ found,
        between.tree.get? (destination (job.options.basePath other.key)) ≠ some (.file found) := by
      intro other hother found hfound
      have hsymm : Apart other.key bucket.key := (hapart.1 _ (List.mem_map_of_mem hother)).symm
      have hne {written : Path}
          (hwritten : written ∈ job.medium.files (job.options.basePath bucket.key)) :=
        destination_ne_of_apart hwrites.name hsymm List.mem_cons_self hwritten
      rcases hdeposits.file hwrites.name hfound with hdata | hrecord | hbefore
      · exact hne List.mem_cons_self hdata
      · exact hne (List.mem_cons_of_mem _ List.mem_cons_self) hrecord
      · exact habsent.2 other hother found hbefore
    obtain ⟨done, hall, hkeys, hothers⟩ := ih hrows.2 hapart.2
      (hdeposits.isStored hwrites.name).files hstill hrest
    refine ⟨_, .next hdeposits hall, by rw [List.map_cons, List.map_cons, hkeys], ?_⟩
    refine List.forall_mem_cons.mpr ⟨⟨tree, content, metadata, List.mem_cons_self, hstores⟩, ?_⟩
    intro other hother
    obtain ⟨tree, content, metadata, hmem, hstores⟩ := hothers other hother
    exact ⟨tree, content, metadata, List.mem_cons_of_mem _ hmem, hstores⟩

/-- Where the rows of every partition can be added again, all of them are added. -/
theorem exists_processAll_again {known : Bucket → List (List Cell) → Prop} (report : Report)
    (hagain : ∀ bucket ∈ buckets, ∃ stored once twice first second, known bucket stored ∧
      job.Stored bucket.key world once first ∧
        job.medium.Doubles bucket.rows stored once twice first second) :
    ∃ last after done, run (job.processAll report buckets) world = (.ok last, after) ∧
      job.DepositsAll world done after ∧ done.map Prod.fst = buckets.map Bucket.key ∧
        ∀ bucket ∈ buckets, ∃ stored once twice first second, known bucket stored ∧
          (bucket.key, twice, second) ∈ done ∧
            job.medium.Doubles bucket.rows stored once twice first second := by
  induction buckets generalizing world report with
  | nil =>
    exact ⟨report, world, [], run_pure_eq_ok_iff.mpr ⟨rfl, rfl⟩, .nothing _, rfl,
      fun bucket hbucket => absurd hbucket List.not_mem_nil⟩
  | cons bucket rest ih =>
    rw [List.forall_mem_cons] at hrows hagain
    rw [List.map_cons, List.pairwise_cons] at hapart
    obtain ⟨⟨stored, once, twice, first, second, hknown, hstored, hdoubles⟩, hagain⟩ := hagain
    obtain ⟨action, between, hprocess, hdeposits⟩ :=
      exists_process_again hwrites hrows.1 hstored hdoubles
    have hstill : ∀ other ∈ rest, ∃ stored once twice first second, known other stored ∧
        job.Stored other.key between once first ∧
          job.medium.Doubles other.rows stored once twice first second := by
      intro other hother
      obtain ⟨stored, once, twice, first, second, hknown, hstored, hdoubles⟩ := hagain other hother
      have hsymm : Apart other.key bucket.key :=
        (hapart.1 _ (List.mem_map_of_mem hother)).symm
      exact ⟨stored, once, twice, first, second, hknown,
        hdeposits.elsewhere hwrites.name hsymm hstored, hdoubles⟩
    obtain ⟨last, after, done, hrest, hall, hkeys, hothers⟩ :=
      ih hrows.2 hapart.2 (report.add action) hstill
    refine ⟨last, after, _, processAll_cons_eq_ok_iff.mpr ⟨action, between, hprocess, hrest⟩,
      .next hdeposits hall, by rw [List.map_cons, List.map_cons, hkeys], ?_⟩
    refine List.forall_mem_cons.mpr
      ⟨⟨stored, once, twice, first, second, hknown, List.mem_cons_self, hdoubles⟩, ?_⟩
    intro other hother
    obtain ⟨stored, once, twice, first, second, hknown, hmem, hdoubles⟩ := hothers other hother
    exact ⟨stored, once, twice, first, second, hknown, List.mem_cons_of_mem _ hmem, hdoubles⟩

end All

end Job

/-! ## Two appends -/

/-- A file is read as a batch with the metadata that are recorded for it. -/
def World.Reads (world : World) (medium : Medium) (path : Path) (rows : Batch) : Prop :=
  ∃ known, world.metadata path = .ok known ∧ medium.readRows world.tree path known = .ok rows

theorem Job.Stored.reads {job : Job} {key : PartitionKey} {world : World} {content : Content}
    {metadata : Metadata} (hstored : job.Stored key world content metadata) {rows : Batch}
    (hreads : ∀ tree path, FileTree.node? tree path = some (.file content) →
      job.medium.readRows tree path (some metadata) = .ok rows) :
    world.Reads job.medium (job.options.basePath key) rows :=
  ⟨_, hstored.holds.metadata_eq hstored.files, hreads _ _ hstored.holds.data⟩

namespace Appender

variable {appender : Appender} {options : Options} {batch : Batch} {between : World}
  {report : Report}

/-- What an append has put into an empty directory can be appended once more.  Each partition then has
one file, its rows twice in it, and there are no other files than these and their metadata. -/
theorem append_twice
    (hcodec : ∀ codec, appender.codec = some codec → ∃ encoding, codec = .standard encoding)
    (hjoinless : options.antiJoin.enabled = false) (hunlimited : options.limits.isEnabled = false)
    (hbatch : batch.WellFormed) (hcolumns : batch.columns ≠ []) (hrows : batch.rows ≠ [])
    (hfirst : run (appender.append options batch) ⟨.empty, none⟩ = (.ok report, between))
    (htarget : between.tree.isDirectory options.target = false)
    (hmarks : ∀ dialect, options.effectiveFormat = .ok (.delimited dialect) →
      Delimited.byteOrderMark.isPrefixOf (Delimited.writeHeader dialect batch.columns) = false) :
    ∃ format buckets again after, options.effectiveFormat = .ok format ∧
      options.routing.buckets batch = .ok buckets ∧
      run (appender.append options batch) between = (.ok again, after) ∧
      (∀ bucket ∈ buckets, ∃ stored,
        (Medium.ofFormat format appender.codec).StoredRows bucket.rows stored ∧
        between.Reads (.ofFormat format appender.codec) (options.basePath bucket.key)
          ⟨batch.columns, stored⟩ ∧
        after.Reads (.ofFormat format appender.codec) (options.basePath bucket.key)
          ⟨batch.columns, stored ++ stored⟩) ∧
      ∀ place content, after.tree.get? place = some (.file content) → ∃ bucket ∈ buckets,
        place = destination (options.basePath bucket.key) ∨
          place = destination (Metadata.path (options.basePath bucket.key)) := by
  obtain ⟨format, hvalid, hformat, hcases⟩ := append_eq_ok_iff.mp hfirst
  rcases hcases with ⟨hempty, -, -⟩ | ⟨hsome, buckets, hbuckets, hprocess⟩
  · exact absurd (List.isEmpty_iff.mp hempty) hrows
  obtain ⟨name, hname⟩ := exists_fileName?_of_validate hvalid
  have hbases := writesBases_of_validate appender hvalid hformat hname hunlimited
  have hwrites : (appender.job options format .real).WritesAll name := ⟨hbases, hjoinless⟩
  have hapart := Routing.apart_buckets hbuckets
  have hnonempty : ∀ bucket ∈ buckets, bucket.rows.isEmpty = false := fun bucket hbucket =>
    Bool.eq_false_iff.mpr fun hempty =>
      (Routing.mem_bucket hbuckets hbucket).2.1 (List.isEmpty_iff.mp hempty)
  obtain ⟨done, hall, hkeys, hstores⟩ := Job.exists_depositsAll_of_processAll hwrites hnonempty hapart
    rfl (fun _ _ content => FileTree.get?_empty_ne_file _ content) hprocess
  have hagain : ∀ bucket ∈ buckets, ∃ stored once twice first second,
      ((Medium.ofFormat format appender.codec).StoredRows bucket.rows stored ∧
        between.Reads (.ofFormat format appender.codec) (options.basePath bucket.key)
          ⟨batch.columns, stored⟩) ∧
      (appender.job options format .real).Stored bucket.key between once first ∧
        (Medium.ofFormat format appender.codec).Doubles bucket.rows stored once twice first
          second := by
    intro bucket hbucket
    obtain ⟨tree, once, first, hmem, hstores⟩ := hstores bucket hbucket
    obtain ⟨hsame, -, -⟩ := Routing.mem_bucket hbuckets hbucket
    have hstored := hall.stored hwrites.name (hkeys ▸ hapart) hmem
    have hwell := Routing.wellFormed_bucket hbatch hbuckets hbucket
    obtain ⟨stored, twice, second, hrowsStored, hdoubles⟩ := Medium.exists_doubles hcodec hwell
      (hsame ▸ hcolumns) (fun dialect hdialect =>
        ⟨hbases.usable dialect (by rw [hdialect]; rfl),
          hsame ▸ hmarks dialect (hdialect ▸ hformat)⟩) hstores
    exact ⟨stored, once, twice, first, second,
      ⟨hrowsStored, hsame ▸ hstored.reads hdoubles.reads⟩, hstored, hdoubles⟩
  obtain ⟨again, after, doneAgain, hrun, hallAgain, hkeysAgain, hbucketsAgain⟩ :=
    Job.exists_processAll_again hwrites hnonempty hapart .empty hagain
  refine ⟨format, buckets, again, after, hformat, hbuckets, append_eq_ok_iff.mpr
    ⟨format, validate_of_validate hvalid htarget, hformat,
      .inr ⟨hsome, buckets, hbuckets, hrun⟩⟩, ?_, ?_⟩
  · intro bucket hbucket
    obtain ⟨stored, once, twice, first, second, ⟨hrowsStored, hbetween⟩, hmem, hdoubles⟩ :=
      hbucketsAgain bucket hbucket
    obtain ⟨hsame, -, -⟩ := Routing.mem_bucket hbuckets hbucket
    have hstored := hallAgain.stored hwrites.name (hkeysAgain ▸ hapart) hmem
    exact ⟨stored, hrowsStored, hbetween, hsame ▸ hstored.reads hdoubles.readsTwice⟩
  · intro place content hfound
    rcases hallAgain.exists_bucket hwrites.name hkeysAgain hfound with hbetween | hplaced
    · exact (hall.exists_bucket hwrites.name hkeys hbetween).resolve_left
        (FileTree.get?_empty_ne_file place content)
    · exact hplaced

theorem append_twice_of_one_row :
    let appender : Appender := ⟨some .standard, 200⟩
    let options := Options.ofTarget ⟨"p.csv"⟩
    let batch : Batch := ⟨["id", "name"], [[.int 1, .text "a"]]⟩
    ∃ report between format buckets again after,
      run (appender.append options batch) ⟨.empty, none⟩ = (.ok report, between) ∧
        options.effectiveFormat = .ok format ∧ options.routing.buckets batch = .ok buckets ∧
          run (appender.append options batch) between = (.ok again, after) ∧
            ∀ bucket ∈ buckets, ∃ stored,
              (Medium.ofFormat format appender.codec).StoredRows bucket.rows stored ∧
                after.Reads (.ofFormat format appender.codec) (options.basePath bucket.key)
                  ⟨batch.columns, stored ++ stored⟩ := by
  intro appender options batch
  let between := (run (appender.append options batch) ⟨.empty, none⟩).2
  have hfirst : run (appender.append options batch) ⟨.empty, none⟩ =
      (.ok ⟨[⟨"p.csv"⟩], [⟨⟨"p.csv"⟩, none, 1, 0, true, false, false⟩]⟩, between) :=
    Prod.ext (by decide +kernel) rfl
  have hformat : options.effectiveFormat = .ok (.delimited .commaSeparated) := by decide +kernel
  have hmarks : ∀ dialect, options.effectiveFormat = .ok (.delimited dialect) →
      Delimited.byteOrderMark.isPrefixOf (Delimited.writeHeader dialect batch.columns) = false := by
    intro dialect hdialect
    rw [hformat, Except.ok.injEq, Format.delimited.injEq] at hdialect
    rw [← hdialect]
    decide +kernel
  obtain ⟨format, buckets, again, after, hfound, hbuckets, hsecond, hdoubled, -⟩ :=
    append_twice (fun codec hcodec => ⟨_, (Option.some.inj hcodec).symm⟩) rfl rfl ⟨by decide, by decide⟩
      (by decide) (by decide) hfirst (by decide +kernel) hmarks
  refine ⟨_, between, format, buckets, again, after, hfirst, hfound, hbuckets, hsecond, ?_⟩
  intro bucket hbucket
  obtain ⟨stored, hstored, -, hreads⟩ := hdoubled bucket hbucket
  exact ⟨stored, hstored, hreads⟩

/-- The directory of a partition takes the place of the target, and a mark at the beginning of a file
is no part of the first column's name. -/
theorem append_fails_twice :
    let appender : Appender := ⟨some .standard, 200⟩
    let nested : Options := ⟨⟨"id=1"⟩, some (.delimited .commaSeparated), .off, .byColumn "id", .none⟩
    let plain := Options.ofTarget ⟨"p.csv"⟩
    let batch : Batch := ⟨["id"], [[.int 1]]⟩
    let marked : Batch := ⟨["\ufeffid"], [[.int 1]]⟩
    (∃ report between failure,
      run (appender.append nested batch) ⟨.empty, none⟩ = (.ok report, between) ∧
        (run (appender.append nested batch) between).1 = .error failure) ∧
    ∃ report between failure,
      run (appender.append plain marked) ⟨.empty, none⟩ = (.ok report, between) ∧
        (run (appender.append plain marked) between).1 = .error failure := by
  intro appender nested plain batch marked
  constructor
  · refine ⟨⟨[⟨"./id=1/id=1"⟩], [⟨⟨"./id=1/id=1"⟩, some "id=1", 1, 0, true, false, false⟩]⟩,
      (run (appender.append nested batch) ⟨.empty, none⟩).2, .setting (.noFileNamed ⟨"id=1"⟩),
      Prod.ext ?_ rfl, ?_⟩
    all_goals decide +kernel
  · refine ⟨⟨[⟨"p.csv"⟩], [⟨⟨"p.csv"⟩, none, 1, 0, true, false, false⟩]⟩,
      (run (appender.append plain marked) ⟨.empty, none⟩).2,
      .atPartition [] "<none>" (.otherColumns ⟨"p.csv"⟩ ["id"] ["\ufeffid"]),
      Prod.ext ?_ rfl, ?_⟩
    all_goals decide +kernel

end Appender

end TableAppend
