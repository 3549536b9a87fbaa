import TableAppend.Proofs.Append.Rearranging
import TableAppend.Proofs.Append.Sequence
import TableAppend.Proofs.Append.Twice
import TableAppend.Proofs.Delimited.Extending
import TableAppend.Proofs.FileTree.Making

/-!
# Batches in parts

Without limits and without an anti-join the rows of a partition come to its base file.  `Extended` says
what is there after rows have been written in any number of parts: the directories of the partitions,
in the order in which they first occur, and in each base file the rows of its partition as if they had
been written at once.  A batch that is appended in two parts therefore leaves the same files as the
whole.
-/

namespace TableAppend

open Change (run run_bind_eq_ok_iff)
open FileTree (destination DirectoriesStay Makes SameDirectories SameFile Writable)

/-! ## Rows of partitions -/

/-- Rows of a partition that are written at once. -/
abbrev Part := PartitionKey × List (List Cell)

/-- All rows of a partition, in order. -/
def rowsFor (parts : List Part) (key : PartitionKey) : List (List Cell) :=
  parts.flatMap fun part => if part.1 = key then part.2 else []

theorem rowsFor_append (parts others : List Part) (key : PartitionKey) :
    rowsFor (parts ++ others) key = rowsFor parts key ++ rowsFor others key :=
  List.flatMap_append

theorem rowsFor_eq_nil {parts : List Part} {key : PartitionKey} (hkey : key ∉ parts.map Prod.fst) :
    rowsFor parts key = [] := by
  rw [rowsFor, List.flatMap_eq_nil_iff]
  intro part hpart
  exact if_neg fun hsame : part.1 = key => hkey (hsame ▸ List.mem_map_of_mem hpart)

theorem rowsFor_ne_nil {parts : List Part} {key : PartitionKey} (hkey : key ∈ parts.map Prod.fst)
    (hparts : ∀ part ∈ parts, part.2 ≠ []) : rowsFor parts key ≠ [] := by
  obtain ⟨part, hpart, rfl⟩ := List.mem_map.mp hkey
  rw [rowsFor, ne_eq, List.flatMap_eq_nil_iff]
  exact fun hnone => hparts part hpart (by simpa using hnone part hpart)

theorem rowsFor_of_nodup {parts : List Part} (hparts : (parts.map Prod.fst).Nodup) {part : Part}
    (hpart : part ∈ parts) : rowsFor parts part.1 = part.2 := by
  induction parts with
  | nil => contradiction
  | cons first rest ih =>
    rw [List.map_cons, List.nodup_cons] at hparts
    rw [rowsFor, List.flatMap_cons]
    rcases List.mem_cons.mp hpart with rfl | hmem
    · rw [if_pos rfl]
      exact (congrArg (part.2 ++ ·) (rowsFor_eq_nil hparts.1)).trans (List.append_nil _)
    · have hother : first.1 ≠ part.1 := fun hsame => hparts.1 (hsame ▸ List.mem_map_of_mem hmem)
      rw [if_neg hother, List.nil_append]
      exact ih hparts.2 hmem

theorem length_of_mem_rowsFor {parts : List Part} {key : PartitionKey} {width : ℕ}
    (hparts : ∀ part ∈ parts, ∀ row ∈ part.2, row.length = width) {row : List Cell}
    (hrow : row ∈ rowsFor parts key) : row.length = width := by
  obtain ⟨part, hpart, hmem⟩ := List.mem_flatMap.mp hrow
  split at hmem
  · exact hparts part hpart row hmem
  · contradiction

/-! ## What is left of parts -/

namespace Job

variable {job : Job} {name : String} {dialect : Dialect} {columns : List String}
  {world before between after again : World} {bucket : Bucket} {prepared : Prepared}
  {parts others : List Part} {key other : PartitionKey} {place : Location}

/-- The places of the files that come, change or go where rows of a partition are written: the base
file, and its metadata if these stand in files. -/
def changes (job : Job) (world : World) (key : PartitionKey) : List Location :=
  destination (job.options.basePath key) :: if world.ledger.isNone then
    [destination (Metadata.path (job.options.basePath key)),
      destination ((Metadata.path (job.options.basePath key)).besides Metadata.temporaryEnding)]
  else []

theorem exists_file_of_mem_changes (hplace : place ∈ job.changes world key) :
    ∃ file ∈ job.medium.files (job.options.basePath key), place = destination file := by
  rw [changes] at hplace
  rcases List.mem_cons.mp hplace with hbase | hmem
  · exact ⟨_, List.mem_cons_self, hbase⟩
  split at hmem
  · rcases List.mem_cons.mp hmem with hmetadata | hlast
    · exact ⟨_, List.mem_cons_of_mem _ List.mem_cons_self, hmetadata⟩
    · exact ⟨_, List.mem_cons_of_mem _ (List.mem_cons_of_mem _ List.mem_cons_self),
        List.mem_singleton.mp hlast⟩
  · contradiction

theorem notMem_changes_of_apart (hname : job.options.target.fileName? = some name)
    (hapart : Apart key other) (hplace : place ∈ job.changes world key) :
    place ∉ job.changes after other := by
  intro hmem
  obtain ⟨file, hfile, rfl⟩ := exists_file_of_mem_changes hplace
  obtain ⟨written, hwritten, hsame⟩ := exists_file_of_mem_changes hmem
  exact destination_ne_of_apart hname hapart hfile hwritten hsame

/-- What is there after rows of partitions have been written one part after the other.  Whether a base
file was there is seen after the directories of the partitions before it have been made, for only then
may its path lead anywhere. -/
structure Extended (job : Job) (dialect : Dialect) (columns : List String) (parts : List Part)
    (before after : World) : Prop where
  ledger : after.ledger.isNone = before.ledger.isNone
  made : Makes job.options.directoryOf (parts.map Prod.fst) before.tree after.tree
  data : ∀ key ∈ parts.map Prod.fst, ∃ seen bytes,
    Makes job.options.directoryOf ((parts.map Prod.fst).takeWhile (· ≠ key)) before.tree seen ∧
      SameFile before.tree seen (destination (job.options.basePath key)) ∧
      Delimited.Extends dialect columns (seen.bytes? (job.options.basePath key)) (rowsFor parts key)
        bytes ∧
      after.tree.node? (job.options.basePath key) = some (.file (.bytes bytes))
  recorded : before.ledger.isNone = true → ∀ key ∈ parts.map Prod.fst,
    after.tree.get? (destination (Metadata.path (job.options.basePath key))) =
        some (.file (.bytes (Utf8.encode (Delimited.metadataOf dialect).toText))) ∧
      ∀ content, after.tree.get? (destination
        ((Metadata.path (job.options.basePath key)).besides Metadata.temporaryEnding)) ≠
          some (.file content)
  elsewhere : ∀ place, (∀ key ∈ parts.map Prod.fst, place ∉ job.changes before key) →
    SameFile before.tree after.tree place

/-! ### One part -/

/-- What is left where rows of a partition have been written after its directory was made: its base
file, the metadata of that if they stand in files, and all else as it was. -/
structure LeftOf (job : Job) (world after : World) (key : PartitionKey) (tree : FileTree)
    (content : Content) (metadata : Metadata) : Prop where
  ledger : after.ledger.isNone = world.ledger.isNone
  directories : SameDirectories tree after.tree
  data : after.tree.node? (job.options.basePath key) = some (.file content)
  recorded : world.ledger.isNone = true →
    after.tree.get? (destination (Metadata.path (job.options.basePath key))) =
        some (.file (.bytes (Utf8.encode metadata.toText))) ∧
      after.tree.get? (destination
        ((Metadata.path (job.options.basePath key)).besides Metadata.temporaryEnding)) = none
  elsewhere : ∀ place ∉ job.changes world key, after.tree.get? place = tree.get? place

theorem leftOf_store (hname : job.options.target.fileName? = some name)
    (hmedium : job.medium = .delimited dialect) (hledger : world.ledger = none) {tree : FileTree}
    (hwritable : ∀ file ∈ job.medium.files (job.options.basePath key), tree.Writable file)
    (content : Content) (metadata : Metadata) : job.LeftOf world
      ⟨job.medium.store tree (job.options.basePath key) content metadata, none⟩ key tree content
        metadata := by
  have hbase := Options.fileName?_basePath hname key
  have hholds := job.medium.holds_store hbase hwritable content metadata
  obtain ⟨-, hrecorded⟩ := job.medium.puts_store hwritable content metadata
  refine ⟨by rw [hledger], job.medium.sameDirectories_store hwritable content metadata, hholds.data,
    fun _ => ⟨?_, ?_⟩, ?_⟩
  · exact FileTree.get?_of_node? hholds.recorded
  · exact hrecorded.gone _ (List.mem_singleton_self _)
      (FileTree.destination_temporary_ne (FileTree.exists_distinct hbase).2.2)
  · intro place hplace
    refine job.medium.get?_store hwritable (fun file hfile hsame => hplace ?_) content metadata
    rw [Medium.files, hmedium, Medium.scratch] at hfile
    rw [changes, hledger, hsame]
    simpa using List.mem_map_of_mem (f := destination) hfile

theorem leftOf_record (hmedium : job.medium = .delimited dialect) {ledger : Ledger}
    (hledger : world.ledger = some ledger) {tree : FileTree}
    (hwritable : tree.Writable (job.options.basePath key)) (content : Content)
    (metadata : Metadata) : job.LeftOf world
      ⟨job.medium.put tree (job.options.basePath key) content,
        some (ledger.record (job.options.basePath key) metadata)⟩ key tree content metadata := by
  rw [hmedium]
  have hputs := hwritable.puts_set content
  refine ⟨by rw [hledger]; rfl, hputs.same, hputs.node?, ?_, fun place hplace => ?_⟩
  · intro hnone
    rw [hledger] at hnone
    contradiction
  · exact hputs.get?_eq place (fun hsame => hplace (hsame ▸ List.mem_cons_self))
      fun _ hmem => absurd hmem List.not_mem_nil

/-- What is left where the rows of one partition have been written. -/
theorem exists_left_of_commit (hwrites : job.WritesAll name)
    (hmedium : job.medium = .delimited dialect) (hprepared : job.prepare world bucket = .ok prepared)
    (hrows : bucket.rows.isEmpty = false) {action : Action}
    (hcommit : run (prepared.commit job) world = (.ok action, after)) :
    ∃ tree content metadata,
      world.tree.makeDirectories (job.options.directoryOf bucket.key) = (.ok (), tree) ∧
      job.medium.Stores tree (job.options.basePath bucket.key) prepared.survivors prepared.layout
        content metadata ∧
      job.LeftOf world after bucket.key tree content metadata := by
  obtain ⟨hkey, hpath, hsurvivors, hcases⟩ := prepared_cases hwrites hprepared
  have hbase := Options.fileName?_basePath hwrites.name bucket.key
  have hnonempty : prepared.survivors.isEmpty = false := by
    rw [hsurvivors, job.medium.isEmpty_storedForm, hrows]
  have hadds : prepared.layout.columns.isSome = true → ∀ tree,
      world.tree.makeDirectories (job.options.directoryOf prepared.key) = (.ok (), tree) →
        tree.Writable prepared.path := by
    intro hlayout tree hmade
    rcases hcases with ⟨-, hnew⟩ | ⟨content, -, hnode, -⟩
    · rw [hnew] at hlayout
      contradiction
    · rw [hpath]
      exact FileTree.writable_of_node? hbase ((FileTree.directoriesStay_makeEach hmade).node?_eq hnode
        ((FileTree.file_makeEach_iff hmade).mpr (FileTree.get?_of_node? hnode)))
  cases hledger : world.ledger with
  | none =>
    obtain ⟨tree, hmade, hwritable, content, metadata, hstores, rfl⟩ :=
      (exists_commit_iff hwrites.name (hkey ▸ hpath) hnonempty hledger hadds).mp ⟨action, hcommit⟩
    rw [hpath] at hstores hwritable ⊢
    exact ⟨tree, content, metadata, hkey ▸ hmade, hstores,
      leftOf_store hwrites.name hmedium hledger hwritable content metadata⟩
  | some ledger =>
    obtain ⟨tree, metadata, written, hmade, hwrite, hrecord, -⟩ :=
      (Prepared.commit_eq_ok_iff hnonempty).mp hcommit
    rw [hpath] at hwrite hrecord
    obtain ⟨hwritable, -, content, hstores, rfl⟩ := (Medium.write_eq_ok_iff_writable hbase
      fun hlayout => hpath ▸ hadds hlayout tree hmade).mp hwrite
    have hstill : (World.mk (job.medium.put tree (job.options.basePath bucket.key) content)
        world.ledger).ledger = some ledger := hledger
    rw [World.recordMetadata_of_ledger hstill] at hrecord
    obtain rfl := (Prod.mk.inj hrecord).2
    exact ⟨tree, content, metadata, hkey ▸ hmade, hstores,
      leftOf_record hmedium hledger hwritable content metadata⟩

/-- The bytes of the base file are those that it had, with the rows added. -/
theorem extends_of_stores (hwrites : job.WritesAll name) (hmedium : job.medium = .delimited dialect)
    (hprepared : job.prepare world bucket = .ok prepared) (hcolumns : bucket.rows.columns.Nodup)
    {tree : FileTree} (hmade : world.tree.makeDirectories (job.options.directoryOf bucket.key) =
      (.ok (), tree)) {content : Content} {metadata : Metadata}
    (hstores : job.medium.Stores tree (job.options.basePath bucket.key) prepared.survivors
      prepared.layout content metadata) :
    metadata = Delimited.metadataOf dialect ∧ ∃ bytes, content = .bytes bytes ∧
      Delimited.Extends dialect bucket.rows.columns
        (world.tree.bytes? (job.options.basePath bucket.key))
        (Delimited.storedForm bucket.rows).rows bytes := by
  obtain ⟨-, -, hsurvivors, hcases⟩ := prepared_cases hwrites hprepared
  rw [hmedium] at hstores hsurvivors hcases
  obtain ⟨rfl, hcontent⟩ := hstores
  rw [hsurvivors] at hcontent
  refine ⟨rfl, ?_⟩
  rcases hcases with ⟨habsent, hnew⟩ | ⟨old, known, hnode, hcheck⟩
  · rw [hnew] at hcontent
    rw [FileTree.bytes?_of_absent habsent]
    exact ⟨_, hcontent, .fresh _⟩
  · rw [FileTree.bytes?_of_node? hnode]
    rcases Delimited.header_of_check (FileTree.readBytes_of_node? hnode) hcolumns hcheck with
      ⟨hnone, hblank⟩ | ⟨header, hsome, hheader, hnames⟩
    · rw [hnone] at hcontent
      exact ⟨_, hcontent, .blank hblank _⟩
    · rw [hsome] at hcontent
      obtain ⟨found, ordered, hfound, hordered, hbytes⟩ := hcontent
      have hstill := (FileTree.directoriesStay_makeEach hmade).node?_eq hnode
        ((FileTree.file_makeEach_iff hmade).mpr (FileTree.get?_of_node? hnode))
      obtain rfl : found = old := by simpa [hfound] using hstill
      obtain ⟨-, rfl⟩ := Batch.project_eq_ok_iff.mp hordered
      exact ⟨_, hbytes, .added hheader hnames _⟩

theorem extended_of_commit (hwrites : job.WritesAll name) (hmedium : job.medium = .delimited dialect)
    (hprepared : job.prepare world bucket = .ok prepared) (hcolumns : bucket.rows.columns.Nodup)
    (hrows : bucket.rows.isEmpty = false) {action : Action}
    (hcommit : run (prepared.commit job) world = (.ok action, after)) :
    job.Extended dialect bucket.rows.columns
      [(bucket.key, (Delimited.storedForm bucket.rows).rows)] world after := by
  obtain ⟨tree, content, metadata, hmade, hstores, hleft⟩ :=
    exists_left_of_commit hwrites hmedium hprepared hrows hcommit
  obtain ⟨rfl, bytes, rfl, hextends⟩ :=
    extends_of_stores hwrites hmedium hprepared hcolumns hmade hstores
  have hself {key : PartitionKey}
      (hkey : key ∈ [(bucket.key, (Delimited.storedForm bucket.rows).rows)].map Prod.fst) :
      key = bucket.key := List.mem_singleton.mp hkey
  refine ⟨hleft.ledger, .next (.refl _) hmade (.nothing hleft.directories), ?_, ?_, ?_⟩
  · intro key hkey
    obtain rfl := hself hkey
    refine ⟨world.tree, bytes, ?_, fun _ => Iff.rfl, ?_, hleft.data⟩
    · simpa using Makes.nothing (.refl _)
    · simpa [rowsFor] using hextends
  · intro hnone key hkey
    obtain rfl := hself hkey
    obtain ⟨hmetadata, hgone⟩ := hleft.recorded hnone
    exact ⟨hmetadata, fun content => by rw [hgone]; simp⟩
  · intro place hplace content
    rw [hleft.elsewhere place (hplace bucket.key (List.mem_singleton_self _))]
    exact FileTree.file_makeEach_iff hmade

/-! ### Parts after parts -/

/-- Files of partitions that are not written stay as they are. -/
theorem Extended.sameFile_of_apart (hextended : job.Extended dialect columns parts before after)
    (hname : job.options.target.fileName? = some name)
    (hapart : ∀ other ∈ parts.map Prod.fst, Apart key other) (hplace : place ∈ job.changes world key) :
    SameFile before.tree after.tree place :=
  hextended.elsewhere place fun other hother => notMem_changes_of_apart hname (hapart other hother) hplace

theorem takeWhile_append_of_mem {keys more : List PartitionKey} (hkey : key ∈ keys) :
    (keys ++ more).takeWhile (· ≠ key) = keys.takeWhile (· ≠ key) := by
  rw [List.takeWhile_append, if_neg]
  intro hlength
  have hall := (List.takeWhile_prefix fun other => decide (other ≠ key)).eq_of_length hlength
  rw [List.takeWhile_eq_self_iff] at hall
  simpa using hall key hkey

theorem takeWhile_append_of_notMem {keys more : List PartitionKey} (hkey : key ∉ keys) :
    (keys ++ more).takeWhile (· ≠ key) = keys ++ more.takeWhile (· ≠ key) := by
  rw [List.takeWhile_append_of_pos]
  intro other hother
  simpa using fun hsame : other = key => hkey (hsame ▸ hother)

section append

variable (hname : job.options.target.fileName? = some name)
  (hapart : ∀ key ∈ parts.map Prod.fst, ∀ other ∈ others.map Prod.fst, key = other ∨ Apart key other)
  (hvalid : dialect.validate = .ok ()) (hcolumns : columns.Nodup)
  (hparts : ∀ part ∈ parts, part.2 ≠ [])
  (hothers : ∀ part ∈ others, ∀ row ∈ part.2, row.length = columns.length)

include hname hapart

/-- Files of partitions of which no more rows come stay as they are. -/
theorem Extended.sameFile_of_notMem (hsecond : job.Extended dialect columns others between after)
    (hkey : key ∈ parts.map Prod.fst) (hnot : key ∉ others.map Prod.fst)
    (hplace : place ∈ job.changes world key) : SameFile between.tree after.tree place :=
  hsecond.sameFile_of_apart hname (fun other hother =>
    (hapart key hkey other hother).resolve_left fun hsame => hnot (hsame ▸ hother)) hplace

include hvalid hcolumns hparts hothers in
theorem Extended.data_append (hfirst : job.Extended dialect columns parts before between)
    (hsecond : job.Extended dialect columns others between after)
    (hkey : key ∈ (parts ++ others).map Prod.fst) : ∃ seen bytes,
      Makes job.options.directoryOf (((parts ++ others).map Prod.fst).takeWhile (· ≠ key))
        before.tree seen ∧
      SameFile before.tree seen (destination (job.options.basePath key)) ∧
      Delimited.Extends dialect columns (seen.bytes? (job.options.basePath key))
        (rowsFor (parts ++ others) key) bytes ∧
      after.tree.node? (job.options.basePath key) = some (.file (.bytes bytes)) := by
  have hself : destination (job.options.basePath key) ∈ job.changes before key := List.mem_cons_self
  rw [List.map_append, rowsFor_append]
  by_cases hpart : key ∈ parts.map Prod.fst
  · obtain ⟨seen, bytes, hmakes, hsame, hextends, hnode⟩ := hfirst.data key hpart
    rw [takeWhile_append_of_mem hpart]
    refine ⟨seen, ?_⟩
    by_cases hother : key ∈ others.map Prod.fst
    · obtain ⟨later, more, hmakesMore, hstill, hextendsMore, hnodeMore⟩ := hsecond.data key hother
      have hlater := hmakesMore.stay.node?_eq hnode
        ((hstill _).mpr (FileTree.get?_of_node? hnode))
      rw [FileTree.bytes?_of_node? hlater] at hextendsMore
      exact ⟨more, hmakes, hsame, hextends.trans hvalid hcolumns (rowsFor_ne_nil hpart hparts)
        (fun row hrow => length_of_mem_rowsFor hothers hrow) hextendsMore, hnodeMore⟩
    · rw [rowsFor_eq_nil hother, List.append_nil]
      have hkept := hsecond.sameFile_of_notMem hname hapart hpart hother hself
      exact ⟨bytes, hmakes, hsame, hextends, hsecond.made.stay.node?_eq hnode
        ((hkept _).mpr (FileTree.get?_of_node? hnode))⟩
  · have hother : key ∈ others.map Prod.fst := by
      rw [List.map_append, List.mem_append] at hkey
      exact hkey.resolve_left hpart
    obtain ⟨seen, bytes, hmakes, hsame, hextends, hnode⟩ := hsecond.data key hother
    rw [takeWhile_append_of_notMem hpart, rowsFor_eq_nil hpart, List.nil_append]
    have hkept := hfirst.sameFile_of_apart hname (fun part hmem =>
      ((hapart part hmem key hother).resolve_left fun hsame => hpart (hsame ▸ hmem)).symm) hself
    exact ⟨seen, bytes, hfirst.made.append hmakes, hkept.trans hsame, hextends, hnode⟩

theorem Extended.recorded_append (hfirst : job.Extended dialect columns parts before between)
    (hsecond : job.Extended dialect columns others between after)
    (hbeside : before.ledger.isNone = true) (hkey : key ∈ (parts ++ others).map Prod.fst) :
    after.tree.get? (destination (Metadata.path (job.options.basePath key))) =
        some (.file (.bytes (Utf8.encode (Delimited.metadataOf dialect).toText))) ∧
      ∀ content, after.tree.get? (destination
        ((Metadata.path (job.options.basePath key)).besides Metadata.temporaryEnding)) ≠
          some (.file content) := by
  have hstill := hfirst.ledger.trans hbeside
  by_cases hother : key ∈ others.map Prod.fst
  · exact hsecond.recorded hstill key hother
  · have hpart : key ∈ parts.map Prod.fst := by
      rw [List.map_append, List.mem_append] at hkey
      exact hkey.resolve_right hother
    obtain ⟨hmetadata, hgone⟩ := hfirst.recorded hbeside key hpart
    have hkept {place : Location} (hplace : place ∈ job.changes between key) :
        SameFile between.tree after.tree place :=
      hsecond.sameFile_of_notMem hname hapart hpart hother hplace
    have hchanges : job.changes between key = [destination (job.options.basePath key),
        destination (Metadata.path (job.options.basePath key)),
        destination ((Metadata.path (job.options.basePath key)).besides Metadata.temporaryEnding)] := by
      rw [changes, hstill]
      rfl
    refine ⟨(hkept ?_ _).mpr hmetadata, fun content hfound => hgone content ((hkept ?_ _).mp hfound)⟩
    all_goals simp [hchanges]

include hvalid hcolumns hparts hothers in
/-- Parts that are written after other parts. -/
theorem Extended.append (hfirst : job.Extended dialect columns parts before between)
    (hsecond : job.Extended dialect columns others between after) :
    job.Extended dialect columns (parts ++ others) before after where
  ledger := hsecond.ledger.trans hfirst.ledger
  made := by
    rw [List.map_append]
    exact hfirst.made.append hsecond.made
  data key := hfirst.data_append hname hapart hvalid hcolumns hparts hothers hsecond
  recorded hbeside key := hfirst.recorded_append hname hapart hsecond hbeside
  elsewhere place hplace := by
    rw [List.map_append] at hplace
    refine (hfirst.elsewhere place fun key hkey => hplace key (List.mem_append_left _ hkey)).trans
      (hsecond.elsewhere place fun key hkey => ?_)
    rw [changes, hfirst.ledger]
    exact hplace key (List.mem_append_right _ hkey)

end append

theorem Extended.nothing (job : Job) (dialect : Dialect) (columns : List String) (world : World) :
    job.Extended dialect columns [] world world where
  ledger := rfl
  made := .nothing (.refl _)
  data _ hkey := absurd hkey List.not_mem_nil
  recorded _ _ hkey := absurd hkey List.not_mem_nil
  elsewhere _ _ _ := Iff.rfl

/-! ### The same rows -/

/-- Rows leave the same files in whatever parts they have been written, as long as their partitions
first occur in the same order. -/
theorem Extended.unique (hfirst : job.Extended dialect columns parts before after)
    (hsecond : job.Extended dialect columns others before again)
    (hkeys : (others.map Prod.fst).eraseDups = (parts.map Prod.fst).eraseDups)
    (hrows : ∀ key, rowsFor others key = rowsFor parts key) (place : Location) :
    again.tree.get? place = after.tree.get? place := by
  have hmem (key : PartitionKey) : key ∈ others.map Prod.fst ↔ key ∈ parts.map Prod.fst := by
    rw [← List.mem_eraseDups, hkeys, List.mem_eraseDups]
  have htexts {keys : List PartitionKey} : ∀ key ∈ keys, (job.options.directoryOf key).text ≠ "" :=
    fun key _ => directoryOf_text_ne_empty job.options key
  have hsame : SameDirectories after.tree again.tree := by
    have hagain := hsecond.made.eraseDups htexts
    rw [hkeys] at hagain
    exact (hfirst.made.eraseDups htexts).unique (.refl _) hagain
  refine hsame.get?_eq ?_
  by_cases hchanged : ∃ key ∈ parts.map Prod.fst, place ∈ job.changes before key
  · obtain ⟨key, hkey, hplace⟩ := hchanged
    have hother := (hmem key).mpr hkey
    rw [changes] at hplace
    rcases List.mem_cons.mp hplace with hbase | hmetadata
    · obtain ⟨seen, bytes, hmakes, hfile, hextends, hnode⟩ := hfirst.data key hkey
      obtain ⟨later, more, hmakesMore, hfileMore, hextendsMore, hnodeMore⟩ := hsecond.data key hother
      have hseen : SameDirectories seen later := by
        have hagain := hmakesMore.eraseDups htexts
        rw [eraseDups_takeWhile, hkeys, ← eraseDups_takeWhile] at hagain
        exact (hmakes.eraseDups htexts).unique (.refl _) hagain
      rw [hrows, FileTree.bytes?_eq hseen (hfile.symm.trans hfileMore)] at hextendsMore
      rw [hextends.unique hextendsMore] at hnodeMore
      intro content
      rw [hbase, FileTree.get?_of_node? hnode, FileTree.get?_of_node? hnodeMore]
    · split at hmetadata
      case isFalse => contradiction
      case isTrue hbeside =>
        obtain ⟨hrecorded, hgone⟩ := hfirst.recorded hbeside key hkey
        obtain ⟨hrecordedMore, hgoneMore⟩ := hsecond.recorded hbeside key hother
        intro content
        rcases List.mem_cons.mp hmetadata with hmetadata | hlast
        · rw [hmetadata, hrecorded, hrecordedMore]
        · rw [List.mem_singleton.mp hlast]
          exact ⟨fun hfound => absurd hfound (hgoneMore content),
            fun hfound => absurd hfound (hgone content)⟩
  · have hnot : ∀ key ∈ parts.map Prod.fst, place ∉ job.changes before key := fun key hkey hplace =>
      hchanged ⟨key, hkey, hplace⟩
    exact (hfirst.elsewhere place hnot).symm.trans
      (hsecond.elsewhere place fun key hkey => hnot key ((hmem key).mp hkey))

/-! ### All partitions -/

/-- The rows of a bucket in the form in which they are stored. -/
def partOf (bucket : Bucket) : Part :=
  (bucket.key, (Delimited.storedForm bucket.rows).rows)

theorem Performs.extended {buckets : List Bucket} {done : List Prepared}
    (hperforms : job.Performs world buckets done after) (hwrites : job.WritesAll name)
    (hmedium : job.medium = .delimited dialect) (hvalid : dialect.validate = .ok ())
    (hbuckets : ∀ bucket ∈ buckets, bucket.rows.columns = columns ∧ bucket.rows.WellFormed ∧
      bucket.rows.rows ≠ [])
    (hapart : (buckets.map Bucket.key).Pairwise Apart) :
    job.Extended dialect columns (buckets.map partOf) world after := by
  induction hperforms with
  | nothing world => exact .nothing job dialect columns world
  | @next world between after bucket rest prepared done hprepared hcommit hrest ih =>
    rw [List.forall_mem_cons] at hbuckets
    rw [List.map_cons, List.pairwise_cons] at hapart
    obtain ⟨⟨rfl, hwell, hrows⟩, hothers⟩ := hbuckets
    have hfirst := extended_of_commit hwrites hmedium hprepared hwell.1
      (by simpa [Batch.isEmpty] using hrows) hcommit
    refine hfirst.append hwrites.name ?_ hvalid hwell.1 ?_ ?_ (ih hothers hapart.2)
    · intro key hkey other hother
      obtain rfl := List.mem_singleton.mp hkey
      rw [List.map_map] at hother
      exact .inr (hapart.1 other hother)
    · intro part hpart
      obtain rfl := List.mem_singleton.mp hpart
      simpa [Delimited.storedForm, Batch.mapCells] using hrows
    · intro part hpart row hrow
      obtain ⟨other, hother, rfl⟩ := List.mem_map.mp hpart
      obtain ⟨hsame, hfits, -⟩ := hothers other hother
      rw [← hsame]
      exact (Delimited.wellFormed_storedForm hfits).2 row hrow

end Job

/-! ## Batches in parts -/

namespace Routing

variable {routing : Routing} {batch : Batch} {keys : List PartitionKey}

/-- The parts in which a batch is written, where `keys` are the partitions of its rows. -/
def parts (routing : Routing) (batch : Batch) (keys : List PartitionKey) : List Part :=
  keys.eraseDups.map fun key => Job.partOf ⟨key, routing.restrict [key] batch⟩

theorem keys_parts (routing : Routing) (batch : Batch) (keys : List PartitionKey) :
    (routing.parts batch keys).map Prod.fst = keys.eraseDups := by
  rw [parts, List.map_map]
  exact List.map_id _

theorem rowsFor_parts (hkeys : List.Forall₂
      (fun row key => routing.route batch.columns row = .ok key) batch.rows keys)
    (key : PartitionKey) :
    rowsFor (routing.parts batch keys) key =
      (Delimited.storedForm (routing.restrict [key] batch)).rows := by
  by_cases hkey : key ∈ keys
  · have hnodup : ((routing.parts batch keys).map Prod.fst).Nodup :=
      keys_parts routing batch keys ▸ nodup_eraseDups keys
    exact rowsFor_of_nodup hnodup (List.mem_map_of_mem (List.mem_eraseDups.mpr hkey))
  · rw [rowsFor_eq_nil (by rwa [keys_parts, List.mem_eraseDups])]
    have hnone : (routing.restrict [key] batch).rows = [] := by
      rw [restrict, List.filter_eq_nil_iff]
      intro row hrow hleads
      cases hroute : routing.route batch.columns row with
      | error failure => simp [leadsTo, hroute, Except.toOption] at hleads
      | ok found =>
        obtain rfl := List.mem_singleton.mp ((leadsTo_iff hroute).mp hleads)
        exact hkey ((mem_routed_iff hkeys _).mpr ⟨row, hrow, hroute⟩)
    rw [Delimited.storedForm, Batch.mapCells, hnone]
    rfl

/-- Each part has rows, and they fit the columns. -/
theorem rows_of_mem_parts (hbatch : batch.WellFormed) (hkeys : List.Forall₂
      (fun row key => routing.route batch.columns row = .ok key) batch.rows keys) {part : Part}
    (hpart : part ∈ routing.parts batch keys) :
    part.2 ≠ [] ∧ ∀ row ∈ part.2, row.length = batch.columns.length := by
  obtain ⟨key, hkey, rfl⟩ := List.mem_map.mp hpart
  obtain ⟨row, hrow, hroute⟩ := (mem_routed_iff hkeys key).mp (List.mem_eraseDups.mp hkey)
  have hmem : row ∈ (routing.restrict [key] batch).rows :=
    List.mem_filter.mpr ⟨hrow, (leadsTo_iff hroute).mpr (List.mem_singleton_self _)⟩
  have hwell : (routing.restrict [key] batch).WellFormed :=
    ⟨hbatch.1, fun other hother => hbatch.2 other (List.mem_of_mem_filter hother)⟩
  exact ⟨List.ne_nil_of_mem (List.mem_map_of_mem hmem), (Delimited.wellFormed_storedForm hwell).2⟩

end Routing

namespace Appender

variable {appender : Appender} {options : Options} {dialect : Dialect} {batch : Batch}
  {world after : World} {report : Report}

/-- What an append of a batch leaves. -/
theorem extended_of_append (hformat : options.effectiveFormat = .ok (.delimited dialect))
    (hjoinless : options.antiJoin.enabled = false) (hunlimited : options.limits.isEnabled = false)
    (hbatch : batch.WellFormed)
    (hrun : run (appender.append options batch) world = (.ok report, after)) :
    dialect.validate = .ok () ∧ (∃ name, options.target.fileName? = some name) ∧ ∃ keys,
      List.Forall₂ (fun row key => options.routing.route batch.columns row = .ok key) batch.rows
        keys ∧
      (appender.job options (.delimited dialect) .real).Extended dialect batch.columns
        (options.routing.parts batch keys) world after := by
  obtain ⟨format, hvalid, hfound, hcases⟩ := exists_performs_of_append hrun
  obtain rfl := Except.ok.inj (hformat.symm.trans hfound)
  obtain ⟨name, hname⟩ := exists_fileName?_of_validate hvalid
  have hbases := writesBases_of_validate appender hvalid hformat hname hunlimited
  have husable := hbases.usable dialect rfl
  refine ⟨husable, ⟨name, hname⟩, ?_⟩
  rcases hcases with ⟨hempty, -, rfl⟩ | ⟨-, buckets, done, hbuckets, hperforms, -⟩
  · rw [Batch.isEmpty, List.isEmpty_iff] at hempty
    exact ⟨[], hempty ▸ .nil, .nothing _ dialect _ _⟩
  · have hapart := Routing.apart_buckets hbuckets
    have hfits : ∀ bucket ∈ buckets, bucket.rows.columns = batch.columns ∧
        bucket.rows.WellFormed ∧ bucket.rows.rows ≠ [] := fun bucket hbucket =>
      ⟨(Routing.mem_bucket hbuckets hbucket).1, Routing.wellFormed_bucket hbatch hbuckets hbucket,
        (Routing.mem_bucket hbuckets hbucket).2.1⟩
    obtain ⟨-, keys, hkeys, hsplit⟩ := Routing.buckets_eq_ok_iff_restrict.mp hbuckets
    have hextended := hperforms.extended ⟨hbases, hjoinless⟩ rfl husable hfits hapart
    rw [hsplit, List.map_map] at hextended
    exact ⟨keys, hkeys, hextended⟩

/-- A batch that is appended in two parts leaves the files that it leaves as a whole. -/
theorem append_in_parts {first second whole : Batch} {between last : World}
    {one two all : Report} (hformat : options.effectiveFormat = .ok (.delimited dialect))
    (hjoinless : options.antiJoin.enabled = false) (hunlimited : options.limits.isEnabled = false)
    (hfirst : first.WellFormed) (hsecond : second.WellFormed)
    (hcolumns : second.columns = first.columns) (hconcat : first.concat second = .ok whole)
    (hwhole : run (appender.append options whole) world = (.ok all, last))
    (hone : run (appender.append options first) world = (.ok one, between))
    (htwo : run (appender.append options second) between = (.ok two, after)) (place : Location) :
    after.tree.get? place = last.tree.get? place := by
  obtain rfl : whole = ⟨first.columns, first.rows ++ second.rows⟩ := by
    rw [Batch.concat, ← hcolumns, Batch.project_self hsecond] at hconcat
    exact (Except.ok.inj hconcat).symm.trans (by rw [hcolumns])
  have hwell : Batch.WellFormed ⟨first.columns, first.rows ++ second.rows⟩ :=
    ⟨hfirst.1, fun row hrow => (List.mem_append.mp hrow).elim (hfirst.2 row)
      fun hmem => hcolumns ▸ hsecond.2 row hmem⟩
  obtain ⟨husable, ⟨name, hname⟩, keys, hkeys, hextended⟩ :=
    extended_of_append hformat hjoinless hunlimited hfirst hone
  obtain ⟨-, -, others, hothers, hmore⟩ :=
    extended_of_append hformat hjoinless hunlimited hsecond htwo
  obtain ⟨-, -, all, hall, hextendedWhole⟩ :=
    extended_of_append hformat hjoinless hunlimited hwell hwhole
  rw [hcolumns] at hothers hmore
  obtain rfl : all = keys ++ others := by
    have htogether := List.rel_append hkeys hothers
    exact Except.ok.inj ((Outcome.mapM_eq_ok_iff.mpr hall).symm.trans
      (Outcome.mapM_eq_ok_iff.mpr htogether))
  have hjob : (appender.job options (.delimited dialect) .real).options.target.fileName? =
      some name := hname
  have hboth := hextended.append hjob ?_ husable hfirst.1
    (fun part hpart => (Routing.rows_of_mem_parts hfirst hkeys hpart).1)
    (fun part hpart => ?_) hmore
  · refine hextendedWhole.unique hboth ?_ (fun key => ?_) place
    · rw [List.map_append, Routing.keys_parts, Routing.keys_parts, Routing.keys_parts,
        eraseDups_append_eraseDups, eraseDups_of_nodup (nodup_eraseDups _)]
    · rw [rowsFor_append, Routing.rowsFor_parts hkeys, Routing.rowsFor_parts (hcolumns ▸ hothers),
        Routing.rowsFor_parts hall]
      simp [Delimited.storedForm, Batch.mapCells, Routing.restrict, hcolumns]
  · intro key hkey other hother
    rw [Routing.keys_parts, List.mem_eraseDups] at hkey hother
    obtain ⟨row, -, hroute⟩ := (Routing.mem_routed_iff hkeys key).mp hkey
    obtain ⟨more, -, hrouteMore⟩ := (Routing.mem_routed_iff hothers other).mp hother
    exact Routing.eq_or_apart_of_route hroute hrouteMore
  · rw [← hcolumns]
    exact (Routing.rows_of_mem_parts hsecond (hcolumns ▸ hothers) hpart).2

/-- The file is there before, with its columns in another order and no end of its last line. -/
theorem append_in_parts_of_two_rows :
    let appender : Appender := ⟨none, 200⟩
    let options := Options.ofTarget ⟨"p.csv"⟩
    let first : Batch := ⟨["id", "name"], [[.int 1, .text "a"]]⟩
    let second : Batch := ⟨["id", "name"], [[.int 2, .text "b"]]⟩
    let whole : Batch := ⟨["id", "name"], [[.int 1, .text "a"], [.int 2, .text "b"]]⟩
    let world : World := ⟨⟨[(["p.csv"], .file (.bytes (Utf8.encode "name,id\nz,0")))]⟩, none⟩
    ∃ all one two last between after,
      run (appender.append options whole) world = (.ok all, last) ∧
        run (appender.append options first) world = (.ok one, between) ∧
          run (appender.append options second) between = (.ok two, after) ∧
            ∀ place, after.tree.get? place = last.tree.get? place := by
  intro appender options first second whole world
  have hformat : options.effectiveFormat = .ok (.delimited .commaSeparated) := by decide +kernel
  obtain ⟨last, hwhole⟩ : ∃ last, run (appender.append options whole) world =
      (.ok ⟨[⟨"p.csv"⟩], [⟨⟨"p.csv"⟩, none, 2, 0, false, false, false⟩]⟩, last) :=
    ⟨_, Prod.ext (by decide +kernel) rfl⟩
  let between := (run (appender.append options first) world).2
  have hone : run (appender.append options first) world =
      (.ok ⟨[⟨"p.csv"⟩], [⟨⟨"p.csv"⟩, none, 1, 0, false, false, false⟩]⟩, between) :=
    Prod.ext (by decide +kernel) rfl
  obtain ⟨after, htwo⟩ : ∃ after, run (appender.append options second) between =
      (.ok ⟨[⟨"p.csv"⟩], [⟨⟨"p.csv"⟩, none, 1, 0, false, false, false⟩]⟩, after) :=
    ⟨_, Prod.ext (by decide +kernel) rfl⟩
  have hcolumns : second.columns = first.columns := rfl
  have hconcat : first.concat second = .ok whole := by decide
  have hsame := append_in_parts hformat rfl rfl ⟨by decide, by decide⟩ ⟨by decide, by decide⟩ hcolumns
    hconcat hwhole hone htwo
  exact ⟨_, _, _, last, between, after, hwhole, hone, htwo, hsame⟩

end Appender

end TableAppend
