import TableAppend.Proofs.Append.Committable
import TableAppend.Proofs.Append.Rollover
import TableAppend.Proofs.Delimited.Keeping
import TableAppend.Proofs.Keys
import TableAppend.Proofs.Metadata

/-!
# Families of delimited files

A family of delimited files holds a table in each of its members, and the marks of all are recorded.
All tables are read where stored rows are looked for.  Rows that are written come to one of the tables
or make a new one, and with them their keys.
-/

namespace TableAppend

open Batch (keyOn keysOn)
open Change (run)
open Delimited (Keeps metadataOf)
open Family (Base Holds)
open World (SameBelow)

/-! ## The tables of a family -/

/-- The members of a family hold these tables, all of which have the key columns. -/
structure Family.HoldsTables (dialect : Dialect) (keys : List String) (tree : FileTree) (base : Base)
    (tables : List Batch) : Prop where
  holds : Holds tree base tables.length
  columns : ∀ table ∈ tables, ∀ key ∈ keys, key ∈ table.columns
  data : ∀ number table, tables[number]? = some table → ∃ bytes,
    tree.get? (base.place ++ [base.memberName number]) = some (.file (.bytes bytes)) ∧
      Keeps dialect bytes table
  metadata : ∀ number < tables.length,
    tree.get? (base.place ++ [base.memberName number ++ Metadata.ending]) =
      some (.file (.bytes (Utf8.encode (metadataOf dialect).toText)))

namespace Family.HoldsTables

variable {dialect : Dialect} {keys : List String} {base : Base} {tables : List Batch}

theorem of_get?_eq {before after : FileTree}
    (hget : ∀ name, after.get? (base.place ++ [name]) = before.get? (base.place ++ [name]))
    (hfamily : HoldsTables dialect keys before base tables) :
    HoldsTables dialect keys after base tables := by
  refine ⟨hfamily.holds.of_get?_eq hget, hfamily.columns, ?_, ?_⟩
  · intro number table htable
    obtain ⟨bytes, hdata, hkeeps⟩ := hfamily.data number table htable
    exact ⟨bytes, (hget _).trans hdata, hkeeps⟩
  · intro number hnumber
    exact (hget _).trans (hfamily.metadata number hnumber)

theorem congr {before after : World} (hsame : SameBelow base.place before after)
    (hfamily : HoldsTables dialect keys before.tree base tables) :
    HoldsTables dialect keys after.tree base tables :=
  hfamily.of_get?_eq fun _ => hsame.get?_eq _ (List.prefix_append _ _)

theorem nil {tree : FileTree} (hnone : ∀ name, tree.get? (base.place ++ [name]) = none) :
    HoldsTables dialect keys tree base [] where
  holds := holds_zero hnone
  columns := by simp
  data := by simp
  metadata := by simp

/-- One member changes or is added, and the others are left alone. -/
theorem put {before after : FileTree} {others : List Batch} {number : ℕ} {table : Batch}
    {bytes : Bytes} (hfamily : HoldsTables dialect keys before base tables)
    (hholds : Holds after base others.length)
    (hcolumns : ∀ table ∈ others, ∀ key ∈ keys, key ∈ table.columns)
    (hdata : after.get? (base.place ++ [base.memberName number]) = some (.file (.bytes bytes)))
    (hkeeps : Keeps dialect bytes table)
    (hmetadata : after.get? (base.place ++ [base.memberName number ++ Metadata.ending]) =
      some (.file (.bytes (Utf8.encode (metadataOf dialect).toText))))
    (huntouched : ∀ other ≠ number, Untouched base before after other)
    (htable : others[number]? = some table)
    (hothers : ∀ other ≠ number, others[other]? = tables[other]?) :
    HoldsTables dialect keys after base others := by
  refine ⟨hholds, hcolumns, ?_, ?_⟩
  · intro other found hfound
    by_cases hsame : other = number
    · rw [hsame, htable, Option.some.injEq] at hfound
      exact ⟨bytes, hsame ▸ hdata, hfound ▸ hkeeps⟩
    · rw [hothers other hsame] at hfound
      obtain ⟨kept, hkept, hkeepsKept⟩ := hfamily.data other found hfound
      have hsameData := (huntouched other hsame).data
      rw [Base.location_member] at hsameData
      exact ⟨kept, hsameData.trans hkept, hkeepsKept⟩
  · intro other hother
    by_cases hsame : other = number
    · exact hsame ▸ hmetadata
    · have hlt : other < tables.length := by
        by_contra hge
        have hnone := List.getElem?_eq_none (Nat.le_of_not_lt hge)
        rw [← hothers other hsame, List.getElem?_eq_none_iff] at hnone
        omega
      have hsameMetadata := (huntouched other hsame).metadata
      rw [Base.location_metadata_member] at hsameMetadata
      exact hsameMetadata.trans (hfamily.metadata other hlt)

/-! ### Reading the tables -/

section Reading

variable {world : World} (hfamily : HoldsTables dialect keys world.tree base tables)
  (hworld : world.tree.WellFormed) (hledger : world.ledger = none) {listed : Path}
  (hlisted : base.path.directory.listed? = some listed)

include hfamily hworld hlisted

theorem readBytes_found {number : ℕ} {table : Batch} (htable : tables[number]? = some table) :
    ∃ bytes, world.tree.node? (base.found listed number) = some (.file (.bytes bytes)) ∧
      world.tree.readBytes (base.found listed number) = .ok bytes ∧ Keeps dialect bytes table := by
  have hnumber : number < tables.length := (List.getElem?_eq_some_iff.mp htable).1
  obtain ⟨bytes, hdata, hkeeps⟩ := hfamily.data number table htable
  obtain ⟨content, hnode, hget⟩ := hfamily.holds.node?_member hworld hnumber
  obtain rfl : content = .bytes bytes := by
    rw [hdata, Option.some.injEq, Node.file.injEq] at hget
    exact hget.symm
  have hfound := (hfamily.holds.node?_found hworld hlisted hnumber).1.trans hnode
  exact ⟨bytes, hfound, FileTree.readBytes_of_node? hfound, hkeeps⟩

include hledger

theorem metadata_found {number : ℕ} (hnumber : number < tables.length) :
    world.metadata (base.found listed number) = .ok (some (metadataOf dialect)) := by
  have hnode : world.tree.node? (Metadata.path (base.found listed number)) =
      some (.file (.bytes (Utf8.encode (metadataOf dialect).toText))) := by
    rw [(hfamily.holds.node?_found hworld hlisted hnumber).2,
      FileTree.node?_eq_file_iff hworld (Path.liesIn_metadata (base.member_liesIn number)).1,
      base.location_metadata_member]
    exact ⟨(hfamily.holds.reachable number hnumber).2, hfamily.metadata number hnumber⟩
  have hparsed : Metadata.ofText? (metadataOf dialect).toText = some (metadataOf dialect) :=
    Metadata.ofText?_toText _
  rw [World.metadata_of_node? hledger hnode, hparsed]

theorem readRows_found (hvalid : dialect.validate = .ok ()) {number : ℕ} {table : Batch}
    (htable : tables[number]? = some table) :
    ∃ metadata, world.metadata (base.found listed number) = .ok metadata ∧
      (Medium.delimited dialect).readRows world.tree (base.found listed number) metadata =
        .ok table := by
  obtain ⟨bytes, -, hbytes, hkeeps⟩ := hfamily.readBytes_found hworld hlisted htable
  exact ⟨_, hfamily.metadata_found hworld hledger hlisted (List.getElem?_eq_some_iff.mp htable).1,
    hkeeps.readRows_eq hbytes (Delimited.storedDialect_metadataOf hvalid)⟩

/-- All tables are read in the order of the members. -/
theorem forall₂_readRows (hvalid : dialect.validate = .ok ()) :
    List.Forall₂ (fun file table => ∃ metadata, world.metadata file = .ok metadata ∧
        (Medium.delimited dialect).readRows world.tree file metadata = .ok table)
      ((List.range tables.length).map (base.found listed)) tables := by
  rw [List.forall₂_iff_get]
  refine ⟨by simp, fun number hnumber hlt => ?_⟩
  have htable : tables[number]? = some (tables.get ⟨number, hlt⟩) := List.getElem?_eq_getElem hlt
  simpa using hfamily.readRows_found hworld hledger hlisted hvalid htable

end Reading

end Family.HoldsTables

/-! ## Rows that are stored already -/

/-- A job that writes delimited files and drops the rows whose keys their family has. -/
structure Job.DropsStored (job : Job) (dialect : Dialect) (keys : List String) : Prop where
  mode : job.mode = .real
  medium : job.medium = .delimited dialect
  valid : dialect.validate = .ok ()
  join : job.options.antiJoin = ⟨true, keys, false, .family⟩
  keys : keys ≠ []

/-- Rows that have keys, under columns none of which begins with a byte order mark. -/
structure Batch.Keyed (batch : Batch) (keys : List String) : Prop where
  wellFormed : batch.WellFormed
  columns : ∀ key ∈ keys, key ∈ batch.columns
  unmarked : ∀ column ∈ batch.columns, column.toList.head? ≠ some Delimited.markChar

theorem Batch.Keyed.columns_ne_nil {batch : Batch} {keys : List String} (hbatch : batch.Keyed keys)
    (hkeys : keys ≠ []) : batch.columns ≠ [] := by
  obtain ⟨first, hfirst⟩ := List.exists_mem_of_ne_nil keys hkeys
  exact List.ne_nil_of_mem (hbatch.columns first hfirst)

namespace Job

variable {job : Job} {world : World}

theorem readAll_eq_ok {files : List Path} {tables : List Batch}
    (hread : List.Forall₂ (fun file table => ∃ metadata, world.metadata file = .ok metadata ∧
      job.medium.readRows world.tree file metadata = .ok table) files tables) :
    job.readAll world files = .ok (some tables, []) := by
  induction hread with
  | nil => rfl
  | cons hfirst _ ih =>
    obtain ⟨metadata, hmetadata, hrows⟩ := hfirst
    rw [readAll, hmetadata, Outcome.ok_bind, hrows, ih]
    rfl

variable {dialect : Dialect} {base : Base} {tables : List Batch} {keys : List String}
  {listed : Path}

/-- The candidates that survive are those whose keys are in none of the tables. -/
theorem survivors_eq_ok (hjob : job.DropsStored dialect keys) (hworld : world.tree.WellFormed)
    (hledger : world.ledger = none) (hlisted : base.path.directory.listed? = some listed)
    (hextension : base.path.extension? ≠ some Metadata.extension)
    (hcount : tables.length ≤ UInt64.size)
    (hfamily : Family.HoldsTables dialect keys world.tree base tables) {candidates : Batch}
    (hcandidates : ∀ key ∈ keys, key ∈ candidates.columns) :
    job.survivors world base.path candidates =
      .ok ((candidates.unmatched (keyOn keys candidates.columns) (tables.flatMap (keysOn keys)), true),
        []) := by
  have hfiles : job.baselineFiles world base.path =
      .ok ((List.range tables.length).map (base.found listed)) := by
    rw [baselineFiles, hjob.join]
    exact hfamily.holds.members_eq hworld hlisted hextension hcount
  have hread := hfamily.forall₂_readRows hworld hledger hlisted hjob.valid
  rw [← hjob.medium] at hread
  rw [survivors, hjob.join]
  dsimp only
  rw [if_pos rfl, AntiJoin.effectiveKeys_eq_ok hjob.keys hcandidates, Outcome.ok_bind, hfiles,
    Outcome.ok_bind, readAll_eq_ok hread, Outcome.ok_bind]
  dsimp only
  rw [AntiJoin.apply_eq_ok hjob.keys hfamily.columns hcandidates]
  rfl

/-! ## Rows that are written -/

end Job

namespace Family

/-- The tables with another one in the place of a member, which may be the next one. -/
def putTable (tables : List Batch) (number : ℕ) (table : Batch) : List Batch :=
  tables.take number ++ table :: tables.drop (number + 1)

section PutTable

variable {tables : List Batch} {number : ℕ} (hnumber : number ≤ tables.length) (table : Batch)

include hnumber

theorem length_putTable : (putTable tables number table).length = max tables.length (number + 1) := by
  simp only [putTable, List.length_append, List.length_take, List.length_cons, List.length_drop]
  omega

theorem getElem?_putTable_self : (putTable tables number table)[number]? = some table := by
  rw [putTable, List.getElem?_append_right (by simp)]
  simp [hnumber]

theorem getElem?_putTable_of_ne {other : ℕ} (hother : other ≠ number) :
    (putTable tables number table)[other]? = tables[other]? := by
  have hlength : (tables.take number).length = number := by simp [hnumber]
  rw [putTable]
  rcases Nat.lt_or_gt_of_ne hother with hlt | hgt
  · rw [List.getElem?_append_left (by omega), List.getElem?_take_of_lt hlt]
  · obtain ⟨more, rfl⟩ : ∃ more, other = number + 1 + more := ⟨other - (number + 1), by omega⟩
    rw [List.getElem?_append_right (by omega), hlength,
      show number + 1 + more - number = more + 1 by omega, List.getElem?_cons_succ,
      List.getElem?_drop]

omit hnumber in
theorem mem_putTable {found : Batch} (hfound : found ∈ putTable tables number table) :
    found = table ∨ found ∈ tables := by
  rcases List.mem_append.mp hfound with hbefore | hrest
  · exact .inr (List.mem_of_mem_take hbefore)
  · exact (List.mem_cons.mp hrest).imp_right List.mem_of_mem_drop

omit hnumber in
/-- What comes to one table comes to all of them. -/
theorem perm_putTable {α : Type} {items : Batch → List α} {more : List α}
    (hmore : items table = (tables[number]?.map items).getD [] ++ more) :
    ((putTable tables number table).flatMap items).Perm (tables.flatMap items ++ more) := by
  have hsplit : tables.flatMap items = (tables.take number).flatMap items ++
      ((tables[number]?.map items).getD [] ++ (tables.drop (number + 1)).flatMap items) := by
    conv_lhs => rw [← List.take_append_drop number tables, List.flatMap_append]
    rcases Nat.lt_or_ge number tables.length with hlt | hge
    · rw [List.drop_eq_getElem_cons hlt, List.flatMap_cons, List.getElem?_eq_getElem hlt]
      rfl
    · rw [List.getElem?_eq_none hge, List.drop_eq_nil_of_le hge, List.drop_eq_nil_of_le (by omega)]
      rfl
  rw [putTable, hsplit, List.flatMap_append, List.flatMap_cons, hmore]
  simp only [List.append_assoc]
  exact (List.perm_append_comm.append_left _).append_left _

end PutTable

end Family

namespace Job

section Writing

variable {job : Job} {dialect : Dialect} {base : Base} {tables : List Batch} {listed : Path}
  {world after : World} {bucket : Bucket} {prepared : Prepared} {number : ℕ} {content : Content}
  {metadata : Metadata} {keys : List String}

/-- The table of the member to which rows have been written: its keys are those it had before, if it
was there, and those of the rows. -/
theorem exists_table_of_grows (hjob : job.DropsStored dialect keys) (hworld : world.tree.WellFormed)
    (hledger : world.ledger = none) (hlisted : base.path.directory.listed? = some listed)
    (hplace : job.options.place prepared.key = base.place)
    (hfamily : Family.HoldsTables dialect keys world.tree base tables)
    (hprepared : job.prepare world bucket = .ok prepared)
    (hgrows : job.Grows base listed tables.length world after prepared number content metadata)
    (hsurvivors : prepared.survivors.Keyed keys)
    (hstored : Delimited.storedForm prepared.survivors = prepared.survivors) :
    ∃ bytes table, content = .bytes bytes ∧ metadata = metadataOf dialect ∧
      Keeps dialect bytes table ∧ table.columns.Perm prepared.survivors.columns ∧
      table.keysOn keys =
        (tables[number]?.map (keysOn keys)).getD [] ++ prepared.survivors.keysOn keys := by
  obtain ⟨tree, hmade, hstores⟩ := hgrows.written.stores
  rw [hjob.medium] at hstores
  obtain ⟨rfl, hstores⟩ := hstores
  rcases hgrows.path with ⟨hlt, hpath, hpresent⟩ | ⟨hnumber, -, hlayout⟩
  · -- The rows are added to a table that was checked.
    have htable : tables[number]? = some tables[number] := List.getElem?_eq_getElem hlt
    generalize tables[number] = table at htable
    obtain ⟨bytes, hnode, hbytes, hkeeps⟩ := hfamily.readBytes_found hworld hlisted htable
    obtain ⟨recorded, hrecorded, hcheck⟩ := check_of_prepare hjob.mode hprepared hpresent
    have hcolumns := (fits_of_prepare hjob.mode hprepared).1
    rw [hpath, hfamily.metadata_found hworld hledger hlisted hlt, Except.ok.injEq] at hrecorded
    rw [hpath, ← hrecorded, hjob.medium] at hcheck
    obtain ⟨hlayout, hlength, hcontained⟩ := (hkeeps.check_eq_ok_iff hbytes
      (Delimited.checkMarks_metadataOf _ _ _)).mp hcheck
    rw [Medium.columns_storedForm, ← hcolumns] at hlength hcontained
    have hperm : prepared.survivors.columns.Perm table.columns :=
      (hsurvivors.wellFormed.1.subperm hcontained).perm_of_length_le hlength.le
    rw [hlayout] at hstores
    obtain ⟨old, ordered, hold, hproject, rfl⟩ := hstores
    have hlies : prepared.path.LiesIn (job.options.place prepared.key) := by
      rw [hpath, hplace]
      exact @Base.found_liesIn base _ hlisted number
    rw [hmade.node?_in hworld hlies, hpath, hnode, Option.some.injEq, Node.file.injEq] at hold
    obtain ⟨-, rfl⟩ := Batch.project_eq_ok_iff.mp hproject
    refine ⟨_, ⟨table.columns, table.rows ++
        (prepared.survivors.rowsUnder table.columns).map (List.map Cell.stored)⟩, rfl, rfl,
      hold ▸ hkeeps.added hjob.valid fun row hrow => Batch.length_of_mem_rowsUnder hrow, hperm.symm, ?_⟩
    have hadded := @Delimited.keysOn_rowsUnder keys table.columns
      (fun key hkey => hperm.mem_iff.mp (hsurvivors.columns key hkey)) prepared.survivors
    rw [hstored] at hadded
    rw [htable, ← hadded]
    exact List.map_append
  · -- The rows make a new table.
    rw [hlayout] at hstores
    refine ⟨_, _, hstores, rfl, Delimited.keeps_newBytes hjob.valid hsurvivors.wellFormed
      (hsurvivors.columns_ne_nil hjob.keys) hsurvivors.unmarked, .refl _, ?_⟩
    rw [Delimited.keysOn_stored, hstored, List.getElem?_eq_none hnumber.ge]
    rfl

end Writing

/-! ## One step -/

section Committing

variable {job : Job} {name : String} (hname : job.options.target.fileName? = some name)
  (htarget : job.options.target.Descends) {dialect : Dialect} {keys : List String}
  (hjob : job.DropsStored dialect keys) {bucket : Bucket} {listed : Path}
  (hlisted : (job.options.basePath bucket.key).directory.listed? = some listed)
  (hextension : (job.options.basePath bucket.key).extension? ≠ some Metadata.extension)
  (hbucket : bucket.rows.Keyed keys) {world after : World} (hworld : world.tree.WellFormed)
  (hledger : world.ledger = none) {tables : List Batch} (hcount : tables.length ≤ UInt64.size)
  (hfamily : Family.HoldsTables dialect keys world.tree
    (job.options.family hname htarget bucket.key) tables)
  {prepared : Prepared} (hprepared : job.prepare world bucket = .ok prepared)

include hjob hlisted hextension hbucket hworld hledger hcount hfamily hprepared

/-- The rows of a partition that survive are those whose keys are in none of its tables. -/
theorem survivors_of_prepare :
    prepared.survivors = (Delimited.storedForm bucket.rows).unmatched
      (keyOn keys bucket.rows.columns) (tables.flatMap (keysOn keys)) := by
  obtain ⟨file, found, layout, checked, survivors, antiJoined, compared, -, -, hsurvivors, rfl⟩ :=
    prepare_eq_ok_iff.mp hprepared
  have hall := @survivors_eq_ok job _ _ (job.options.family hname htarget bucket.key) _ _ _ hjob
    hworld hledger hlisted hextension hcount hfamily (Delimited.storedForm bucket.rows)
    hbucket.columns
  rw [hjob.medium] at hsurvivors
  have hsame := hsurvivors.symm.trans hall
  rw [Except.ok.injEq, Prod.mk.injEq, Prod.mk.injEq] at hsame
  exact hsame.1.1

/-- The keys that come to the tables are those that were not there. -/
theorem keysOn_survivors : prepared.survivors.keysOn keys =
    ((Delimited.storedForm bucket.rows).keysOn keys).filter fun key =>
      !(tables.flatMap (keysOn keys)).contains key := by
  rw [survivors_of_prepare hname htarget hjob hlisted hextension hbucket hworld hledger hcount hfamily
    hprepared]
  exact Batch.keysOn_unmatched _

/-- Surviving rows are stored as they are. -/
theorem survivors_spec : prepared.survivors.columns = bucket.rows.columns ∧
    prepared.survivors.Keyed keys ∧
      Delimited.storedForm prepared.survivors = prepared.survivors := by
  rw [survivors_of_prepare hname htarget hjob hlisted hextension hbucket hworld hledger hcount hfamily
    hprepared]
  refine ⟨rfl, ⟨⟨hbucket.wellFormed.1, fun row hrow => ?_⟩, hbucket.columns, hbucket.unmarked⟩,
    Delimited.storedForm_unmatched _ _ _⟩
  obtain ⟨before, hbefore, rfl⟩ := List.mem_map.mp (List.mem_filter.mp hrow).1
  exact (List.length_map _).trans (hbucket.wellFormed.2 before hbefore)

variable {action : Action} (hcommit : run (prepared.commit job) world = (.ok action, after))

include hcommit

/-- Rows that are written come to the table of the member that is chosen, and its columns are theirs. -/
theorem exists_tables_of_rows (hrows : prepared.survivors.isEmpty = false) :
    ∃ others number table, others.length = max tables.length (number + 1) ∧
      job.Chooses world (job.options.family hname htarget bucket.key) tables.length number ∧
      Family.HoldsTables dialect keys after.tree (job.options.family hname htarget bucket.key) others ∧
      others[number]? = some table ∧ table.columns.Perm bucket.rows.columns ∧
      (others.flatMap (keysOn keys)).Perm
        (tables.flatMap (keysOn keys) ++ prepared.survivors.keysOn keys) := by
  obtain ⟨hcolumns, hsurvivors, hstored⟩ := survivors_spec hname htarget hjob hlisted hextension
    hbucket hworld hledger hcount hfamily hprepared
  obtain ⟨number, content, metadata, hgrows⟩ := @grows_of_commit job _ hname htarget hjob.mode _ _
    hworld hledger bucket _ hfamily.holds _ hlisted hextension hcount _ _ hprepared hcommit hrows
  have hkey := (prepare_spec hname htarget hworld hprepared).1
  have hplace : job.options.place prepared.key =
      (job.options.family hname htarget bucket.key).place := by rw [hkey]; rfl
  obtain ⟨bytes, table, rfl, rfl, hkeeps, hperm, htable⟩ := @exists_table_of_grows job dialect
    (job.options.family hname htarget bucket.key) tables listed world after bucket prepared number _ _
    keys hjob hworld hledger hlisted hplace hfamily hprepared hgrows hsurvivors hstored
  have hnumber := hgrows.chooses.le
  have hlength := Family.length_putTable hnumber table
  refine ⟨Family.putTable tables number table, number, table, hlength, hgrows.chooses, ?_,
    Family.getElem?_putTable_self hnumber table, hcolumns ▸ hperm, Family.perm_putTable table htable⟩
  refine hfamily.put (hlength ▸ hgrows.holds) ?_ (hplace ▸ hgrows.written.data) hkeeps
    (hplace ▸ hgrows.written.metadata) (fun other hother => hgrows.untouched hplace hother)
    (Family.getElem?_putTable_self hnumber table)
    fun other hother => Family.getElem?_putTable_of_ne hnumber table hother
  intro found hfound key hkeyMem
  rcases Family.mem_putTable table hfound with rfl | hfound
  · exact hperm.mem_iff.mpr (hsurvivors.columns key hkeyMem)
  · exact hfamily.columns found hfound key hkeyMem

/-- When a partition is written, the keys come to its tables that were not there. -/
theorem exists_tables_of_commit :
    ∃ others, others.length ≤ tables.length + 1 ∧
      Family.HoldsTables dialect keys after.tree (job.options.family hname htarget bucket.key) others ∧
      (others.flatMap (keysOn keys)).Perm (tables.flatMap (keysOn keys) ++
        ((Delimited.storedForm bucket.rows).keysOn keys).filter fun key =>
          !(tables.flatMap (keysOn keys)).contains key) := by
  rw [← keysOn_survivors hname htarget hjob hlisted hextension hbucket hworld hledger hcount hfamily
    hprepared]
  cases hrows : prepared.survivors.isEmpty with
  | true =>
    rw [Prepared.run_commit_of_isEmpty hrows, Prod.mk.injEq] at hcommit
    rw [← hcommit.2]
    refine ⟨tables, Nat.le_succ _, hfamily, ?_⟩
    rw [keysOn, List.isEmpty_iff.mp hrows, List.map_nil, List.append_nil]
  | false =>
    obtain ⟨others, number, table, hlength, hchooses, hholds, -, -, hperm⟩ :=
      exists_tables_of_rows hname htarget hjob hlisted hextension hbucket hworld hledger hcount hfamily
        hprepared hcommit hrows
    have hnumber := hchooses.le
    exact ⟨others, by omega, hholds, hperm⟩

end Committing

end Job

end TableAppend
