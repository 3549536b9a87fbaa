import TableAppend.Proofs.Append.Buckets
import TableAppend.Proofs.Append.Leaving
import TableAppend.Proofs.Append.Parity
import TableAppend.Proofs.Metadata
import TableAppend.Proofs.World.Doubling

/-!
# Delimited files stay intact

An append that fails may leave rows without metadata, or rows after those of a file whose metadata are
those of before.  Yet a file to which rows can still be added keeps a table, and the marks it is written
in are recorded: `Intact` says so, and every append preserves it, however it ends.  A base file without
metadata is one beside which metadata can never be recorded, and a sibling without metadata is never
found again.
-/

namespace TableAppend

open Change (run)
open Delimited (Keeps metadataOf)
open Family (Base)
open FileTree (Admits KeptBut Reachable)
open TableAppend.Path (LiesIn)

/-! ## Rows that delimited files keep -/

/-- Rows that a delimited file keeps: there are columns, none of which begins with a byte order mark. -/
structure Batch.Storable (batch : Batch) : Prop where
  wellFormed : batch.WellFormed
  columns : batch.columns ≠ []
  unmarked : ∀ column ∈ batch.columns, column.toList.head? ≠ some Delimited.markChar

theorem Routing.storable_bucket {routing : Routing} {batch : Batch} {buckets : List Bucket}
    (hbatch : batch.Storable) (hbuckets : routing.buckets batch = .ok buckets) {bucket : Bucket}
    (hbucket : bucket ∈ buckets) : bucket.rows.Storable := by
  have hcolumns := (mem_bucket hbuckets hbucket).1
  exact ⟨wellFormed_bucket hbatch.wellFormed hbuckets hbucket, hcolumns ▸ hbatch.columns,
    hcolumns ▸ hbatch.unmarked⟩

/-- A job that writes delimited files. -/
structure Job.Delimits (job : Job) (dialect : Dialect) : Prop where
  mode : job.mode = .real
  medium : job.medium = .delimited dialect
  valid : dialect.validate = .ok ()

namespace Job

variable {job : Job} {dialect : Dialect} (hjob : job.Delimits dialect) {world : World}
  {bucket : Bucket} (hbucket : bucket.rows.Storable) {prepared : Prepared}
  (hprepared : job.prepare world bucket = .ok prepared)

include hjob hbucket hprepared

/-- What survives of such rows can be stored as well. -/
theorem storable_survivors : prepared.survivors.Storable := by
  obtain ⟨file, found, layout, checked, survivors, antiJoined, compared, -, -, hsurvivors, rfl⟩ :=
    prepare_eq_ok_iff.mp hprepared
  obtain ⟨hcolumns, hrows⟩ := subset_of_survivors hsurvivors
  rw [Medium.columns_storedForm] at hcolumns
  rw [hjob.medium] at hrows
  have hwellFormed := Delimited.wellFormed_storedForm hbucket.wellFormed
  dsimp only
  refine ⟨⟨hcolumns ▸ hbucket.wellFormed.1, fun row hrow => ?_⟩, hcolumns ▸ hbucket.columns,
    hcolumns ▸ hbucket.unmarked⟩
  rw [hcolumns]
  exact hwellFormed.2 row (hrows row hrow)

variable {tree : FileTree} {content : Content} {metadata : Metadata}
  (hstores : job.medium.Stores tree prepared.path prepared.survivors prepared.layout content metadata)

include hstores

/-- Rows that make a new file. -/
theorem keeps_new (habsent : prepared.present = false) : metadata = metadataOf dialect ∧
    ∃ bytes, content = .bytes bytes ∧ Keeps dialect bytes
      ⟨prepared.survivors.columns, prepared.survivors.rows.map (List.map Cell.stored)⟩ := by
  have hsurvivors := storable_survivors hjob hbucket hprepared
  rw [hjob.medium, (fits_of_prepare hjob.mode hprepared).2.2 habsent] at hstores
  obtain ⟨rfl, rfl⟩ := hstores
  exact ⟨rfl, _, rfl, Delimited.keeps_newBytes hjob.valid hsurvivors.wellFormed hsurvivors.columns
    hsurvivors.unmarked⟩

/-- Rows that come to a file whose marks are recorded. -/
theorem keeps_added {recorded : Dialect} (hrecorded : recorded.validate = .ok ())
    (hpresent : prepared.present = true) {old : Bytes} {table : Batch}
    (hmetadata : world.metadata prepared.path = .ok (some (metadataOf recorded)))
    (hnode : world.tree.node? prepared.path = some (.file (.bytes old)))
    (hsame : tree.node? prepared.path = world.tree.node? prepared.path)
    (hkeeps : Keeps recorded old table) :
    recorded = dialect ∧ metadata = metadataOf dialect ∧
      table.columns.Perm prepared.survivors.columns ∧ ∃ bytes, content = .bytes bytes ∧
        Keeps dialect bytes ⟨table.columns, table.rows ++
          (prepared.survivors.rowsUnder table.columns).map (List.map Cell.stored)⟩ := by
  have hsurvivors := storable_survivors hjob hbucket hprepared
  have hcolumns := (fits_of_prepare hjob.mode hprepared).1
  obtain ⟨known, hknown, hcheck⟩ := check_of_prepare hjob.mode hprepared hpresent
  rw [hmetadata, Except.ok.injEq] at hknown
  rw [← hknown, hjob.medium] at hcheck
  have hbytes := FileTree.readBytes_of_node? hnode
  obtain ⟨⟨⟩, hmarks, -⟩ := Outcome.bind_eq_ok_iff.mp hcheck
  obtain rfl := Delimited.eq_of_checkMarks hjob.valid hrecorded hmarks
  obtain ⟨hlayout, hlength, hcontained⟩ := (hkeeps.check_eq_ok_iff hbytes hmarks).mp hcheck
  rw [Medium.columns_storedForm, ← hcolumns] at hlength hcontained
  have hperm : prepared.survivors.columns.Perm table.columns :=
    (hsurvivors.wellFormed.1.subperm hcontained).perm_of_length_le hlength.le
  rw [hjob.medium, hlayout] at hstores
  obtain ⟨rfl, old', ordered, hold, hproject, rfl⟩ := hstores
  rw [hsame, hnode, Option.some.injEq, Node.file.injEq] at hold
  obtain ⟨-, rfl⟩ := Batch.project_eq_ok_iff.mp hproject
  refine ⟨rfl, rfl, hperm.symm, _, rfl, ?_⟩
  rw [← hold]
  exact hkeeps.added hjob.valid fun row hrow => Batch.length_of_mem_rowsUnder hrow

end Job

/-! ## Files that can receive rows -/

namespace Family.Base

/-- Rows may be added to the base file if metadata can be recorded beside it, and to a sibling if it has
metadata. -/
def Continues (base : Base) (tree : FileTree) (file : String) : Prop :=
  if file = base.name then tree.Admits (Metadata.path base.path) ∧
    tree.Admits ((Metadata.path base.path).besides Metadata.temporaryEnding)
  else ∃ content, tree.get? (base.place ++ [file ++ Metadata.ending]) = some (.file content)

/-- A data file that keeps a table in the marks that are recorded. -/
structure Keeping (base : Base) (tree : FileTree) (file : String) (dialect : Dialect) (bytes : Bytes)
    (table : Batch) : Prop where
  valid : dialect.validate = .ok ()
  data : tree.get? (base.place ++ [file]) = some (.file (.bytes bytes))
  keeps : Keeps dialect bytes table
  metadata : tree.get? (base.place ++ [file ++ Metadata.ending]) =
    some (.file (.bytes (Utf8.encode (metadataOf dialect).toText)))

/-- Metadata belong to a data file, and one that can receive rows keeps a table. -/
structure Intact (base : Base) (tree : FileTree) (file : String) : Prop where
  owned : ∀ content, tree.get? (base.place ++ [file ++ Metadata.ending]) = some (.file content) →
    ∃ data, tree.get? (base.place ++ [file]) = some (.file data)
  kept : ∀ content, tree.get? (base.place ++ [file]) = some (.file content) →
    base.Continues tree file → ∃ dialect bytes table, base.Keeping tree file dialect bytes table

variable {base : Base} {before after : FileTree} {file : String}

theorem location_metadata (base : Base) : (Metadata.path base.path).location =
    base.place ++ [base.name ++ Metadata.ending] :=
  base.location_metadata_member 0

theorem location_temporary_metadata (base : Base) :
    ((Metadata.path base.path).besides Metadata.temporaryEnding).location =
      base.place ++ [base.name ++ (Metadata.ending ++ Metadata.temporaryEnding)] :=
  base.liesIn.metadata_temporary_location base.location_eq

theorem Keeping.of_kept {places : List Location} (hkept : KeptBut places before after)
    (hdata : base.place ++ [file] ∉ places) (hmetadata : base.place ++ [file ++ Metadata.ending] ∉ places)
    {dialect : Dialect} {bytes : Bytes} {table : Batch}
    (hkeeping : base.Keeping before file dialect bytes table) :
    base.Keeping after file dialect bytes table :=
  ⟨hkeeping.valid, (hkept.file_iff hdata).mpr hkeeping.data, hkeeping.keeps,
    (hkept.file_iff hmetadata).mpr hkeeping.metadata⟩

/-- What is done at other places than these does not matter. -/
theorem Intact.of_kept {places : List Location} (hkept : KeptBut places before after)
    (hapart : ∀ ending ∈ ["", Metadata.ending, Metadata.ending ++ Metadata.temporaryEnding],
      base.place ++ [file ++ ending] ∉ places) (hintact : base.Intact before file) :
    base.Intact after file := by
  have hdata : base.place ++ [file] ∉ places := by
    simpa using hapart "" (by simp)
  have hmetadata := hapart Metadata.ending (by simp)
  have htemporary := hapart (Metadata.ending ++ Metadata.temporaryEnding) (by simp)
  constructor
  · intro content hcontent
    obtain ⟨data, hthere⟩ := hintact.owned content ((hkept.file_iff hmetadata).mp hcontent)
    exact ⟨data, (hkept.file_iff hdata).mpr hthere⟩
  · intro content hcontent hcontinues
    have hbefore : base.Continues before file := by
      rw [Continues] at hcontinues ⊢
      split
      · rename_i hbase
        rw [if_pos hbase] at hcontinues
        subst hbase
        rw [← location_metadata] at hmetadata
        rw [← location_temporary_metadata] at htemporary
        exact ⟨hkept.admits_of_after hmetadata hcontinues.1,
          hkept.admits_of_after htemporary hcontinues.2⟩
      · rename_i hother
        rw [if_neg hother] at hcontinues
        obtain ⟨found, hfound⟩ := hcontinues
        exact ⟨found, (hkept.file_iff hmetadata).mp hfound⟩
    obtain ⟨dialect, bytes, table, hkeeping⟩ :=
      hintact.kept content ((hkept.file_iff hdata).mp hcontent) hbefore
    exact ⟨dialect, bytes, table, hkeeping.of_kept hkept hdata hmetadata⟩

end Family.Base

/-! ## One partition -/

/-- The table of a file after the rows of a partition have come to it. -/
inductive Prepared.Adds (prepared : Prepared) (base : Base) (tree : FileTree) (file : String)
    (dialect : Dialect) : Batch → Prop
  | new (habsent : prepared.present = false) : Adds prepared base tree file dialect
      ⟨prepared.survivors.columns, prepared.survivors.rows.map (List.map Cell.stored)⟩
  | more {old : Bytes} {table : Batch} (hpresent : prepared.present = true)
      (hkeeping : base.Keeping tree file dialect old table)
      (hcolumns : table.columns.Perm prepared.survivors.columns) :
      Adds prepared base tree file dialect ⟨table.columns, table.rows ++
        (prepared.survivors.rowsUnder table.columns).map (List.map Cell.stored)⟩

namespace Job

variable {job : Job} {dialect : Dialect} (hjob : job.Delimits dialect) {base : Base}
  {world after : World} (hworld : world.tree.WellFormed) (hledger : world.ledger = none)
  {bucket : Bucket} {prepared : Prepared} (hbucket : bucket.rows.Storable)
  (hprepared : job.prepare world bucket = .ok prepared)
  (hplace : job.options.place prepared.key = base.place)
  {file : String} (hlies : prepared.path.LiesIn base.place)
  (hfile : prepared.path.location = base.place ++ [file])
  (hfinds : Finds world.tree base prepared.path prepared.present file)
  (hintact : base.Intact world.tree file)

include hlies hfile

theorem location_metadata_path :
    (Metadata.path prepared.path).location = base.place ++ [file ++ Metadata.ending] :=
  hlies.besides_location hfile (by decide) (by decide)

include hworld

theorem get?_of_isFile_metadata (hmetadata : world.tree.isFile (Metadata.path prepared.path) = true) :
    Reachable (Metadata.path prepared.path) ∧ ∃ content,
      world.tree.get? (base.place ++ [file ++ Metadata.ending]) = some (.file content) := by
  rw [← location_metadata_path hlies hfile]
  exact (FileTree.isFile_iff_get? hworld (Path.liesIn_metadata hlies).1).mp hmetadata

include hledger in
/-- Recorded marks are found. -/
theorem metadata_of_keeping (hreachable : Reachable (Metadata.path prepared.path))
    {recorded : Dialect} {bytes : Bytes} {table : Batch}
    (hkeeping : base.Keeping world.tree file recorded bytes table) :
    world.metadata prepared.path = .ok (some (metadataOf recorded)) := by
  have hnode := (FileTree.node?_eq_file_iff hworld (Path.liesIn_metadata hlies).1).mpr
    ⟨hreachable, location_metadata_path hlies hfile ▸ hkeeping.metadata⟩
  have hparsed : Metadata.ofText? (metadataOf recorded).toText = some (metadataOf recorded) :=
    Metadata.ofText?_toText _
  rw [World.metadata_of_node? hledger hnode, hparsed]

include hfinds in
/-- A file that is there can receive rows if their metadata could be recorded. -/
theorem continues_of_admits (hadmits : world.tree.Admits (Metadata.path prepared.path) ∧
      world.tree.Admits ((Metadata.path prepared.path).besides Metadata.temporaryEnding))
    (hpresent : prepared.present = true) :
    base.Continues world.tree file ∧ Reachable (Metadata.path prepared.path) := by
  refine ⟨?_, hadmits.1.usable, hadmits.1.endsInName⟩
  cases hfinds with
  | base hpath =>
    rw [hpath] at hadmits
    exact (if_pos rfl).mpr hadmits
  | sibling hother hmetadata =>
    exact (if_neg hother).mpr (get?_of_isFile_metadata hworld hlies hfile hmetadata).2
  | fresh hother habsent =>
    rw [habsent] at hpresent
    cases hpresent

include hprepared hintact in
/-- A file that is there and can receive rows keeps a table, which is read from it. -/
theorem exists_keeping (hpresent : prepared.present = true)
    (hcontinues : base.Continues world.tree file) :
    ∃ recorded old table, base.Keeping world.tree file recorded old table ∧
      world.tree.node? prepared.path = some (.file (.bytes old)) := by
  obtain ⟨content, hnode⟩ : ∃ content, world.tree.node? prepared.path = some (.file content) := by
    obtain ⟨file, found, layout, checked, survivors, antiJoined, compared, hlocate, -, -, rfl⟩ :=
      prepare_eq_ok_iff.mp hprepared
    obtain ⟨-, seen, hstate⟩ := exists_stateOf_of_locate hlocate
    exact present_of_stateOf hstate hpresent
  have hthere := ((FileTree.node?_eq_file_iff hworld hlies.1).mp hnode).2
  rw [hfile] at hthere
  obtain ⟨recorded, old, table, hkeeping⟩ := hintact.kept content hthere hcontinues
  rw [hkeeping.data, Option.some.injEq, Node.file.injEq] at hthere
  exact ⟨recorded, old, table, hkeeping, hthere ▸ hnode⟩

include hjob hledger hbucket hprepared hintact

include hplace

/-- What a file holds after rows have come to it. -/
theorem exists_adds_of_stores (hcontinues : prepared.present = true →
      base.Continues world.tree file ∧ Reachable (Metadata.path prepared.path))
    {tree : FileTree} (hmade : FileTree.DirectoryMade world.tree tree (job.options.place prepared.key))
    {content : Content} {metadata : Metadata}
    (hstores : job.medium.Stores tree prepared.path prepared.survivors prepared.layout content
      metadata) :
    metadata = metadataOf dialect ∧ ∃ bytes table, content = .bytes bytes ∧
      Keeps dialect bytes table ∧ prepared.Adds base world.tree file dialect table := by
  cases hpresent : prepared.present with
  | false =>
    obtain ⟨hmetadata, bytes, hcontent, hkeeps⟩ := keeps_new hjob hbucket hprepared hstores hpresent
    exact ⟨hmetadata, bytes, _, hcontent, hkeeps, .new hpresent⟩
  | true =>
    obtain ⟨hcontinue, hreachable⟩ := hcontinues hpresent
    obtain ⟨recorded, old, table, hkeeping, hnode⟩ := exists_keeping hworld hprepared hlies hfile
      hintact hpresent hcontinue
    rw [hplace] at hmade
    obtain ⟨rfl, hmetadata, hperm, bytes, hcontent, hkeeps⟩ := keeps_added hjob hbucket hprepared
      hstores hkeeping.valid hpresent
      (metadata_of_keeping hworld hledger hlies hfile hreachable hkeeping) hnode
      (hmade.node?_in hworld hlies) hkeeping.keeps
    exact ⟨hmetadata, bytes, _, hcontent, hkeeps, .more hpresent hkeeping hperm⟩

include hfinds

/-- Whatever becomes of the writing of a partition, its file is intact. -/
theorem intact_of_leaves (hleaves : prepared.Leaves job world after) :
    base.Intact after.tree file := by
  cases hleaves with
  | kept hkept =>
    refine hintact.of_kept hkept fun ending hending => ?_
    rw [hlies.temporary_location hfile, List.mem_singleton,
      List.append_cancel_left_eq, List.cons.injEq, String.append_right_inj]
    rintro ⟨rfl, -⟩
    exact absurd hending (by decide)
  | @stored tree content metadata hreachable hmade hstores hkept hdata hrecorded =>
    rw [hfile] at hdata
    rw [location_metadata_path hlies hfile] at hrecorded
    refine ⟨fun _ _ => ⟨content, hdata⟩, fun found hfound hcontinues => ?_⟩
    rcases hrecorded with ⟨hadmits, htemporary, hmetadata⟩ | ⟨hsame, hnever⟩
    · obtain ⟨rfl, bytes, table, rfl, hkeeps, -⟩ := exists_adds_of_stores hjob hworld hledger hbucket
        hprepared hplace hlies hfile hintact
        (continues_of_admits hworld hlies hfile hfinds ⟨hadmits, htemporary⟩) hmade hstores
      exact ⟨dialect, bytes, table, hjob.valid, hdata, hkeeps, hmetadata⟩
    · by_cases hbase : file = base.name
      · -- Nothing can be recorded beside the base file.
        rw [Base.Continues, if_pos hbase] at hcontinues
        cases hfinds with
        | base hpath =>
          rw [← hpath] at hcontinues
          exact absurd hcontinues hnever
        | sibling hother => exact absurd hbase hother
        | fresh hother => exact absurd hbase hother
      · -- The metadata of a sibling are those of before, so it was there with a table.
        rw [Base.Continues, if_neg hbase] at hcontinues
        obtain ⟨recorded, hthere⟩ := hcontinues
        rw [hsame] at hthere
        obtain ⟨old, hold⟩ := hintact.owned recorded hthere
        have hpresent := present_of_node? hprepared ((FileTree.node?_eq_file_iff hworld hlies.1).mpr
          ⟨hreachable, hfile ▸ hold⟩)
        have hcontinue : base.Continues world.tree file := (if_neg hbase).mpr ⟨recorded, hthere⟩
        have hfound : Reachable (Metadata.path prepared.path) := by
          cases hfinds with
          | base => exact absurd rfl hbase
          | sibling hother hmetadata =>
            exact (get?_of_isFile_metadata hworld hlies hfile hmetadata).1
          | fresh hother habsent =>
            rw [habsent] at hpresent
            cases hpresent
        obtain ⟨-, bytes, table, rfl, hkeeps, hadds⟩ := exists_adds_of_stores hjob hworld hledger
          hbucket hprepared hplace hlies hfile hintact (fun _ => ⟨hcontinue, hfound⟩) hmade hstores
        cases hadds with
        | new habsent =>
          rw [habsent] at hpresent
          cases hpresent
        | more hpresent hkeeping hcolumns =>
          exact ⟨dialect, bytes, _, hjob.valid, hdata, hkeeps, (hsame _).mpr hkeeping.metadata⟩

end Job

/-! ## All partitions of an append -/

/-- All data files of a target are intact, and metadata stand in files. -/
structure World.Intact (world : World) (target : Path) {name : String}
    (hname : target.fileName? = some name) (htarget : target.Descends) : Prop where
  wellFormed : world.tree.WellFormed
  ledger : world.ledger = none
  intact : ∀ key file, (target.family hname htarget key).Kin file →
    (target.family hname htarget key).Intact world.tree file

theorem Prepared.Leaves.keptBut {prepared : Prepared} {job : Job} {world after : World}
    (hleaves : prepared.Leaves job world after) :
    KeptBut prepared.path.places world.tree after.tree := by
  cases hleaves with
  | kept hkept => exact hkept.mono (by simp [Path.places, Path.auxiliaries])
  | stored hreachable hmade hstores hkept => exact hkept

namespace Job

variable {job : Job} {dialect : Dialect} (hjob : job.Delimits dialect) {name : String}
  (hname : job.options.target.fileName? = some name) (htarget : job.options.target.Descends)
  {world : World} (hintact : world.Intact job.options.target hname htarget)

include hjob hintact

/-- Whether or not a partition can be written, all files stay intact. -/
theorem intact_of_process {bucket : Bucket} (hbucket : bucket.rows.Storable) :
    (run (job.process bucket) world).2.Intact job.options.target hname htarget := by
  have hledger := job.staysInFiles_process bucket world hintact.ledger
  cases hprepared : job.prepare world bucket with
  | error failure =>
    have hrun : run (job.process bucket) world = (.error failure, world) :=
      process_eq_error_iff.mpr (.inl ⟨hprepared, rfl⟩)
    rw [hrun]
    exact hintact
  | ok prepared =>
    have hrun : run (job.process bucket) world = run (prepared.commit job) world := by
      rw [process, Change.run_bind, Change.run_inspect, hprepared]
    obtain ⟨hkey, hlies, -⟩ := prepare_spec hname htarget hintact.wellFormed hprepared
    obtain ⟨file, hkin, hfile, hfinds⟩ :=
      exists_finds_of_prepare hname htarget hprepared
    have hleaves : prepared.Leaves job world (run (prepared.commit job) world).2 :=
      Prepared.leaves_of_commit (hkey ▸ hlies) hname htarget hintact.wellFormed hintact.ledger
        (project_of_prepare hname htarget hintact.wellFormed hjob.mode hbucket.wellFormed.1 hprepared)
        rfl
    rw [hrun] at hledger ⊢
    refine ⟨hleaves.keptBut.wellFormed, hledger, fun other found hfound => ?_⟩
    have hbefore := hintact.intact other found hfound
    by_cases hsame : other = bucket.key ∧ found = file
    · obtain ⟨rfl, rfl⟩ := hsame
      exact @intact_of_leaves job dialect hjob (job.options.family hname htarget bucket.key) world _
        hintact.wellFormed hintact.ledger bucket prepared hbucket hprepared (by rw [hkey]; rfl) found
        hlies hfile hfinds hbefore hleaves
    · refine hbefore.of_kept hleaves.keptBut fun ending hending => ?_
      refine Options.notMem_places hname htarget hlies hfile hkin hfound hsame ?_
      rcases List.mem_cons.mp hending with rfl | hending
      · decide
      · rcases List.mem_pair.mp hending with rfl | rfl <;> decide

theorem intact_of_processAll {buckets : List Bucket} (hbuckets : ∀ bucket ∈ buckets,
    bucket.rows.Storable) (report : Report) :
    (run (job.processAll report buckets) world).2.Intact job.options.target hname htarget := by
  induction buckets generalizing world report with
  | nil => exact hintact
  | cons bucket rest ih =>
    have hstep := intact_of_process hjob hname htarget hintact
      (hbuckets bucket List.mem_cons_self)
    rw [processAll, Change.run_bind, run_adapt]
    rcases hrun : run (job.process bucket) world with ⟨failure | action, between⟩
    · rw [hrun] at hstep
      exact hstep
    · rw [hrun] at hstep
      exact ih hstep (fun other hother => hbuckets other (List.mem_cons_of_mem _ hother))
        (report.add action)

end Job

/-! ## All appends -/

namespace Appender

variable {appender : Appender} {options : Options} {batch : Batch} {world : World}

/-- An append leaves all files intact, however it ends. -/
theorem intact_of_append {name : String} (hname : options.target.fileName? = some name)
    (htarget : options.target.Descends) (hbatch : batch.Storable) {dialect : Dialect}
    (hformat : options.effectiveFormat = .ok (.delimited dialect))
    (hintact : world.Intact options.target hname htarget) :
    (run (appender.append options batch) world).2.Intact options.target hname htarget := by
  by_cases hreach : ∃ format buckets, options.Reaches batch world.tree format buckets
  · obtain ⟨format, buckets, hreaches⟩ := hreach
    rw [run_append_of_reaches hreaches]
    obtain rfl : format = .delimited dialect :=
      Except.ok.inj (hreaches.format.symm.trans hformat)
    have hjob : (appender.job options (.delimited dialect) .real).Delimits dialect :=
      ⟨rfl, rfl, (validated_of_validate hreaches.valid hformat).1⟩
    exact @Job.intact_of_processAll (appender.job options (.delimited dialect) .real) dialect hjob
      name hname htarget world hintact buckets
      (fun bucket hbucket => Routing.storable_bucket hbatch hreaches.routed hbucket) .empty
  · have hidle : ∀ format buckets, ¬ options.Reaches batch world.tree format buckets :=
      fun format buckets hreaches => hreach ⟨format, buckets, hreaches⟩
    rw [(Settles.idle hidle : appender.Settles options batch world [] world).run_append]
    exact hintact

end Appender

/-- A world to which appends to a delimited target lead, beginning with an empty directory. -/
inductive World.Appended (target : Path) : World → Prop
  | start : Appended target ⟨.empty, none⟩
  | next {world : World} {options : Options} {dialect : Dialect} {batch : Batch}
      (happended : Appended target world) (appender : Appender)
      (htarget : options.target = target)
      (hformat : options.effectiveFormat = .ok (.delimited dialect)) (hbatch : batch.Storable) :
      Appended target (run (appender.append options batch) world).2

theorem World.Appended.intact {target : Path} {world : World} (happended : Appended target world)
    {name : String} (hname : target.fileName? = some name) (htarget : target.Descends) :
    world.Intact target hname htarget := by
  induction happended with
  | start =>
    exact ⟨FileTree.wellFormed_empty, rfl, fun key file hkin =>
      ⟨fun content hcontent => absurd hcontent (FileTree.get?_empty_ne_file _ _),
        fun content hcontent => absurd hcontent (FileTree.get?_empty_ne_file _ _)⟩⟩
  | next happended appender hsame hformat hbatch ih =>
    subst hsame
    exact Appender.intact_of_append hname htarget hbatch hformat ih

end TableAppend
