import TableAppend.Proofs.Append.Ledgers
import TableAppend.Proofs.Append.Recovery
import TableAppend.Proofs.World.Overlooking

/-!
# Appending beside metadata that cannot be read

Without limits, and if only base files are compared, a metadata file of a base file that holds a text but
no metadata counts as absent: every append and every simulation ends as without it.  This does not
extend to bytes that are no text at all, which fail every decision about their partition.
-/

namespace TableAppend

open Change (run run_bind)
open FileTree (Skirts destination)
open World (Overlooks)

/-! ## Places of metadata files -/

namespace Options

variable {options : Options} {tree : FileTree} {key : PartitionKey} {name : String}

/-- Rows can have this partition under the routing: all have one, or none has. -/
def HasPartition (options : Options) (key : PartitionKey) : Prop :=
  key = none ↔ options.routing.scheme = .none

/-- Where base files have their metadata files. -/
def metadataPlaces (options : Options) (tree : FileTree) : Set Location :=
  {place | ∃ key content, options.HasPartition key ∧
    place = destination (Metadata.path (options.basePath key)) ∧
      tree.node? (Metadata.path (options.basePath key)) = some (.file content)}

theorem isDirectoryAt_of_mem_metadataPlaces {place : Location}
    (hplace : place ∈ options.metadataPlaces tree) : tree.isDirectoryAt place = false := by
  obtain ⟨key, content, -, hsame, hnode⟩ := hplace
  rw [hsame, FileTree.isDirectoryAt, FileTree.get?_of_node? hnode]
  rfl

variable (hname : options.target.fileName? = some name)

include hname

theorem getLast?_of_mem_metadataPlaces {place : Location}
    (hplace : place ∈ options.metadataPlaces tree) :
    place.getLast? = some (name ++ Metadata.ending) := by
  obtain ⟨key, -, -, hsame, -⟩ := hplace
  obtain ⟨beside, -, -, hmetadata, -⟩ := FileTree.exists_destinations (fileName?_basePath hname key)
  rw [hsame, hmetadata, List.getLast?_concat]

/-- Base files and all temporary files have other names than metadata files. -/
theorem notMem_metadataPlaces (key : PartitionKey) :
    destination (options.basePath key) ∉ options.metadataPlaces tree ∧
      destination ((options.basePath key).besides Metadata.temporaryEnding) ∉
        options.metadataPlaces tree ∧
      destination ((Metadata.path (options.basePath key)).besides Metadata.temporaryEnding) ∉
        options.metadataPlaces tree := by
  obtain ⟨beside, hplace, htemporary, -, hscratch⟩ :=
    FileTree.exists_destinations (fileName?_basePath hname key)
  rw [hplace, htemporary, hscratch]
  refine ⟨fun hmem => ?_, fun hmem => ?_, fun hmem => ?_⟩
  · have hlast := getLast?_of_mem_metadataPlaces hname hmem
    rw [List.getLast?_concat, Option.some.injEq] at hlast
    have hsize := congrArg String.utf8ByteSize hlast
    rw [String.utf8ByteSize_append, Metadata.ending] at hsize
    have hending : ".meta".utf8ByteSize = 5 := by decide
    omega
  · have hlast := getLast?_of_mem_metadataPlaces hname hmem
    rw [List.getLast?_concat, Option.some.injEq] at hlast
    exact Path.append_temporary_ne _ _ hlast
  · have hlast := getLast?_of_mem_metadataPlaces hname hmem
    rw [List.getLast?_concat, Option.some.injEq] at hlast
    exact Path.append_temporary_ne _ _ hlast

theorem metadataPath_basePath (segment : Segment) :
    Metadata.path (options.basePath (some segment)) =
      (options.baseDirectory.join segment.text).join (name ++ Metadata.ending) := by
  rw [basePath, hname, Option.getD_some]
  exact Path.besides_join (Path.trimmed_join _ segment.isName) (Path.isName_of_fileName? hname) _

/-- No way to a base file passes a metadata file: where there is one its directory is there, and the
directories of partitions stand at another depth. -/
theorem skirts_metadataPlaces (hkey : options.HasPartition key) :
    Skirts (options.metadataPlaces tree) (options.basePath key) := by
  rcases (options.metadataPlaces tree).eq_empty_or_nonempty with hempty | ⟨place, hplace⟩
  · rw [hempty]
    exact fun _ _ hmem => absurd hmem (Set.notMem_empty _)
  obtain ⟨other, content, hother, -, hnode⟩ := hplace
  have hlast := fileName?_basePath hname other
  have hisName := Path.isName_append (Path.isName_of_fileName? hname)
    (by decide : '/' ∉ Metadata.ending.toList) (by decide)
  obtain ⟨parent, hparent⟩ := Path.exists_parent?_of_fileName? hlast
  have hskirts : Skirts (options.metadataPlaces tree) parent := by
    rw [Metadata.path, Path.besides_of_parent hlast hparent] at hnode
    have htrimmed := Path.trimmed_parent hparent
    obtain ⟨here, hwalk, hhere⟩ := FileTree.exists_walk_parent (Path.fileName?_join parent hisName)
      ((Path.parent?_join parent hisName).trans (congrArg some htrimmed)) hnode
    exact FileTree.skirts_of_walk hwalk hhere fun _ => isDirectoryAt_of_mem_metadataPlaces
  have hnot := (@notMem_metadataPlaces _ tree _ hname key).1
  cases key with
  | none =>
    obtain rfl : other = none := hother.mpr (hkey.mp rfl)
    exact .of_parent hname hparent hskirts hnot
  | some segment =>
    obtain ⟨near, rfl⟩ : ∃ near, other = some near :=
      Option.ne_none_iff_exists'.mp fun hnone => Option.some_ne_none _ (hkey.mpr (hother.mp hnone))
    rw [basePath, hname, Option.getD_some] at hparent hnot ⊢
    rw [Path.parent?_join _ (Path.isName_of_fileName? hname)] at hparent
    obtain rfl := Option.some.inj hparent
    rw [PartitionKey.directory, Path.trimmed_join _ near.isName] at hskirts
    have hupper : Skirts (options.metadataPlaces tree) options.baseDirectory := by
      refine hskirts.of_steps ?_
      rw [Path.steps_join _ near.isName]
      exact List.prefix_append _ _
    rw [FileTree.destination_join _ (Path.isName_of_fileName? hname)] at hnot
    refine .join (.join hupper segment.isName fun hmem => ?_) (Path.isName_of_fileName? hname) hnot
    obtain ⟨others, -, hothers, hsame, -⟩ := hmem
    obtain ⟨far, rfl⟩ : ∃ far, others = some far :=
      Option.ne_none_iff_exists'.mp fun hnone => Option.some_ne_none _ (hkey.mpr (hothers.mp hnone))
    rw [metadataPath_basePath hname, FileTree.destination_join _ hisName,
      FileTree.destination_join _ far.isName] at hsame
    have hlength := congrArg List.length hsame
    simp at hlength

/-- Nor does one to a temporary file. -/
theorem skirts_metadataPlaces_temporary (hkey : options.HasPartition key) :
    Skirts (options.metadataPlaces tree)
        ((options.basePath key).besides Metadata.temporaryEnding) ∧
      Skirts (options.metadataPlaces tree)
        ((Metadata.path (options.basePath key)).besides Metadata.temporaryEnding) := by
  obtain ⟨-, htemporary, hscratch⟩ := @notMem_metadataPlaces _ tree _ hname key
  have hlast := fileName?_basePath hname key
  have hskirts := @skirts_metadataPlaces _ tree _ _ hname hkey
  refine ⟨hskirts.besides hlast (by decide) (by decide) htemporary, ?_⟩
  rw [FileTree.besides_metadata hlast] at hscratch ⊢
  exact hskirts.besides hlast (by decide) (by decide) hscratch

end Options

/-! ## Partitions -/

namespace Job

variable {job : Job} {name : String} {tree : FileTree} {lost : Set Location} {full bare : World}

/-- A job for which only base files and what is known of them matter. -/
structure KeepsToBases (job : Job) (name : String) : Prop where
  name : job.options.target.fileName? = some name
  limits : job.options.limits.isEnabled = false
  scope : job.options.antiJoin.enabled = true → job.options.antiJoin.scope = .baseFile

variable (hkeeps : job.KeepsToBases name) (hlost : lost ⊆ job.options.metadataPlaces tree)
  (hoverlooks : Overlooks lost full bare) {bucket : Bucket}
  (hkey : job.options.HasPartition bucket.key)

include hkeeps hlost hoverlooks

theorem prepare_of_overlooks (bucket : Bucket) : job.prepare bare bucket = job.prepare full bucket :=
  prepare_of_sameAt hkeeps.limits hkeeps.scope
    (hoverlooks.sameAt fun hmem => (Options.notMem_metadataPlaces hkeeps.name _).1 (hlost hmem))

include hkey

/-- A partition is treated alike, wherever that fails. -/
theorem process_of_overlooks :
    (job.process bucket).Agrees full bare
      fun after later => ∃ kept ⊆ lost, Overlooks kept after later := by
  rw [Change.Agrees, process, run_bind, run_bind, Change.run_inspect, Change.run_inspect,
    prepare_of_overlooks hkeeps hlost hoverlooks]
  cases hprepared : job.prepare full bucket with
  | error failure => exact ⟨rfl, lost, subset_rfl, hoverlooks⟩
  | ok prepared =>
    dsimp only
    obtain ⟨hpreparedKey, hpath⟩ : prepared.key = bucket.key ∧
        prepared.path = job.options.basePath bucket.key := by
      obtain ⟨file, found, layout, checked, survivors, antiJoined, compared, hlocate, -, -, rfl⟩ :=
        prepare_eq_ok_iff.mp hprepared
      rw [locate_of_unlimited hkeeps.limits] at hlocate
      exact ⟨rfl, (observe_spec hlocate).1⟩
    cases hrows : prepared.survivors.isEmpty with
    | true =>
      rw [Prepared.run_commit_of_isEmpty hrows, Prepared.run_commit_of_isEmpty hrows]
      exact ⟨rfl, lost, subset_rfl, hoverlooks⟩
    | false =>
      have hskirts := (Options.skirts_metadataPlaces hkeeps.name hkey).mono hlost
      obtain ⟨htemporary, hscratch⟩ := Options.skirts_metadataPlaces_temporary hkeeps.name hkey
      have hname := Options.fileName?_basePath hkeeps.name bucket.key
      rw [← hpath] at hskirts htemporary hscratch hname
      have hdirectory : Skirts lost (prepared.key.directory job.options.baseDirectory) := by
        rw [hpreparedKey]
        exact (hpath ▸ hskirts).partition hkeeps.name
      have hwriting := (Change.concurs_makeDirectories (subset_refl lost) hdirectory).bind fun _ =>
        Medium.concurs_write (subset_refl lost) hskirts job.medium (htemporary.mono hlost)
          prepared.survivors prepared.layout
      have hboth := hoverlooks.write_and_record hname hskirts (hscratch.mono hlost) hwriting
        prepared.action
      simpa [Prepared.commit, hrows, Change.Agrees] using hboth

end Job

/-! ## Whole calls -/

namespace Appender

variable {appender : Appender} {options : Options} {batch : Batch} {tree : FileTree}
  {lost : Set Location} {full bare : World}
  (hlimits : options.limits.isEnabled = false)
  (hscope : options.antiJoin.enabled = true → options.antiJoin.scope = .baseFile)
  (hlost : lost ⊆ options.metadataPlaces tree) (hoverlooks : Overlooks lost full bare)

include hlimits hscope hlost hoverlooks

theorem append_of_overlooks :
    (appender.append options batch).Agrees full bare
      fun after later => ∃ kept ⊆ lost, Overlooks kept after later := by
  rcases append_eq_or_reaches (options.validate_of_lacks hoverlooks.lacks.tree) with
    ⟨outcome, hfull, hbare⟩ | ⟨format, buckets, hreaches, hbare⟩
  · rw [Change.Agrees, hfull, hbare]
    exact ⟨rfl, lost, subset_rfl, hoverlooks⟩
  · obtain ⟨name, hname⟩ := exists_fileName?_of_validate hreaches.valid
    have hkeeps : (appender.job options format .real).KeepsToBases name := ⟨hname, hlimits, hscope⟩
    rw [Change.Agrees, run_append_of_reaches hreaches, run_append_of_reaches hbare]
    refine @Job.processAll_of_agrees _ full bare
      (fun buckets full bare => (∀ bucket ∈ buckets, options.HasPartition bucket.key) ∧
        ∃ kept ⊆ lost, Overlooks kept full bare)
      (fun full bare => ∃ kept ⊆ lost, Overlooks kept full bare)
      (fun _ _ hlast => hlast.2) (fun bucket rest first second hbefore => ?_) buckets .empty
      ⟨fun _ => Routing.bucket_key_eq_none_iff hreaches.routed, lost, subset_rfl, hoverlooks⟩
    obtain ⟨hkeys, kept, hkept, hfirst⟩ := hbefore
    rw [List.forall_mem_cons] at hkeys
    obtain ⟨hsame, more, hmore, hlast⟩ :=
      Job.process_of_overlooks hkeeps (hkept.trans hlost) hfirst hkeys.1
    exact ⟨hsame, ⟨more, hmore.trans hkept, hlast⟩,
      fun _ _ => ⟨hkeys.2, more, hmore.trans hkept, hlast⟩⟩

theorem simulate_of_overlooks :
    appender.simulate options batch bare = appender.simulate options batch full :=
  simulate_of_prepare (options.validate_of_lacks hoverlooks.lacks.tree)
    fun format buckets hreaches bucket _ => by
      obtain ⟨name, hname⟩ := exists_fileName?_of_validate hreaches.valid
      have hkeeps : (appender.job options format .simulated).KeepsToBases name :=
        ⟨hname, hlimits, hscope⟩
      exact Job.prepare_of_overlooks hkeeps hlost hoverlooks bucket

omit hlimits hscope hlost hoverlooks

/-- Without metadata files in which there are texts but no metadata, the same is known of every data
file. -/
theorem overlooks_withoutMetadata {world : World} (hfiles : world.ledger = none)
    (hdistinct : (world.tree.nodes.map Prod.fst).Nodup) {keys : List PartitionKey}
    (hkeys : ∀ key ∈ keys, options.HasPartition key ∧ ∃ bytes text,
      world.tree.node? (Metadata.path (options.basePath key)) = some (.file (.bytes bytes)) ∧
        Utf8.decode? bytes = some text ∧ Metadata.ofText? text = none) :
    ∃ lost ⊆ options.metadataPlaces world.tree,
      (∀ place ∈ lost, ∃ key ∈ keys, place = destination (Metadata.path (options.basePath key))) ∧
        Overlooks lost world (world.withoutMetadata (keys.map options.basePath)) := by
  have hsame : World.Lacks ∅ world world := ⟨hfiles, hfiles, .refl hdistinct⟩
  obtain ⟨lost, hlost, hlacks⟩ := hsame.withoutMetadata (keys.map options.basePath)
  have hgone : ∀ place ∈ lost, ∃ key ∈ keys,
      place = destination (Metadata.path (options.basePath key)) := by
    intro place hplace
    rcases (Set.mem_union _ _ _).mp (hlost hplace) with hnone | ⟨path, hpath, hplace, -⟩
    · exact absurd hnone (Set.notMem_empty _)
    · obtain ⟨key, hkey, hbase⟩ := List.mem_map.mp hpath
      exact ⟨key, hkey, hbase ▸ hplace⟩
  refine ⟨lost, fun place hplace => ?_, hgone, hlacks, fun place hplace content hcontent => ?_⟩
  · obtain ⟨key, hkey, hsame⟩ := hgone place hplace
    obtain ⟨hpartition, bytes, text, hnode, -⟩ := hkeys key hkey
    exact ⟨key, _, hpartition, hsame, hnode⟩
  · obtain ⟨key, hkey, hsame⟩ := hgone place hplace
    obtain ⟨-, bytes, text, hnode, htext, hnone⟩ := hkeys key hkey
    rw [hsame, FileTree.get?_of_node? hnode, Option.some.injEq, Node.file.injEq] at hcontent
    exact ⟨text, by rw [← hcontent]; exact htext, hnone⟩

/-- What is read of a metadata file: metadata if the file is a document of them, none if it is another
text, and a failure if it is no text; no decision about the partition is then reached.  Without limits,
and if only base files are compared, every append and every simulation ends beside metadata files that are
other texts as without them, and leaves the same files but for metadata. -/
theorem unreadable_metadata {world : World} (hfiles : world.ledger = none)
    (hdistinct : (world.tree.nodes.map Prod.fst).Nodup) :
    (∀ path bytes, world.tree.node? (Metadata.path path) = some (.file (.bytes bytes)) →
      (Utf8.decode? bytes = none → world.metadata path = .error (.io .notText)) ∧
        ∀ text, Utf8.decode? bytes = some text → ∃ known, world.metadata path = .ok known ∧
          ∀ metadata, known = some metadata ↔
            ∃ json, Json.parse? text = some json ∧ Metadata.ofJson? json = some metadata) ∧
    (∀ (job : Job) (bucket : Bucket) (failure : Failure), job.options.limits.isEnabled = false →
      world.metadata (job.options.basePath bucket.key) = .error failure →
        job.prepare world bucket = .error failure) ∧
    ∀ (appender : Appender) (options : Options) (batch : Batch) (keys : List PartitionKey),
      options.limits.isEnabled = false →
      (options.antiJoin.enabled = true → options.antiJoin.scope = .baseFile) →
      (∀ key ∈ keys, options.HasPartition key ∧ ∃ bytes text,
        world.tree.node? (Metadata.path (options.basePath key)) = some (.file (.bytes bytes)) ∧
          Utf8.decode? bytes = some text ∧ Metadata.ofText? text = none) →
      let beside := run (appender.append options batch) world
      let without :=
        run (appender.append options batch) (world.withoutMetadata (keys.map options.basePath))
      without.1 = beside.1 ∧
        (∀ place, (∀ key ∈ keys, place ≠ destination (Metadata.path (options.basePath key))) →
          without.2.tree.get? place = beside.2.tree.get? place) ∧
        appender.simulate options batch (world.withoutMetadata (keys.map options.basePath)) =
          appender.simulate options batch world := by
  refine ⟨fun path bytes hnode => ⟨fun hbytes => ?_, fun text htext => ?_⟩,
    fun job bucket failure hlimits hfailure => Job.prepare_of_metadata_error hlimits hfailure,
    fun appender options batch keys hlimits hscope hkeys => ?_⟩
  · rw [World.metadata_of_file hfiles hnode, Content.toBytes, hbytes]
  · refine ⟨Metadata.ofText? text, ?_, fun metadata => Option.bind_eq_some_iff⟩
    rw [World.metadata_of_file hfiles hnode, Content.toBytes, htext]
  · obtain ⟨lost, hlost, hgone, hoverlooks⟩ := overlooks_withoutMetadata hfiles hdistinct hkeys
    obtain ⟨hsame, kept, hkept, hleft⟩ := append_of_overlooks hlimits hscope hlost hoverlooks
    refine ⟨hsame, fun place hplace => hleft.lacks.tree.kept place fun hmem => ?_,
      simulate_of_overlooks hlimits hscope hlost hoverlooks⟩
    obtain ⟨key, hkey, hat⟩ := hgone place (hkept hmem)
    exact hplace key hkey hat

/-- A byte that is no text fails even an append of a row that is stored already; half a document does as
much as no file. -/
theorem unreadable_metadata_of_interrupted_write :
    let tree (bytes : Bytes) : FileTree :=
      ⟨[(["p.csv"], .file (.bytes (Utf8.encode "id\n1\n"))), (["p.csv.meta"], .file (.bytes bytes))]⟩
    let appender : Appender := ⟨none, 200⟩
    let options : Options := ⟨⟨"p.csv"⟩, none, .onKeys ["id"], .off, .none⟩
    let batch : Batch := ⟨["id"], [[.int 1]]⟩
    World.metadata ⟨tree [255], none⟩ ⟨"p.csv"⟩ = .error (.io .notText) ∧
      (run (appender.append options batch) ⟨tree [255], none⟩).1 =
        .error (.atPartition [] "<none>" (.io .notText)) ∧
      (run (appender.append options batch)
          (World.withoutMetadata ⟨tree (Utf8.encode "\x7b\"delim"), none⟩ [⟨"p.csv"⟩])).1 =
        (run (appender.append options batch) ⟨tree (Utf8.encode "\x7b\"delim"), none⟩).1 := by
  intro tree appender options batch
  have hdistinct : ∀ bytes, ((tree bytes).nodes.map Prod.fst).Nodup := fun bytes => by simp [tree]
  have hnode : ∀ bytes, (tree bytes).node? (Metadata.path ⟨"p.csv"⟩) = some (.file (.bytes bytes)) := by
    intro bytes
    rfl
  obtain ⟨hread, -, -⟩ := @unreadable_metadata ⟨tree [255], none⟩ rfl (hdistinct _)
  have hmetadata := (hread ⟨"p.csv"⟩ [255] (hnode _)).1 (by decide +kernel)
  refine ⟨hmetadata, by decide +kernel, ?_⟩
  obtain ⟨-, -, hbeside⟩ := @unreadable_metadata ⟨tree (Utf8.encode "\x7b\"delim"), none⟩ rfl
    (hdistinct _)
  exact (hbeside appender options batch [none] rfl (fun _ => rfl) (by
    simp only [List.mem_singleton, forall_eq]
    exact ⟨⟨fun _ => rfl, fun _ => rfl⟩, _, _, hnode _, Utf8.decode?_encode _, by decide +kernel⟩)).1

end Appender

end TableAppend
