import TableAppend.Proofs.Append.Forgiving
import TableAppend.Proofs.Append.Growth
import TableAppend.Proofs.Append.Parity
import TableAppend.Proofs.Append.Sparing
import TableAppend.Proofs.World.Missing

/-!
# Appending after metadata have been lost

Without limits rows go to base files only.  If the metadata files of some of them are gone, an append
does to the data files what it would do with them, and it records anew the metadata of all files to
which it writes.  All this needs is that the first line of no delimited file makes its delimiter
doubtful.
-/

namespace TableAppend

open Change (run run_bind_eq_ok_iff run_pure_eq_ok_iff run_inspect_eq_ok_iff run_ofOutcome_eq_ok_iff)
open FileTree (destination)

/-! ## Files that are known without metadata -/

/-- The first line of a file does not suggest another delimiter. -/
def Delimited.Unsuspicious (dialect : Dialect) (bytes : Bytes) : Prop :=
  ∀ found, likelyDelimiter? (firstLine bytes) = some found →
    found = dialect.delimiter ∨ dialect.delimiter ∈ firstLine bytes

/-- A file of the medium is taken for one without any metadata. -/
def Medium.Recognises (medium : Medium) (content : Content) : Prop :=
  ∀ dialect, medium = .delimited dialect → Delimited.Unsuspicious dialect content.toBytes

theorem Medium.accepts_none {medium : Medium} {tree : FileTree} {path : Path} {content : Content}
    (hnode : tree.node? path = some (.file content)) (hcontent : medium.Recognises content) :
    medium.Accepts tree path none := by
  cases medium with
  | columnar codec => rfl
  | delimited dialect =>
    rw [Accepts, Delimited.checkMarks, FileTree.readBytes_of_node? hnode]
    dsimp only
    split
    · rename_i found hfound
      rcases hcontent dialect rfl found hfound with rfl | hmem
      · simp
      · simp [hmem]
    · rfl

/-! ## Decisions without metadata -/

namespace Job

variable {job : Job} {lost : Set Location} {full bare : World} {name : String}

/-- The second world lacks metadata files of base files that are known without them. -/
structure Misses (job : Job) (name : String) (lost : Set Location) (full bare : World) : Prop where
  lacks : World.Lacks lost full bare
  named : ∀ location ∈ lost, ∃ place, location = place ++ [name ++ Metadata.ending]
  recognised : ∀ place content, place ++ [name ++ Metadata.ending] ∈ lost →
    full.tree.get? (place ++ [name]) = some (.file content) → job.medium.Recognises content

theorem Misses.getLast?_eq (hmisses : job.Misses name lost full bare) :
    ∀ location ∈ lost, location.getLast? = some (name ++ Metadata.ending) := by
  intro location hlocation
  obtain ⟨place, rfl⟩ := hmisses.named location hlocation
  exact List.getLast?_concat

/-- A job that writes to base files in usable marks. -/
structure WritesBases (job : Job) (name : String) : Prop where
  name : job.options.target.fileName? = some name
  real : job.mode = .real
  unlimited : job.options.limits.isEnabled = false
  usable : ∀ dialect, job.medium = .delimited dialect → dialect.validate = .ok ()

variable (hwrites : job.WritesBases name)

include hwrites

/-- A file to which rows can be added is accepted with the metadata that it has. -/
theorem accepts_of_prepare {bucket : Bucket} {prepared : Prepared}
    (hprepared : job.prepare full bucket = .ok prepared) :
    prepared.path = job.options.basePath bucket.key ∧
      ∃ known, full.metadata (job.options.basePath bucket.key) = .ok known ∧
        (full.tree.isFile (job.options.basePath bucket.key) = true →
          job.medium.Accepts full.tree (job.options.basePath bucket.key) known) := by
  obtain ⟨file, found, layout, checked, survivors, antiJoined, compared, hlocate, hlayout, -, rfl⟩ :=
    prepare_eq_ok_iff.mp hprepared
  rw [locate_of_unlimited hwrites.unlimited] at hlocate
  obtain ⟨known, state, hknown, hstate, rfl⟩ := observe_eq_ok_iff.mp hlocate
  refine ⟨rfl, known, hknown, fun hfile => ?_⟩
  obtain ⟨content, hnode⟩ := FileTree.isFile_iff.mp hfile
  have hpresent := (check_of_stateOf hwrites.real hnode hknown hstate).1
  rcases ((layoutFor_real_eq_ok_iff hwrites.real).mp hlayout).2 with ⟨habsent, -⟩ | ⟨-, hcheck⟩
  · rw [hpresent] at habsent
    cases habsent
  · exact Medium.accepts_of_check hcheck

/-- The decisions about a partition do not need the metadata that are missing. -/
theorem condonesFamily_of_misses (hmisses : job.Misses name lost full bare) {bucket : Bucket}
    {prepared : Prepared} (hprepared : job.prepare full bucket = .ok prepared) :
    job.CondonesFamily full bare (job.options.basePath bucket.key) := by
  have hbase := Options.fileName?_basePath hwrites.name bucket.key
  have hlost := hmisses.getLast?_eq
  have htree := hmisses.lacks.tree
  obtain ⟨-, known, hknown, haccepts⟩ := accepts_of_prepare hwrites hprepared
  have hcondonesBase : job.Condones full bare (job.options.basePath bucket.key) := by
    refine ⟨htree.node?_eq (Family.base_notMem hbase hlost), fun found hfound => ?_⟩
    obtain rfl : known = found := Except.ok.inj (hknown.symm.trans hfound)
    by_cases hmem : destination (Metadata.path (job.options.basePath bucket.key)) ∈ lost
    · refine ⟨none, hmisses.lacks.metadata_eq_none hmem, fun hfile => .inr ⟨?_, fun hmax => ?_⟩⟩
      · obtain ⟨content, hnode⟩ := FileTree.isFile_iff.mp hfile
        obtain ⟨place, hplace⟩ := FileTree.exists_destination hbase
        have hmetadata := (@FileTree.destination_besides _ _ place hbase hplace Metadata.ending
          (by decide) (by decide)).1
        rw [Metadata.path, hmetadata] at hmem
        have hget : full.tree.get? (place ++ [name]) = some (.file content) := by
          rw [← hplace]
          exact FileTree.get?_of_node? hnode
        have hnone := Medium.accepts_none hnode (hmisses.recognised place content hmem hget)
        cases hmedium : job.medium with
        | delimited dialect =>
          have hmarks := haccepts hfile
          rw [hmedium] at hmarks hnone
          exact ⟨Delimited.storedDialect_of_checkMarks (hwrites.usable dialect hmedium) hmarks,
            fun _ => hnone⟩
        | columnar codec =>
          have hformat := haccepts hfile
          rw [hmedium] at hformat
          exact ⟨hformat, rfl⟩
      · have hdisabled := hwrites.unlimited
        rw [Limits.isEnabled, hmax] at hdisabled
        cases hdisabled
    · exact ⟨known, (hmisses.lacks.metadata_eq hmem).trans hknown, fun _ => .inl rfl⟩
  refine condonesFamily_of_base hbase hlost (Family.active_of_lacks htree hbase hlost)
    (fun henabled => ?_) (Family.members_of_lacks htree hbase hlost) hcondonesBase
    fun path hpath => ⟨htree.node?_eq hpath, fun hmetadata => hmisses.lacks.metadata_eq hmetadata⟩
  rw [hwrites.unlimited] at henabled
  cases henabled

end Job

/-! ## Writing without metadata -/

section Writing

variable {lost : Set Location}

/-- A directory that can be made can be made where files are missing as well. -/
theorem Change.carries_makeDirectories (path : Path) :
    (makeDirectories path).Carries (World.Lacks lost) (World.Lacks lost) := by
  intro full bare hlacks value left hrun
  obtain ⟨tree, htree, rfl⟩ := run_makeDirectories_eq_ok_iff.mp hrun
  obtain ⟨later, hlater, htrees⟩ := hlacks.tree.makeDirectories htree
  exact ⟨_, run_makeDirectories_eq_ok_iff.mpr ⟨later, hlater, rfl⟩, hlacks.files, hlacks.bareFiles,
    htrees⟩

namespace Prepared

variable {prepared : Prepared} {job : Job}

variable (hrows : prepared.survivors.isEmpty = false)

include hrows

/-- Metadata that are missing do not keep rows from being written. -/
theorem carries_commit (hpath : destination prepared.path ∉ lost)
    (hscratch : destination (prepared.path.besides Metadata.temporaryEnding) ∉ lost)
    (htemporary : destination ((Metadata.path prepared.path).besides Metadata.temporaryEnding) ∉ lost) :
    (prepared.commit job).Carries (World.Lacks lost)
      (World.Lacks (lost \ {destination (Metadata.path prepared.path)})) := by
  rw [commit_of_rows hrows]
  exact (Change.carries_makeDirectories _).bind fun _ =>
    (job.medium.mirrors_write hpath hscratch _ _).bare.bind fun metadata =>
      (World.mirrors_recordMetadata htemporary metadata).bare.bind fun _ => Change.carries_pure _

end Prepared

end Writing

/-! ## Whole appends -/

/-- The place of the metadata that are recorded for a partition, if rows are written. -/
def Action.recorded (action : Action) : Set Location :=
  {location | action.rowsWritten ≠ 0 ∧ location = destination (Metadata.path action.path)}

/-- The places of all metadata that an append records. -/
def Report.recorded (report : Report) : Set Location :=
  {location | ∃ action ∈ report.actions, location ∈ action.recorded}

/-- The written files have one name, and the metadata of each have been recorded. -/
def Report.Names (report : Report) (name : String) : Prop :=
  ∀ path ∈ report.written, path.fileName? = some name ∧
    destination (Metadata.path path) ∈ report.recorded

theorem Report.recorded_add (report : Report) (action : Action) :
    (report.add action).recorded = report.recorded ∪ action.recorded := by
  ext location
  simp [recorded, add, or_and_right, exists_or]

theorem Report.Names.add {report : Report} {name : String} (hnames : report.Names name)
    {action : Action} (haction : action.path.fileName? = some name) :
    (report.add action).Names name := by
  intro path hpath
  rw [recorded_add]
  by_cases hrows : action.rowsWritten = 0
  · rw [Report.add, if_pos hrows] at hpath
    exact (hnames path hpath).imp_right fun hold => .inl hold
  · rw [Report.add, if_neg hrows, addPath] at hpath
    have hmem : path ∈ report.written ∨ path = action.path := by
      split at hpath
      · exact .inl hpath
      · simpa using hpath
    rcases hmem with hold | rfl
    · exact (hnames path hold).imp_right fun hold => .inl hold
    · exact ⟨haction, .inr ⟨hrows, rfl⟩⟩

namespace Prepared

variable {prepared : Prepared}

theorem recorded_of_isEmpty (hrows : prepared.survivors.isEmpty = true) :
    prepared.action.recorded = ∅ := by
  have hsize : prepared.action.rowsWritten = 0 := by
    simpa [action, Batch.size, Batch.isEmpty] using hrows
  ext location
  simp [Action.recorded, hsize]

theorem recorded_of_rows (hrows : prepared.survivors.isEmpty = false) :
    prepared.action.recorded = {destination (Metadata.path prepared.path)} := by
  have hsize : prepared.action.rowsWritten ≠ 0 := by
    simpa [action, Batch.size, Batch.isEmpty] using hrows
  ext location
  simp only [Action.recorded, hsize, ne_eq, not_false_eq_true, true_and]
  rfl

end Prepared

namespace Job

variable {job : Job} {lost : Set Location} {full bare after : World} {name : String}

/-- Writing a partition changes no missing file but its metadata, and no other base file whose
metadata are missing. -/
theorem Misses.notMem_of_name (hmisses : job.Misses name lost full bare) {prepared : Prepared}
    (hname : prepared.path.fileName? = some name) :
    (destination prepared.path ∉ lost ∧
      destination (prepared.path.besides Metadata.temporaryEnding) ∉ lost ∧
        destination ((Metadata.path prepared.path).besides Metadata.temporaryEnding) ∉ lost) ∧
      ∀ place, place ++ [name ++ Metadata.ending] ∉
        ({destination (Metadata.path prepared.path)} : Set Location) →
          place ++ [name] ∉ prepared.changes := by
  obtain ⟨place, hchanges⟩ := Prepared.exists_place hname
  obtain ⟨hpath, hscratch, hmetadata, htemporary⟩ : destination prepared.path = place ++ [name] ∧
      destination (prepared.path.besides Metadata.temporaryEnding) =
        place ++ [name ++ Metadata.temporaryEnding] ∧
      destination (Metadata.path prepared.path) = place ++ [name ++ Metadata.ending] ∧
      destination ((Metadata.path prepared.path).besides Metadata.temporaryEnding) =
        place ++ [name ++ Metadata.ending ++ Metadata.temporaryEnding] := by
    simpa [Prepared.changes] using hchanges
  have hother : ∀ ending ∈ Family.endings, ending ≠ Metadata.ending →
      place ++ [name ++ ending] ∉ lost := by
    intro ending hending hne hmem
    have hlast := hmisses.getLast?_eq _ hmem
    rw [List.getLast?_concat, Option.some.injEq] at hlast
    exact hne (Family.eq_of_append_ending hending (by decide) rfl hlast).1
  refine ⟨⟨?_, ?_, ?_⟩, fun outer hne hmem => hne ?_⟩
  · rw [hpath, ← String.append_empty (s := name)]
    exact hother "" (by decide) (by decide)
  · rw [hscratch]
    exact hother _ (by decide) (by decide)
  · rw [htemporary, String.append_assoc]
    exact hother _ (by decide) (by decide)
  · have hplace : outer = place := by
      rw [hchanges] at hmem
      simp only [List.mem_cons, List.not_mem_nil, or_false] at hmem
      rcases hmem with hsame | hsame | hsame | hsame <;> exact List.append_inj_left' hsame rfl
    rw [hmetadata, hplace]
    rfl

variable (hwrites : job.WritesBases name)

include hwrites

/-- What is done to a partition with its metadata is done without them, and if rows are written its
metadata are there again. -/
theorem process_of_misses (hmisses : job.Misses name lost full bare) {bucket : Bucket}
    {action : Action} (hrun : run (job.process bucket) full = (.ok action, after)) :
    action.path.fileName? = some name ∧ ∃ later,
      run (job.process bucket) bare = (.ok action, later) ∧
        job.Misses name (lost \ action.recorded) after later := by
  obtain ⟨prepared, hprepared, hcommit⟩ := process_eq_ok_iff.mp hrun
  obtain ⟨again, hagain, halike⟩ := prepare_of_condones hwrites.real
    (condonesFamily_of_misses hwrites hmisses hprepared) hprepared
  have hname : prepared.path.fileName? = some name := by
    rw [(accepts_of_prepare hwrites hprepared).1]
    exact Options.fileName?_basePath hwrites.name bucket.key
  obtain rfl := Prepared.action_of_commit hcommit
  refine ⟨hname, ?_⟩
  suffices hcarried : ∃ later, run (prepared.commit job) bare = (.ok prepared.action, later) ∧
      job.Misses name (lost \ prepared.action.recorded) after later by
    obtain ⟨later, hlater, hstill⟩ := hcarried
    rw [← Prepared.commit_eq_of_alike halike] at hlater
    exact ⟨later, process_eq_ok_iff.mpr ⟨again, hagain, hlater⟩, hstill⟩
  cases hrows : prepared.survivors.isEmpty with
  | true =>
    rw [Prepared.run_commit_of_isEmpty hrows, Prod.mk.injEq] at hcommit
    refine ⟨bare, Prepared.run_commit_of_isEmpty hrows _, ?_⟩
    rw [Prepared.recorded_of_isEmpty hrows, Set.sdiff_empty, ← hcommit.2]
    exact hmisses
  | false =>
    obtain ⟨hapart, hbeside⟩ := hmisses.notMem_of_name hname
    obtain ⟨later, hlater, hlacks⟩ := Prepared.carries_commit hrows hapart.1 hapart.2.1 hapart.2.2
      full bare hmisses.lacks _ _ hcommit
    rw [Prepared.recorded_of_rows hrows]
    refine ⟨later, hlater, hlacks, fun location hlocation => hmisses.named location hlocation.1, ?_⟩
    rintro place content ⟨hlost, hother⟩ hget
    have hspared := Prepared.spares_commit hrows (hbeside place hother) full _ after hcommit content
    exact hmisses.recognised place content hlost (hspared.mp hget)

theorem processAll_of_misses {buckets : List Bucket} {report last : Report}
    (hnames : report.Names name) (hmisses : job.Misses name (lost \ report.recorded) full bare)
    (hrun : run (job.processAll report buckets) full = (.ok last, after)) :
    last.Names name ∧ ∃ later, run (job.processAll report buckets) bare = (.ok last, later) ∧
      job.Misses name (lost \ last.recorded) after later := by
  induction buckets generalizing report full bare with
  | nil =>
    obtain ⟨rfl, rfl⟩ := run_pure_eq_ok_iff.mp hrun
    exact ⟨hnames, bare, rfl, hmisses⟩
  | cons bucket rest ih =>
    obtain ⟨action, between, hprocess, hrest⟩ := processAll_cons_eq_ok_iff.mp hrun
    obtain ⟨hname, other, hother, hstill⟩ := process_of_misses hwrites hmisses hprocess
    rw [Set.sdiff_sdiff, ← Report.recorded_add] at hstill
    obtain ⟨hnamesLast, later, hlater, hlast⟩ := ih (hnames.add hname) hstill hrest
    exact ⟨hnamesLast, later, processAll_cons_eq_ok_iff.mpr ⟨action, other, hother, hlater⟩, hlast⟩

end Job

/-! ### Removing metadata -/

/-- The tree after a file has been removed, if there is one. -/
def FileTree.without (tree : FileTree) (path : Path) : FileTree :=
  match tree.removeFile path with
  | .ok left => left
  | .error _ => tree

/-- The world after the metadata files of some data files have been removed. -/
def World.withoutMetadata (world : World) (paths : List Path) : World :=
  { world with
    tree := paths.foldl (fun tree path => tree.without (Metadata.path path)) world.tree }

theorem World.withoutMetadata_cons (world : World) (path : Path) (rest : List Path) :
    world.withoutMetadata (path :: rest) =
      World.withoutMetadata ⟨world.tree.without (Metadata.path path), world.ledger⟩ rest := by
  rw [withoutMetadata, withoutMetadata, List.foldl_cons]

/-- What is missing after a removal was missing before or is the file that was removed. -/
theorem FileTree.Lacks.without {lost : Set Location} {full bare : FileTree}
    (hlacks : Lacks lost full bare) (path : Path) :
    ∃ more ⊆ lost ∪ {location | location = destination path ∧
        ∃ content, full.node? path = some (.file content)},
      Lacks more full (bare.without path) := by
  rw [FileTree.without]
  split
  · rename_i left hleft
    obtain ⟨there, content, hfind, rfl⟩ := removeFile_eq_ok_iff_find.mp hleft
    obtain ⟨hfull, hthere⟩ := hlacks.find_eq_ok_iff.mp hfind
    obtain ⟨rfl, hget⟩ := eq_of_find hfull
    refine ⟨_, fun location hlocation => ?_, hlacks.remove hget⟩
    rcases Set.mem_insert_iff.mp hlocation with hnew | hold
    · exact .inr ⟨hnew, content, by rw [node?, hfull]⟩
    · exact .inl hold
  · exact ⟨lost, Set.subset_union_left, hlacks⟩

theorem World.Lacks.withoutMetadata {lost : Set Location} {full bare : World}
    (hlacks : World.Lacks lost full bare) (paths : List Path) :
    ∃ more ⊆ lost ∪ {location | ∃ path ∈ paths, location = destination (Metadata.path path) ∧
        ∃ content, full.tree.node? (Metadata.path path) = some (.file content)},
      World.Lacks more full (bare.withoutMetadata paths) := by
  induction paths generalizing lost bare with
  | nil => exact ⟨lost, Set.subset_union_left, hlacks⟩
  | cons path rest ih =>
    obtain ⟨gone, hgone, htree⟩ := hlacks.tree.without (Metadata.path path)
    have hfirst : World.Lacks gone full ⟨bare.tree.without (Metadata.path path), bare.ledger⟩ := by
      refine ⟨hlacks.files, hlacks.bareFiles, ?_⟩
      dsimp only
      exact htree
    obtain ⟨more, hmore, hall⟩ := ih hfirst
    rw [World.withoutMetadata_cons]
    refine ⟨more, fun location hlocation => ?_, hall⟩
    rcases (Set.mem_union _ _ _).mp (hmore hlocation) with hmem | ⟨other, hother, hsame⟩
    · rcases (Set.mem_union _ _ _).mp (hgone hmem) with hold | hnew
      · exact .inl hold
      · exact .inr ⟨path, List.mem_cons_self, hnew⟩
    · exact .inr ⟨other, List.mem_cons_of_mem _ hother, hsame⟩

/-! ### Two appends -/

namespace Appender

variable {appender : Appender} {options : Options} {batch : Batch} {full bare after : World}
  {report : Report} {lost : Set Location}

theorem writesBases_of_validate (appender : Appender) {tree : FileTree}
    (hvalid : options.validate tree = .ok ())
    {format : Format} (hformat : options.effectiveFormat = .ok format) {name : String}
    (hname : options.target.fileName? = some name)
    (hunlimited : options.limits.isEnabled = false) :
    (appender.job options format .real).WritesBases name := by
  refine ⟨hname, rfl, hunlimited, fun dialect hmedium => ?_⟩
  cases format with
  | columnar => cases hmedium
  | delimited wanted =>
    obtain rfl := Medium.delimited.inj hmedium
    exact (validated_of_validate hvalid hformat).1

/-- An append needs none of the metadata that are missing. -/
theorem append_of_misses {format : Format} (hformat : options.effectiveFormat = .ok format)
    {name : String} (hname : options.target.fileName? = some name)
    (hunlimited : options.limits.isEnabled = false)
    (hmisses : (appender.job options format .real).Misses name lost full bare)
    (hrun : run (appender.append options batch) full = (.ok report, after)) :
    report.Names name ∧ ∃ later, run (appender.append options batch) bare = (.ok report, later) ∧
      (appender.job options format .real).Misses name (lost \ report.recorded) after later := by
  obtain ⟨found, hvalid, hfound, hcases⟩ := append_eq_ok_iff.mp hrun
  obtain rfl : format = found := Except.ok.inj (hformat.symm.trans hfound)
  have hvalidBare : options.validate bare.tree = .ok () := by
    rw [Options.validate, hmisses.lacks.tree.isDirectory_eq]
    exact hvalid
  have hnone : Report.empty.recorded = ∅ := by
    ext location
    simp [Report.recorded, Report.empty]
  have hnamesNone : Report.empty.Names name := fun path hpath => absurd hpath List.not_mem_nil
  rcases hcases with ⟨hempty, rfl, rfl⟩ | ⟨hrows, buckets, hbuckets, hprocess⟩
  · refine ⟨hnamesNone, bare, append_eq_ok_iff.mpr
      ⟨format, hvalidBare, hformat, .inl ⟨hempty, rfl, rfl⟩⟩, ?_⟩
    rw [hnone, Set.sdiff_empty]
    exact hmisses
  · have hwrites := writesBases_of_validate appender hvalid hformat hname hunlimited
    rw [← @Set.sdiff_empty _ lost, ← hnone] at hmisses
    obtain ⟨hnames, later, hlater, hstill⟩ :=
      Job.processAll_of_misses hwrites hnamesNone hmisses hprocess
    exact ⟨hnames, later, append_eq_ok_iff.mpr
      ⟨format, hvalidBare, hformat, .inr ⟨hrows, buckets, hbuckets, hlater⟩⟩, hstill⟩

/-- The metadata files that an append has written may be lost.  As long as the first lines of the
files do not suggest another delimiter, a second append reports the same and leaves the same data
files, and it records anew the metadata of all files to which it writes rows. -/
theorem append_of_lost_metadata {first second : Batch} {world between : World} {earlier : Report}
    (htree : world.tree.WellFormed) (hfiles : world.ledger = none)
    (hunlimited : options.limits.isEnabled = false)
    (hfirst : run (appender.append options first) world = (.ok earlier, between))
    (hplain : ∀ dialect, options.effectiveFormat = .ok (.delimited dialect) →
      ∀ path ∈ earlier.written, ∀ content,
        between.tree.get? (destination path) = some (.file content) →
          Delimited.Unsuspicious dialect content.toBytes)
    (hsecond : run (appender.append options second) between = (.ok report, after)) :
    ∃ later, run (appender.append options second) (between.withoutMetadata earlier.written) =
        (.ok report, later) ∧
      ∀ location ∉ earlier.recorded \ report.recorded,
        later.tree.get? location = after.tree.get? location := by
  obtain ⟨format, hvalid, hformat, -⟩ := append_eq_ok_iff.mp hfirst
  obtain ⟨name, hname⟩ := exists_fileName?_of_validate hvalid
  have hnothing : (appender.job options format .real).Misses name ∅ world world :=
    ⟨⟨hfiles, hfiles, .refl htree.distinct⟩, fun _ hnone => absurd hnone (Set.notMem_empty _),
      fun _ _ hnone => absurd hnone (Set.notMem_empty _)⟩
  obtain ⟨hnames, other, -, hbetween⟩ :=
    append_of_misses hformat hname hunlimited hnothing hfirst
  have hsame : World.Lacks ∅ between between :=
    ⟨hbetween.lacks.files, hbetween.lacks.files, .refl hbetween.lacks.tree.distinct⟩
  obtain ⟨lost, hlost, hlacks⟩ := hsame.withoutMetadata earlier.written
  have hwritten : ∀ location ∈ lost, ∃ path ∈ earlier.written, ∃ place,
      location = destination (Metadata.path path) ∧ destination path = place ++ [name] ∧
        location = place ++ [name ++ Metadata.ending] := by
    intro location hlocation
    rcases (Set.mem_union _ _ _).mp (hlost hlocation) with hnone | ⟨path, hpath, hsame, -⟩
    · exact absurd hnone (Set.notMem_empty _)
    · obtain ⟨place, hplace⟩ := FileTree.exists_destination (hnames path hpath).1
      have hmetadata := (@FileTree.destination_besides _ _ place (hnames path hpath).1 hplace
        Metadata.ending (by decide) (by decide)).1
      exact ⟨path, hpath, place, hsame, hplace, hsame.trans hmetadata⟩
  have hmisses : (appender.job options format .real).Misses name lost between
      (between.withoutMetadata earlier.written) := by
    refine ⟨hlacks, fun location hlocation => ?_, ?_⟩
    · obtain ⟨path, -, place, -, -, hplace⟩ := hwritten location hlocation
      exact ⟨place, hplace⟩
    · intro place content hlocation hget dialect hmedium
      obtain ⟨path, hpath, other, -, hdestination, hother⟩ := hwritten _ hlocation
      obtain rfl := List.append_inj_left' hother rfl
      rw [← hdestination] at hget
      cases format with
      | columnar => cases hmedium
      | delimited wanted =>
        obtain rfl := Medium.delimited.inj hmedium
        exact hplain _ hformat path hpath content hget
  obtain ⟨-, later, hlater, hstill⟩ := append_of_misses hformat hname hunlimited hmisses hsecond
  refine ⟨later, hlater, fun location hlocation => hstill.lacks.tree.kept location ?_⟩
  rintro ⟨hmem, hunrecorded⟩
  obtain ⟨path, hpath, -, hsame, -⟩ := hwritten location hmem
  exact hlocation ⟨hsame ▸ (hnames path hpath).2, hunrecorded⟩

theorem append_of_lost_metadata_of_two_rows :
    let appender : Appender := ⟨none, 200⟩
    let options := Options.ofTarget ⟨"p.csv"⟩
    let first : Batch := ⟨["id", "name"], [[.int 1, .text "a"]]⟩
    let second : Batch := ⟨["id", "name"], [[.int 2, .text "b"]]⟩
    ∃ earlier between report after later,
      run (appender.append options first) ⟨.empty, none⟩ = (.ok earlier, between) ∧
        run (appender.append options second) between = (.ok report, after) ∧
          run (appender.append options second) (between.withoutMetadata earlier.written) =
            (.ok report, later) ∧
          ∀ location ∉ earlier.recorded \ report.recorded,
            later.tree.get? location = after.tree.get? location := by
  intro appender options first second
  let between := (run (appender.append options first) ⟨.empty, none⟩).2
  let earlier : Report := ⟨[⟨"p.csv"⟩], [⟨⟨"p.csv"⟩, none, 1, 0, true, false, false⟩]⟩
  let report : Report := ⟨[⟨"p.csv"⟩], [⟨⟨"p.csv"⟩, none, 1, 0, false, false, false⟩]⟩
  have hfirst : run (appender.append options first) ⟨.empty, none⟩ = (.ok earlier, between) :=
    Prod.ext (by decide +kernel) rfl
  have hsecond : run (appender.append options second) between =
      (.ok report, (run (appender.append options second) between).2) :=
    Prod.ext (by decide +kernel) rfl
  have hplain : ∀ dialect, options.effectiveFormat = .ok (.delimited dialect) →
      ∀ path ∈ earlier.written, ∀ content,
        between.tree.get? (destination path) = some (.file content) →
          Delimited.Unsuspicious dialect content.toBytes := by
    intro dialect hformat path hpath content hcontent
    have hdialect : options.effectiveFormat = .ok (.delimited .commaSeparated) := by decide +kernel
    rw [hdialect, Except.ok.injEq, Format.delimited.injEq] at hformat
    obtain rfl := List.mem_singleton.mp hpath
    have hget : between.tree.get? (destination ⟨"p.csv"⟩) =
        some (.file (.bytes (Utf8.encode "id,name\n1,a\n"))) := by decide +kernel
    rw [hget, Option.some.injEq, Node.file.injEq] at hcontent
    rw [← hformat, ← hcontent]
    intro found hfound
    right
    decide +kernel
  obtain ⟨later, hlater, hsame⟩ := append_of_lost_metadata FileTree.wellFormed_empty rfl rfl hfirst
    hplain hsecond
  exact ⟨earlier, between, report, _, later, hfirst, hsecond, hlater, hsame⟩

/-- Without metadata the only column of a file is taken for two, and metadata stay lost where no row
is written. -/
theorem append_changed_by_lost_metadata :
    let appender : Appender := ⟨none, 200⟩
    let plain := Options.ofTarget ⟨"p.csv"⟩
    let joining := { plain with antiJoin := .onEveryColumn }
    let marked : Batch := ⟨["a;b"], [[.int 1]]⟩
    let stored : Batch := ⟨["id"], [[.int 1]]⟩
    (∃ earlier between report after failure,
      run (appender.append plain marked) ⟨.empty, none⟩ = (.ok earlier, between) ∧
        run (appender.append plain marked) between = (.ok report, after) ∧
          (run (appender.append plain marked) (between.withoutMetadata earlier.written)).1 =
            .error failure) ∧
    ∃ earlier between report after later,
      run (appender.append joining stored) ⟨.empty, none⟩ = (.ok earlier, between) ∧
        run (appender.append joining stored) between = (.ok report, after) ∧
          run (appender.append joining stored) (between.withoutMetadata earlier.written) =
            (.ok report, later) ∧
            after.tree.get? ["p.csv.meta"] ≠ none ∧ later.tree.get? ["p.csv.meta"] = none := by
  intro appender plain joining marked stored
  constructor
  · let between := (run (appender.append plain marked) ⟨.empty, none⟩).2
    refine ⟨⟨[⟨"p.csv"⟩], [⟨⟨"p.csv"⟩, none, 1, 0, true, false, false⟩]⟩, between,
      ⟨[⟨"p.csv"⟩], [⟨⟨"p.csv"⟩, none, 1, 0, false, false, false⟩]⟩,
      (run (appender.append plain marked) between).2,
      .atPartition [] "<none>" (.otherFormat ⟨"p.csv"⟩ (.otherDelimiter ';' ',')),
      Prod.ext ?_ rfl, Prod.ext ?_ rfl, ?_⟩
    all_goals decide +kernel
  · let between := (run (appender.append joining stored) ⟨.empty, none⟩).2
    let earlier : Report := ⟨[⟨"p.csv"⟩], [⟨⟨"p.csv"⟩, none, 1, 0, true, false, true⟩]⟩
    refine ⟨earlier, between, ⟨[], [⟨⟨"p.csv"⟩, none, 0, 1, false, false, true⟩]⟩,
      (run (appender.append joining stored) between).2,
      (run (appender.append joining stored) (between.withoutMetadata earlier.written)).2,
      Prod.ext ?_ rfl, Prod.ext ?_ rfl, Prod.ext ?_ rfl, ?_, ?_⟩
    all_goals decide +kernel

end Appender

end TableAppend
