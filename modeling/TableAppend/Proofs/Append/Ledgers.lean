import TableAppend.Proofs.Append.Agreeing
import TableAppend.Proofs.Family.Missing
import TableAppend.Proofs.World.Counterpart

/-!
# Appending with either place for metadata

An append that keeps metadata in a ledger decides and writes as one that keeps them in files, as long as
no family is searched for numbered members: such a member counts only if its metadata file is there.
`Job.Portable` says so for one partition, and nothing else about a decision depends on where metadata
stand.
-/

namespace TableAppend

open Change (run run_bind)
open FileTree (Skirts destination steps)
open TableAppend.Path (KeepApart recordPlaces)
open World (Counterpart SameAt)

variable {data : Set Path} {lost : Set Location} {ledger : Ledger} {files memory : World} {path : Path}

/-! ## Where a partition lies -/

namespace FileTree.Skirts

variable {places : Set Location}

/-- Whatever lies on the way to a path keeps away from what the path keeps away from. -/
theorem of_steps {other : Path} (hskirts : Skirts places path) (habove : steps other <+: steps path) :
    Skirts places other :=
  fun way hway => hskirts way (hway.trans habove)

theorem directory (hskirts : Skirts places path) {name : String} (hname : path.fileName? = some name) :
    Skirts places path.directory := by
  obtain ⟨parent, hparent⟩ := Path.exists_parent?_of_fileName? hname
  rcases Path.directory_cases hparent with ⟨-, heq⟩ | ⟨-, heq⟩ <;> rw [heq]
  · exact hskirts.parent hparent
  · have hroot : [] ∉ places := hskirts [] (List.nil_prefix)
    intro way hway
    have hsteps : steps ⟨"."⟩ = [.stay] := by decide
    rw [hsteps] at hway
    rcases List.prefix_cons_iff.mp hway with rfl | ⟨rest, rfl, hrest⟩
    · exact hroot
    · obtain rfl := List.prefix_nil.mp hrest
      exact hroot

/-- The directory of a partition lies on the way to its base file. -/
theorem partition {options : Options} {key : PartitionKey}
    (hname : options.target.fileName? = some name)
    (hskirts : Skirts places (options.basePath key)) :
    Skirts places (key.directory options.baseDirectory) := by
  cases key with
  | none => exact hskirts.directory hname
  | some segment =>
    refine hskirts.of_steps ?_
    rw [Options.basePath, hname, Option.getD_some, Path.steps_join _ (Path.isName_of_fileName? hname)]
    exact List.prefix_append _ _

end FileTree.Skirts

/-! ## What is decided about a partition -/

namespace Job

/-- Whether it matters which numbered members a family has. -/
def Searches (job : Job) : Prop :=
  job.options.limits.isEnabled = true ∨
    (job.options.antiJoin.enabled = true ∧ job.options.antiJoin.scope = .family)

/-- A partition about which the same is decided wherever metadata stand: its base file and the file that
a full one is followed by are data files whose metadata files can have their names, no metadata file
stands where a new member may come, and where numbered members matter there are none yet. -/
structure Portable (job : Job) (data : Set Path) (tree : FileTree) (base : Path) : Prop where
  mem : base ∈ data
  fits : base.RecordsFit
  alone : job.Searches → Family.siblings tree base = .ok []
  numbered : job.options.limits.isEnabled = true → ∀ parts,
    Family.NameParts.ofPath base = .ok parts → ∀ number,
      destination (base.withFileName (parts.numbered (number + 1))) ∉ recordPlaces data
  fresh : job.options.limits.isEnabled = true → ∀ path,
    Family.target tree base true = .ok path → path ∈ data ∧ path.RecordsFit

end Job

namespace World.Counterpart

variable (hworlds : Counterpart data lost ledger files memory) (hdata : KeepApart data)

include hworlds hdata

theorem destination_notMem (hpath : path ∈ data) : destination path ∉ lost :=
  fun hlost => (hdata.skirts path hpath).destination_notMem (hworlds.within hlost)

theorem sameAt (hpath : path ∈ data) (hfits : path.RecordsFit) : SameAt files memory path :=
  ⟨hworlds.lacks.node?_eq (hworlds.destination_notMem hdata hpath),
    hworlds.metadata_eq hpath hfits⟩

end World.Counterpart

namespace Job.Portable

variable {job : Job} {base : Path} (hportable : job.Portable data files.tree base)
  (hworlds : Counterpart data lost ledger files memory) (hdata : KeepApart data)

include hportable

/-- Rows go to one of the data files, and its metadata can be recorded. -/
theorem of_locate {file : Located} {remarks : Remarks}
    (hlocate : job.locate files base = .ok (file, remarks)) :
    file.path ∈ data ∧ file.path.RecordsFit := by
  rcases observe_of_locate hlocate with ⟨path, seen, hpath, hfound⟩ |
    ⟨path, seen, hlimits, hnext, hfresh⟩
  · have hbase : path = base := by
      rcases firstChoice_cases hpath with heq | ⟨hlimits, hactive⟩
      · exact heq
      · rw [Family.active_eq_of_alone (hportable.alone (.inl hlimits))] at hactive
        exact (Except.ok.inj hactive).symm
    rw [(observe_spec hfound).1, hbase]
    exact ⟨hportable.mem, hportable.fits⟩
  · rw [(observe_spec hfresh).1]
    exact hportable.fresh hlimits _ hnext

include hworlds hdata

theorem target_eq (hlimits : job.options.limits.isEnabled = true) :
    Family.target memory.tree base true = Family.target files.tree base true := by
  obtain ⟨name, hname⟩ := hdata.named base hportable.mem
  obtain ⟨parts, hparts, -⟩ := Family.exists_parts hname
  exact Family.target_eq_of_notMem hworlds.lacks hparts
    (hworlds.destination_notMem hdata hportable.mem)
    (fun number hlost => hportable.numbered hlimits parts hparts number (hworlds.within hlost)) true

theorem locate_eq : job.locate memory base = job.locate files base := by
  have hbase : job.observe memory base false = job.observe files base false :=
    observe_of_same (hworlds.sameAt hdata hportable.mem hportable.fits) false
  by_cases hlimits : job.options.limits.isEnabled = true
  · have halone := hportable.alone (.inl hlimits)
    rw [locate_of_alone halone,
      locate_of_alone (Family.siblings_eq_nil_of_lacks hworlds.lacks halone), hbase]
    refine congrArg (job.observe files base false >>= ·) (funext fun seen => ?_)
    rw [rollOver, rollOver, hportable.target_eq hworlds hdata hlimits]
    split
    · split
      · rfl
      · rfl
      · cases htarget : Family.target files.tree base true with
        | error failure => rfl
        | ok next =>
          obtain ⟨hmem, hfits⟩ := hportable.fresh hlimits next htarget
          rw [Outcome.ok_bind, Outcome.ok_bind,
            observe_of_same (hworlds.sameAt hdata hmem hfits)]
    · rfl
  · rw [Bool.not_eq_true] at hlimits
    rw [locate_of_unlimited hlimits, locate_of_unlimited hlimits, hbase]

theorem survivors_eq (candidates : Batch) :
    job.survivors memory base candidates = job.survivors files base candidates :=
  survivors_of_sameAt (hworlds.sameAt hdata hportable.mem hportable.fits)
    (fun henabled hscope => hportable.alone (.inr ⟨henabled, hscope⟩))
    (fun henabled hscope => Family.siblings_eq_nil_of_lacks hworlds.lacks
      (hportable.alone (.inr ⟨henabled, hscope⟩))) candidates

/-- The same is decided about a partition, also where the decision fails. -/
theorem prepare_eq {bucket : Bucket} (hbase : base = job.options.basePath bucket.key) :
    job.prepare memory bucket = job.prepare files bucket := by
  subst hbase
  refine prepare_of_located (hportable.locate_eq hworlds hdata) (fun file found hlocate => ?_)
    (hportable.survivors_eq hworlds hdata)
  obtain ⟨hmem, hfits⟩ := hportable.of_locate hlocate
  exact (hworlds.sameAt hdata hmem hfits).node?_eq

omit hworlds hdata in
theorem of_prepare {bucket : Bucket} (hbase : base = job.options.basePath bucket.key)
    {prepared : Prepared} (hprepared : job.prepare files bucket = .ok prepared) :
    prepared.key = bucket.key ∧ prepared.path ∈ data ∧ prepared.path.RecordsFit := by
  subst hbase
  obtain ⟨file, found, layout, checked, survivors, antiJoined, compared, hlocate, -, -, rfl⟩ :=
    prepare_eq_ok_iff.mp hprepared
  exact ⟨rfl, hportable.of_locate hlocate⟩

end Job.Portable

/-! ## Writing what has been prepared -/

section Writing

variable (hworlds : Counterpart data lost ledger files memory) (hdata : KeepApart data)
  {job : Job} {name : String} (hname : job.options.target.fileName? = some name)

include hworlds hdata hname

/-- Rows and metadata are written alike, and the worlds that are left are counterparts. -/
theorem Prepared.commit_of_counterpart {prepared : Prepared}
    (hbase : job.options.basePath prepared.key ∈ data) (hpath : prepared.path ∈ data)
    (hfits : prepared.path.RecordsFit) :
    (run (prepared.commit job) memory).1 = (run (prepared.commit job) files).1 ∧
      ∃ lost ledger, Counterpart data lost ledger (run (prepared.commit job) files).2
        (run (prepared.commit job) memory).2 := by
  cases hrows : prepared.survivors.isEmpty with
  | true =>
    rw [run_commit_of_isEmpty hrows, run_commit_of_isEmpty hrows]
    exact ⟨rfl, lost, ledger, hworlds⟩
  | false =>
    have hskirts := (hdata.skirts _ hbase).partition hname
    have hwriting := (Change.concurs_makeDirectories hworlds.within hskirts).bind fun _ =>
      Medium.concurs_write hworlds.within (hdata.skirts _ hpath) job.medium
        (hdata.skirts_temporary hpath) prepared.survivors prepared.layout
    have hboth := hworlds.write_and_record hpath hdata hfits hwriting prepared.action
    simpa [commit, hrows, Change.Agrees] using hboth

theorem Job.process_of_counterpart {bucket : Bucket}
    (hportable : job.Portable data files.tree (job.options.basePath bucket.key)) :
    (run (job.process bucket) memory).1 = (run (job.process bucket) files).1 ∧
      ∃ lost ledger, Counterpart data lost ledger (run (job.process bucket) files).2
        (run (job.process bucket) memory).2 := by
  rw [process, run_bind, run_bind, Change.run_inspect, Change.run_inspect,
    hportable.prepare_eq hworlds hdata rfl]
  cases hprepared : job.prepare files bucket with
  | error failure => exact ⟨rfl, lost, ledger, hworlds⟩
  | ok prepared =>
    obtain ⟨hkey, hpath, hfits⟩ := hportable.of_prepare rfl hprepared
    exact prepared.commit_of_counterpart hworlds hdata hname (hkey ▸ hportable.mem) hpath hfits

end Writing

/-! ## Partitions in a row -/

/-- Each partition is portable when it is its turn, as long as the ones before it succeed. -/
def Job.PortableAll (job : Job) (data : Set Path) : World → List Bucket → Prop
  | _, [] => True
  | world, bucket :: rest =>
    job.Portable data world.tree (job.options.basePath bucket.key) ∧
      ∀ action after, run (job.process bucket) world = (.ok action, after) →
        job.PortableAll data after rest

theorem Job.processAll_of_counterpart (hdata : KeepApart data) {job : Job} {name : String}
    (hname : job.options.target.fileName? = some name) {buckets : List Bucket} {report : Report}
    (hworlds : Counterpart data lost ledger files memory)
    (hportable : job.PortableAll data files buckets) :
    (run (job.processAll report buckets) memory).1 = (run (job.processAll report buckets) files).1 ∧
      ∃ lost ledger, Counterpart data lost ledger (run (job.processAll report buckets) files).2
        (run (job.processAll report buckets) memory).2 := by
  refine @processAll_of_agrees job files memory
    (fun buckets files memory => (∃ lost ledger, Counterpart data lost ledger files memory) ∧
      job.PortableAll data files buckets)
    (fun files memory => ∃ lost ledger, Counterpart data lost ledger files memory)
    (fun _ _ hlast => hlast.1) (fun bucket rest first second hbefore => ?_) buckets report
    ⟨⟨lost, ledger, hworlds⟩, hportable⟩
  obtain ⟨⟨lost, ledger, hfirst⟩, hbucket, hrest⟩ := hbefore
  obtain ⟨hsame, hleft⟩ := process_of_counterpart hfirst hdata hname hbucket
  exact ⟨hsame, hleft, fun action haction => ⟨hleft, hrest action _ (Prod.ext haction rfl)⟩⟩

end TableAppend
