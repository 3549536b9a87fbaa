import TableAppend.Proofs.Append.Frame
import TableAppend.Proofs.Append.Growth

/-!
# Files that have reached a limit

Whether a file is full is asked before anything is written, and each partition is written as if the
others had not been.  So an append writes to files that were below all limits at the start, or that
were not there, whatever else lies in the directories of the families.
-/

namespace TableAppend

open Change (run)
open TableAppend.Path (LiesIn)

/-- A file that is below each limit, its rows being known where they are limited. -/
structure Job.HasRoom (job : Job) (world : World) (path : Path) : Prop where
  isFile : world.tree.isFile path = true
  bytes : ∀ limit, job.options.limits.maxBytes = some limit → ∃ content,
    world.tree.node? path = some (.file content) ∧ content.toBytes.length < limit.toNat
  rows : ∀ limit, job.options.limits.maxRows = some limit → ∃ metadata rows,
    world.metadata path = .ok metadata ∧
      job.medium.countRows world.tree path metadata = .ok rows ∧ rows < limit.toNat

/-! ## The file that is located -/

namespace Job

variable {job : Job} {world : World} (hmode : job.mode = .real)

include hmode

/-- What is not full has room, if its rows can be counted. -/
theorem hasRoom_of_stateOf {path : Path} {content : Content} {metadata : Option Metadata}
    {state : FileState} {remarks : Remarks}
    (hnode : world.tree.node? path = some (.file content))
    (hmetadata : world.metadata path = .ok metadata)
    (hstate : job.stateOf world path metadata = .ok (state, remarks))
    (hroom : ¬ job.IsFull world path) : job.HasRoom world path := by
  refine ⟨FileTree.isFile_iff.mpr ⟨content, hnode⟩, ?_, ?_⟩
  · intro limit hlimit
    refine ⟨content, hnode, Nat.lt_of_not_le fun hle => hroom ?_⟩
    exact .inl ⟨limit, content, hlimit, hnode, hle⟩
  · intro limit hlimit
    obtain ⟨rows, notes, hcounted, -⟩ := countRows_of_stateOf hstate hnode
    obtain ⟨count, -, hcount⟩ := exists_rows_of_countRows hmode hlimit hcounted
    refine ⟨metadata, count, hmetadata, hcount, Nat.lt_of_not_le fun hle => hroom ?_⟩
    exact .inr ⟨limit, metadata, count, hlimit, hmetadata, hcount, hle⟩

/-- A file that is located where there is one has not been rolled over to and has room. -/
theorem hasRoom_of_locate {base : Path} {file : Located} {remarks : Remarks}
    (hlocate : job.locate world base = .ok (file, remarks)) {content : Content}
    (hnode : world.tree.node? file.path = some (.file content)) :
    job.HasRoom world file.path ∧ file.rolledOver = false := by
  obtain ⟨hmetadata, seen, hstate⟩ := exists_stateOf_of_locate hlocate
  obtain ⟨path, -, ⟨hnone, rfl, -⟩ |
    ⟨-, -, ⟨hroom, rfl, hkept, -⟩ | ⟨-, next, told, hnext, hfresh⟩⟩⟩ := locate_cases hmode hlocate
  · exact absurd hnode (hnone content)
  · exact ⟨hasRoom_of_stateOf hmode hnode hmetadata hstate hroom, hkept⟩
  · have hfree := Family.isFile_of_target hnext
    rw [← (observe_spec hfresh).1, FileTree.isFile, hnode] at hfree
    cases hfree

theorem hasRoom_of_prepare {bucket : Bucket} {prepared : Prepared}
    (hprepared : job.prepare world bucket = .ok prepared) {content : Content}
    (hnode : world.tree.node? prepared.path = some (.file content)) :
    job.HasRoom world prepared.path ∧ prepared.rolledOver = false := by
  obtain ⟨file, found, layout, checked, survivors, antiJoined, compared, hlocate, -, -, rfl⟩ :=
    prepare_eq_ok_iff.mp hprepared
  exact hasRoom_of_locate hmode hlocate hnode

end Job

/-! ## The files that are written -/

/-- Where rows are written and no file is found, there is nothing. -/
theorem Prepared.get?_eq_none_of_commit {prepared : Prepared} {job : Job} {name : String}
    (hname : job.options.target.fileName? = some name) (htarget : job.options.target.Descends)
    {world after : World} (hworld : world.tree.WellFormed)
    (hpath : prepared.path.LiesIn (job.options.place prepared.key))
    (hrows : prepared.survivors.isEmpty = false) {action : Action}
    (hrun : run (prepared.commit job) world = (.ok action, after))
    (hnone : ∀ content, world.tree.node? prepared.path ≠ some (.file content)) :
    world.tree.get? prepared.path.location = none := by
  obtain ⟨tree, data, stored, metadata, hplaced, -⟩ :=
    exists_placed_of_commit hname htarget hworld hpath hrows hrun
  have hdirectory := hplaced.admits.notDirectory
  rw [hplaced.made.get?_in hpath] at hdirectory
  cases hget : world.tree.get? prepared.path.location with
  | none => rfl
  | some node =>
    cases node with
    | directory => exact absurd hget hdirectory
    | file content =>
      exact absurd ((FileTree.node?_eq_file_iff hworld hpath.1).mpr ⟨hplaced.reachable, hget⟩)
        (hnone content)

namespace Appender

variable {appender : Appender} {options : Options} {batch : Batch} {world after : World}
  {report : Report} {format : Format} {buckets : List Bucket}
  (hdivides : appender.Divides options batch world report after format buckets)
  (hworld : world.tree.WellFormed) (htarget : options.target.Descends)

include hdivides hworld htarget

namespace Divides

theorem hasRoom_of_written {path : Path} (hpath : path ∈ report.written) :
    world.tree.get? path.location = none ∨
      (appender.job options format .real).HasRoom world path := by
  obtain ⟨name, hname⟩ := hdivides.exists_fileName?
  have hdown : (appender.job options format .real).options.target.Descends := htarget
  obtain ⟨bucket, hbucket, prepared, left, halone, hrows, rfl⟩ :=
    hdivides.exists_alone_of_written hpath
  by_cases hfile : ∃ content, world.tree.node? prepared.path = some (.file content)
  · obtain ⟨content, hnode⟩ := hfile
    exact .inr (Job.hasRoom_of_prepare rfl halone.prepare hnode).1
  · exact .inl (Prepared.get?_eq_none_of_commit hname hdown hworld halone.liesIn hrows halone.commit
      (not_exists.mp hfile))

omit hworld htarget in
theorem isFile_of_rolledOver {action : Action} (haction : action ∈ report.actions)
    (hrolled : action.rolledOver = true) : world.tree.isFile action.path = false := by
  obtain ⟨bucket, hbucket, prepared, left, halone, rfl⟩ := hdivides.exists_alone haction
  rw [← Bool.not_eq_true, FileTree.isFile_iff]
  rintro ⟨content, hnode⟩
  have hfirst := (Job.hasRoom_of_prepare rfl halone.prepare hnode).2
  rw [Prepared.action, hfirst] at hrolled
  cases hrolled

end Divides

omit hdivides hworld htarget

/-- An append writes to files that were below all limits, or that were not there.  It changes no other
files than those, their metadata and temporary files, and where it rolls over to there was no file. -/
theorem append_writes_where_room (appender : Appender) (options : Options) (batch : Batch)
    (world : World) (hworld : world.tree.WellFormed) (htarget : options.target.Descends)
    (format : Format) (hformat : options.effectiveFormat = .ok format) (report : Report)
    (after : World)
    (hrun : run (appender.append options batch) world = (.ok report, after)) :
    (∀ path ∈ report.written, world.tree.get? path.location = none ∨
      (appender.job options format .real).HasRoom world path) ∧
    (∀ place content, world.tree.get? place = some (.file content) →
      after.tree.get? place ≠ some (.file content) →
        (∃ path ∈ report.written, place ∈ path.auxiliaries) ∨
          ∃ path ∈ report.written, place = path.location ∧
            (appender.job options format .real).HasRoom world path) ∧
    (∀ action ∈ report.actions, action.rolledOver = true →
      world.tree.isFile action.path = false) := by
  rcases divides_of_append hworld htarget hrun with ⟨-, rfl, rfl⟩ | ⟨other, buckets, hdivides⟩
  · refine ⟨fun path hpath => absurd hpath List.not_mem_nil,
      fun place content hbefore hafter => absurd hbefore hafter,
      fun action haction => absurd haction List.not_mem_nil⟩
  · obtain rfl : other = format := Except.ok.inj (hdivides.reaches.format.symm.trans hformat)
    refine ⟨fun path hpath => hdivides.hasRoom_of_written hworld htarget hpath, ?_,
      fun action haction => hdivides.isFile_of_rolledOver haction⟩
    intro place content hbefore hafter
    by_cases hplaces : ∃ path ∈ report.written, place ∈ path.places
    · obtain ⟨path, hpath, hplace⟩ := hplaces
      rcases List.mem_cons.mp hplace with rfl | hauxiliary
      · rcases hdivides.hasRoom_of_written hworld htarget hpath with hnone | hroom
        · rw [hbefore] at hnone
          cases hnone
        · exact .inr ⟨path, hpath, rfl, hroom⟩
      · exact .inl ⟨path, hpath, hauxiliary⟩
    · have hnot : ∀ path ∈ report.written, place ∉ path.places := fun path hpath hplace =>
        hplaces ⟨path, hpath, hplace⟩
      rcases hdivides.get?_eq_of_notMem hworld htarget hnot with hsame | ⟨hnone, -⟩
      · exact absurd (hsame.trans hbefore) hafter
      · rw [hbefore] at hnone
        cases hnone

/-- A base file that has as many rows as it may have, so that a further row goes to a new file. -/
theorem append_writes_where_room_after_full_file :
    let appender : Appender := ⟨none, 200⟩
    let options : Options := { Options.ofTarget ⟨"p.csv"⟩ with limits := ⟨some 1, some 100⟩ }
    let batch : Batch := ⟨["id"], [[.int 2]]⟩
    let world : World :=
      ⟨FileTree.empty.set ["p.csv"] (.file (.bytes (Utf8.encode "id\n1\n"))), none⟩
    let format : Format := .delimited .commaSeparated
    world.tree.WellFormed ∧ options.target.Descends ∧ options.effectiveFormat = .ok format ∧
      ∃ report after, run (appender.append options batch) world = (.ok report, after) ∧
      (∀ path ∈ report.written, world.tree.get? path.location = none ∨
        (appender.job options format .real).HasRoom world path) ∧
      (∀ place content, world.tree.get? place = some (.file content) →
        after.tree.get? place ≠ some (.file content) →
          (∃ path ∈ report.written, place ∈ path.auxiliaries) ∨
            ∃ path ∈ report.written, place = path.location ∧
              (appender.job options format .real).HasRoom world path) ∧
      (∀ action ∈ report.actions, action.rolledOver = true →
        world.tree.isFile action.path = false) := by
  intro appender options batch world format
  have hworld : world.tree.WellFormed :=
    @FileTree.WellFormed.set _ FileTree.wellFormed_empty ["p.csv"] _ (by decide) (by decide)
      (by decide)
  have hformat : options.effectiveFormat = .ok format := by decide +kernel
  have hsucceeds : (run (appender.append options batch) world).1.toOption.isSome = true := by
    decide +kernel
  rcases hrun : run (appender.append options batch) world with ⟨failure | report, after⟩
  · rw [hrun] at hsucceeds
    cases hsucceeds
  · exact ⟨hworld, by decide, hformat, report, after, rfl,
      append_writes_where_room appender options batch world hworld (by decide) format hformat report
        after hrun⟩

end Appender

end TableAppend
