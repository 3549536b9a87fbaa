import TableAppend.Proofs.Append.Buckets
import TableAppend.Proofs.Path.Destinations
import TableAppend.Proofs.World.Staying

/-!
# Files that writing a partition spares

Writing a partition changes four files that stand side by side in its directory.  Files in the
directories of other partitions are therefore found as they were, by whatever path.
-/

namespace TableAppend

open Change (run)
open FileTree (destination DirectoriesStay)

theorem Change.spares_makeDirectories (path : Path) (place : Location) :
    (makeDirectories path).Spares place := by
  intro world value after hrun content
  obtain ⟨tree, htree, rfl⟩ := run_makeDirectories_eq_ok_iff.mp hrun
  exact FileTree.file_makeEach_iff htree

theorem Change.keepsDirectories_makeDirectories (path : Path) :
    (makeDirectories path).KeepsDirectories := by
  intro world value after hrun
  obtain ⟨tree, htree, rfl⟩ := run_makeDirectories_eq_ok_iff.mp hrun
  exact FileTree.directoriesStay_makeEach htree

/-! ## What writing a partition changes -/

namespace Prepared

variable {prepared : Prepared} {job : Job}

/-- The places of the files that writing a partition changes: the data file and its metadata, and
their temporary forms. -/
def changes (prepared : Prepared) : List Location :=
  [destination prepared.path, destination (prepared.path.besides Metadata.temporaryEnding),
    destination (Metadata.path prepared.path),
    destination ((Metadata.path prepared.path).besides Metadata.temporaryEnding)]

/-- All these files lie side by side. -/
theorem exists_place {name : String} (hname : prepared.path.fileName? = some name) :
    ∃ place, prepared.changes = [place ++ [name], place ++ [name ++ Metadata.temporaryEnding],
        place ++ [name ++ Metadata.ending],
        place ++ [name ++ Metadata.ending ++ Metadata.temporaryEnding]] := by
  obtain ⟨place, hplace, hscratch, hmetadata, htemporary⟩ := FileTree.exists_destinations hname
  exact ⟨place, by rw [changes, hplace, hscratch, hmetadata, htemporary]⟩

theorem dropLast_of_mem_changes {name : String} (hname : prepared.path.fileName? = some name)
    {place : Location} (hplace : place ∈ prepared.changes) :
    place.dropLast = (destination prepared.path).dropLast := by
  obtain ⟨beside, hchanges⟩ := exists_place hname
  have hpath : destination prepared.path = beside ++ [name] := (List.cons.inj hchanges).1
  rw [hchanges] at hplace
  simp only [List.mem_cons, List.not_mem_nil, or_false] at hplace
  rw [hpath, List.dropLast_concat]
  rcases hplace with rfl | rfl | rfl | rfl <;> exact List.dropLast_concat

theorem spares_commit (hrows : prepared.survivors.isEmpty = false) {place : Location}
    (hplace : place ∉ prepared.changes) : (prepared.commit job).Spares place := by
  simp only [changes, List.mem_cons, List.not_mem_nil, or_false, not_or] at hplace
  obtain ⟨hpath, hscratch, hmetadata, htemporary⟩ := hplace
  rw [commit_of_rows hrows]
  exact (Change.spares_makeDirectories _ _).bind fun _ =>
    (job.medium.spares_write hpath hscratch _ _).bind fun metadata =>
      (World.spares_recordMetadata hmetadata htemporary metadata).bind fun _ => Change.spares_pure _

theorem keepsDirectories_commit (prepared : Prepared) (job : Job) :
    (prepared.commit job).KeepsDirectories := by
  cases hrows : prepared.survivors.isEmpty with
  | true =>
    intro world action after hrun
    rw [run_commit_of_isEmpty hrows, Prod.mk.injEq] at hrun
    rw [← hrun.2]
    exact .refl _
  | false =>
    rw [commit_of_rows hrows]
    exact (Change.keepsDirectories_makeDirectories _).bind fun _ =>
      (job.medium.keepsDirectories_write _ _ _).bind fun metadata =>
        (World.keepsDirectories_recordMetadata _ metadata).bind fun _ =>
          Change.keepsDirectories_pure _

/-- A file in another directory is found as it was. -/
theorem node?_of_commit {world after : World} {action : Action} {name : String}
    (hname : prepared.path.fileName? = some name)
    (hrun : run (prepared.commit job) world = (.ok action, after)) {path : Path}
    (hapart : (destination path).dropLast ≠ (destination prepared.path).dropLast)
    {content : Content} (hnode : world.tree.node? path = some (.file content)) :
    after.tree.node? path = some (.file content) := by
  refine (keepsDirectories_commit prepared job world action after hrun).node?_eq hnode ?_
  cases hrows : prepared.survivors.isEmpty with
  | true =>
    rw [run_commit_of_isEmpty hrows, Prod.mk.injEq] at hrun
    rw [← hrun.2]
    exact FileTree.get?_of_node? hnode
  | false =>
    have hplace : destination path ∉ prepared.changes := fun hmem =>
      hapart (dropLast_of_mem_changes hname hmem)
    exact (spares_commit hrows hplace world action after hrun content).mpr
      (FileTree.get?_of_node? hnode)

end Prepared

/-! ## Where a partition is written -/

namespace Job

variable {job : Job} {name : String} (hname : job.options.target.fileName? = some name)

include hname

/-- The file that receives the rows of a partition lies in its directory. -/
theorem destination_of_prepare {world : World} {bucket : Bucket} {prepared : Prepared}
    (hprepared : job.prepare world bucket = .ok prepared) :
    ∃ last, prepared.path.fileName? = some last ∧
      destination prepared.path = destination (job.options.directoryOf bucket.key) ++ [last] := by
  have hbase := Options.fileName?_basePath hname bucket.key
  rw [← Options.directory_basePath hname]
  obtain ⟨file, found, layout, checked, survivors, antiJoined, compared, hlocate, -, -, rfl⟩ :=
    prepare_eq_ok_iff.mp hprepared
  dsimp only
  rcases observe_of_locate hlocate with ⟨path, seen, hpath, hchosen⟩ | ⟨path, seen, -, hnext, hfresh⟩
  · rw [(observe_spec hchosen).1]
    rcases firstChoice_cases hpath with rfl | ⟨-, hactive⟩
    · exact ⟨name, hbase, Path.destination_directory hbase⟩
    · exact Family.destination_of_active hbase hactive
  · rw [(observe_spec hfresh).1]
    exact Family.destination_of_target hbase hnext

omit hname in
theorem destination_directoryOf (segment : Segment) :
    destination (job.options.directoryOf (some segment)) =
      destination job.options.baseDirectory ++ [segment.text] :=
  FileTree.destination_join _ segment.isName

omit hname in
/-- Two partitions of a batch are written in two directories. -/
theorem destination_directoryOf_ne {key other : PartitionKey} (hapart : Apart key other) :
    destination (job.options.directoryOf key) ≠ destination (job.options.directoryOf other) := by
  obtain ⟨segment, another, rfl, rfl, hne⟩ := hapart
  rw [destination_directoryOf, destination_directoryOf]
  intro hsame
  have htext := (List.append_inj' hsame rfl).2
  cases segment
  cases another
  exact hne (by simpa using htext)

end Job

end TableAppend
