import TableAppend.Proofs.FileTree.Writable
import TableAppend.Proofs.World.Sparing

/-!
# Changes under which directories stay

Files come and go where something is written, and directories only come.  What a path led to before is
therefore found again if its file has been spared.
-/

namespace TableAppend

open FileTree (DirectoriesStay destination)

/-! ## Trees -/

namespace FileTree

variable {tree after : FileTree}

theorem DirectoriesStay.refl (tree : FileTree) : DirectoriesStay tree tree :=
  fun _ => id

theorem directoriesStay_write {path : Path} {content : Content}
    (hwrite : tree.write path content = .ok after) : DirectoriesStay tree after := by
  obtain ⟨hwritable, rfl⟩ := write_eq_ok_iff_writable.mp hwrite
  exact (sameDirectories_set hwritable.destination_ne hwritable.notDirectory content).stay

/-- A file is not at the working directory, so another one can be put there. -/
theorem sameDirectories_set_of_file {place : Location} {old : Content}
    (hold : tree.get? place = some (.file old)) (content : Content) :
    SameDirectories tree (tree.set place (.file content)) := by
  refine sameDirectories_set ?_ ?_ content
  · rintro rfl
    simp at hold
  · rw [Bool.eq_false_iff, ne_eq, isDirectoryAt_iff, hold]
    simp

theorem directoriesStay_append {path : Path} {bytes : Bytes}
    (happend : tree.append path bytes = .ok after) : DirectoriesStay tree after := by
  obtain ⟨there, content, hfind, rfl⟩ := append_eq_ok_iff_find.mp happend
  exact (sameDirectories_set_of_file (eq_of_find hfind).2 _).stay

/-- What is moved takes the place of no directory. -/
theorem directoriesStay_rename_of_file {source path : Path} {content : Content}
    (hnode : tree.node? source = some (.file content))
    (hrename : tree.rename source path = .ok after) : DirectoriesStay tree after := by
  obtain ⟨start, origin, node, there, hstart, hfind, hplace, -, hnot, rfl⟩ :=
    rename_eq_ok_iff_place.mp hrename
  have hnode' : node = .file content := by
    rw [node?, hfind] at hnode
    exact Option.some.inj hnode
  subst hnode'
  obtain ⟨rfl, hget⟩ := eq_of_find hfind
  split
  · exact .refl tree
  · have hne : there ≠ [] := (eq_of_place hplace).2
    have hfile : tree.isDirectoryAt (destination source) = false := by
      rw [Bool.eq_false_iff, ne_eq, isDirectoryAt_iff, hget]
      simp
    have herase := sameDirectories_eraseNode hfile
    exact (herase.trans (sameDirectories_set hne ((herase there).trans hnot) content)).stay

end FileTree

/-! ## Worlds -/

namespace Change

variable {α β : Type} {path : Path}

/-- A change that succeeds removes no directory. -/
def KeepsDirectories (change : Change α) : Prop :=
  ∀ world value after, run change world = (.ok value, after) →
    DirectoriesStay world.tree after.tree

theorem KeepsDirectories.bind {change : Change α} {next : α → Change β}
    (hchange : change.KeepsDirectories) (hnext : ∀ value, (next value).KeepsDirectories) :
    (change >>= next).KeepsDirectories := by
  intro world value after hrun
  obtain ⟨found, between, hfirst, hrest⟩ := run_bind_eq_ok_iff.mp hrun
  exact (hchange world found between hfirst).trans (hnext found between value after hrest)

theorem keepsDirectories_pure (value : α) : (pure value : Change α).KeepsDirectories := by
  intro world found after hrun
  rw [(run_pure_eq_ok_iff.mp hrun).2]
  exact .refl _

theorem keepsDirectories_ofOutcome (outcome : Outcome α) :
    (ofOutcome outcome).KeepsDirectories := by
  intro world value after hrun
  rw [(run_ofOutcome_eq_ok_iff.mp hrun).2]
  exact .refl _

theorem keepsDirectories_onTree {change : FileTree → Except IoFault FileTree}
    (hchange : ∀ tree after, change tree = .ok after → DirectoriesStay tree after) :
    (onTree change).KeepsDirectories := by
  intro world value after hrun
  obtain ⟨tree, htree, rfl⟩ := run_onTree_eq_ok_iff.mp hrun
  exact hchange _ _ htree

theorem keepsDirectories_replace (path : Path) (content : Content) :
    (replace path content).KeepsDirectories := by
  intro world value after hrun
  obtain ⟨⟨⟩, between, hwrite, hrename⟩ := run_bind_eq_ok_iff.mp hrun
  obtain ⟨tree, htree, rfl⟩ := run_onTree_eq_ok_iff.mp hwrite
  obtain ⟨moved, hmoved, rfl⟩ := run_onTree_eq_ok_iff.mp hrename
  have hwritable := (FileTree.write_eq_ok_iff_writable.mp htree).1
  have hnode := hwritable.node?_set content
  rw [← (FileTree.write_eq_ok_iff_writable.mp htree).2] at hnode
  exact (FileTree.directoriesStay_write htree).trans
    (FileTree.directoriesStay_rename_of_file hnode hmoved)

end Change

open Change

variable {path : Path}

theorem Delimited.keepsDirectories_write (dialect : Dialect) (path : Path) (rows : Batch)
    (layout : Layout) : (write dialect path rows layout).KeepsDirectories := by
  rw [write]
  cases layout.columns with
  | none =>
    exact (keepsDirectories_onTree fun _ _ => FileTree.directoriesStay_write).bind fun _ =>
      keepsDirectories_pure _
  | some header =>
    refine (keepsDirectories_onTree fun tree after happend => ?_).bind fun _ =>
      (keepsDirectories_ofOutcome _).bind fun ordered =>
        (keepsDirectories_onTree fun _ _ => FileTree.directoriesStay_append).bind fun _ =>
          keepsDirectories_pure _
    obtain ⟨bytes, -, happend⟩ := FileTree.exists_of_bind_eq_ok happend
    exact FileTree.directoriesStay_append happend

theorem Columnar.keepsDirectories_write (codec : Option Codec) (path : Path) (rows : Batch)
    (layout : Layout) : (write codec path rows layout).KeepsDirectories := by
  intro world value after hrun
  obtain ⟨present, all, schema, content, -, -, -, -, -, hreplace⟩ := write_eq_ok_iff_moves.mp hrun
  exact keepsDirectories_replace path content world () after hreplace

theorem Medium.keepsDirectories_write (medium : Medium) (path : Path) (rows : Batch)
    (layout : Layout) : (medium.write path rows layout).KeepsDirectories := by
  cases medium with
  | delimited dialect => exact Delimited.keepsDirectories_write dialect path rows layout
  | columnar codec => exact Columnar.keepsDirectories_write codec path rows layout

theorem World.keepsDirectories_recordMetadata (path : Path) (metadata : Metadata) :
    (recordMetadata path metadata).KeepsDirectories := by
  intro world value after hrun
  cases hledger : world.ledger with
  | none =>
    rw [recordMetadata_of_files hledger] at hrun
    exact keepsDirectories_replace _ _ world value after hrun
  | some ledger =>
    rw [recordMetadata_of_ledger hledger, Prod.mk.injEq] at hrun
    rw [← hrun.2]
    exact .refl _

end TableAppend
