import TableAppend.Proofs.FileTree.Missing
import TableAppend.Proofs.World.Transfer

/-!
# Files that a change spares

Writing a data file and recording its metadata changes no file but these two and their temporary
forms.  In contrast to `KeptBut` this holds for paths with upward steps as well.
-/

namespace TableAppend

open FileTree (destination)

namespace FileTree

variable {tree after : FileTree} {place : Location}

theorem get?_write {path : Path} {content : Content} (hne : place ≠ destination path)
    (hwrite : tree.write path content = .ok after) : after.get? place = tree.get? place := by
  obtain ⟨there, hthere, -, rfl⟩ := write_eq_ok_iff_place.mp hwrite
  exact get?_set_other _ _ _ _ ((eq_of_place hthere).1 ▸ hne)

theorem get?_append {path : Path} {bytes : Bytes} (hne : place ≠ destination path)
    (happend : tree.append path bytes = .ok after) : after.get? place = tree.get? place := by
  obtain ⟨there, old, hthere, rfl⟩ := append_eq_ok_iff_find.mp happend
  exact get?_set_other _ _ _ _ ((eq_of_find hthere).1 ▸ hne)

theorem get?_rename {source path : Path} (hsource : place ≠ destination source)
    (hne : place ≠ destination path) (hrename : tree.rename source path = .ok after) :
    after.get? place = tree.get? place := by
  obtain ⟨start, origin, node, there, -, horigin, hthere, -, -, rfl⟩ :=
    rename_eq_ok_iff_place.mp hrename
  split
  · rfl
  · rw [get?_set_other _ _ _ _ ((eq_of_place hthere).1 ▸ hne)]
    by_cases hroot : place = []
    · rw [hroot, get?_nil, get?_nil]
    · rw [get?_eraseNode _ _ _ hroot, if_neg ((eq_of_find horigin).1 ▸ hsource)]

/-- A file, its metadata file and the temporary forms of both stand side by side. -/
theorem exists_destinations {path : Path} {name : String} (hname : path.fileName? = some name) :
    ∃ beside, destination path = beside ++ [name] ∧
      destination (path.besides Metadata.temporaryEnding) =
        beside ++ [name ++ Metadata.temporaryEnding] ∧
      destination (Metadata.path path) = beside ++ [name ++ Metadata.ending] ∧
      destination ((Metadata.path path).besides Metadata.temporaryEnding) =
        beside ++ [name ++ Metadata.ending ++ Metadata.temporaryEnding] := by
  obtain ⟨beside, hbeside⟩ := exists_destination hname
  have hscratch := @destination_besides _ _ beside hname hbeside Metadata.temporaryEnding
    (by decide) (by decide)
  have hmetadata := @destination_besides _ _ beside hname hbeside Metadata.ending
    (by decide) (by decide)
  have htemporary := @destination_besides _ _ beside hmetadata.2 hmetadata.1
    Metadata.temporaryEnding (by decide) (by decide)
  exact ⟨beside, hbeside, hscratch.1, hmetadata.1, htemporary.1⟩

variable {content : Content}

/-- A directory is made where there was nothing. -/
theorem file_makeDirectory_iff {path : Path} (hmade : tree.makeDirectory path = .ok after) :
    after.get? place = some (.file content) ↔ tree.get? place = some (.file content) := by
  obtain ⟨there, hthere, hnone, rfl⟩ := makeDirectory_eq_ok_iff_place.mp hmade
  rw [get?_set _ _ _ _ (eq_of_place hthere).2]
  split
  · rename_i hsame
    simp [hsame, hnone]
  · rfl

theorem file_makeEach_iff {paths : List Path} {result : Except IoFault Unit}
    (hmade : tree.makeEach paths = (result, after)) :
    after.get? place = some (.file content) ↔ tree.get? place = some (.file content) := by
  obtain rfl : (tree.makeEach paths).2 = after := congrArg Prod.snd hmade
  exact @makeEach_preserves tree (fun after => after.get? place = some (.file content) ↔
    tree.get? place = some (.file content)) paths Iff.rfl
    fun _ _ _ _ hbefore hstep => (file_makeDirectory_iff hstep).trans hbefore

end FileTree

/-! ## Changes of worlds -/

namespace Change

variable {α β : Type} {place : Location}

/-- A change that succeeds leaves the file at a place as it is and puts none there. -/
def Spares (change : Change α) (place : Location) : Prop :=
  ∀ world value after, run change world = (.ok value, after) → ∀ content,
    after.tree.get? place = some (.file content) ↔ world.tree.get? place = some (.file content)

theorem Spares.bind {change : Change α} {next : α → Change β} (hchange : change.Spares place)
    (hnext : ∀ value, (next value).Spares place) : (change >>= next).Spares place := by
  intro world value after hrun content
  obtain ⟨found, between, hfirst, hrest⟩ := run_bind_eq_ok_iff.mp hrun
  exact (hnext found between value after hrest content).trans
    (hchange world found between hfirst content)

theorem spares_pure (value : α) : (pure value : Change α).Spares place := by
  intro world found after hrun content
  rw [(run_pure_eq_ok_iff.mp hrun).2]

theorem spares_ofOutcome (outcome : Outcome α) : (ofOutcome outcome).Spares place := by
  intro world value after hrun content
  rw [(run_ofOutcome_eq_ok_iff.mp hrun).2]

theorem spares_inspect (question : World → Outcome α) : (inspect question).Spares place := by
  intro world value after hrun content
  rw [(run_inspect_eq_ok_iff.mp hrun).2]

theorem spares_onTree {change : FileTree → Except IoFault FileTree}
    (hchange : ∀ tree after, change tree = .ok after → after.get? place = tree.get? place) :
    (onTree change).Spares place := by
  intro world value after hrun content
  obtain ⟨tree, htree, rfl⟩ := run_onTree_eq_ok_iff.mp hrun
  rw [hchange _ _ htree]

variable {path : Path}

theorem spares_write (hne : place ≠ destination path) (content : Content) :
    (onTree fun tree => tree.write path content).Spares place :=
  spares_onTree fun _ _ => FileTree.get?_write hne

theorem spares_rename {source : Path} (hsource : place ≠ destination source)
    (hne : place ≠ destination path) :
    (onTree fun tree => tree.rename source path).Spares place :=
  spares_onTree fun _ _ => FileTree.get?_rename hsource hne

theorem spares_replace (htemporary : place ≠ destination (path.besides Metadata.temporaryEnding))
    (hne : place ≠ destination path) (content : Content) : (replace path content).Spares place :=
  (spares_write htemporary content).bind fun _ => spares_rename htemporary hne

end Change

open Change (Spares run spares_pure spares_ofOutcome spares_inspect spares_onTree)

section Writing

variable {place : Location} {path : Path} (hne : place ≠ destination path)

include hne

theorem Delimited.spares_write (dialect : Dialect) (rows : Batch) (layout : Layout) :
    (write dialect path rows layout).Spares place := by
  rw [write]
  cases layout.columns with
  | none => exact (Change.spares_write hne _).bind fun _ => spares_pure _
  | some header =>
    refine (spares_onTree fun tree after happend => ?_).bind fun _ =>
      (spares_ofOutcome _).bind fun ordered =>
        (spares_onTree fun tree after => FileTree.get?_append hne).bind fun _ => spares_pure _
    obtain ⟨bytes, -, happend⟩ := FileTree.exists_of_bind_eq_ok happend
    exact FileTree.get?_append hne happend

variable (htemporary : place ≠ destination (path.besides Metadata.temporaryEnding))

include htemporary

theorem Columnar.spares_write (codec : Option Codec) (rows : Batch) (layout : Layout) :
    (write codec path rows layout).Spares place := by
  refine (spares_ofOutcome _).bind fun present => (spares_inspect _).bind fun all =>
    (spares_inspect _).bind fun schema => Spares.bind ?_ fun _ =>
      (Change.spares_rename htemporary hne).bind fun _ => spares_pure _
  intro world value after hrun
  obtain ⟨saved, -, hwrite⟩ := save_eq_ok_iff.mp (save_or_discard_eq_ok_iff.mp hrun)
  exact Change.spares_write htemporary saved world () after hwrite

theorem Medium.spares_write (medium : Medium) (rows : Batch) (layout : Layout) :
    (medium.write path rows layout).Spares place := by
  cases medium with
  | delimited dialect => exact Delimited.spares_write hne dialect rows layout
  | columnar codec => exact Columnar.spares_write hne htemporary codec rows layout

omit hne htemporary in
theorem World.spares_recordMetadata (hne : place ≠ destination (Metadata.path path))
    (htemporary : place ≠ destination ((Metadata.path path).besides Metadata.temporaryEnding))
    (metadata : Metadata) : (recordMetadata path metadata).Spares place := by
  intro world value after hrun content
  cases hledger : world.ledger with
  | none =>
    rw [recordMetadata_of_files hledger] at hrun
    exact Change.spares_replace htemporary hne _ world value after hrun content
  | some ledger =>
    rw [recordMetadata_of_ledger hledger, Prod.mk.injEq] at hrun
    rw [← hrun.2]

end Writing

end TableAppend
