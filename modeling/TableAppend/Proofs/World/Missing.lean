import TableAppend.Proofs.FileTree.Missing
import TableAppend.Proofs.World.Transfer

/-!
# Changes of worlds that lack some files

Of two worlds the one lacks some files that the other one has.  Writing a data file and recording its
metadata succeeds in both with the same result or in none, and afterwards the one world lacks the same
files but for the metadata that have been recorded.
-/

namespace TableAppend

open FileTree (destination)

/-! ## The same change in two worlds -/

namespace Change

variable {α β : Type}

/-- What succeeds in the first of two related worlds succeeds in the second one with the same result,
and leaves related worlds. -/
def Carries (change : Change α) (before after : World → World → Prop) : Prop :=
  ∀ first second, before first second → ∀ value left, run change first = (.ok value, left) →
    ∃ other, run change second = (.ok value, other) ∧ after left other

variable {before between after : World → World → Prop}

theorem Carries.bind {change : Change α} {next : α → Change β}
    (hchange : change.Carries before between)
    (hnext : ∀ value, (next value).Carries between after) : (change >>= next).Carries before after := by
  intro first second hrelated value left hrun
  obtain ⟨found, middle, hfirst, hrest⟩ := run_bind_eq_ok_iff.mp hrun
  obtain ⟨other, hother, hbetween⟩ := hchange first second hrelated found middle hfirst
  obtain ⟨last, hlast, hafter⟩ := hnext found middle other hbetween value left hrest
  exact ⟨last, run_bind_eq_ok_iff.mpr ⟨found, other, hother, hlast⟩, hafter⟩

theorem carries_pure (value : α) : (pure value : Change α).Carries before before := by
  intro first second hrelated found left hrun
  obtain ⟨rfl, rfl⟩ := run_pure_eq_ok_iff.mp hrun
  exact ⟨second, run_pure _ _, hrelated⟩

theorem carries_ofOutcome (outcome : Outcome α) : (ofOutcome outcome).Carries before before := by
  intro first second hrelated value left hrun
  obtain ⟨hvalue, rfl⟩ := run_ofOutcome_eq_ok_iff.mp hrun
  exact ⟨second, run_ofOutcome_eq_ok_iff.mpr ⟨hvalue, rfl⟩, hrelated⟩

theorem carries_inspect {question : World → Outcome α} (hquestion : ∀ first second,
      before first second → ∀ value, question first = .ok value → question second = .ok value) :
    (inspect question).Carries before before := by
  intro first second hrelated value left hrun
  obtain ⟨hvalue, rfl⟩ := run_inspect_eq_ok_iff.mp hrun
  exact ⟨second, run_inspect_eq_ok_iff.mpr ⟨hquestion _ _ hrelated _ hvalue, rfl⟩, hrelated⟩

/-- In two worlds the change has the same outcome, also where it fails, and it leaves related worlds. -/
def Agrees (change : Change α) (first second : World) (left : World → World → Prop) : Prop :=
  (run change second).1 = (run change first).1 ∧ left (run change first).2 (run change second).2

variable {first second : World} {related left : World → World → Prop}

theorem agrees_pure (value : α) (hleft : left first second) :
    (pure value : Change α).Agrees first second left :=
  ⟨rfl, hleft⟩

/-- What comes next has to agree wherever the first part succeeds. -/
theorem Agrees.bind {change : Change α} {next : α → Change β}
    (hchange : change.Agrees first second related)
    (hstopped : ∀ after later, related after later → left after later)
    (hnext : ∀ value after later, run change first = (.ok value, after) → related after later →
      (next value).Agrees after later left) : (change >>= next).Agrees first second left := by
  obtain ⟨hsame, hrelated⟩ := hchange
  rw [Agrees, run_bind, run_bind]
  rcases hfirst : run change first with ⟨result, after⟩
  rcases hsecond : run change second with ⟨other, later⟩
  rw [hfirst, hsecond] at hsame hrelated
  obtain rfl : other = result := hsame
  cases other with
  | error failure => exact ⟨rfl, hstopped _ _ hrelated⟩
  | ok value => exact hnext value after later hfirst hrelated

end Change

/-! ## Worlds that lack files -/

/-- The second world is the first one without some files.  Both keep metadata in files. -/
structure World.Lacks (lost : Set Location) (full bare : World) : Prop where
  files : full.ledger = none
  bareFiles : bare.ledger = none
  tree : FileTree.Lacks lost full.tree bare.tree

namespace World.Lacks

variable {lost : Set Location} {full bare : World} (hlacks : World.Lacks lost full bare) {path : Path}

include hlacks

theorem metadata_eq (hpath : destination (Metadata.path path) ∉ lost) :
    bare.metadata path = full.metadata path := by
  rw [metadata, metadata, hlacks.files, hlacks.bareFiles]
  exact storedMetadata_congr (hlacks.tree.node?_eq hpath)

/-- Nothing is known of a data file whose metadata file is missing. -/
theorem metadata_eq_none (hpath : destination (Metadata.path path) ∈ lost) :
    bare.metadata path = .ok none := by
  have hfile : bare.tree.isFile (Metadata.path path) = false := by
    rw [Bool.eq_false_iff]
    intro hfile
    obtain ⟨content, hnode⟩ := FileTree.isFile_iff.mp hfile
    have hget := FileTree.get?_of_node? hnode
    rw [hlacks.tree.gone _ hpath] at hget
    cases hget
  rw [metadata, hlacks.bareFiles]
  dsimp only
  rw [storedMetadata, hfile]
  rfl

end World.Lacks

namespace Change

variable {α β : Type} {lost kept left : Set Location}

/-- A change that succeeds in both of two worlds of which one lacks some files, or in none. -/
structure Mirrors (change : Change α) (before after : Set Location) : Prop where
  bare : change.Carries (World.Lacks before) (World.Lacks after)
  full : change.Carries (flip (World.Lacks before)) (flip (World.Lacks after))

theorem Mirrors.bind {change : Change α} {next : α → Change β} (hchange : change.Mirrors lost kept)
    (hnext : ∀ value, (next value).Mirrors kept left) : (change >>= next).Mirrors lost left :=
  ⟨hchange.bare.bind fun value => (hnext value).bare,
    hchange.full.bind fun value => (hnext value).full⟩

theorem mirrors_pure (value : α) : (pure value : Change α).Mirrors lost lost :=
  ⟨carries_pure value, carries_pure value⟩

theorem mirrors_ofOutcome (outcome : Outcome α) : (ofOutcome outcome).Mirrors lost lost :=
  ⟨carries_ofOutcome outcome, carries_ofOutcome outcome⟩

theorem mirrors_inspect {question : World → Outcome α} (hquestion : ∀ full bare,
      World.Lacks lost full bare → ∀ value, question full = .ok value ↔ question bare = .ok value) :
    (inspect question).Mirrors lost lost :=
  ⟨carries_inspect fun full bare hlacks value => (hquestion full bare hlacks value).mp,
    carries_inspect fun bare full hlacks value => (hquestion full bare hlacks value).mpr⟩

theorem mirrors_onTree {change : FileTree → Except IoFault FileTree}
    (hchange : ∀ full bare, FileTree.Lacks lost full bare →
      (∀ after, change full = .ok after → ∃ later, change bare = .ok later ∧
        FileTree.Lacks kept after later) ∧
      ∀ later, change bare = .ok later → ∃ after, change full = .ok after ∧
        FileTree.Lacks kept after later) : (onTree change).Mirrors lost kept := by
  constructor
  · intro full bare hlacks value left hrun
    obtain ⟨tree, htree, rfl⟩ := run_onTree_eq_ok_iff.mp hrun
    obtain ⟨later, hlater, htrees⟩ := (hchange _ _ hlacks.tree).1 tree htree
    exact ⟨_, run_onTree_eq_ok_iff.mpr ⟨later, hlater, rfl⟩, hlacks.files, hlacks.bareFiles, htrees⟩
  · intro bare full hflipped value left hrun
    have hlacks : World.Lacks lost full bare := hflipped
    obtain ⟨tree, htree, rfl⟩ := run_onTree_eq_ok_iff.mp hrun
    obtain ⟨after, hafter, htrees⟩ := (hchange _ _ hlacks.tree).2 tree htree
    exact ⟨_, run_onTree_eq_ok_iff.mpr ⟨after, hafter, rfl⟩, hlacks.files, hlacks.bareFiles, htrees⟩

end Change

open Change (Mirrors run mirrors_pure mirrors_ofOutcome mirrors_inspect mirrors_onTree
  run_onTree_eq_ok_iff)

/-! ## Writing a data file -/

section Writing

variable {lost : Set Location} {path : Path} {content : Content}

theorem Change.mirrors_write (path : Path) (content : Content) :
    (onTree fun tree => tree.write path content).Mirrors lost (lost \ {destination path}) :=
  mirrors_onTree fun _ _ hlacks => hlacks.write

theorem Change.mirrors_write_kept (hpath : destination path ∉ lost) (content : Content) :
    (onTree fun tree => tree.write path content).Mirrors lost lost := by
  have hwrite := @mirrors_write lost path content
  rwa [Set.sdiff_singleton_eq_self hpath] at hwrite

theorem Change.mirrors_append (hpath : destination path ∉ lost) (bytes : Bytes) :
    (onTree fun tree => tree.append path bytes).Mirrors lost lost :=
  mirrors_onTree fun _ _ hlacks => hlacks.append hpath

theorem Change.mirrors_rename {source : Path} (hsource : destination source ∉ lost) (path : Path) :
    (onTree fun tree => tree.rename source path).Mirrors lost (lost \ {destination path}) :=
  mirrors_onTree fun _ _ hlacks => hlacks.rename hsource

/-- A file that is replaced is missing no more. -/
theorem Change.mirrors_replace
    (htemporary : destination (path.besides Metadata.temporaryEnding) ∉ lost) (content : Content) :
    (replace path content).Mirrors lost (lost \ {destination path}) :=
  (mirrors_write_kept htemporary content).bind fun _ => mirrors_rename htemporary path

theorem Delimited.mirrors_write (hpath : destination path ∉ lost) (dialect : Dialect) (rows : Batch)
    (layout : Layout) : (write dialect path rows layout).Mirrors lost lost := by
  rw [write]
  cases layout.columns with
  | none => exact (Change.mirrors_write_kept hpath _).bind fun _ => mirrors_pure _
  | some header =>
    have hend : (Change.onTree fun tree => do
        let bytes ← tree.readBytes path
        tree.append path (missingLineEnd bytes)).Mirrors lost lost := by
      refine mirrors_onTree fun full bare hlacks => ⟨fun after hafter => ?_, fun later hlater => ?_⟩
      · obtain ⟨bytes, hbytes, happend⟩ := FileTree.exists_of_bind_eq_ok hafter
        obtain ⟨later, hlater, hstill⟩ := (hlacks.append hpath).1 after happend
        refine ⟨later, ?_, hstill⟩
        rw [(hlacks.readBytes_eq_ok_iff hpath).mpr hbytes]
        exact hlater
      · obtain ⟨bytes, hbytes, happend⟩ := FileTree.exists_of_bind_eq_ok hlater
        obtain ⟨after, hafter, hstill⟩ := (hlacks.append hpath).2 later happend
        refine ⟨after, ?_, hstill⟩
        rw [(hlacks.readBytes_eq_ok_iff hpath).mp hbytes]
        exact hafter
    exact hend.bind fun _ => (mirrors_ofOutcome _).bind fun _ =>
      (Change.mirrors_append hpath _).bind fun _ => mirrors_pure _

theorem Columnar.mirrors_save (hpath : destination path ∉ lost) (codec : Codec) (schema : Schema)
    (rows : Batch) : (save codec schema rows path).Mirrors lost lost := by
  rw [save]
  refine (mirrors_ofOutcome _).bind fun saved => ?_
  obtain ⟨content, failure?⟩ := saved
  refine (Change.mirrors_write_kept hpath content).bind fun _ => ?_
  cases failure? with
  | none => exact mirrors_pure _
  | some failure => exact mirrors_ofOutcome (.error failure)

theorem Columnar.mirrors_save_or_discard {change : Change Unit} (hchange : change.Mirrors lost lost)
    (path : Path) : (tryCatch change fun failure => do
        discard path
        throw failure : Change Unit).Mirrors lost lost := by
  constructor
  · intro full bare hlacks value left hrun
    obtain ⟨other, hother, hstill⟩ :=
      hchange.bare full bare hlacks () left (save_or_discard_eq_ok_iff.mp hrun)
    exact ⟨other, save_or_discard_eq_ok_iff.mpr hother, hstill⟩
  · intro bare full hlacks value left hrun
    obtain ⟨other, hother, hstill⟩ :=
      hchange.full bare full hlacks () left (save_or_discard_eq_ok_iff.mp hrun)
    exact ⟨other, save_or_discard_eq_ok_iff.mpr hother, hstill⟩

theorem Columnar.mirrors_write (hpath : destination path ∉ lost)
    (htemporary : destination (path.besides Metadata.temporaryEnding) ∉ lost) (codec : Option Codec)
    (rows : Batch) (layout : Layout) : (write codec path rows layout).Mirrors lost lost := by
  have hrename := @Change.mirrors_rename lost (path.besides Metadata.temporaryEnding) htemporary path
  rw [Set.sdiff_singleton_eq_self hpath] at hrename
  have hnode : ∀ full bare, World.Lacks lost full bare →
      bare.tree.node? path = full.tree.node? path := fun _ _ hlacks => hlacks.tree.node?_eq hpath
  refine (mirrors_ofOutcome _).bind fun present =>
    (mirrors_inspect fun full bare hlacks all => ?_).bind fun all =>
      (mirrors_inspect fun full bare hlacks schema => ?_).bind fun schema =>
        (mirrors_save_or_discard (mirrors_save htemporary present schema all) _).bind fun _ =>
          hrename.bind fun _ => mirrors_pure _
  · exact ⟨allRows_congr (hnode full bare hlacks), allRows_congr (hnode full bare hlacks).symm⟩
  · exact ⟨keptSchema_congr (hnode full bare hlacks), keptSchema_congr (hnode full bare hlacks).symm⟩

theorem Medium.mirrors_write (medium : Medium) (hpath : destination path ∉ lost)
    (htemporary : destination (path.besides Metadata.temporaryEnding) ∉ lost) (rows : Batch)
    (layout : Layout) : (medium.write path rows layout).Mirrors lost lost := by
  cases medium with
  | delimited dialect => exact Delimited.mirrors_write hpath dialect rows layout
  | columnar codec => exact Columnar.mirrors_write hpath htemporary codec rows layout

/-! ## Recording metadata -/

/-- Metadata that are recorded are missing no more. -/
theorem World.mirrors_recordMetadata
    (htemporary : destination ((Metadata.path path).besides Metadata.temporaryEnding) ∉ lost)
    (metadata : Metadata) :
    (recordMetadata path metadata).Mirrors lost (lost \ {destination (Metadata.path path)}) := by
  have hreplace := @Change.mirrors_replace lost _ htemporary
    (.bytes (Utf8.encode metadata.toText))
  constructor
  · intro full bare hlacks value left hrun
    rw [recordMetadata_of_files hlacks.files] at hrun
    rw [recordMetadata_of_files hlacks.bareFiles]
    exact hreplace.bare full bare hlacks value left hrun
  · intro bare full hflipped value left hrun
    have hlacks : World.Lacks lost full bare := hflipped
    rw [recordMetadata_of_files hlacks.bareFiles] at hrun
    rw [recordMetadata_of_files hlacks.files]
    exact hreplace.full bare full hflipped value left hrun

end Writing

end TableAppend
