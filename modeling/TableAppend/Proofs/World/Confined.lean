import TableAppend.Proofs.World.Writing

/-!
# Changes confined to a directory

Writing a partition changes nothing outside its directory, apart from the directories on the way there.
What another partition sees is therefore the same before and after.
-/

namespace TableAppend

open TableAppend.Path (LiesIn)

namespace Path

theorem same_comm (left right : Path) : left.same right = right.same left := by
  simp [same, eq_comm]

theorem same_trans {first second third : Path} (hfirst : first.same second = true)
    (hsecond : second.same third = true) : first.same third = true := by
  simp only [same, decide_eq_true_eq] at *
  exact hfirst.trans hsecond

end Path

namespace Ledger

theorem lookup_cons (name other : Path) (metadata : Metadata) (rest : Ledger) :
    lookup ((name, metadata) :: rest) other =
      if name.same other = true then some metadata else lookup rest other := by
  simp only [lookup, List.find?_cons]
  cases name.same other <;> rfl

/-- What is recorded for one path is found under all texts of that path and under no other. -/
theorem lookup_record (ledger : Ledger) (path other : Path) (metadata : Metadata) :
    (ledger.record path metadata).lookup other =
      if path.same other = true then some metadata else ledger.lookup other := by
  induction ledger with
  | nil =>
    rw [record, lookup_cons]
  | cons entry rest ih =>
    obtain ⟨name, old⟩ := entry
    rw [record]
    by_cases hpath : name.same path = true
    · have hsame : name.same other = true ↔ path.same other = true := by
        constructor
        · intro h
          rw [Path.same_comm] at hpath
          exact Path.same_trans hpath h
        · intro h
          exact Path.same_trans hpath h
      rw [if_pos hpath, lookup_cons, lookup_cons]
      simp only [hsame]
      split <;> rfl
    · rw [if_neg hpath, lookup_cons, lookup_cons, ih]
      split
      · rename_i hname
        have hother : ¬ path.same other = true := by
          intro h
          rw [Path.same_comm] at h
          exact hpath (Path.same_trans hname h)
        rw [if_neg hother]
      · rfl

end Ledger

namespace World

/-- A change of the world that only the directory at a location can tell. -/
structure Confined (place : Location) (before after : World) : Prop where
  wellFormed : after.tree.WellFormed
  sameBelow : ∀ elsewhere, ¬ elsewhere <+: place → ¬ place <+: elsewhere →
    SameBelow elsewhere before after
  passable_iff : ∀ elsewhere, ¬ place <+: elsewhere →
    (after.tree.Passable elsewhere ↔ before.tree.Passable elsewhere)

variable {place : Location} {world : World}

theorem Confined.refl (hworld : world.tree.WellFormed) : Confined place world world :=
  ⟨hworld, fun _ _ _ => SameBelow.refl _ _, fun _ _ => Iff.rfl⟩

theorem Confined.trans {first second third : World} (hfirst : Confined place first second)
    (hsecond : Confined place second third) : Confined place first third := by
  refine ⟨hsecond.wellFormed, ?_, ?_⟩
  · intro elsewhere hbelow habove
    exact (hfirst.sameBelow elsewhere hbelow habove).trans (hsecond.sameBelow elsewhere hbelow habove)
  · intro elsewhere habove
    exact (hsecond.passable_iff elsewhere habove).trans (hfirst.passable_iff elsewhere habove)

theorem confined_of_directoryMade {tree : FileTree}
    (hmade : FileTree.DirectoryMade world.tree tree place) :
    Confined place world { world with tree } := by
  refine ⟨hmade.wellFormed, ?_, ?_⟩
  · intro elsewhere hbelow habove
    refine ⟨?_, ?_, fun _ _ => rfl⟩
    · intro other hother
      exact (hmade.get?_eq other).trans (if_neg fun h => hbelow (hother.trans h))
    · intro here hhere
      exact hmade.namesIn_eq here fun h => hbelow (hhere.trans h)
  · intro elsewhere _
    have hfile : ∀ above content, tree.get? above = some (.file content) ↔
        world.tree.get? above = some (.file content) := by
      intro above content
      rw [hmade.get?_eq]
      split
      · rename_i hupper
        have hnot := hmade.passable above hupper content
        constructor
        · intro h
          simp at h
        · intro h
          exact absurd h hnot
      · exact Iff.rfl
    simp only [FileTree.Passable, ne_eq, hfile]

theorem confined_of_filePut {tree : FileTree} {name : String} {content : Content}
    {gone : List Location}
    (hput : FileTree.FilePut world.tree tree (place ++ [name]) content gone)
    (hgone : ∀ other ∈ gone, ∃ scratch, other = place ++ [scratch]) :
    Confined place world { world with tree } := by
  have hget : ∀ other, ¬ place <+: other → tree.get? other = world.tree.get? other := by
    intro other hother
    rw [hput.get?_eq, if_neg, if_neg]
    · intro hmem
      obtain ⟨scratch, rfl⟩ := hgone other hmem
      exact hother (List.prefix_append _ _)
    · rintro rfl
      exact hother (List.prefix_append _ _)
  refine ⟨hput.wellFormed, ?_, ?_⟩
  · intro elsewhere hbelow habove
    have hnot : ∀ other, elsewhere <+: other → ¬ place <+: other := by
      intro other helsewhere hplace
      rcases List.prefix_or_prefix_of_prefix helsewhere hplace with h | h
      · exact hbelow h
      · exact habove h
    refine ⟨?_, ?_, fun _ _ => rfl⟩
    · intro other hother
      exact hget other (hnot other hother)
    · intro here hhere
      apply hput.namesIn_eq
      rw [List.dropLast_concat]
      rintro rfl
      exact hbelow hhere
  · intro elsewhere habove
    have hsame : ∀ above, above <+: elsewhere → tree.get? above = world.tree.get? above := by
      intro above hupper
      exact hget above fun h => habove (h.trans hupper)
    constructor
    · intro hpassable above hupper content
      rw [← hsame above hupper]
      exact hpassable above hupper content
    · intro hpassable above hupper content
      rw [hsame above hupper]
      exact hpassable above hupper content

theorem confined_of_record {ledger : Ledger} (hworld : world.tree.WellFormed)
    (hledger : world.ledger = some ledger) {path : Path} (hpath : path.LiesIn place)
    (metadata : Metadata) :
    Confined place world { world with ledger := some (ledger.record path metadata) } := by
  refine ⟨hworld, ?_, fun _ _ => Iff.rfl⟩
  intro elsewhere hbelow habove
  refine ⟨fun _ _ => rfl, fun _ _ => rfl, ?_⟩
  intro other hother
  have hnot : ¬ path.same other = true := by
    intro hsame
    rw [← Path.location_eq_of_same hsame] at hother
    rcases List.prefix_or_prefix_of_prefix hother hpath.prefix_location with h | h
    · exact hbelow h
    · exact habove h
  rw [hledger, Option.map_some, Option.map_some, Ledger.lookup_record,
    if_neg hnot]

/-! ## Recording metadata -/

theorem run_recordMetadata (path : Path) (metadata : Metadata) :
    (recordMetadata path metadata).run world =
      match world.ledger with
      | some ledger => (.ok (), { world with ledger := some (ledger.record path metadata) })
      | none =>
        (Change.replace (Metadata.path path) (.bytes (Utf8.encode metadata.toText))).run world := by
  have hget : Change.run (get : Change World) world = (.ok world, world) := rfl
  rw [recordMetadata, Change.run_bind, hget]
  dsimp only
  cases world.ledger with
  | none => dsimp only
  | some ledger => rfl

theorem recordMetadata_of_files (hledger : world.ledger = none) (path : Path)
    (metadata : Metadata) :
    (recordMetadata path metadata).run world =
      (Change.replace (Metadata.path path) (.bytes (Utf8.encode metadata.toText))).run world := by
  rw [run_recordMetadata, hledger]

theorem recordMetadata_of_ledger {ledger : Ledger} (hledger : world.ledger = some ledger)
    (path : Path) (metadata : Metadata) :
    (recordMetadata path metadata).run world =
      (.ok (), { world with ledger := some (ledger.record path metadata) }) := by
  rw [run_recordMetadata, hledger]

theorem confined_of_replace {after : World} (hworld : world.tree.WellFormed) {path : Path}
    (hpath : path.LiesIn place) {content : Content}
    (hrun : (Change.replace path content).run world = (.ok (), after)) :
    Confined place world after := by
  obtain ⟨-, -, tree, hput, rfl⟩ := Change.exists_filePut_of_replace hworld hpath hrun
  obtain ⟨-, name, -, hlocation⟩ := id hpath
  obtain ⟨-, scratch, -, hscratchLocation⟩ := hpath.temporary
  rw [hlocation] at hput
  apply confined_of_filePut hput
  intro other hother
  rw [List.mem_singleton] at hother
  exact ⟨scratch, hother.trans hscratchLocation⟩

/-- Metadata that are kept beside the data are put into a file. -/
theorem exists_filePut_of_recordMetadata (hledger : world.ledger = none) {after : World}
    (hworld : world.tree.WellFormed) {path : Path} (hpath : path.LiesIn place) {metadata : Metadata}
    (hrun : (recordMetadata path metadata).run world = (.ok (), after)) :
    world.tree.Admits ((Metadata.path path).besides Metadata.temporaryEnding) ∧
      world.tree.Admits (Metadata.path path) ∧
        ∃ tree, FileTree.FilePut world.tree tree (Metadata.path path).location
          (.bytes (Utf8.encode metadata.toText))
          [((Metadata.path path).besides Metadata.temporaryEnding).location] ∧
            after = { world with tree } := by
  rw [recordMetadata_of_files hledger] at hrun
  exact Change.exists_filePut_of_replace hworld (Path.liesIn_metadata hpath) hrun

theorem confined_of_recordMetadata {after : World} (hworld : world.tree.WellFormed) {path : Path}
    (hpath : path.LiesIn place) {metadata : Metadata}
    (hrun : (recordMetadata path metadata).run world = (.ok (), after)) :
    Confined place world after := by
  cases hledger : world.ledger with
  | none =>
    rw [recordMetadata_of_files hledger] at hrun
    exact confined_of_replace hworld (Path.liesIn_metadata hpath) hrun
  | some ledger =>
    rw [recordMetadata_of_ledger hledger, Prod.mk.injEq] at hrun
    rw [← hrun.2]
    exact confined_of_record hworld hledger hpath metadata

end World

end TableAppend
