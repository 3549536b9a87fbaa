import TableAppend.Family
import TableAppend.Medium
import TableAppend.Proofs.FileTree.Directories

/-!
# Regions of a world

Partitions do not get in each other's way, because each one looks only at what lies in its own
directory.  `SameBelow` says that two worlds agree there, and the lemmas after it say that every
question about a file of the directory then has the same answer.
-/

namespace TableAppend

open FileTree (IsUsable EndsInName)

namespace Path

/-- A path leads to a place in a directory, without upward steps, and ends in a name. -/
def LiesIn (path : Path) (place : Location) : Prop :=
  path.Descends ∧ ∃ name, path.fileName? = some name ∧ path.location = place ++ [name]

theorem LiesIn.prefix_location {path : Path} {place : Location} (hpath : path.LiesIn place) :
    place <+: path.location := by
  obtain ⟨-, name, -, hlocation⟩ := hpath
  rw [hlocation]
  exact List.prefix_append _ _

theorem liesIn_dropLast {path : Path} {name : String} (hpath : path.Descends)
    (hname : path.fileName? = some name) : path.LiesIn path.location.dropLast := by
  obtain ⟨parent, hparent⟩ := exists_parent?_of_fileName? hname
  refine ⟨hpath, name, hname, ?_⟩
  rw [location_parent hname hparent, List.dropLast_concat]

theorem LiesIn.dropLast_location {path : Path} {place : Location} (hpath : path.LiesIn place) :
    path.location.dropLast = place := by
  obtain ⟨-, name, -, hlocation⟩ := hpath
  rw [hlocation, List.dropLast_concat]

theorem liesIn_join {outer : Path} (houter : outer.Descends) {name : String}
    (hname : IsName name) : (outer.join name).LiesIn outer.location :=
  ⟨(descends_join outer hname).mpr houter, name, fileName?_join outer hname,
    location_join outer hname⟩

theorem LiesIn.besides_location {path : Path} {place : Location} (hpath : path.LiesIn place)
    {file : String} (hfile : path.location = place ++ [file]) {ending : String}
    (hending : '/' ∉ ending.toList) (hlong : 2 ≤ ending.toList.length) :
    (path.besides ending).location = place ++ [file ++ ending] := by
  obtain ⟨-, name, hname, hlocation⟩ := hpath
  have hsame := List.append_cancel_left (hfile.symm.trans hlocation)
  rw [List.cons.injEq] at hsame
  have hfull := isName_append (isName_of_fileName? hname) hending hlong
  rw [Path.location_besides hname hfull, hlocation, List.dropLast_concat, hsame.1]

theorem LiesIn.besides {path : Path} {place : Location} (hpath : path.LiesIn place)
    {ending : String} (hending : '/' ∉ ending.toList) (hlong : 2 ≤ ending.toList.length) :
    (path.besides ending).LiesIn place := by
  obtain ⟨hdescends, name, hname, hlocation⟩ := hpath
  have hfull := isName_append (isName_of_fileName? hname) hending hlong
  obtain ⟨parent, hparent⟩ := exists_parent?_of_fileName? hname
  refine ⟨(descends_besides hname hfull).mpr hdescends, name ++ ending, ?_, ?_⟩
  · rw [besides_of_parent hname hparent, fileName?_join _ hfull]
  · rw [location_besides hname hfull, hlocation, List.dropLast_concat]

theorem LiesIn.withFileName {path : Path} {place : Location} (hpath : path.LiesIn place)
    {name : String} (hname : IsName name) : (path.withFileName name).LiesIn place := by
  obtain ⟨hdescends, old, hold, hlocation⟩ := hpath
  obtain ⟨parent, hparent⟩ := exists_parent?_of_fileName? hold
  have hplace : parent.location = place := by
    rw [location_parent hold hparent] at hlocation
    exact (List.append_inj_left' hlocation rfl)
  rw [withFileName_of_parent hold hparent, ← hplace]
  exact liesIn_join ((descends_parent hold hparent).mpr hdescends) hname

theorem liesIn_metadata {path : Path} {place : Location} (hpath : path.LiesIn place) :
    (Metadata.path path).LiesIn place :=
  hpath.besides (by decide) (by decide)

section Beside

variable {path : Path} {place : Location} {file : String} (hpath : path.LiesIn place)
  (hfile : path.location = place ++ [file])

include hpath hfile

theorem LiesIn.metadata_location :
    (Metadata.path path).location = place ++ [file ++ Metadata.ending] :=
  hpath.besides_location hfile (by decide) (by decide)

theorem LiesIn.temporary_location : (path.besides Metadata.temporaryEnding).location =
    place ++ [file ++ Metadata.temporaryEnding] :=
  hpath.besides_location hfile (by decide) (by decide)

theorem LiesIn.metadata_temporary_location :
    ((Metadata.path path).besides Metadata.temporaryEnding).location =
      place ++ [file ++ (Metadata.ending ++ Metadata.temporaryEnding)] := by
  rw [(liesIn_metadata hpath).temporary_location (hpath.metadata_location hfile),
    String.append_assoc]

end Beside

end Path

/-! ## Agreement below a location -/

/-- What is stored as metadata depends on the metadata file only. -/
theorem World.storedMetadata_congr {before after : FileTree} {path other : Path}
    (hnode : after.node? (Metadata.path other) = before.node? (Metadata.path path)) :
    storedMetadata after other = storedMetadata before path := by
  have hfile : after.isFile (Metadata.path other) = before.isFile (Metadata.path path) := by
    rw [FileTree.isFile, FileTree.isFile, hnode]
  rw [storedMetadata, storedMetadata, hfile]
  by_cases hisFile : before.isFile (Metadata.path path) = true
  · obtain ⟨content, hbefore⟩ := FileTree.isFile_iff.mp hisFile
    simp only [hisFile, FileTree.readText, FileTree.readBytes_of_node? hbefore,
      FileTree.readBytes_of_node? (hnode.trans hbefore)]
  · simp only [hisFile, Bool.false_eq_true, ↓reduceIte]

/-- Two worlds that cannot be told apart at a location and below it. -/
structure World.SameBelow (place : Location) (before after : World) : Prop where
  get?_eq : ∀ other, place <+: other → after.tree.get? other = before.tree.get? other
  namesIn_eq : ∀ here, place <+: here → after.tree.namesIn here = before.tree.namesIn here
  lookup_eq : ∀ path : Path, place <+: path.location →
    after.ledger.map (fun ledger => ledger.lookup path) =
      before.ledger.map (fun ledger => ledger.lookup path)

namespace World.SameBelow

variable {place : Location} {before after : World}

theorem refl (place : Location) (world : World) : SameBelow place world world :=
  ⟨fun _ _ => rfl, fun _ _ => rfl, fun _ _ => rfl⟩

theorem symm (hsame : SameBelow place before after) : SameBelow place after before :=
  ⟨fun other hother => (hsame.get?_eq other hother).symm,
    fun here hhere => (hsame.namesIn_eq here hhere).symm,
    fun path hpath => (hsame.lookup_eq path hpath).symm⟩

theorem trans {first second third : World} (hfirst : SameBelow place first second)
    (hsecond : SameBelow place second third) : SameBelow place first third := by
  constructor
  · intro other hother
    exact (hsecond.get?_eq other hother).trans (hfirst.get?_eq other hother)
  · intro here hhere
    exact (hsecond.namesIn_eq here hhere).trans (hfirst.namesIn_eq here hhere)
  · intro path hpath
    exact (hsecond.lookup_eq path hpath).trans (hfirst.lookup_eq path hpath)

theorem ledger_eq_none (hsame : SameBelow place before after) {path : Path}
    (hpath : path.LiesIn place) (hledger : before.ledger = none) : after.ledger = none := by
  have hlookup := hsame.lookup_eq path hpath.prefix_location
  rwa [hledger, Option.map_none, Option.map_eq_none_iff] at hlookup

variable (hsame : SameBelow place before after)
  (hbefore : before.tree.WellFormed) (hafter : after.tree.WellFormed)

include hsame hbefore hafter

theorem node?_eq {path : Path} (hpath : path.LiesIn place) :
    after.tree.node? path = before.tree.node? path := by
  apply Option.ext
  intro node
  rw [FileTree.node?_eq_some_iff hafter hpath.1, FileTree.node?_eq_some_iff hbefore hpath.1,
    hsame.get?_eq _ hpath.prefix_location]

theorem isFile_eq {path : Path} (hpath : path.LiesIn place) :
    after.tree.isFile path = before.tree.isFile path := by
  rw [FileTree.isFile, FileTree.isFile, hsame.node?_eq hbefore hafter hpath]

theorem isPresent_eq {path : Path} (hpath : path.LiesIn place) :
    after.tree.isPresent path = before.tree.isPresent path := by
  rw [FileTree.isPresent, FileTree.isPresent, hsame.node?_eq hbefore hafter hpath]

theorem isDirectory_eq {path : Path} (hpath : path.LiesIn place) :
    after.tree.isDirectory path = before.tree.isDirectory path := by
  rw [FileTree.isDirectory, FileTree.isDirectory, hsame.node?_eq hbefore hafter hpath]

theorem metadata_eq {path : Path} (hpath : path.LiesIn place) :
    after.metadata path = before.metadata path := by
  have hlookup := hsame.lookup_eq path hpath.prefix_location
  have hstored : storedMetadata after.tree path = storedMetadata before.tree path :=
    storedMetadata_congr (hsame.node?_eq hbefore hafter (Path.liesIn_metadata hpath))
  rw [metadata, metadata]
  cases hledger : before.ledger with
  | none =>
    rw [hledger, Option.map_none, Option.map_eq_none_iff] at hlookup
    simp only [hlookup, hstored]
  | some ledger =>
    rw [hledger, Option.map_some, Option.map_eq_some_iff] at hlookup
    obtain ⟨other, hother, heq⟩ := hlookup
    simp only [hother, heq]

theorem list_eq {path : Path} (hpath : path.Descends) (hlocation : path.location = place) :
    after.tree.list path = before.tree.list path := by
  have hget := hsame.get?_eq place (List.prefix_refl _)
  have hnames := hsame.namesIn_eq place (List.prefix_refl _)
  have hfind : ∀ there, after.tree.find path = .ok (there, .directory) ↔
      before.tree.find path = .ok (there, .directory) := by
    intro there
    rw [FileTree.find_eq_ok_iff hafter hpath, FileTree.find_eq_ok_iff hbefore hpath]
    constructor
    · rintro ⟨husable, rfl, hnode, hend⟩
      rw [hlocation, hget] at hnode
      exact ⟨husable, rfl, hlocation ▸ hnode, hend⟩
    · rintro ⟨husable, rfl, hnode, hend⟩
      rw [hlocation, ← hget] at hnode
      exact ⟨husable, rfl, hlocation ▸ hnode, hend⟩
  by_cases hdirectory : before.tree.find path = .ok (place, .directory)
  · have hdirectoryAfter := (hfind place).mpr hdirectory
    simp only [FileTree.list, hdirectory, hdirectoryAfter, hnames]
  · have hnone : ∀ world : World, (world = before ∨ world = after) → world.tree.list path = [] := by
      intro world hworld
      have hwell : world.tree.WellFormed := by
        rcases hworld with rfl | rfl
        · exact hbefore
        · exact hafter
      rw [FileTree.list]
      split
      · rename_i there hthere
        obtain ⟨-, rfl, -, -⟩ := (FileTree.find_eq_ok_iff hwell hpath).mp hthere
        rw [hlocation] at hthere
        rcases hworld with rfl | rfl
        · exact absurd hthere hdirectory
        · exact absurd ((hfind place).mp hthere) hdirectory
      · rfl
    rw [hnone after (.inr rfl), hnone before (.inl rfl)]

end World.SameBelow

end TableAppend
