import TableAppend.Proofs.Append.Forgiving
import TableAppend.Proofs.Append.Once
import TableAppend.Proofs.World.Missing

/-!
# Families whose base file has no metadata

A delimited base file without metadata is taken for one with the marks that are asked for.  A family
that lacks nothing but these metadata therefore grows as if they were there, and they are recorded when
rows come to the base file.
-/

namespace TableAppend

open Batch (keyOn keysOn)
open Change (run)
open Delimited (Keeps metadataOf)
open Family (Base HoldsTables)
open FileTree (destination)
open World (SameBelow)

/-! ## Families that lack the metadata of their base file -/

namespace Family

namespace Base

variable (base : Base) (dialect : Dialect)

/-- The place of the metadata of a base file. -/
def metadataPlace : Location :=
  base.place ++ [base.name ++ Metadata.ending]

/-- The tree with the marks of the base file recorded. -/
def recorded (tree : FileTree) : FileTree :=
  tree.set base.metadataPlace (.file (.bytes (Utf8.encode (metadataOf dialect).toText)))

variable {base dialect}

theorem get?_recorded (tree : FileTree) (location : Location) :
    (base.recorded dialect tree).get? location = if location = base.metadataPlace
      then some (.file (.bytes (Utf8.encode (metadataOf dialect).toText))) else tree.get? location := by
  have hroot : base.metadataPlace ≠ [] := List.append_ne_nil_of_right_ne_nil _ (by simp)
  rw [recorded, FileTree.get?_set _ _ _ _ hroot]

/-- Only the metadata of the base file have their place. -/
theorem ne_metadataPlace {number : ℕ} {ending : String} (hending : ending ∈ Family.endings)
    (hother : ending ≠ Metadata.ending ∨ number ≠ 0) :
    base.place ++ [base.memberName number ++ ending] ≠ base.metadataPlace := by
  intro hsame
  obtain ⟨hnumber, hlast⟩ := @Base.memberName_append_injective base number 0 _ _ hending (by decide)
    (List.cons.inj (List.append_cancel_left hsame)).1
  exact hother.elim (fun hne => hne hlast) fun hne => hne hnumber

theorem getLast?_metadataPlace : ∀ location ∈ ({base.metadataPlace} : Set Location),
    location.getLast? = some (base.name ++ Metadata.ending) := by
  rintro location rfl
  exact List.getLast?_concat

theorem destination_metadata : destination (Metadata.path base.path) = base.metadataPlace := by
  rw [FileTree.destination_of_descends (Path.liesIn_metadata base.liesIn).1]
  exact base.location_metadata_member 0

end Base

/-- The members of a family hold these tables.  The metadata of the base file need not be recorded. -/
inductive StoresTables (dialect : Dialect) (keys : List String) (tree : FileTree) (base : Base)
    (tables : List Batch) : Prop
  | recorded (hholds : HoldsTables dialect keys tree base tables)
  | unrecorded (hnone : tree.get? base.metadataPlace = none)
      (hholds : HoldsTables dialect keys (base.recorded dialect tree) base tables)

variable {dialect : Dialect} {keys : List String} {base : Base} {tables : List Batch}

theorem HoldsTables.length_pos {tree : FileTree} (hholds : HoldsTables dialect keys tree base tables)
    {name : String} (hname : (tree.get? (base.place ++ [name])).isSome = true) :
    0 < tables.length := by
  obtain ⟨number, hnumber, -⟩ := hholds.holds.occupied name hname
  omega

theorem StoresTables.congr {before after : World} (hsame : SameBelow base.place before after)
    (hstores : StoresTables dialect keys before.tree base tables) :
    StoresTables dialect keys after.tree base tables := by
  have hget : ∀ name, after.tree.get? (base.place ++ [name]) =
      before.tree.get? (base.place ++ [name]) :=
    fun _ => hsame.get?_eq _ (List.prefix_append _ _)
  cases hstores with
  | recorded hholds => exact .recorded (hholds.congr hsame)
  | unrecorded hnone hholds =>
    refine .unrecorded ((hget _).trans hnone) (hholds.of_get?_eq fun name => ?_)
    rw [Base.get?_recorded, Base.get?_recorded, hget]

section Unrecorded

variable {world : World} (hworld : world.tree.WellFormed) (hledger : world.ledger = none)
  (hnone : world.tree.get? base.metadataPlace = none)
  (hholds : HoldsTables dialect keys (base.recorded dialect world.tree) base tables)

include hholds

/-- The base file is there. -/
theorem HoldsTables.base_of_recorded : 0 < tables.length ∧ ∃ content,
    world.tree.get? (base.place ++ [base.name]) = some (.file content) := by
  have hpositive : 0 < tables.length := by
    have hget := @Base.get?_recorded base dialect world.tree base.metadataPlace
    rw [if_pos rfl] at hget
    exact hholds.length_pos (congrArg Option.isSome hget)
  obtain ⟨content, hcontent⟩ := hholds.holds.data 0 hpositive
  refine ⟨hpositive, content, ?_⟩
  have hne := @Base.ne_metadataPlace base 0 "" (by decide) (.inl (by decide))
  rw [String.append_empty] at hne
  rwa [Base.get?_recorded, if_neg hne] at hcontent

include hworld hnone

theorem HoldsTables.wellFormed_recorded : (base.recorded dialect world.tree).WellFormed := by
  obtain ⟨-, content, hcontent⟩ := hholds.base_of_recorded
  refine hworld.set (fun name hname => ?_) ?_ ?_
  · rcases List.mem_append.mp hname with habove | hlast
    · exact hworld.named hcontent name (List.mem_append_left _ habove)
    · rw [List.mem_singleton.mp hlast]
      exact Path.isName_append (base.isName_memberName 0) (by decide) (by decide)
  · rw [Base.metadataPlace, List.dropLast_concat]
    exact hworld.grounded hcontent
  · rw [hnone]
    simp

omit hholds in
include hledger in
/-- Nothing but the metadata of the base file is missing. -/
theorem HoldsTables.lacks_recorded : World.Lacks {base.metadataPlace}
    { world with tree := base.recorded dialect world.tree } world :=
  ⟨hledger, hledger, FileTree.lacks_set hworld.distinct hnone _⟩

end Unrecorded

/-! ### Reading the tables -/

section Reading

variable {world : World} (hworld : world.tree.WellFormed) (hledger : world.ledger = none)
  {listed : Path} (hlisted : base.path.directory.listed? = some listed)
  (hextension : base.path.extension? ≠ some Metadata.extension)
  (hcount : tables.length ≤ UInt64.size)
  (hstores : StoresTables dialect keys world.tree base tables)

include hworld hlisted hextension hcount hstores

/-- The members of the family are those that hold the tables. -/
theorem StoresTables.members_eq :
    members world.tree base.path = .ok ((List.range tables.length).map (base.found listed)) := by
  cases hstores with
  | recorded hholds => exact hholds.holds.members_eq hworld hlisted hextension hcount
  | unrecorded hnone hholds =>
    have hfull := hholds.wellFormed_recorded hworld hnone
    have hlacks : FileTree.Lacks {base.metadataPlace} (base.recorded dialect world.tree) world.tree :=
      FileTree.lacks_set hworld.distinct hnone _
    rw [members_of_lacks hlacks base.fileName?_eq Base.getLast?_metadataPlace]
    exact hholds.holds.members_eq hfull hlisted hextension hcount

omit hworld hextension hcount in
/-- There are no other files but their metadata. -/
theorem StoresTables.exists_found {name : String}
    (hname : (world.tree.get? (base.place ++ [name])).isSome = true) : ∃ number < tables.length,
      base.place ++ [name] = (base.found listed number).location ∨
        base.place ++ [name] = (Metadata.path (base.found listed number)).location := by
  have hoccupied : ∃ number < tables.length,
      name = base.memberName number ∨ name = base.memberName number ++ Metadata.ending := by
    cases hstores with
    | recorded hholds => exact hholds.holds.occupied name hname
    | unrecorded hnone hholds =>
      refine hholds.holds.occupied name ?_
      rw [Base.get?_recorded]
      split
      · rfl
      · exact hname
  obtain ⟨number, hnumber, hcases⟩ := hoccupied
  refine ⟨number, hnumber, ?_⟩
  rw [Base.location_found hlisted, Base.location_metadata_found hlisted,
    base.location_metadata_member]
  exact hcases.imp (fun h => by rw [h]) fun h => by rw [h]

include hledger

omit hextension hcount in
/-- All tables are read in the order of the members. -/
theorem StoresTables.forall₂_readRows (hvalid : dialect.validate = .ok ()) :
    List.Forall₂ (fun file table => ∃ metadata, world.metadata file = .ok metadata ∧
        (Medium.delimited dialect).readRows world.tree file metadata = .ok table)
      ((List.range tables.length).map (base.found listed)) tables := by
  cases hstores with
  | recorded hholds => exact hholds.forall₂_readRows hworld hledger hlisted hvalid
  | unrecorded hnone hholds =>
    have hfull := hholds.wellFormed_recorded hworld hnone
    let full : World := { world with tree := base.recorded dialect world.tree }
    have hlacks : World.Lacks {base.metadataPlace} full world :=
      HoldsTables.lacks_recorded hworld hledger hnone
    rw [List.forall₂_iff_get]
    refine ⟨by simp, fun number hnumber hlt => ?_⟩
    have htable : tables[number]? = some (tables.get ⟨number, hlt⟩) := List.getElem?_eq_getElem hlt
    obtain ⟨bytes, hnode, -, hkeeps⟩ :=
      @HoldsTables.readBytes_found dialect keys base tables full hholds hfull listed hlisted _ _ htable
    have hlies := Base.found_liesIn hlisted number
    have hmetadata := Path.liesIn_metadata hlies
    have hdata : destination (base.found listed number) ∉ ({base.metadataPlace} : Set Location) := by
      have hne := @Base.ne_metadataPlace base number "" (by decide) (.inl (by decide))
      rwa [FileTree.destination_of_descends hlies.1, Base.location_found hlisted,
        ← @String.append_empty (base.memberName number)]
    have hbytes := FileTree.readBytes_of_node? ((hlacks.tree.node?_eq hdata).trans hnode)
    suffices hknown : ∃ known, world.metadata (base.found listed number) = .ok known ∧
        Delimited.storedDialect dialect known = dialect by
      obtain ⟨known, hknown, hdialect⟩ := hknown
      have hread : (Medium.delimited dialect).readRows world.tree (base.found listed number) known =
          .ok (tables.get ⟨number, hlt⟩) := hkeeps.readRows_eq hbytes hdialect
      exact ⟨known, by simpa using hknown, by simpa using hread⟩
    by_cases hfirst : number = 0
    · rw [hfirst]
      exact ⟨none, hlacks.metadata_eq_none Base.destination_metadata, rfl⟩
    · have hplace : destination (Metadata.path (base.found listed number)) ∉
          ({base.metadataPlace} : Set Location) := by
        rw [FileTree.destination_of_descends hmetadata.1, Base.location_metadata_found hlisted,
          base.location_metadata_member]
        exact Base.ne_metadataPlace (by decide) (.inr hfirst)
      have hknown := @HoldsTables.metadata_found dialect keys base tables full hholds hfull hledger
        listed hlisted number hlt
      exact ⟨some (metadataOf dialect), (hlacks.metadata_eq hplace).trans hknown,
        Delimited.storedDialect_metadataOf hvalid⟩

end Reading

/-- Tables of a world are those of one that lacks at most the metadata of their base file. -/
theorem HoldsTables.stores_of_lacks {lost : Set Location} {full bare : World}
    (hholds : HoldsTables dialect keys full.tree base tables) (hlacks : World.Lacks lost full bare)
    (hlost : lost ⊆ {base.metadataPlace}) : StoresTables dialect keys bare.tree base tables := by
  by_cases hmem : base.metadataPlace ∈ lost
  · obtain ⟨content, hcontent⟩ := hlacks.tree.present _ hmem
    have hpositive : 0 < tables.length := hholds.length_pos (congrArg Option.isSome hcontent)
    refine .unrecorded (hlacks.tree.gone _ hmem) (hholds.of_get?_eq fun name => ?_)
    rw [Base.get?_recorded]
    split
    · rename_i hsame
      rw [hsame]
      exact (hholds.metadata 0 hpositive).symm
    · rename_i hne
      exact hlacks.tree.kept _ fun hother => hne (hlost hother)
  · refine .recorded (hholds.of_get?_eq fun name => hlacks.tree.kept _ fun hother => hmem ?_)
    obtain hsame := hlost hother
    exact hsame ▸ hother

end Family

/-! ## Decisions and changes with and without these metadata -/

namespace Job

variable {job : Job} {base : Base} {dialect : Dialect} {lost : Set Location} {full bare : World}

/-- A base file without metadata is decided upon as if its marks were recorded. -/
theorem condonesFamily_of_unrecorded (hmedium : job.medium = .delimited dialect)
    (hvalid : dialect.validate = .ok ())
    (hlacks : World.Lacks {base.metadataPlace} full bare)
    (hknown : full.metadata base.path = .ok (some (metadataOf dialect))) :
    job.CondonesFamily bare full base.path := by
  have hname := base.fileName?_eq
  have hlost := @Base.getLast?_metadataPlace base
  have htree := hlacks.tree
  refine condonesFamily_of_base hname hlost (Family.active_of_lacks htree hname hlost).symm
    (fun _ => (Family.target_of_lacks htree hname hlost _).symm)
    (Family.members_of_lacks htree hname hlost).symm ⟨?_, fun known hbareKnown => ?_⟩ fun path hpath =>
      ⟨(htree.node?_eq hpath).symm, fun hmetadata => (hlacks.metadata_eq hmetadata).symm⟩
  · exact (htree.node?_eq (Family.base_notMem hname hlost)).symm
  · rw [hlacks.metadata_eq_none Base.destination_metadata, Except.ok.injEq] at hbareKnown
    refine ⟨some (metadataOf dialect), hknown, fun _ => .inr ⟨?_, fun _ codec hcodec => ?_⟩⟩
    · rw [hmedium, ← hbareKnown]
      refine ⟨?_, fun _ => Delimited.checkMarks_metadataOf _ _ _⟩
      rw [Delimited.storedDialect_metadataOf hvalid]
      rfl
    · rw [hmedium] at hcodec
      cases hcodec

end Job

namespace Prepared

variable {prepared : Prepared} {job : Job} {lost : Set Location} {full bare after : World}
  {name : String} (hname : job.options.target.fileName? = some name)
  (htarget : job.options.target.Descends)

include hname htarget

/-- What is written without these metadata is written with them. -/
theorem exists_commit_full (hfull : full.tree.WellFormed) (hbare : bare.tree.WellFormed)
    (hlacks : World.Lacks lost full bare)
    (hapart : ∀ location ∈ lost, ¬ location <+: job.options.place prepared.key)
    (hpath : destination prepared.path ∉ lost)
    (hscratch : destination (prepared.path.besides Metadata.temporaryEnding) ∉ lost)
    (htemporary : destination ((Metadata.path prepared.path).besides Metadata.temporaryEnding) ∉ lost)
    {action : Action} (hcommit : run (prepared.commit job) bare = (.ok action, after)) :
    ∃ left ⊆ lost, ∃ later, run (prepared.commit job) full = (.ok action, later) ∧
      World.Lacks left later after := by
  cases hrows : prepared.survivors.isEmpty with
  | true =>
    rw [run_commit_of_isEmpty hrows, Prod.mk.injEq] at hcommit
    obtain ⟨haction, rfl⟩ := hcommit
    exact ⟨lost, subset_rfl, full, haction ▸ run_commit_of_isEmpty hrows full, hlacks⟩
  | false =>
    obtain ⟨tree, metadata, written, hmade, hwritten, hrecorded, haction⟩ :=
      (commit_eq_ok_iff hrows).mp hcommit
    have hdirectory := Options.trimmed_directoryOf hname prepared.key
    obtain ⟨made, hmadeFull, hstill⟩ := hlacks.tree.makeDirectories_full hfull hbare
      (Options.descends_directoryOf hname htarget prepared.key) hdirectory.1 hdirectory.2 hapart hmade
    have hmadeLacks : World.Lacks lost { full with tree := made } { bare with tree } :=
      ⟨hlacks.files, hlacks.bareFiles, hstill⟩
    obtain ⟨other, hother, hotherLacks⟩ := (job.medium.mirrors_write hpath hscratch _ _).full
      { bare with tree } { full with tree := made } hmadeLacks metadata written hwritten
    obtain ⟨later, hlater, hlaterLacks⟩ := (World.mirrors_recordMetadata htemporary metadata).full
      written other hotherLacks () after hrecorded
    exact ⟨_, Set.sdiff_subset, later, (commit_eq_ok_iff hrows).mpr
      ⟨made, metadata, other, hmadeFull, hother, hlater, haction⟩, hlaterLacks⟩

end Prepared

/-! ## One step -/

namespace Job

section Committing

variable {job : Job} {name : String} (hname : job.options.target.fileName? = some name)
  (htarget : job.options.target.Descends) {bucket : Bucket} {listed : Path}
  (hlisted : (job.options.basePath bucket.key).directory.listed? = some listed)
  (hextension : (job.options.basePath bucket.key).extension? ≠ some Metadata.extension)
  {world after : World} (hworld : world.tree.WellFormed) (hledger : world.ledger = none)

include hlisted hextension hworld hledger

/-- Rows go to the place of a member. -/
theorem location_of_prepare (hmode : job.mode = .real) {count : ℕ} (hcount : count ≤ UInt64.size)
    (hholds : Family.Holds world.tree (job.options.family hname htarget bucket.key) count)
    {prepared : Prepared} (hprepared : job.prepare world bucket = .ok prepared) :
    ∃ number, prepared.path.location = job.options.place bucket.key ++
      [(job.options.family hname htarget bucket.key).memberName number] := by
  obtain ⟨file, remarks, layout, checked, survivors, antiJoined, compared, hlocate, -, -, rfl⟩ :=
    prepare_eq_ok_iff.mp hprepared
  obtain ⟨number, -, ⟨-, hpath, -⟩ | ⟨-, hpath, -⟩⟩ := @chooses_of_locate _ _
    (job.options.family hname htarget bucket.key) _ hholds hworld hledger _ hlisted hmode hextension
    hcount _ _ hlocate
  · refine ⟨number, ?_⟩
    dsimp only
    rw [hpath]
    exact @Base.location_found (job.options.family hname htarget bucket.key) _ hlisted number
  · refine ⟨count, ?_⟩
    dsimp only
    rw [hpath]
    exact Base.location_member _ _

variable {dialect : Dialect} {keys : List String} (hjob : job.DropsStored dialect keys)
  (hbucket : bucket.rows.Keyed keys) {tables : List Batch} (hcount : tables.length ≤ UInt64.size)
  (hfamily : Family.StoresTables dialect keys world.tree
    (job.options.family hname htarget bucket.key) tables)
  {prepared : Prepared} (hprepared : job.prepare world bucket = .ok prepared)
  {action : Action} (hcommit : run (prepared.commit job) world = (.ok action, after))

include hjob hbucket hcount hfamily hprepared hcommit

/-- When a partition is written, the keys come to its tables that were not there, whether or not the
metadata of its base file are recorded. -/
theorem exists_stores_of_commit :
    ∃ others, others.length ≤ tables.length + 1 ∧
      Family.StoresTables dialect keys after.tree (job.options.family hname htarget bucket.key) others ∧
      (others.flatMap (keysOn keys)).Perm (tables.flatMap (keysOn keys) ++
        ((Delimited.storedForm bucket.rows).keysOn keys).filter fun key =>
          !(tables.flatMap (keysOn keys)).contains key) := by
  cases hfamily with
  | recorded hholds =>
    obtain ⟨others, hlength, hheld, hperm⟩ := exists_tables_of_commit hname htarget hjob hlisted
      hextension hbucket hworld hledger hcount hholds hprepared hcommit
    exact ⟨others, hlength, .recorded hheld, hperm⟩
  | unrecorded hnone hholds =>
    -- The same is done in the world in which the metadata are recorded.
    let base := job.options.family hname htarget bucket.key
    let full : World := { world with tree := base.recorded dialect world.tree }
    have hfull : full.tree.WellFormed := hholds.wellFormed_recorded hworld hnone
    have hlacks : World.Lacks {base.metadataPlace} full world :=
      Family.HoldsTables.lacks_recorded hworld hledger hnone
    have hknown : full.metadata base.path = .ok (some (metadataOf dialect)) :=
      @Family.HoldsTables.metadata_found dialect keys base tables full hholds hfull hledger listed
        hlisted 0 hholds.base_of_recorded.1
    obtain ⟨again, hagain, halike⟩ := prepare_of_condones hjob.mode
      (condonesFamily_of_unrecorded hjob.medium hjob.valid hlacks hknown) hprepared
    obtain ⟨number, hnumber⟩ := @location_of_prepare job name hname htarget bucket listed hlisted
      hextension full hfull hledger hjob.mode _ hcount hholds.holds again hagain
    rw [halike.path] at hnumber
    obtain ⟨hkey, hpath, -⟩ := prepare_spec hname htarget hworld hprepared
    have hmetadata := Path.liesIn_metadata hpath
    -- What is written has another name than the metadata of the base file.
    have hapart : ∀ ending ∈ Family.endings, ending ≠ Metadata.ending →
        job.options.place bucket.key ++ [base.memberName number ++ ending] ∉
          ({base.metadataPlace} : Set Location) := by
      intro ending hending hne hmem
      exact @Base.ne_metadataPlace base number ending hending (.inl hne) (Set.mem_singleton_iff.mp hmem)
    have habove : ∀ location ∈ ({base.metadataPlace} : Set Location),
        ¬ location <+: job.options.place prepared.key := by
      intro location hlocation hbelow
      rw [hkey, Set.mem_singleton_iff.mp hlocation] at hbelow
      simpa [Base.metadataPlace, base, Options.family] using hbelow.length_le
    have hdata : destination prepared.path ∉ ({base.metadataPlace} : Set Location) := by
      have hempty := hapart "" (by decide) (by decide)
      rwa [String.append_empty, ← hnumber, ← FileTree.destination_of_descends hpath.1] at hempty
    have hscratch : destination (prepared.path.besides Metadata.temporaryEnding) ∉
        ({base.metadataPlace} : Set Location) := by
      rw [FileTree.destination_of_descends hpath.temporary.1, hpath.temporary_location hnumber]
      exact hapart _ (by decide) (by decide)
    have htemporary : destination ((Metadata.path prepared.path).besides Metadata.temporaryEnding) ∉
        ({base.metadataPlace} : Set Location) := by
      rw [FileTree.destination_of_descends hmetadata.temporary.1,
        hpath.metadata_temporary_location hnumber]
      exact hapart _ (by decide) (by decide)
    obtain ⟨left, hleft, later, hlater, hlaterLacks⟩ := Prepared.exists_commit_full hname htarget hfull
      hworld hlacks habove hdata hscratch htemporary hcommit
    rw [← Prepared.commit_eq_of_alike halike] at hlater
    obtain ⟨others, hlength, hheld, hperm⟩ := @exists_tables_of_commit job name hname htarget dialect
      keys hjob bucket listed hlisted hextension hbucket full later hfull hledger tables hcount hholds
      again hagain _ hlater
    exact ⟨others, hlength, hheld.stores_of_lacks hlaterLacks hleft, hperm⟩

end Committing

end Job

end TableAppend
