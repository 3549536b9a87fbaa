import TableAppend.Proofs.World.Kept

/-!
# Writing in worlds that agree

Where two worlds have the same files and metadata in a directory, what is written there in one of them
is written in the other as well, and they still have the same files and metadata there.  Outside the
directory nothing is different.
-/

namespace TableAppend

open Change (run run_onTree_eq_ok_iff)
open FileTree (Admits FilePut)
open TableAppend.Path (LiesIn)

namespace World

/-- Two worlds with the same files and metadata at a location and below it. -/
structure Agree (place : Location) (first second : World) : Prop where
  get?_eq : ∀ other, place <+: other → second.tree.get? other = first.tree.get? other
  lookup_eq : ∀ path : Path, place <+: path.location →
    second.ledger.map (fun ledger => ledger.lookup path) =
      first.ledger.map (fun ledger => ledger.lookup path)

/-- Nothing is different but at a location and below it. -/
structure ChangedBelow (place : Location) (before after : World) : Prop where
  wellFormed : after.tree.WellFormed
  get?_eq : ∀ other, ¬ place <+: other → after.tree.get? other = before.tree.get? other
  lookup_eq : ∀ path : Path, ¬ place <+: path.location →
    after.ledger.map (fun ledger => ledger.lookup path) =
      before.ledger.map (fun ledger => ledger.lookup path)

variable {place : Location} {world first second third : World}

theorem SameBelow.agree (hsame : SameBelow place first second) : Agree place first second :=
  ⟨hsame.get?_eq, hsame.lookup_eq⟩

theorem Agree.refl (place : Location) (world : World) : Agree place world world :=
  ⟨fun _ _ => rfl, fun _ _ => rfl⟩

theorem Agree.symm (hagree : Agree place first second) : Agree place second first :=
  ⟨fun other hother => (hagree.get?_eq other hother).symm,
    fun path hpath => (hagree.lookup_eq path hpath).symm⟩

theorem Agree.trans (hfirst : Agree place first second) (hsecond : Agree place second third) :
    Agree place first third :=
  ⟨fun other hother => (hsecond.get?_eq other hother).trans (hfirst.get?_eq other hother),
    fun path hpath => (hsecond.lookup_eq path hpath).trans (hfirst.lookup_eq path hpath)⟩

theorem ChangedBelow.trans (hfirst : ChangedBelow place first second)
    (hsecond : ChangedBelow place second third) : ChangedBelow place first third :=
  ⟨hsecond.wellFormed,
    fun other hother => (hsecond.get?_eq other hother).trans (hfirst.get?_eq other hother),
    fun path hpath => (hsecond.lookup_eq path hpath).trans (hfirst.lookup_eq path hpath)⟩

/-! ## A file that is put -/

theorem changedBelow_of_filePut {tree : FileTree} {path : Path} (hpath : path.LiesIn place)
    {content : Content} {gone : List Location}
    (hput : FilePut world.tree tree path.location content gone)
    (hgone : ∀ other ∈ gone, place <+: other) :
    ChangedBelow place world { world with tree } := by
  refine ⟨hput.wellFormed, ?_, fun _ _ => rfl⟩
  intro other hother
  refine (hput.get?_eq other).trans ?_
  have hplace : other ≠ path.location := by
    rintro rfl
    exact hother hpath.prefix_location
  rw [if_neg hplace, if_neg fun hmem => hother (hgone other hmem)]

theorem Agree.filePut {firstTree secondTree : FileTree} (hagree : Agree place first second)
    {at_ : Location} {content : Content} {gone : List Location}
    (hfirst : FilePut first.tree firstTree at_ content gone)
    (hsecond : FilePut second.tree secondTree at_ content gone) :
    Agree place { first with tree := firstTree } { second with tree := secondTree } := by
  refine ⟨?_, hagree.lookup_eq⟩
  intro other hother
  refine (hsecond.get?_eq other).trans (Eq.trans ?_ (hfirst.get?_eq other).symm)
  rw [hagree.get?_eq other hother]

theorem Agree.node?_eq (hagree : Agree place first second) (hfirst : first.tree.WellFormed)
    (hsecond : second.tree.WellFormed) {path : Path} (hpath : path.LiesIn place) :
    second.tree.node? path = first.tree.node? path := by
  apply Option.ext
  intro node
  rw [FileTree.node?_eq_some_iff hsecond hpath.1, FileTree.node?_eq_some_iff hfirst hpath.1,
    hagree.get?_eq _ hpath.prefix_location]

theorem Agree.admits (hagree : Agree place first second) {path : Path} (hpath : path.LiesIn place)
    (hadmits : first.tree.Admits path) : second.tree.Admits path := by
  refine ⟨hadmits.usable, hadmits.endsInName, ?_⟩
  rw [hagree.get?_eq _ hpath.prefix_location]
  exact hadmits.notDirectory

end World

open World (Agree ChangedBelow)

/-! ## Rows -/

namespace Columnar

variable {first second : FileTree} {path : Path} {rows all : Batch} {layout : Layout}

theorem exists_node?_of_readTable {table : Table} (hread : readTable first path = .ok table) :
    ∃ encoded, first.node? path = some (.file (.table ⟨table, encoded⟩)) := by
  rw [readTable] at hread
  split at hread
  · contradiction
  · contradiction
  · rename_i there saved hfind
    obtain rfl := Except.ok.inj hread
    exact ⟨saved.encoded, FileTree.node?_eq_some_iff_find.mpr ⟨there, hfind⟩⟩
  · contradiction

variable (hnode : second.node? path = first.node? path)

include hnode

theorem readTable_congr {table : Table} (hread : readTable first path = .ok table) :
    readTable second path = .ok table := by
  obtain ⟨encoded, hbefore⟩ := exists_node?_of_readTable hread
  exact readTable_of_node? (hnode.trans hbefore)

theorem allRows_congr (hall : allRows first path rows layout = .ok all) :
    allRows second path rows layout = .ok all := by
  rw [allRows] at hall ⊢
  split at hall
  · exact hall
  · exact hall
  · obtain ⟨table, hread, hrest⟩ := Outcome.bind_eq_ok_iff.mp hall
    rw [readTable_congr hnode hread, Outcome.ok_bind]
    exact hrest

theorem keptSchema_congr {schema : Schema} (hschema : keptSchema first path layout = .ok schema) :
    keptSchema second path layout = .ok schema := by
  rw [keptSchema] at hschema ⊢
  split at hschema
  · exact hschema
  · obtain ⟨table, hread, hresult⟩ := Outcome.map_eq_ok_iff.mp hschema
    rw [readTable_congr hnode hread, Outcome.map_ok, hresult]
  · exact hschema

end Columnar

namespace Medium

variable {medium : Medium} {world after first second : World} {path : Path} {place : Location}
  {rows : Batch} {layout : Layout} {content : Content} {metadata : Metadata}

theorem liesIn_of_mem_scratch (hpath : path.LiesIn place) {temporary : Path}
    (hmem : temporary ∈ medium.scratch path) : temporary.LiesIn place :=
  medium.eq_of_mem_scratch hmem ▸ hpath.temporary

theorem stores_congr (hnode : second.tree.node? path = first.tree.node? path)
    (hstores : medium.Stores first.tree path rows layout content metadata) :
    medium.Stores second.tree path rows layout content metadata := by
  cases medium with
  | delimited dialect =>
    obtain ⟨hmetadata, hcontent⟩ := hstores
    refine ⟨hmetadata, ?_⟩
    cases hlayout : layout.columns with
    | none => simpa only [hlayout] using hcontent
    | some header => simpa only [hlayout, hnode] using hcontent
  | columnar codec =>
    obtain ⟨present, all, schema, hcodec, hall, hschema, hsave, hmetadata⟩ := hstores
    exact ⟨present, all, schema, hcodec, Columnar.allRows_congr hnode hall,
      Columnar.keptSchema_congr hnode hschema, hsave, hmetadata⟩

variable (hworld : world.tree.WellFormed) (hpath : path.LiesIn place)

include hworld hpath

/-- What it takes to write rows in a directory that is there, and what is there afterwards. -/
theorem write_spec (hdirectory : world.tree.isDirectoryAt place = true)
    (hstores : medium.Stores world.tree path rows layout content metadata)
    (hadmits : world.tree.Admits path)
    (hscratch : ∀ temporary ∈ medium.scratch path, world.tree.Admits temporary) :
    ∃ tree, run (medium.write path rows layout) world = (.ok metadata, { world with tree }) ∧
      FilePut world.tree tree path.location content ((medium.scratch path).map Path.location) := by
  cases medium with
  | delimited dialect =>
    obtain ⟨rfl, hcontent⟩ := hstores
    cases hlayout : layout.columns with
    | none =>
      simp only [hlayout] at hcontent
      rw [hcontent]
      exact ⟨_, (Delimited.write_new_eq_ok_iff hworld hpath hlayout).mpr
        ⟨hadmits, hdirectory, rfl, rfl⟩,
        FileTree.filePut_putFile hworld hpath hdirectory hadmits.notDirectory _⟩
    | some header =>
      simp only [hlayout] at hcontent
      obtain ⟨old, ordered, hnode, hordered, rfl⟩ := hcontent
      exact ⟨_, (Delimited.write_added_eq_ok_iff hpath hlayout hnode).mpr
        ⟨ordered, hordered, rfl, rfl⟩,
        FileTree.filePut_putFile hworld hpath hdirectory hadmits.notDirectory _⟩
  | columnar codec =>
    obtain ⟨present, all, schema, hcodec, hall, hschema, hsave, hmetadata⟩ := hstores
    have htemporary := hscratch _ List.mem_cons_self
    exact ⟨_, (Columnar.write_eq_ok_iff hworld hpath).mpr ⟨present, all, schema, content, hcodec,
      hall, hschema, hsave, htemporary, hadmits, hdirectory, hmetadata, rfl⟩,
      Change.filePut_replaced hworld hpath htemporary hadmits hdirectory⟩

omit hworld in
/-- What is written in one world is written in another one that agrees with it. -/
theorem write_transfer (hagree : Agree place first second) (hfirst : first.tree.WellFormed)
    (hsecond : second.tree.WellFormed) (hdirectory : second.tree.isDirectoryAt place = true)
    (hrun : run (medium.write path rows layout) first = (.ok metadata, after)) :
    ∃ later, run (medium.write path rows layout) second = (.ok metadata, later) ∧
      Agree place after later ∧ ChangedBelow place second later := by
  obtain ⟨tree, content, hstores, hadmits, hscratch, hput, rfl⟩ :=
    medium.filePut_of_write hfirst hpath hrun
  obtain ⟨later, hlater, hputLater⟩ := write_spec hsecond hpath hdirectory
    (stores_congr (hagree.node?_eq hfirst hsecond hpath) hstores) (hagree.admits hpath hadmits)
    (fun temporary hmem => hagree.admits (liesIn_of_mem_scratch hpath hmem)
      (hscratch temporary hmem))
  refine ⟨_, hlater, hagree.filePut hput hputLater, World.changedBelow_of_filePut hpath hputLater ?_⟩
  intro other hother
  obtain ⟨temporary, hmem, rfl⟩ := List.mem_map.mp hother
  exact (liesIn_of_mem_scratch hpath hmem).prefix_location

end Medium

/-! ## Metadata -/

namespace World

variable {first second after : World} {path : Path} {place : Location} {metadata : Metadata}

theorem changedBelow_of_record {world : World} (hworld : world.tree.WellFormed) {ledger : Ledger}
    (hledger : world.ledger = some ledger) (hpath : path.LiesIn place) (metadata : Metadata) :
    ChangedBelow place world { world with ledger := some (ledger.record path metadata) } := by
  refine ⟨hworld, fun _ _ => rfl, ?_⟩
  intro other hother
  have hne : ¬ path.same other = true := by
    intro hsame
    exact hother (Path.location_eq_of_same hsame ▸ hpath.prefix_location)
  rw [hledger, Option.map_some, Option.map_some, Ledger.lookup_record, if_neg hne]

theorem record_transfer (hagree : Agree place first second) (hfirst : first.tree.WellFormed)
    (hsecond : second.tree.WellFormed) (hdirectory : second.tree.isDirectoryAt place = true)
    (hpath : path.LiesIn place)
    (hrun : (recordMetadata path metadata).run first = (.ok (), after)) :
    ∃ later, (recordMetadata path metadata).run second = (.ok (), later) ∧
      Agree place after later ∧ ChangedBelow place second later := by
  have hmetadata := Path.liesIn_metadata hpath
  have hlookup := hagree.lookup_eq path hpath.prefix_location
  cases hledger : first.ledger with
  | none =>
    have hnone : second.ledger = none := by
      rwa [hledger, Option.map_none, Option.map_eq_none_iff] at hlookup
    rw [recordMetadata_of_files hledger] at hrun
    rw [recordMetadata_of_files hnone]
    obtain ⟨htemporary, hadmits, habove, rfl⟩ :=
      (Change.replace_eq_ok_iff hfirst hmetadata).mp hrun
    have htemporaryLater := hagree.admits hmetadata.temporary htemporary
    have hadmitsLater := hagree.admits hmetadata hadmits
    have hput := @Change.filePut_replaced _ _ (.bytes (Utf8.encode metadata.toText)) _ hfirst
      hmetadata htemporary hadmits habove
    have hputLater := @Change.filePut_replaced _ _ (.bytes (Utf8.encode metadata.toText)) _ hsecond
      hmetadata htemporaryLater hadmitsLater hdirectory
    refine ⟨_, (Change.replace_eq_ok_iff hsecond hmetadata).mpr
      ⟨htemporaryLater, hadmitsLater, hdirectory, rfl⟩, hagree.filePut hput hputLater,
      changedBelow_of_filePut hmetadata hputLater ?_⟩
    intro other hother
    rw [List.mem_singleton] at hother
    exact hother ▸ hmetadata.temporary.prefix_location
  | some ledger =>
    obtain ⟨other, hother, -⟩ : ∃ other, second.ledger = some other ∧
        other.lookup path = ledger.lookup path := by
      rwa [hledger, Option.map_some, Option.map_eq_some_iff] at hlookup
    rw [recordMetadata_of_ledger hledger, Prod.mk.injEq] at hrun
    rw [recordMetadata_of_ledger hother, ← hrun.2]
    refine ⟨_, rfl, ⟨hagree.get?_eq, ?_⟩, changedBelow_of_record hsecond hother hpath metadata⟩
    intro found hfound
    have hbefore := hagree.lookup_eq found hfound
    rw [hledger, hother, Option.map_some, Option.map_some, Option.some.injEq] at hbefore
    rw [Option.map_some, Option.map_some, Ledger.lookup_record, Ledger.lookup_record, hbefore]

end World

end TableAppend
