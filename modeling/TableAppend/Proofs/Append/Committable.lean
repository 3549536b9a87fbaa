import TableAppend.Proofs.Append.Commit
import TableAppend.Proofs.Append.Layouts
import TableAppend.Proofs.Columnar.Encoding

/-!
# When what is prepared can be written

A preparation looks at the file that receives rows and at stored rows.  Writing them needs more: a way
to the directory, room for the metadata file and for temporary files, and stored types that hold all
values.  `Committable` names these conditions, and `commit_succeeds_iff` says that they are exactly
what it takes.
-/

namespace TableAppend

open Change (run)
open FileTree (Admits IsUsable)
open TableAppend.Path (LiesIn)

/-! ## Conditions for writing -/

/-- The stored types of a columnar file hold the stored rows together with the new ones. -/
def Prepared.Encodes (prepared : Prepared) (tree : FileTree) : Prop :=
  ∃ all schema table, Columnar.allRows tree prepared.path prepared.survivors prepared.layout =
      .ok all ∧
    Columnar.keptSchema tree prepared.path prepared.layout = .ok schema ∧
    Table.encode schema all = .ok table

/-- Nothing is in the way of writing what is prepared for a partition. -/
structure Prepared.Committable (prepared : Prepared) (job : Job) (tree : FileTree) : Prop where
  usable : IsUsable (job.options.directoryOf prepared.key)
  passable : tree.Passable (job.options.place prepared.key)
  data : tree.Admits prepared.path
  metadata : tree.Admits (Metadata.path prepared.path)
  temporary : tree.Admits ((Metadata.path prepared.path).besides Metadata.temporaryEnding)
  columnar : ∀ codec, job.medium = .columnar codec →
    tree.Admits (prepared.path.besides Metadata.temporaryEnding) ∧ prepared.Encodes tree

theorem FileTree.admits_congr {before after : FileTree} {path : Path}
    (hdirectory : after.get? path.location = some .directory ↔
      before.get? path.location = some .directory) : after.Admits path ↔ before.Admits path := by
  constructor
  · rintro ⟨husable, hend, hnot⟩
    exact ⟨husable, hend, fun h => hnot (hdirectory.mpr h)⟩
  · rintro ⟨husable, hend, hnot⟩
    exact ⟨husable, hend, fun h => hnot (hdirectory.mp h)⟩

theorem FileTree.FilePut.admits_iff {before after : FileTree} {place : Location}
    {content : Content} {gone : List Location} (hput : FilePut before after place content gone)
    (path : Path) : after.Admits path ↔ before.Admits path :=
  admits_congr (hput.directory_iff path.location)

/-- Making a directory changes nothing in it. -/
theorem FileTree.DirectoryMade.get?_in {before after : FileTree} {place : Location}
    (hmade : DirectoryMade before after place) {path : Path} (hpath : path.LiesIn place) :
    after.get? path.location = before.get? path.location := by
  obtain ⟨-, name, -, hlocation⟩ := hpath
  rw [hmade.get?_eq, if_neg]
  intro hupper
  rw [hlocation] at hupper
  simpa using hupper.length_le

theorem FileTree.DirectoryMade.admits_iff {before after : FileTree} {place : Location}
    (hmade : DirectoryMade before after place) {path : Path} (hpath : path.LiesIn place) :
    after.Admits path ↔ before.Admits path :=
  admits_congr (by rw [hmade.get?_in hpath])

theorem FileTree.DirectoryMade.node?_in {before after : FileTree} {place : Location}
    (hbefore : before.WellFormed) (hmade : DirectoryMade before after place) {path : Path}
    (hpath : path.LiesIn place) : after.node? path = before.node? path := by
  apply Option.ext
  intro node
  rw [node?_eq_some_iff hmade.wellFormed hpath.1, node?_eq_some_iff hbefore hpath.1,
    hmade.get?_in hpath]

/-- The layout of a columnar file needs no second look at the file. -/
def Layout.Complete (layout : Layout) : Prop :=
  layout = .new ∨ ∃ stored schema, layout = ⟨some stored.columns, some stored, some schema⟩

theorem Columnar.complete_of_check {tree : FileTree} {codec : Option Codec} {path : Path}
    {metadata : Option Metadata} {rows : Batch} {layout : Layout}
    (hcheck : check tree codec path metadata rows = .ok layout) : layout.Complete := by
  obtain ⟨-, -, table, -, stored, -, -, -, hlayout⟩ := check_eq_ok_iff.mp hcheck
  exact .inr ⟨stored, table.schema, hlayout⟩

theorem Prepared.encodes_congr {prepared : Prepared} (hcomplete : prepared.layout.Complete)
    (first second : FileTree) : prepared.Encodes first ↔ prepared.Encodes second := by
  have hall : Columnar.allRows first prepared.path prepared.survivors prepared.layout =
      Columnar.allRows second prepared.path prepared.survivors prepared.layout := by
    rcases hcomplete with h | ⟨stored, schema, h⟩ <;> rw [h] <;> rfl
  have hschema : Columnar.keptSchema first prepared.path prepared.layout =
      Columnar.keptSchema second prepared.path prepared.layout := by
    rcases hcomplete with h | ⟨stored, schema, h⟩ <;> rw [h] <;> rfl
  rw [Encodes, Encodes, hall, hschema]

theorem Job.complete_of_prepare {job : Job} {world : World} {bucket : Bucket}
    {prepared : Prepared} {codec : Option Codec} (hmode : job.mode = .real)
    (hmedium : job.medium = .columnar codec) (hprepared : job.prepare world bucket = .ok prepared) :
    prepared.layout.Complete := by
  obtain ⟨file, found, layout, checked, survivors, antiJoined, compared, -, hlayout, -, rfl⟩ :=
    prepare_eq_ok_iff.mp hprepared
  rcases ((layoutFor_real_eq_ok_iff hmode).mp hlayout).2 with ⟨-, rfl⟩ | ⟨-, hcheck⟩
  · exact .inl rfl
  · rw [hmedium] at hcheck
    exact Columnar.complete_of_check hcheck

/-- Worlds that agree in the directory of a partition admit the same writing of it. -/
theorem Prepared.Committable.congr {prepared : Prepared} {job : Job} {before after : World}
    (hsame : World.SameBelow (job.options.place prepared.key) before after)
    (hpassable : before.tree.Passable (job.options.place prepared.key) →
      after.tree.Passable (job.options.place prepared.key))
    (hpath : prepared.path.LiesIn (job.options.place prepared.key))
    (hcomplete : ∀ codec, job.medium = .columnar codec → prepared.layout.Complete)
    (hbefore : prepared.Committable job before.tree) : prepared.Committable job after.tree := by
  have hmetadata := Path.liesIn_metadata hpath
  have hadmits : ∀ {path : Path}, path.LiesIn (job.options.place prepared.key) →
      before.tree.Admits path → after.tree.Admits path := by
    intro path hlies
    exact (FileTree.admits_congr (by rw [hsame.get?_eq _ hlies.prefix_location])).mpr
  refine ⟨hbefore.usable, hpassable hbefore.passable, hadmits hpath hbefore.data,
    hadmits hmetadata hbefore.metadata, hadmits hmetadata.temporary hbefore.temporary, ?_⟩
  intro codec hmedium
  obtain ⟨htemporary, hencodes⟩ := hbefore.columnar codec hmedium
  exact ⟨hadmits hpath.temporary htemporary,
    (encodes_congr (hcomplete codec hmedium) before.tree after.tree).mp hencodes⟩

/-! ## What it takes to write -/

section Success

variable {job : Job} {world : World} {place : Location} {prepared : Prepared}

/-- What it takes to write rows in a directory that is there. -/
theorem write_succeeds_iff (hworld : world.tree.WellFormed)
    (hdirectory : world.tree.isDirectoryAt place = true) (hpath : prepared.path.LiesIn place)
    (hcodec : ∀ codec, job.medium = .columnar codec →
      ∃ encoding, codec = some (.standard encoding))
    (hcolumns : prepared.survivors.columns.Nodup)
    (hfits : prepared.layout.Fits prepared.survivors.columns)
    (hpresent : prepared.layout.columns.isSome = true →
      ∃ content, world.tree.node? prepared.path = some (.file content)) :
    (∃ metadata after, run (job.medium.write prepared.path prepared.survivors prepared.layout)
        world = (.ok metadata, after)) ↔
      world.tree.Admits prepared.path ∧ ∀ codec, job.medium = .columnar codec →
        world.tree.Admits (prepared.path.besides Metadata.temporaryEnding) ∧
          prepared.Encodes world.tree := by
  cases hmedium : job.medium with
  | delimited dialect =>
    have htriv : ∀ codec, Medium.delimited dialect = .columnar codec →
        world.tree.Admits (prepared.path.besides Metadata.temporaryEnding) ∧
          prepared.Encodes world.tree := by
      intro codec h
      contradiction
    cases hlayout : prepared.layout.columns with
    | none =>
      constructor
      · rintro ⟨metadata, after, hrun⟩
        exact ⟨((Delimited.write_new_eq_ok_iff hworld hpath hlayout).mp hrun).1, htriv⟩
      · rintro ⟨hadmits, -⟩
        exact ⟨_, _, (Delimited.write_new_eq_ok_iff hworld hpath hlayout).mpr
          ⟨hadmits, hdirectory, rfl, rfl⟩⟩
    | some header =>
      obtain ⟨content, hnode⟩ := hpresent (by rw [hlayout]; rfl)
      constructor
      · rintro -
        obtain ⟨husable, hget, hend⟩ := (FileTree.node?_eq_some_iff hworld hpath.1).mp hnode
        exact ⟨⟨husable, hend.resolve_left (by simp), by rw [hget]; simp⟩, htriv⟩
      · rintro -
        obtain ⟨hlength, hcontained⟩ := hfits header hlayout
        have hproject : ∃ ordered, prepared.survivors.project header = .ok ordered := by
          rw [Batch.project, if_pos (Batch.hasColumns_of_contained hcolumns hlength hcontained)]
          exact ⟨_, rfl⟩
        obtain ⟨ordered, hordered⟩ := hproject
        exact ⟨_, _, (Delimited.write_added_eq_ok_iff hpath hlayout hnode).mpr
          ⟨ordered, hordered, rfl, rfl⟩⟩
  | columnar codec =>
    obtain ⟨encoding, rfl⟩ := hcodec codec hmedium
    constructor
    · rintro ⟨metadata, after, hrun⟩
      obtain ⟨present, all, schema, content, hpresent, hall, hschema, hsave, htemporary, hadmits,
        -, -, -⟩ := (Columnar.write_eq_ok_iff hworld hpath).mp hrun
      obtain rfl := Option.some.inj hpresent
      obtain ⟨table, htable, -⟩ := Codec.save_standard_eq_ok_iff.mp hsave
      exact ⟨hadmits, fun _ _ => ⟨htemporary, all, schema, table, hall, hschema, htable⟩⟩
    · rintro ⟨hadmits, hrest⟩
      obtain ⟨htemporary, all, schema, table, hall, hschema, htable⟩ := hrest _ rfl
      exact ⟨_, _, (Columnar.write_eq_ok_iff hworld hpath).mpr ⟨_, all, schema, .table ⟨table, _⟩, rfl,
        hall, hschema, Codec.save_standard_eq_ok_iff.mpr ⟨table, htable, rfl⟩, htemporary, hadmits,
        hdirectory, rfl, rfl⟩⟩

/-- What it takes to record metadata in a file. -/
theorem record_succeeds_iff (hworld : world.tree.WellFormed) (hledger : world.ledger = none)
    (hdirectory : world.tree.isDirectoryAt place = true) {path : Path} (hpath : path.LiesIn place)
    (metadata : Metadata) :
    (∃ after, run (World.recordMetadata path metadata) world = (.ok (), after)) ↔
      world.tree.Admits (Metadata.path path) ∧
        world.tree.Admits ((Metadata.path path).besides Metadata.temporaryEnding) := by
  have hmetadata := Path.liesIn_metadata hpath
  constructor
  · rintro ⟨after, hrun⟩
    obtain ⟨htemporary, hadmits, -⟩ :=
      World.exists_filePut_of_recordMetadata hledger hworld hpath hrun
    exact ⟨hadmits, htemporary⟩
  · rintro ⟨hadmits, htemporary⟩
    have hreplace := (@Change.replace_eq_ok_iff _ _ _ _ (.bytes (Utf8.encode metadata.toText))
      hworld hmetadata).mpr ⟨htemporary, hadmits, hdirectory, rfl⟩
    exact ⟨_, (World.recordMetadata_of_files hledger path metadata).trans hreplace⟩

/-- After a directory has been made, rows are written in it under the conditions known before. -/
theorem write_succeeds_iff_of_made {tree : FileTree} (hworld : world.tree.WellFormed)
    (hmade : FileTree.DirectoryMade world.tree tree place) (hpath : prepared.path.LiesIn place)
    (hcodec : ∀ codec, job.medium = .columnar codec →
      ∃ encoding, codec = some (.standard encoding))
    (hcomplete : ∀ codec, job.medium = .columnar codec → prepared.layout.Complete)
    (hcolumns : prepared.survivors.columns.Nodup)
    (hfits : prepared.layout.Fits prepared.survivors.columns)
    (hpresent : prepared.layout.columns.isSome = true →
      ∃ content, world.tree.node? prepared.path = some (.file content)) :
    (∃ metadata written, run (job.medium.write prepared.path prepared.survivors prepared.layout)
        { world with tree } = (.ok metadata, written)) ↔
      world.tree.Admits prepared.path ∧ ∀ codec, job.medium = .columnar codec →
        world.tree.Admits (prepared.path.besides Metadata.temporaryEnding) ∧
          prepared.Encodes world.tree := by
  rw [← hmade.node?_in hworld hpath] at hpresent
  rw [@write_succeeds_iff _ { world with tree } _ _ hmade.wellFormed hmade.isDirectoryAt hpath
    hcodec hcolumns hfits hpresent, hmade.admits_iff hpath, hmade.admits_iff hpath.temporary]
  refine and_congr_right fun _ => forall_congr' fun codec => forall_congr' fun hmedium => ?_
  rw [Prepared.encodes_congr (hcomplete codec hmedium) tree world.tree]

/-- Neither making the directory nor writing the rows matters to other files. -/
theorem Prepared.Placed.admits_iff {before tree data : FileTree} {content : Content}
    {metadata : Metadata} (hplaced : prepared.Placed job before tree data content metadata)
    {path : Path} (hlies : path.LiesIn (job.options.place prepared.key)) :
    data.Admits path ↔ before.Admits path :=
  (hplaced.put.admits_iff path).trans (hplaced.made.admits_iff hlies)

/-- Where rows are in place, it takes no more than before to record their metadata. -/
theorem record_succeeds_iff_of_placed {tree data : FileTree} {content : Content}
    {metadata : Metadata} (hledger : world.ledger = none)
    (hpath : prepared.path.LiesIn (job.options.place prepared.key))
    (hplaced : prepared.Placed job world.tree tree data content metadata) :
    (∃ after, run (World.recordMetadata prepared.path metadata) { world with tree := data } =
        (.ok (), after)) ↔
      world.tree.Admits (Metadata.path prepared.path) ∧
        world.tree.Admits ((Metadata.path prepared.path).besides Metadata.temporaryEnding) := by
  have hmetadata := Path.liesIn_metadata hpath
  rw [@record_succeeds_iff { world with tree := data } _ hplaced.put.wellFormed hledger
    hplaced.isDirectoryAt _ hpath metadata, hplaced.admits_iff hmetadata,
    hplaced.admits_iff hmetadata.temporary]

/-- Writing what is prepared makes its directory, writes its rows and records their metadata. -/
theorem committed_iff_stages (hrows : prepared.survivors.isEmpty = false) :
    (∃ action after, run (prepared.commit job) world = (.ok action, after)) ↔
      ∃ tree, world.tree.makeDirectories (job.options.directoryOf prepared.key) = (.ok (), tree) ∧
        ∃ metadata written,
          run (job.medium.write prepared.path prepared.survivors prepared.layout)
            { world with tree } = (.ok metadata, written) ∧
          ∃ after, run (World.recordMetadata prepared.path metadata) written = (.ok (), after) := by
  constructor
  · rintro ⟨action, after, hrun⟩
    obtain ⟨tree, metadata, written, hmakes, hwritten, hrecorded, -⟩ :=
      (Prepared.commit_eq_ok_iff hrows).mp hrun
    exact ⟨tree, hmakes, metadata, written, hwritten, after, hrecorded⟩
  · rintro ⟨tree, hmakes, metadata, written, hwritten, after, hrecorded⟩
    exact ⟨_, after, (Prepared.commit_eq_ok_iff hrows).mpr
      ⟨tree, metadata, written, hmakes, hwritten, hrecorded, rfl⟩⟩

/-- What is prepared for a partition is written exactly if nothing is in the way. -/
theorem commit_succeeds_iff {name : String} (hname : job.options.target.fileName? = some name)
    (htarget : job.options.target.Descends) (hworld : world.tree.WellFormed)
    (hmode : job.mode = .real) (hledger : world.ledger = none)
    (hcodec : ∀ codec, job.medium = .columnar codec →
      ∃ encoding, codec = some (.standard encoding)) {bucket : Bucket}
    (hcolumns : bucket.rows.columns.Nodup) (hprepared : job.prepare world bucket = .ok prepared)
    (hrows : prepared.survivors.isEmpty = false) :
    (∃ action after, run (prepared.commit job) world = (.ok action, after)) ↔
      prepared.Committable job world.tree := by
  obtain ⟨hkey, hpath, hnode⟩ := Job.prepare_spec hname htarget hworld hprepared
  obtain ⟨hsurvivors, hfits, hnew⟩ := Job.fits_of_prepare hmode hprepared
  rw [← hkey] at hpath
  rw [← hsurvivors] at hfits hcolumns
  have hpresent : prepared.layout.columns.isSome = true →
      ∃ content, world.tree.node? prepared.path = some (.file content) := by
    intro hsome
    cases hthere : prepared.present with
    | false =>
      rw [hnew hthere] at hsome
      contradiction
    | true => exact hnode hthere
  have hwrite := fun tree hmade => @write_succeeds_iff_of_made job world _ prepared tree hworld
    hmade hpath hcodec (fun codec hmedium => Job.complete_of_prepare hmode hmedium hprepared)
    hcolumns hfits hpresent
  rw [committed_iff_stages hrows]
  constructor
  · rintro ⟨tree, hmakes, metadata, written, hwritten, hrecorded⟩
    obtain ⟨hmade, husable⟩ := Prepared.directoryMade_of_commit hname htarget hworld hmakes
    obtain ⟨hdata, hcolumnar⟩ := (hwrite tree hmade).mp ⟨metadata, written, hwritten⟩
    obtain ⟨data, content, hplaced, rfl⟩ :=
      Prepared.exists_placed_of_written hname htarget hworld hpath hmakes hwritten
    obtain ⟨hadmits, htemporary⟩ :=
      (record_succeeds_iff_of_placed hledger hpath hplaced).mp hrecorded
    exact ⟨husable, hmade.passable, hdata, hadmits, htemporary, hcolumnar⟩
  · rintro ⟨husable, hpassable, hdata, hadmits, htemporary, hcolumnar⟩
    obtain ⟨htrimmed, htext⟩ := Options.trimmed_directoryOf hname prepared.key
    obtain ⟨tree, hmakes⟩ := FileTree.exists_makeDirectories hworld
      (Options.descends_directoryOf hname htarget prepared.key) htrimmed htext husable hpassable
    have hmade := (Prepared.directoryMade_of_commit hname htarget hworld hmakes).1
    obtain ⟨metadata, written, hwritten⟩ := (hwrite tree hmade).mpr ⟨hdata, hcolumnar⟩
    obtain ⟨data, content, hplaced, rfl⟩ :=
      Prepared.exists_placed_of_written hname htarget hworld hpath hmakes hwritten
    exact ⟨tree, hmakes, metadata, _, hwritten,
      (record_succeeds_iff_of_placed hledger hpath hplaced).mpr ⟨hadmits, htemporary⟩⟩

end Success

end TableAppend
