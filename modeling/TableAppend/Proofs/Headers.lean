import TableAppend.Proofs.Projection
import TableAppend.Proofs.StoredKeys

/-!
# Headers of accepted files

A file is accepted for a batch if its header has as many names as the batch has columns and all of
these are among them.  The columns of a batch are distinct, so by counting the header is a permutation
of them, whatever the file holds.  Rows with these columns can therefore always be put in the order of
the header, and each of their cells comes to stand under its own name.
-/

namespace TableAppend

open Change (run run_bind_eq_error_iff run_onTree_eq_error_iff)

/-! ## Rows under a header -/

theorem Layout.Fits.perm {layout : Layout} {columns header : List String}
    (hfits : layout.Fits columns) (hcolumns : columns.Nodup)
    (hheader : layout.columns = some header) : header.Perm columns := by
  obtain ⟨hlength, hcontained⟩ := hfits header hheader
  exact (Batch.perm_of_contained hcolumns hlength.symm hcontained).symm

namespace Batch

/-- A row that is read has under each name of its header the cell that was there before, in the form
in which this column stores it. -/
structure Lands (form : String → Cell → Cell) (columns header : List String)
    (row after : List Cell) : Prop where
  length_eq : after.length = header.length
  cell?_eq : ∀ column ∈ header, cell? header after column = (cell? columns row column).map (form column)

variable {columns header : List String} {row after : List Cell} {rows stored : Batch}

theorem Retains.lands (hretains : Retains columns header row after) (form : Cell → Cell) :
    Lands (fun _ => form) columns header row (after.map form) where
  length_eq := (List.length_map form).trans hretains.length_eq
  cell?_eq column hcolumn := by rw [cell?_map, hretains.cell?_eq column hcolumn]

theorem retains_under (hrows : rows.WellFormed) (hheader : header.Perm rows.columns) :
    List.Forall₂ (Retains rows.columns header) rows.rows (rows.under header).rows :=
  (retains_of_project hrows (project_of_perm hheader)).2

theorem concat_of_perm (hheader : stored.columns.Perm rows.columns) :
    stored.concat rows = .ok ⟨stored.columns, stored.rows ++ (rows.under stored.columns).rows⟩ :=
  concat_eq_ok_iff.mpr ⟨rows.under stored.columns, project_of_perm hheader, rfl⟩

end Batch

namespace Columnar

variable {tree : FileTree} {path : Path} {table saved : Table} {columns : List String}
  {row : List Cell} {rows all : Batch}

theorem lands_readBack (hnames : saved.names.Nodup)
    (hcontained : ∀ column ∈ saved.names, column ∈ columns) (hrow : row.length = columns.length) :
    Batch.Lands (fun column => Cell.readBack (typeOf saved column)) columns saved.names row
      (saved.readBack (Batch.rowUnder columns saved.names row)) := by
  rw [Batch.rowUnder, readBack_map hnames]
  refine ⟨List.length_map _, fun column hcolumn => ?_⟩
  obtain ⟨cell, hcell⟩ := Batch.exists_cell? (hcontained column hcolumn) hrow
  rw [Batch.cell?_map_header hcolumn, hcell, Option.getD_some, Option.map_some]

/-- The type under which a file stores a column. -/
def typeAt (tree : FileTree) (path : Path) (column : String) : ColumnType :=
  match readTable tree path with
  | .ok table => typeOf table column
  | .error _ => .utf8

/-- What is saved under the types of a file has these types when it is read again. -/
theorem typeAt_eq (hread : readTable tree path = .ok table) (hnames : table.names.Nodup)
    (hsaved : Table.encode table.schema all = .ok saved) (hall : all.columns = table.names) :
    typeAt tree path = typeOf saved := by
  funext column
  simp only [typeAt, hread, typeOf, Table.schema_of_encode hnames hall hsaved]

theorem lands_of_encode (hread : readTable tree path = .ok table) (hnames : table.names.Nodup)
    (hsaved : Table.encode table.schema all = .ok saved) (hall : all.columns = table.names)
    (hrows : rows.WellFormed) (hperm : table.names.Perm rows.columns) :
    List.Forall₂ (Batch.Lands (fun column => Cell.readBack (typeAt tree path column)) rows.columns
      table.names) rows.rows ((rows.under table.names).rows.map saved.readBack) := by
  have hsame : saved.names = table.names := (Table.names_of_encode hsaved).trans hall
  rw [typeAt_eq hread hnames hsaved hall]
  rw [← hsame] at hnames hperm ⊢
  rw [Batch.under, Batch.rowsUnder_eq_map, List.map_map, List.forall₂_map_right_iff,
    List.forall₂_same]
  exact fun row hrow =>
    lands_readBack hnames (fun column => hperm.mem_iff.mp) (hrows.2 row hrow)

end Columnar

/-! ## What becomes of rows under a header -/

namespace Medium

/-- The names that a file begins with; an empty delimited file has none. -/
def header (medium : Medium) (tree : FileTree) (path : Path) : Outcome (List String) :=
  match medium with
  | .delimited dialect => (fun found => found.getD []) <$> Delimited.header? tree path dialect
  | .columnar codec => Batch.columns <$> Columnar.readRows tree codec path none

/-- Metadata as this medium records them. -/
def Records (medium : Medium) (metadata : Metadata) : Prop :=
  match medium with
  | .delimited dialect => metadata = Delimited.metadataOf dialect
  | .columnar _ => ∃ count, metadata = .columnar count

/-- The columns of a file hold the cells of a batch by their kinds, as all columns of texts do. -/
def HoldsCells (medium : Medium) (tree : FileTree) (path : Path) (rows : Batch) : Prop :=
  match medium with
  | .delimited _ => True
  | .columnar _ => ∀ table, Columnar.readTable tree path = .ok table → Columnar.Holds table.schema rows

/-- The content of a file to which rows in the order of its header have been added: its bytes, the end
of its last line and a record for each row, or what the codec makes of the stored rows and these. -/
def Adds (medium : Medium) (tree : FileTree) (path : Path) (ordered : Batch) (content : Content) :
    Prop :=
  match medium with
  | .delimited dialect => ∃ old, tree.node? path = some (.file old) ∧
    content = .bytes (Delimited.addedBytes dialect old.toBytes ordered)
  | .columnar codec => ∃ present table stored, codec = some present ∧
    Columnar.readTable tree path = .ok table ∧ table.decode = .ok stored ∧
      present.save table.schema ⟨ordered.columns, stored.rows ++ ordered.rows⟩ = .ok (content, none)

/-- What can go wrong once rows are in the order of the header of a file: the file system fails, or the
codec does with the stored rows and these. -/
def Fails (medium : Medium) (tree : FileTree) (path : Path) (ordered : Batch) (failure : Failure) :
    Prop :=
  (∃ fault, failure = .io fault) ∨
    match medium with
    | .delimited _ => False
    | .columnar codec => ∃ present table stored, codec = some present ∧
      Columnar.readTable tree path = .ok table ∧ table.decode = .ok stored ∧
        present.Fails table.schema ⟨ordered.columns, stored.rows ++ ordered.rows⟩ failure

/-- A file whose rows are read before and after others are added to them: marks that can be used,
records of text and no open quotes at the end, or the codec that reads what it has saved. -/
def Legible (medium : Medium) (tree : FileTree) (path : Path) (recorded : Option Metadata) : Prop :=
  match medium with
  | .delimited dialect => dialect.validate = .ok () ∧
    (∃ stored, Delimited.readRows tree dialect path recorded = .ok stored) ∧
      ∀ bytes, tree.readBytes path = .ok bytes →
        Delimited.endsInQuotes (.ofDialect dialect) bytes = false
  | .columnar codec => ∃ encoding, codec = some (.standard encoding)

/-- The form in which a file stores a cell of a column. -/
def form (medium : Medium) (tree : FileTree) (path : Path) (column : String) (cell : Cell) : Cell :=
  match medium with
  | .delimited _ => cell.stored
  | .columnar _ => cell.readBack (Columnar.typeAt tree path column)

/-- Rows go to the end of a file under its header, each cell under its own name. -/
structure PutsUnder (medium : Medium) (world : World) (path : Path) (recorded : Option Metadata)
    (layout : Layout) (header : List String) (rows : Batch) : Prop where
  project_eq : rows.project header = .ok (rows.under header)
  concat_eq : ∀ stored, layout.rows = some stored →
    stored.concat rows = .ok ⟨header, stored.rows ++ (rows.under header).rows⟩
  retains : List.Forall₂ (Batch.Retains rows.columns header) rows.rows (rows.under header).rows
  /-- Whatever has become of the files since the check, the order of the rows is no reason to fail. -/
  fails : ∀ other failure left,
    run (medium.write path rows layout) other = (.error failure, left) →
      medium.Fails world.tree path (rows.under header) failure
  writes_iff : (∃ metadata after,
      run (medium.write path rows layout) world = (.ok metadata, after)) ↔
    (∀ temporary ∈ medium.scratch path, world.tree.Writable temporary) ∧
      ∃ content, medium.Adds world.tree path (rows.under header) content
  holds : ∀ metadata after, run (medium.write path rows layout) world = (.ok metadata, after) →
    ∃ content, medium.Adds world.tree path (rows.under header) content ∧
      after.tree.node? path = some (.file content)
  reads : ∀ metadata after, run (medium.write path rows layout) world = (.ok metadata, after) →
    medium.Legible world.tree path recorded → ∃ stored before added,
      medium.readRows world.tree path recorded = .ok stored ∧
        before.length = stored.rows.length ∧
        medium.readRows after.tree path (some metadata) = .ok ⟨header, before ++ added⟩ ∧
        List.Forall₂ (Batch.Lands (medium.form world.tree path) rows.columns header) rows.rows added

end Medium

/-! ## Writing to a file that was checked -/

theorem Delimited.fault_of_write_error {dialect : Dialect} {path : Path} {layout : Layout}
    {header : List String} {rows ordered : Batch} {world after : World} {failure : Failure}
    (hlayout : layout.columns = some header) (hproject : rows.project header = .ok ordered)
    (hrun : run (write dialect path rows layout) world = (.error failure, after)) :
    ∃ fault, failure = .io fault := by
  rw [write] at hrun
  simp only [hlayout] at hrun
  rcases run_bind_eq_error_iff.mp hrun with hend | ⟨⟨⟩, first, -, hafterEnd⟩
  · obtain ⟨fault, -, hfault, -⟩ := run_onTree_eq_error_iff.mp hend
    exact ⟨fault, hfault⟩
  rcases run_bind_eq_error_iff.mp hafterEnd with horder | ⟨found, second, -, hafterOrder⟩
  · rw [Change.run_ofOutcome_eq_error_iff, hproject] at horder
    exact absurd horder.1 (by simp)
  rcases run_bind_eq_error_iff.mp hafterOrder with hadd | ⟨⟨⟩, third, -, hresult⟩
  · obtain ⟨fault, -, hfault, -⟩ := run_onTree_eq_error_iff.mp hadd
    exact ⟨fault, hfault⟩
  · simp at hresult

theorem Columnar.failure_of_write_error {codec : Codec} {path : Path} {layout : Layout}
    {rows all : Batch} {schema : Schema} {world after : World} {failure : Failure}
    (hall : allRows world.tree path rows layout = .ok all)
    (hschema : keptSchema world.tree path layout = .ok schema)
    (hrun : run (write (some codec) path rows layout) world = (.error failure, after)) :
    codec.Fails schema all failure ∨ ∃ fault, failure = .io fault := by
  rcases write_error_cases hrun with ⟨-, hnot⟩ |
    ⟨present, found, kept, hpresent, hfound, hkept, ⟨left, hsave, -⟩ | ⟨-, -, fault, -, hfault, -⟩⟩
  · exact absurd ⟨codec, all, schema, rfl, hall, hschema⟩ hnot
  · obtain rfl := Option.some.inj hpresent
    obtain rfl := Except.ok.inj (hall.symm.trans hfound)
    obtain rfl := Except.ok.inj (hschema.symm.trans hkept)
    exact failure_of_save_error hsave
  · exact .inr ⟨fault, hfault⟩

namespace Medium

variable {medium : Medium} {world : World} {path : Path} {recorded : Option Metadata}
  {batch rows : Batch} {layout : Layout} {header : List String}

/-- The columns of a layout are the names that the file begins with. -/
theorem header_of_check (hcheck : medium.check world.tree path recorded batch = .ok layout)
    (hheader : layout.columns = some header) : medium.header world.tree path = .ok header := by
  cases medium with
  | delimited dialect =>
    obtain ⟨-, ⟨-, rfl⟩ | ⟨found, hfound, -, -, rfl⟩⟩ := Delimited.check_eq_ok_iff.mp hcheck
    · contradiction
    · obtain rfl := Option.some.inj hheader
      exact Outcome.map_eq_ok_iff.mpr ⟨some found, hfound, rfl⟩
  | columnar codec =>
    obtain ⟨-, hcodec, table, hread, stored, hstored, -, -, rfl⟩ :=
      Columnar.check_eq_ok_iff.mp hcheck
    obtain rfl := Option.some.inj hheader
    exact Outcome.map_eq_ok_iff.mpr
      ⟨stored, Columnar.readRows_eq_ok_iff.mpr ⟨rfl, hcodec, table, hread, hstored⟩, rfl⟩

theorem exists_node?_of_check (hcheck : medium.check world.tree path recorded batch = .ok layout)
    (hheader : layout.columns = some header) :
    ∃ content, world.tree.node? path = some (.file content) := by
  cases medium with
  | delimited dialect =>
    obtain ⟨-, ⟨-, rfl⟩ | ⟨found, hfound, -⟩⟩ := Delimited.check_eq_ok_iff.mp hcheck
    · contradiction
    · exact Delimited.exists_node?_of_header? hfound
  | columnar codec =>
    obtain ⟨-, -, table, hread, -⟩ := Columnar.check_eq_ok_iff.mp hcheck
    obtain ⟨encoded, hnode⟩ := Columnar.exists_node?_of_readTable hread
    exact ⟨.table ⟨table, encoded⟩, hnode⟩

section Writing

variable (hcheck : medium.check world.tree path recorded batch = .ok layout)
  (hheader : layout.columns = some header)

include hcheck hheader

/-- What has been stored is in the file. -/
theorem exists_stores_of_write {metadata : Metadata} {after : World}
    (hrun : run (medium.write path rows layout) world = (.ok metadata, after)) :
    ∃ content, medium.Stores world.tree path rows layout content metadata ∧
      after.tree.node? path = some (.file content) := by
  obtain ⟨old, hold⟩ := exists_node?_of_check hcheck hheader
  obtain ⟨name, hname⟩ := FileTree.exists_fileName?_of_node? hold
  obtain ⟨hwritable, hscratch, content, hstores, rfl⟩ :=
    (write_eq_ok_iff_writable hname fun _ => FileTree.writable_of_node? hname hold).mp hrun
  exact ⟨content, hstores, (puts_put hwritable hscratch content).node?⟩

variable (hperm : header.Perm rows.columns)

include hperm

theorem exists_stores_iff_adds {content : Content} :
    (∃ metadata, medium.Stores world.tree path rows layout content metadata) ↔
      medium.Adds world.tree path (rows.under header) content := by
  have hproject := Batch.project_of_perm hperm
  cases medium with
  | delimited dialect =>
    simp only [Stores, hheader, Adds]
    constructor
    · rintro ⟨-, -, old, ordered, hold, hordered, hcontent⟩
      obtain rfl := Except.ok.inj (hproject.symm.trans hordered)
      exact ⟨old, hold, hcontent⟩
    · rintro ⟨old, hold, hcontent⟩
      exact ⟨_, rfl, old, _, hold, hproject, hcontent⟩
  | columnar codec =>
    obtain ⟨-, hcodec, table, hread, stored, hstored, -, -, rfl⟩ :=
      Columnar.check_eq_ok_iff.mp hcheck
    obtain rfl := Option.some.inj hheader
    have hall := Batch.concat_of_perm hperm
    constructor
    · rintro ⟨-, present, all, schema, hpresent, hconcat, hschema, hsave, -⟩
      obtain rfl := Except.ok.inj (hall.symm.trans hconcat)
      obtain rfl := Except.ok.inj hschema
      exact ⟨present, table, stored, hpresent, hread, hstored, hsave⟩
    · rintro ⟨present, found, decoded, hpresent, hfound, hdecoded, hsave⟩
      obtain rfl := Except.ok.inj (hread.symm.trans hfound)
      obtain rfl := Except.ok.inj (hstored.symm.trans hdecoded)
      exact ⟨_, present, _, table.schema, hpresent, hall, rfl, hsave, rfl⟩

theorem fails_of_write_error {other left : World} {failure : Failure}
    (hrun : run (medium.write path rows layout) other = (.error failure, left)) :
    medium.Fails world.tree path (rows.under header) failure := by
  cases medium with
  | delimited dialect =>
    exact .inl (Delimited.fault_of_write_error hheader (Batch.project_of_perm hperm) hrun)
  | columnar codec =>
    obtain ⟨-, ⟨present, rfl⟩, table, hread, stored, hstored, -, -, rfl⟩ :=
      Columnar.check_eq_ok_iff.mp hcheck
    obtain rfl := Option.some.inj hheader
    have hall : Columnar.allRows other.tree path rows
        ⟨some stored.columns, some stored, some table.schema⟩ = .ok _ := Batch.concat_of_perm hperm
    rcases Columnar.failure_of_write_error hall rfl hrun with hfails | hfault
    · exact .inr ⟨present, table, stored, rfl, hread, hstored, hfails⟩
    · exact .inl hfault

theorem exists_write_iff :
    (∃ metadata after, run (medium.write path rows layout) world = (.ok metadata, after)) ↔
      (∀ temporary ∈ medium.scratch path, world.tree.Writable temporary) ∧
        ∃ content, medium.Adds world.tree path (rows.under header) content := by
  obtain ⟨old, hold⟩ := exists_node?_of_check hcheck hheader
  obtain ⟨name, hname⟩ := FileTree.exists_fileName?_of_node? hold
  have hwritable := FileTree.writable_of_node? hname hold
  constructor
  · rintro ⟨metadata, after, hrun⟩
    obtain ⟨-, hscratch, content, hstores, -⟩ :=
      (write_eq_ok_iff_writable hname fun _ => hwritable).mp hrun
    exact ⟨hscratch, content, (exists_stores_iff_adds hcheck hheader hperm).mp ⟨metadata, hstores⟩⟩
  · rintro ⟨hscratch, content, hadds⟩
    obtain ⟨metadata, hstores⟩ := (exists_stores_iff_adds hcheck hheader hperm).mpr hadds
    exact ⟨metadata, _, (write_eq_ok_iff_writable hname fun _ => hwritable).mpr
      ⟨hwritable, hscratch, content, hstores, rfl⟩⟩

/-- Rows that have been written are read after the others, each cell under its own name. -/
theorem reads_of_write (hrows : rows.WellFormed)
    (hlegible : medium.Legible world.tree path recorded) {metadata : Metadata} {after : World}
    (hrun : run (medium.write path rows layout) world = (.ok metadata, after)) :
    ∃ stored before added, medium.readRows world.tree path recorded = .ok stored ∧
      before.length = stored.rows.length ∧
      medium.readRows after.tree path (some metadata) = .ok ⟨header, before ++ added⟩ ∧
      List.Forall₂ (Batch.Lands (medium.form world.tree path) rows.columns header)
        rows.rows added := by
  obtain ⟨content, hstores, hnode⟩ := exists_stores_of_write hcheck hheader hrun
  have hretains := Batch.retains_under hrows hperm
  cases medium with
  | delimited dialect =>
    obtain ⟨hvalid, ⟨stored, hstored⟩, hquotes⟩ := hlegible
    obtain ⟨-, ⟨-, rfl⟩ | ⟨found, -, -, -, rfl⟩⟩ := Delimited.check_eq_ok_iff.mp hcheck
    · contradiction
    obtain rfl := Option.some.inj hheader
    obtain ⟨rfl, old, ordered, hold, hordered, rfl⟩ := hstores
    obtain rfl := Except.ok.inj ((Batch.project_of_perm hperm).symm.trans hordered)
    have hbytes := FileTree.readBytes_of_node? hold
    obtain ⟨-, hrecords, -⟩ := Delimited.ne_nil_of_check hbytes hcheck
    obtain ⟨htable, rfl⟩ := Delimited.columns_of_readRows hvalid hbytes hcheck hstored
    refine ⟨stored, stored.rows, _, hstored, rfl,
      Delimited.readRows_added hvalid ⟨htable, hrecords, hquotes _ hbytes⟩
        (FileTree.readBytes_of_node? hnode) (Delimited.storedDialect_metadataOf hvalid), ?_⟩
    rw [List.forall₂_map_right_iff]
    exact hretains.imp fun _ _ hrow => hrow.lands Cell.stored
  | columnar codec =>
    obtain ⟨encoding, rfl⟩ := hlegible
    obtain ⟨hformat, hcodec, table, hread, stored, hstored, -, -, rfl⟩ :=
      Columnar.check_eq_ok_iff.mp hcheck
    obtain rfl := Option.some.inj hheader
    obtain ⟨present, all, schema, hpresent, hconcat, hschema, hsave, rfl⟩ := hstores
    obtain rfl := Option.some.inj hpresent
    obtain rfl := Except.ok.inj ((Batch.concat_of_perm hperm).symm.trans hconcat)
    obtain rfl := Except.ok.inj hschema
    obtain ⟨saved, hsaved, rfl⟩ := Codec.save_standard_eq_ok_iff.mp hsave
    have hread' : Columnar.readTable after.tree path = .ok saved := Columnar.readTable_of_node? hnode
    obtain ⟨hwell, hdecoded⟩ := Batch.ofRows_eq_ok_iff.mp hstored
    have hnames : stored.columns = table.names := by rw [hdecoded]
    -- the stored rows are saved again with the new ones, and so come back as their columns give them
    refine ⟨stored, stored.rows.map saved.readBack, (rows.under stored.columns).rows.map saved.readBack,
      Columnar.readRows_eq_ok_iff.mpr ⟨hformat, hcodec, table, hread, hstored⟩,
      List.length_map _, ?_, ?_⟩
    · refine (Columnar.readRows_of_encode (Batch.wellFormed_concat hwell hconcat) hsaved hread'
        (.standard encoding) _).trans ?_
      rw [List.map_append]
    · rw [hnames] at hperm ⊢
      exact Columnar.lands_of_encode hread (hnames ▸ hwell.1) hsaved hnames hrows hperm

theorem putsUnder_of_check (hrows : rows.WellFormed) :
    medium.PutsUnder world path recorded layout header rows where
  project_eq := Batch.project_of_perm hperm
  concat_eq stored hstored := by
    cases medium with
    | delimited dialect =>
      obtain ⟨-, ⟨-, rfl⟩ | ⟨found, -, -, -, rfl⟩⟩ := Delimited.check_eq_ok_iff.mp hcheck <;>
        contradiction
    | columnar codec =>
      obtain ⟨-, -, table, -, found, -, -, -, rfl⟩ := Columnar.check_eq_ok_iff.mp hcheck
      obtain rfl := Option.some.inj hheader
      obtain rfl := Option.some.inj hstored
      exact Batch.concat_of_perm hperm
  retains := Batch.retains_under hrows hperm
  fails _ _ _ hrun := fails_of_write_error hcheck hheader hperm hrun
  writes_iff := exists_write_iff hcheck hheader hperm
  holds _ _ hrun := by
    obtain ⟨content, hstores, hnode⟩ := exists_stores_of_write hcheck hheader hrun
    exact ⟨content, (exists_stores_iff_adds hcheck hheader hperm).mp ⟨_, hstores⟩, hnode⟩
  reads _ _ hrun hlegible := reads_of_write hcheck hheader hperm hrows hlegible hrun

end Writing

/-- A file with metadata of its own that begins with the columns of a batch, in any order, is accepted,
if its columns hold the cells. -/
theorem exists_check_of_header {metadata : Metadata} (hrecords : medium.Records metadata)
    (hheader : medium.header world.tree path = .ok header) (hperm : header.Perm batch.columns)
    (hholds : medium.HoldsCells world.tree path batch) :
    ∃ layout, medium.check world.tree path (some metadata) batch = .ok layout ∧
      layout.columns.getD [] = header := by
  cases medium with
  | delimited dialect =>
    obtain rfl : metadata = Delimited.metadataOf dialect := hrecords
    have hmarks := Delimited.checkMarks_metadataOf world.tree dialect path
    obtain ⟨found, hfound, rfl⟩ := Outcome.map_eq_ok_iff.mp hheader
    cases found with
    | none => exact ⟨.new, Delimited.check_eq_ok_iff.mpr ⟨hmarks, .inl ⟨hfound, rfl⟩⟩, rfl⟩
    | some names =>
      exact ⟨.ofColumns names, Delimited.check_eq_ok_iff.mpr ⟨hmarks, .inr ⟨names, hfound,
        hperm.length_eq, fun column => hperm.mem_iff.mpr, rfl⟩⟩, rfl⟩
  | columnar codec =>
    obtain ⟨count, rfl⟩ := hrecords
    obtain ⟨stored, hread, rfl⟩ := Outcome.map_eq_ok_iff.mp hheader
    obtain ⟨-, ⟨present, rfl⟩, table, htable, hstored⟩ := Columnar.readRows_eq_ok_iff.mp hread
    have hcolumns := Batch.hasColumns_iff.mpr (.inl hperm.symm)
    have hformat : Columnar.rejectDelimited path (some (.columnar count)) = .ok () := rfl
    rcases Columnar.check_or_misfit htable hstored hcolumns hformat present with
      ⟨hcheck, -⟩ | ⟨failure, -, hmisfit⟩
    · exact ⟨_, hcheck, rfl⟩
    · exact absurd hmisfit ((hholds table htable).not_reportsMisfit failure)

/-- The header of a file that is accepted for a batch has no name twice and is the columns of the batch
in some order.  So rows with these columns can be put under it, writing them fails for no reason but the
file system and the codec, and each cell comes to stand under its own name.  A file with metadata of its
own and with such a header is accepted, if its columns hold the cells. -/
theorem accepted_header_permutes (medium : Medium) (world : World) (path : Path) (batch : Batch)
    (hcolumns : batch.columns.Nodup) :
    (∀ recorded layout header, medium.check world.tree path recorded batch = .ok layout →
      layout.columns = some header →
        medium.header world.tree path = .ok header ∧ header.Nodup ∧ header.Perm batch.columns ∧
          ∀ rows : Batch, rows.WellFormed → rows.columns = batch.columns →
            medium.PutsUnder world path recorded layout header rows) ∧
      ∀ metadata header, medium.Records metadata → medium.header world.tree path = .ok header →
        header.Perm batch.columns → medium.HoldsCells world.tree path batch →
          ∃ layout, medium.check world.tree path (some metadata) batch = .ok layout ∧
            layout.columns.getD [] = header := by
  refine ⟨fun recorded layout header hcheck hheader => ?_, fun metadata header hrecords hheader hperm =>
    exists_check_of_header hrecords hheader hperm⟩
  have hperm := (fits_of_check hcheck).perm hcolumns hheader
  refine ⟨header_of_check hcheck hheader, hperm.nodup_iff.mpr hcolumns, hperm, ?_⟩
  exact fun rows hrows hsame => putsUnder_of_check hcheck hheader (hsame ▸ hperm) hrows

/-- A file without a line end that has the columns of a batch the other way round. -/
theorem accepted_header_permutes_of_other_order :
    let medium := Medium.delimited .commaSeparated
    let world : World := ⟨⟨[(["p.csv"], .file (.bytes (Utf8.encode "b,a\n1,2")))]⟩, none⟩
    let batch : Batch := ⟨["a", "b"], [[.int 3, .int 4]]⟩
    ∃ layout, medium.check world.tree ⟨"p.csv"⟩ (some (Delimited.metadataOf .commaSeparated)) batch =
        .ok layout ∧
      layout.columns = some ["b", "a"] ∧ ["b", "a"].Perm batch.columns ∧ ∃ metadata after,
        run (medium.write ⟨"p.csv"⟩ batch layout) world = (.ok metadata, after) ∧
          after.tree.node? ⟨"p.csv"⟩ =
            some (.file (.bytes (Utf8.encode "b,a\n1,2\n4,3\n"))) := by
  intro medium world batch
  have hnode : world.tree.node? ⟨"p.csv"⟩ = some (.file (.bytes (Utf8.encode "b,a\n1,2"))) := by
    decide +kernel
  have hfound : medium.header world.tree ⟨"p.csv"⟩ = .ok ["b", "a"] := by decide +kernel
  have hbatch : batch.WellFormed := ⟨by decide, by decide⟩
  obtain ⟨haccepts, hexists⟩ := accepted_header_permutes medium world ⟨"p.csv"⟩ batch hbatch.1
  obtain ⟨layout, hcheck, hcolumns⟩ :=
    hexists (Delimited.metadataOf .commaSeparated) ["b", "a"] rfl hfound (by decide) trivial
  have hheader : layout.columns = some ["b", "a"] := by
    cases hlayout : layout.columns <;> simp_all
  obtain ⟨-, -, hperm, hputs⟩ := haccepts _ layout ["b", "a"] hcheck hheader
  have hrows := hputs batch hbatch rfl
  obtain ⟨metadata, after, hrun⟩ := hrows.writes_iff.mpr ⟨nofun, _, _, hnode, rfl⟩
  obtain ⟨content, ⟨old, hold, rfl⟩, hafter⟩ := hrows.holds metadata after hrun
  obtain rfl : Content.bytes (Utf8.encode "b,a\n1,2") = old := by simpa [hnode] using hold
  have hadded : Delimited.addedBytes .commaSeparated (Utf8.encode "b,a\n1,2")
      (batch.under ["b", "a"]) = Utf8.encode "b,a\n1,2\n4,3\n" := by decide +kernel
  rw [Content.toBytes, hadded] at hafter
  exact ⟨layout, hcheck, hheader, hperm, metadata, after, hrun, hafter⟩

end Medium

end TableAppend
