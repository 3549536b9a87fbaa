import TableAppend.Proofs.Columnar.Appending
import TableAppend.Proofs.Delimited.Appending
import TableAppend.Proofs.Keys

/-!
# Keys of rows that have been written

Before rows are written their keys are taken from their stored form, so that a later append finds the
same keys where it reads them again.  Delimited files return every row with the key it had.  A columnar
file does so as long as the types of the key columns keep the texts of the cells: large integers among
doubles, all numbers in columns of singles and some texts of dates come back under other keys.
-/

namespace TableAppend

open Batch (keyOn keysOn)

/-! ## Cells -/

/-- What is saved in a column of this type has the canonical text it had before. -/
def ColumnType.KeepsKey (type : ColumnType) (cell : Cell) : Prop :=
  match type, cell with
  | _, .null => True
  | .float64, .int value => (Cell.double (.ofInt value.toInt)).canonical? = (Cell.int value).canonical?
  | .float32, .int value =>
    (Cell.double (Single.ofDouble (.ofInt value.toInt)).toDouble).canonical? =
      (Cell.int value).canonical?
  | .float32, .double value =>
    (Cell.double (Single.ofDouble value).toDouble).canonical? = (Cell.double value).canonical?
  | .date32, _ => ∀ days, Date.parseDays? cell.fieldText = some days →
    (Date.ofDays days).render = cell.fieldText
  | _, _ => True

theorem Cell.canonical?_text_fieldText {cell : Cell} (hcell : cell ≠ .null) :
    (Cell.text cell.fieldText).canonical? = cell.canonical? := by
  obtain ⟨text, htext⟩ := Option.ne_none_iff_exists'.mp (mt (canonical?_eq_none_iff cell).mp hcell)
  rw [canonical?, fieldText, htext]
  rfl

theorem Cell.canonical?_readBack_date {cell : Cell} (hcell : cell ≠ .null) :
    (cell.readBack .date32).canonical? = cell.canonical? ↔ ColumnType.date32.KeepsKey cell := by
  have hkeeps : ColumnType.date32.KeepsKey cell ↔ ∀ days, Date.parseDays? cell.fieldText = some days →
      (Date.ofDays days).render = cell.fieldText := by
    cases cell <;> first | contradiction | rfl
  rw [hkeeps]
  cases hdays : Date.parseDays? cell.fieldText with
  | none =>
    have hsame : cell.readBack .date32 = cell := by
      cases cell <;> first | contradiction | simp only [readBack, hdays]
    rw [hsame]
    exact iff_of_true rfl fun days hother => by contradiction
  | some days =>
    rw [readBack_date hcell hdays, ← canonical?_text_fieldText hcell]
    simp [canonical?]

theorem Cell.canonical?_readBack_iff (type : ColumnType) (cell : Cell) :
    (cell.readBack type).canonical? = cell.canonical? ↔ type.KeepsKey cell := by
  by_cases hnull : cell = .null
  · subst hnull
    cases type <;> exact iff_of_true rfl trivial
  by_cases hdate : type = .date32
  · subst hdate
    exact canonical?_readBack_date hnull
  have htext := canonical?_text_fieldText hnull
  cases type <;> first | contradiction | skip
  case float64 =>
    cases cell with
    | null => contradiction
    | int value => exact Iff.rfl
    | bool value | double value | text value => exact iff_of_true rfl trivial
  case float32 =>
    cases cell with
    | null => contradiction
    | int value | double value => exact Iff.rfl
    | bool value | text value => exact iff_of_true rfl trivial
  case int32 | int64 | boolean => cases cell <;> first | contradiction | exact iff_of_true rfl trivial
  all_goals
    cases cell <;> first | contradiction | exact iff_of_true htext trivial

namespace ColumnType

/-- Outside columns of floating point numbers and of dates all keys are kept. -/
theorem keepsKey_of_exact {type : ColumnType} (hsingle : type ≠ .float32) (hdouble : type ≠ .float64)
    (hdate : type ≠ .date32) (cell : Cell) : type.KeepsKey cell := by
  cases type <;> first | contradiction | skip
  all_goals
    cases cell <;> trivial

/-- In a column of doubles these are the keys of all cells but integers. -/
theorem keepsKey_float64 {cell : Cell} (hcell : ∀ value, cell ≠ .int value) :
    ColumnType.float64.KeepsKey cell := by
  cases cell with
  | int value => exact absurd rfl (hcell value)
  | null | bool value | double value | text value => trivial

/-- Integers below two to the 53 keep their keys among doubles. -/
theorem keepsKey_float64_int {value : Int64} (hvalue : value.toInt.natAbs < Nat.pow 2 53) :
    ColumnType.float64.KeepsKey (.int value) := by
  change (Cell.double (.ofInt value.toInt)).canonical? = some (toString value.toInt)
  rw [Cell.canonical?, Double.wholeNumber?_ofInt hvalue]

end ColumnType

/-! ## Rows in columnar files -/

namespace Columnar

variable {saved : Table} {rows : Batch} {keys : List String}

/-- The key columns of a table keep the keys of rows that are saved in it. -/
def KeepsKeys (saved : Table) (keys : List String) (rows : Batch) : Prop :=
  ∀ row ∈ rows.rows, ∀ key ∈ keys, ∀ type, saved.schema.lookup key = some type →
    type.KeepsKey ((Batch.cell? rows.columns row key).getD .null)

/-- The type of a column of a table, by its name. -/
def typeOf (saved : Table) (name : String) : ColumnType :=
  (saved.schema.lookup name).getD .utf8

theorem typeOf_name (hnames : saved.names.Nodup) {column : Column} (hcolumn : column ∈ saved.columns) :
    typeOf saved column.name = column.type := by
  rw [typeOf, Table.lookup_schema hnames hcolumn, Option.getD_some]

theorem lookup_eq_typeOf (hnames : saved.names.Nodup) {name : String} (hname : name ∈ saved.names) :
    saved.schema.lookup name = some (typeOf saved name) := by
  obtain ⟨column, hcolumn, rfl⟩ := List.mem_map.mp hname
  rw [typeOf_name hnames hcolumn, Table.lookup_schema hnames hcolumn]

theorem types_eq (hnames : saved.names.Nodup) : saved.types = saved.names.map (typeOf saved) := by
  rw [Table.types, Table.names, List.map_map]
  exact List.map_congr_left fun column hcolumn => (typeOf_name hnames hcolumn).symm

/-- A row that is read back has each cell as its column gives it. -/
theorem readBack_map (hnames : saved.names.Nodup) (cellOf : String → Cell) :
    saved.readBack (saved.names.map cellOf) =
      saved.names.map fun column => (cellOf column).readBack (typeOf saved column) := by
  rw [Table.readBack, types_eq hnames, List.zipWith_map, List.zipWith_self]

theorem keyOn_readBack (hnames : saved.names.Nodup) (hkeys : ∀ key ∈ keys, key ∈ saved.names)
    (columns : List String) (row : List Cell) :
    keyOn keys saved.names (saved.readBack (saved.names.map fun column =>
        (Batch.cell? columns row column).getD .null)) =
      Key.ofCells (keys.map fun key =>
        ((Batch.cell? columns row key).getD .null).readBack (typeOf saved key)) := by
  rw [readBack_map hnames, keyOn]
  congr 1
  refine List.map_congr_left fun key hkey => ?_
  rw [Batch.cell?_map_header (hkeys key hkey)]
  rfl

/-- Rows are read back with the keys they had exactly if their columns keep these. -/
theorem keysOn_readBack_iff (hnames : saved.names.Nodup) (hkeys : ∀ key ∈ keys, key ∈ saved.names) :
    keysOn keys ⟨saved.names, (rows.rowsUnder saved.names).map saved.readBack⟩ = keysOn keys rows ↔
      KeepsKeys saved keys rows := by
  have hread : keysOn keys ⟨saved.names, (rows.rowsUnder saved.names).map saved.readBack⟩ =
      rows.rows.map fun row => Key.ofCells (keys.map fun key =>
        ((Batch.cell? rows.columns row key).getD .null).readBack (typeOf saved key)) := by
    rw [keysOn, Batch.rowsUnder, List.map_map, List.map_map]
    exact List.map_congr_left fun row _ => keyOn_readBack hnames hkeys rows.columns row
  rw [hread, keysOn, List.map_inj_left]
  refine forall₂_congr fun row hrow => ?_
  rw [keyOn, Key.ofCells, Key.ofCells, List.map_map, List.map_map, List.map_inj_left]
  refine forall₂_congr fun key hkey => ?_
  rw [lookup_eq_typeOf hnames (hkeys key hkey), Function.comp_apply, Function.comp_apply,
    Cell.canonical?_readBack_iff]
  simp

end Columnar

/-! ## Either medium -/

open Change (run)

/-- Rows whose keys are all stored are dropped. -/
theorem AntiJoin.apply_eq_empty {keys : List String} (hne : keys ≠ []) {scope : BaselineScope}
    {baseline : List Batch} {read candidates : Batch} (hread : read ∈ baseline)
    (hbaseline : ∀ batch ∈ baseline, ∀ key ∈ keys, key ∈ batch.columns)
    (hcandidates : ∀ key ∈ keys, key ∈ candidates.columns)
    (hstored : ∀ key ∈ keysOn keys candidates, key ∈ keysOn keys read) :
    (AntiJoin.mk true keys false scope).apply baseline candidates = .ok (.empty candidates.columns) := by
  have hnone : (candidates.rows.filter fun row =>
      !(baseline.flatMap (keysOn keys)).contains (keyOn keys candidates.columns row)) = [] := by
    refine List.filter_eq_nil_iff.mpr fun row hrow => ?_
    have hkey := hstored _ (List.mem_map_of_mem hrow)
    simp only [Bool.not_eq_true', Bool.not_eq_false, List.contains_iff_mem]
    exact List.mem_flatMap.mpr ⟨read, hread, hkey⟩
  rw [AntiJoin.apply_eq_ok hne hbaseline hcandidates, Batch.unmatched, hnone, Batch.empty]

/-- What is read back of rows that were written, under all their columns: after other rows, as many as
there were, each of which has the key that its stored form had, if the keys are kept. -/
def Batch.ReadsBack (read stored : Batch) (keys : List String) (kept : Prop) : Prop :=
  (∀ column ∈ stored.columns, column ∈ read.columns) ∧ ∃ before added,
    read.rows = before ++ added ∧ added.length = stored.rows.length ∧
      (keysOn keys ⟨read.columns, added⟩ = keysOn keys stored ↔ kept)

theorem Batch.ReadsBack.mem_keysOn {read stored : Batch} {keys : List String} {kept : Prop}
    (hback : read.ReadsBack stored keys kept) (hkept : kept) {key : Key}
    (hkey : key ∈ keysOn keys stored) : key ∈ keysOn keys read := by
  obtain ⟨-, before, added, hrows, -, hkeys⟩ := hback
  rw [← hkeys.mpr hkept] at hkey
  rw [keysOn, hrows, List.map_append]
  exact List.mem_append_right _ hkey

namespace Delimited

variable {dialect : Dialect} {world after : World} {path : Path} {rows : Batch} {layout : Layout}
  {metadata : Metadata} {keys : List String}

/-- A check ends with the header of the file or finds that there is none. -/
theorem layout_of_check {tree : FileTree} {recorded : Option Metadata} {columns : List String}
    (hcheck : check tree dialect path recorded columns = .ok layout) :
    layout = .new ∨ ∃ header, layout = .ofColumns header := by
  obtain ⟨-, ⟨-, rfl⟩ | ⟨header, -, -, -, rfl⟩⟩ := check_eq_ok_iff.mp hcheck
  · exact .inl rfl
  · exact .inr ⟨header, rfl⟩

theorem exists_readBytes_of_readRows {tree : FileTree} {recorded : Option Metadata} {stored : Batch}
    (hread : readRows tree dialect path recorded = .ok stored) :
    ∃ bytes, tree.readBytes path = .ok bytes := by
  obtain ⟨records, hrecords, -⟩ := Outcome.bind_eq_ok_iff.mp hread
  obtain ⟨bytes, hbytes, -⟩ := recordsOf_eq_ok_iff.mp hrecords
  exact ⟨bytes, hbytes⟩

theorem readsBack_new (hvalid : dialect.validate = .ok ()) (hrows : rows.WellFormed)
    (hcolumns : rows.columns ≠ [])
    (hmark : ∀ name ∈ rows.columns, name.toList.head? ≠ some markChar)
    (hrun : run (write dialect path rows .new) world = (.ok metadata, after)) :
    ∃ read, readRows after.tree dialect path (some metadata) = .ok read ∧
      read.ReadsBack (storedForm rows) keys True := by
  obtain ⟨⟨⟩, saved, hwrite, hresult⟩ := Change.run_bind_eq_ok_iff.mp hrun
  obtain ⟨tree, htree, rfl⟩ := Change.run_onTree_eq_ok_iff.mp hwrite
  obtain ⟨rfl, rfl⟩ := Change.run_pure_eq_ok_iff.mp hresult
  obtain ⟨hwritable, rfl⟩ := FileTree.write_eq_ok_iff_writable.mp htree
  have hkeeps := keeps_newBytes hvalid hrows hcolumns hmark
  refine ⟨⟨rows.columns, rows.rows.map (List.map Cell.stored)⟩, hkeeps.readRows_eq
    (FileTree.readBytes_of_node? (hwritable.node?_set _)) (storedDialect_metadataOf hvalid),
    fun _ => id, [], rows.rows.map (List.map Cell.stored), rfl, ?_, iff_of_true ?_ trivial⟩
  · rw [storedForm_eq, Batch.mapCells, List.length_map, List.length_map]
  · exact keysOn_stored rows

theorem readsBack_added (hvalid : dialect.validate = .ok ()) {header : List String} {stored : Batch}
    {recorded : Option Metadata} {bytes : Bytes} (hbytes : world.tree.readBytes path = .ok bytes)
    (hquotes : endsInQuotes (.ofDialect dialect) bytes = false)
    (hread : readRows world.tree dialect path recorded = .ok stored)
    (hcheck : check world.tree dialect path recorded rows.columns = .ok (.ofColumns header))
    (hrun : run (write dialect path rows (.ofColumns header)) world = (.ok metadata, after))
    (hkeys : ∀ key ∈ keys, key ∈ rows.columns) :
    ∃ read, readRows after.tree dialect path (some metadata) = .ok read ∧
      read.ReadsBack (storedForm rows) keys True := by
  obtain ⟨-, hrecords, -⟩ := ne_nil_of_check hbytes hcheck
  obtain ⟨htable, rfl⟩ := columns_of_readRows hvalid hbytes hcheck hread
  obtain ⟨-, -, -, hcontained⟩ := (check_eq_ofColumns_iff hbytes).mp hcheck
  rcases @run_write_added dialect _ _ _ hbytes rows stored.columns with
    ⟨failure, other, -, hfails, -⟩ | ⟨ordered, other, hproject, hadds, hafter⟩
  · rw [hfails] at hrun
    exact absurd (congrArg Prod.fst hrun) (by simp)
  · rw [hadds] at hrun
    obtain ⟨hmetadata, rfl⟩ := Prod.mk.inj hrun
    obtain rfl := Except.ok.inj hmetadata
    obtain ⟨-, rfl⟩ := Batch.project_eq_ok_iff.mp hproject
    refine ⟨_, readRows_added hvalid ⟨htable, hrecords, hquotes⟩ hafter
      (storedDialect_metadataOf hvalid), hcontained, stored.rows, _, rfl, ?_, iff_of_true ?_ trivial⟩
    · rw [storedForm_eq, Batch.mapCells, List.length_map, List.length_map, Batch.rowsUnder,
        List.length_map]
    · exact keysOn_rowsUnder (fun key hkey => hcontained key (hkeys key hkey)) rows

end Delimited

namespace Columnar

variable {world after : World} {path : Path} {name : String} {rows : Batch} {layout : Layout}
  {metadata : Metadata} {keys : List String} {encoding : Table → Bytes}

/-- Rows that are saved after others under a header are read back after these. -/
theorem readsBack_of_encode {tree : FileTree} {schema : Schema} {header : List String}
    {before : List (List Cell)} {saved : Table} (hnodup : header.Nodup)
    (hwidths : ∀ row ∈ before, row.length = header.length)
    (hcolumns : ∀ column ∈ rows.columns, column ∈ header) (hkeys : ∀ key ∈ keys, key ∈ rows.columns)
    (hsaved : Table.encode schema ⟨header, before ++ rows.rowsUnder header⟩ = .ok saved)
    (hread : readTable tree path = .ok saved) (codec : Codec) (count : UInt64) :
    ∃ read, readRows tree (some codec) path (some (.columnar count)) = .ok read ∧
      read.ReadsBack rows keys (KeepsKeys saved keys rows) := by
  have hall : Batch.WellFormed ⟨header, before ++ rows.rowsUnder header⟩ := by
    refine ⟨hnodup, fun row hrow => ?_⟩
    rcases List.mem_append.mp hrow with hstored | hadded
    · exact hwidths row hstored
    · exact Batch.length_of_mem_rowsUnder hadded
  have hnames : saved.names = header := Table.names_of_encode hsaved
  subst hnames
  refine ⟨_, readRows_of_encode hall hsaved hread codec count, hcolumns, before.map saved.readBack,
    (rows.rowsUnder saved.names).map saved.readBack, List.map_append, ?_,
    keysOn_readBack_iff hnodup fun key hkey => hcolumns key (hkeys key hkey)⟩
  rw [List.length_map, Batch.rowsUnder, List.length_map]

theorem readsBack_of_write (hname : path.fileName? = some name) (hrows : rows.WellFormed)
    (hlayout : layout = .new ∨
      ∃ recorded, check world.tree (some (.standard encoding)) path recorded rows = .ok layout)
    (hrun : run (write (some (.standard encoding)) path rows layout) world = (.ok metadata, after))
    (hkeys : ∀ key ∈ keys, key ∈ rows.columns) :
    ∃ saved, readTable after.tree path = .ok saved ∧
      ∃ read, readRows after.tree (some (.standard encoding)) path (some metadata) = .ok read ∧
        read.ReadsBack rows keys (KeepsKeys saved keys rows) := by
  have hadds : layout.columns.isSome = true → world.tree.Writable path := by
    rcases hlayout with rfl | ⟨recorded, hcheck⟩
    · exact fun hsome => absurd hsome Bool.false_ne_true
    · obtain ⟨-, -, table, hread, -⟩ := check_eq_ok_iff.mp hcheck
      obtain ⟨encoded, hnode⟩ := exists_node?_of_readTable hread
      exact fun _ => FileTree.writable_of_node? hname hnode
  obtain ⟨hwritable, hscratch, all, schema, saved, hall, hschema, hsaved, rfl, rfl⟩ :=
    (write_standard_eq_ok_iff hname hadds).mp hrun
  have hput := @readTable_put world path encoding hwritable hscratch saved
  refine ⟨saved, hput, ?_⟩
  rcases hlayout with rfl | ⟨recorded, hcheck⟩
  · obtain rfl : rows = all := Except.ok.inj hall
    have hsame : (⟨rows.columns, [] ++ rows.rowsUnder rows.columns⟩ : Batch) = rows := by
      rw [Batch.rowsUnder_self hrows]
      rfl
    exact @readsBack_of_encode path rows keys _ schema rows.columns [] saved hrows.1 (by simp)
      (fun _ => id) hkeys (hsame.symm ▸ hsaved) hput (.standard encoding) _
  · obtain ⟨table, stored, -, hdecode, -, -, hcontained, -, hall'⟩ := allRows_of_check hrows.1 hcheck
    obtain rfl := Except.ok.inj (hall'.symm.trans hall)
    obtain ⟨hstored, rfl⟩ := Batch.ofRows_eq_ok_iff.mp hdecode
    exact readsBack_of_encode hstored.1 hstored.2 hcontained hkeys hsaved hput (.standard encoding) _

end Columnar

namespace Medium

variable {medium : Medium} {world after : World} {path : Path} {name : String} {rows : Batch}
  {layout : Layout} {metadata : Metadata} {keys : List String}

/-- The layout of a new file, or the one that a check finds of a file that is read. -/
def Receives (medium : Medium) (tree : FileTree) (path : Path) (rows : Batch) (layout : Layout) :
    Prop :=
  layout = .new ∨ ∃ recorded stored, medium.readRows tree path recorded = .ok stored ∧
    medium.check tree path recorded rows = .ok layout

/-- Marks that can be used, names that no byte order mark is seen in, and no open quotes at the end of
a file that is there; or the codec for columnar files. -/
def Regular (medium : Medium) (tree : FileTree) (path : Path) (rows : Batch) : Prop :=
  match medium with
  | .delimited dialect => dialect.validate = .ok () ∧ rows.columns ≠ [] ∧
    (∀ name ∈ rows.columns, name.toList.head? ≠ some Delimited.markChar) ∧
      ∀ bytes, tree.readBytes path = .ok bytes →
        Delimited.endsInQuotes (.ofDialect dialect) bytes = false
  | .columnar codec => ∃ encoding, codec = some (.standard encoding)

/-- The keys of rows are kept where they stand in a file: always in a delimited one, and in a columnar
one if the types of the key columns do so. -/
def KeepsKeys (medium : Medium) (tree : FileTree) (path : Path) (keys : List String) (rows : Batch) :
    Prop :=
  match medium with
  | .delimited _ => True
  | .columnar _ => ∀ saved, Columnar.readTable tree path = .ok saved →
    Columnar.KeepsKeys saved keys rows

/-- Rows that have been written are read back after those that were there, and have the keys of their
stored form exactly if the medium keeps them.  Then they are all dropped as soon as what is read back
belongs to a baseline. -/
theorem keys_read_back_iff (hname : path.fileName? = some name) (hrows : rows.WellFormed)
    (hregular : medium.Regular world.tree path rows)
    (hreceives : medium.Receives world.tree path rows layout)
    (hrun : run (medium.write path rows layout) world = (.ok metadata, after))
    (hkeys : ∀ key ∈ keys, key ∈ rows.columns) :
    ∃ read, medium.readRows after.tree path (some metadata) = .ok read ∧
      read.ReadsBack (medium.storedForm rows) keys (medium.KeepsKeys after.tree path keys rows) ∧
      (medium.KeepsKeys after.tree path keys rows → keys ≠ [] →
        ∀ (scope : BaselineScope) (baseline : List Batch), read ∈ baseline →
          (∀ batch ∈ baseline, ∀ key ∈ keys, key ∈ batch.columns) →
            (AntiJoin.mk true keys false scope).apply baseline (medium.storedForm rows) =
              .ok (.empty rows.columns)) := by
  have hback : ∃ read, medium.readRows after.tree path (some metadata) = .ok read ∧
      read.ReadsBack (medium.storedForm rows) keys (medium.KeepsKeys after.tree path keys rows) := by
    cases medium with
    | delimited dialect =>
      obtain ⟨hvalid, hcolumns, hmark, hquotes⟩ := hregular
      rcases hreceives with rfl | ⟨recorded, stored, hstored, hcheck⟩
      · exact Delimited.readsBack_new hvalid hrows hcolumns hmark hrun
      rcases Delimited.layout_of_check hcheck with rfl | ⟨header, rfl⟩
      · exact Delimited.readsBack_new hvalid hrows hcolumns hmark hrun
      · obtain ⟨bytes, hbytes⟩ := Delimited.exists_readBytes_of_readRows hstored
        exact Delimited.readsBack_added hvalid hbytes (hquotes bytes hbytes) hstored hcheck hrun hkeys
    | columnar codec =>
      obtain ⟨encoding, rfl⟩ := hregular
      have hlayout : layout = .new ∨ ∃ recorded,
          Columnar.check world.tree (some (.standard encoding)) path recorded rows = .ok layout :=
        hreceives.imp id fun ⟨recorded, _, _, hcheck⟩ => ⟨recorded, hcheck⟩
      obtain ⟨saved, hsaved, read, hread, hcolumns, before, added, hall, hlength, hiff⟩ :=
        Columnar.readsBack_of_write hname hrows hlayout hrun hkeys
      refine ⟨read, hread, hcolumns, before, added, hall, hlength, hiff.trans ?_⟩
      exact ⟨fun hkeeps found hfound => Except.ok.inj (hsaved.symm.trans hfound) ▸ hkeeps,
        fun hkeeps => hkeeps saved hsaved⟩
  obtain ⟨read, hread, hback⟩ := hback
  refine ⟨read, hread, hback, fun hkeeps hne scope baseline hmem hbaseline => ?_⟩
  have hcolumns := columns_storedForm medium rows
  rw [← hcolumns]
  exact AntiJoin.apply_eq_empty hne hmem hbaseline (hcolumns.symm ▸ hkeys) fun key hkey =>
    hback.mem_keysOn hkeeps hkey

/-- An integer that is no double, in a column with a fraction: it is read back as its neighbour. -/
theorem keys_change_among_doubles :
    let rows : Batch := ⟨["id"], [[.int 9007199254740993], [.double ⟨0x3fe0000000000000⟩]]⟩
    let medium := Medium.columnar (some .standard)
    let result := run (medium.write ⟨"t.parquet"⟩ rows .new) ⟨.empty, none⟩
    rows.WellFormed ∧ result.1 = .ok (.columnar 2) ∧ ∃ read before added,
      medium.readRows result.2.tree ⟨"t.parquet"⟩ (some (.columnar 2)) = .ok read ∧
        read.rows = before ++ added ∧ added.length = rows.rows.length ∧
          keysOn ["id"] ⟨read.columns, added⟩ ≠ keysOn ["id"] (medium.storedForm rows) := by
  intro rows medium result
  have hrows : rows.WellFormed := by
    unfold Batch.WellFormed
    decide
  have hwritten : result.1 = .ok (.columnar 2) := by decide +kernel
  have hsaved : Columnar.readTable result.2.tree ⟨"t.parquet"⟩ = .ok ⟨[⟨"id", .float64,
      [.double (.ofInt 9007199254740993), .double ⟨0x3fe0000000000000⟩]⟩]⟩ := by decide +kernel
  have hother : (Cell.double (.ofInt 9007199254740993)).canonical? ≠
      (Cell.int 9007199254740993).canonical? := by decide +kernel
  have hlost : ¬ medium.KeepsKeys result.2.tree ⟨"t.parquet"⟩ ["id"] rows := fun hkeeps =>
    hother (hkeeps _ hsaved [.int 9007199254740993] (by simp [rows]) "id" (by simp) .float64 rfl)
  obtain ⟨read, hread, ⟨-, before, added, hall, hlength, hiff⟩, -⟩ :=
    @keys_read_back_iff medium ⟨.empty, none⟩ result.2 ⟨"t.parquet"⟩ "t.parquet" rows .new
      (.columnar 2) ["id"] (by decide) hrows ⟨_, rfl⟩ (.inl rfl) (Prod.ext hwritten rfl) (by simp [rows])
  exact ⟨hrows, hwritten, read, before, added, hread, hall, hlength, mt hiff.mp hlost⟩

end Medium

end TableAppend
