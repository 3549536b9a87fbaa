import TableAppend.Proofs.Outcome
import TableAppend.Proofs.World.Region

/-!
# Reading files

What is read from a file depends on its content and on nothing else in the tree.  Rows are read, and a
file is accepted, exactly if each of the steps that this takes succeeds.
-/

namespace TableAppend

variable {tree before after : FileTree} {path : Path} {content : Content}

theorem FileTree.find_of_node? (htree : tree.WellFormed) (hpath : path.Descends) {node : Node}
    (hnode : tree.node? path = some node) : tree.find path = .ok (path.location, node) := by
  obtain ⟨husable, hget, hend⟩ := (node?_eq_some_iff htree hpath).mp hnode
  exact (find_eq_ok_iff htree hpath).mpr ⟨husable, rfl, hget, hend⟩

theorem Delimited.recordsOf_of_node? (hnode : tree.node? path = some (.file content))
    (dialect : Dialect) :
    recordsOf tree path dialect = .ok (readRecords (.ofDialect dialect) content.toBytes) := by
  rw [recordsOf, FileTree.readBytes_of_node? hnode]

theorem Delimited.recordsOf_eq_ok_iff {dialect : Dialect} {records : List RawRecord} :
    recordsOf tree path dialect = .ok records ↔ ∃ bytes, tree.readBytes path = .ok bytes ∧
      readRecords (.ofDialect dialect) bytes = records := by
  rw [recordsOf]
  cases tree.readBytes path <;> simp

/-- A file begins with a header unless there is no record in it. -/
theorem Delimited.header?_eq_none_iff {bytes : Bytes} (hbytes : tree.readBytes path = .ok bytes)
    {dialect : Dialect} :
    header? tree path dialect = .ok none ↔ readRecords (.ofDialect dialect) bytes = [] := by
  rw [header?, recordsOf, hbytes]
  dsimp only
  rw [Outcome.ok_bind]
  cases readRecords (.ofDialect dialect) bytes with
  | nil => exact iff_of_true rfl rfl
  | cons first rest => simp [Outcome.map_eq_ok_iff]

theorem Delimited.exists_node?_of_header? {dialect : Dialect} {found : Option (List String)}
    (hfound : header? tree path dialect = .ok found) :
    ∃ content, tree.node? path = some (.file content) := by
  obtain ⟨records, hrecords, -⟩ := Outcome.bind_eq_ok_iff.mp hfound
  obtain ⟨bytes, hbytes, -⟩ := recordsOf_eq_ok_iff.mp hrecords
  exact FileTree.exists_node?_of_readBytes hbytes

/-- The table in a content, or why there is none. -/
def Columnar.tableOf : Content → Outcome Table
  | .table saved => .ok saved.toTable
  | .bytes bytes => .error (.tableFile (Footer.fault bytes))

theorem Columnar.readTable_of_node? (hnode : tree.node? path = some (.file content)) :
    readTable tree path = tableOf content := by
  obtain ⟨there, hfind⟩ := FileTree.node?_eq_some_iff_find.mp hnode
  rw [readTable, hfind]
  cases content <;> rfl

/-! ## Reading rows and checking files -/

theorem Codec.require_eq_ok_iff {codec : Option Codec} {purpose : String} {present : Codec} :
    require codec purpose = .ok present ↔ codec = some present := by
  cases codec <;> simp [require]

/-- A check of a delimited file finds no record, or a header with as many names as there are columns and
all of these among them. -/
theorem Delimited.check_eq_ok_iff {dialect : Dialect} {metadata : Option Metadata}
    {columns : List String} {layout : Layout} :
    check tree dialect path metadata columns = .ok layout ↔
      checkMarks tree dialect path metadata = .ok () ∧
        ((header? tree path dialect = .ok none ∧ layout = .new) ∨
          ∃ header, header? tree path dialect = .ok (some header) ∧
            header.length = columns.length ∧ (∀ column ∈ columns, column ∈ header) ∧
              layout = .ofColumns header) := by
  rw [check, Outcome.seq_eq_ok_iff, Outcome.bind_eq_ok_iff]
  refine and_congr_right fun _ => ?_
  constructor
  · rintro ⟨_ | header, hfound, hlayout⟩
    · exact .inl ⟨hfound, (Except.ok.inj hlayout).symm⟩
    · dsimp only at hlayout
      split at hlayout
      · rename_i hfits
        exact .inr ⟨header, hfound, hfits.1, by simpa using hfits.2, (Except.ok.inj hlayout).symm⟩
      · contradiction
  · rintro (⟨hfound, rfl⟩ | ⟨header, hfound, hlength, hcontained, rfl⟩)
    · exact ⟨none, hfound, rfl⟩
    · exact ⟨some header, hfound, if_pos ⟨hlength, by simpa using hcontained⟩⟩

/-- A columnar file is read with any codec, unless it is recorded as a delimited one. -/
theorem Columnar.readRows_eq_ok_iff {codec : Option Codec} {metadata : Option Metadata}
    {rows : Batch} :
    readRows tree codec path metadata = .ok rows ↔
      rejectDelimited path metadata = .ok () ∧ (∃ present, codec = some present) ∧
        ∃ table, readTable tree path = .ok table ∧ table.decode = .ok rows := by
  rw [readRows, Outcome.seq_eq_ok_iff]
  simp only [Outcome.bind_eq_ok_iff, Codec.require_eq_ok_iff, exists_and_right]

/-- A check of a columnar file finds stored rows with the columns of the batch, and stored types that
hold its cells. -/
theorem Columnar.check_eq_ok_iff {codec : Option Codec} {metadata : Option Metadata} {rows : Batch}
    {layout : Layout} :
    check tree codec path metadata rows = .ok layout ↔
      rejectDelimited path metadata = .ok () ∧ (∃ present, codec = some present) ∧
        ∃ table, readTable tree path = .ok table ∧ ∃ stored, table.decode = .ok stored ∧
          stored.hasColumns rows.columns = true ∧ checkTypes path table.schema rows = .ok () ∧
            layout = ⟨some stored.columns, some stored, some table.schema⟩ := by
  have hfits : ∀ (table : Table) (stored : Batch), (if stored.hasColumns rows.columns then do
      checkTypes path table.schema rows
      return ⟨some stored.columns, some stored, some table.schema⟩
    else .error (.otherColumns path stored.columns rows.columns) : Outcome Layout) = .ok layout ↔
      stored.hasColumns rows.columns = true ∧ checkTypes path table.schema rows = .ok () ∧
        layout = ⟨some stored.columns, some stored, some table.schema⟩ := by
    intro table stored
    split
    · rename_i hcolumns
      rw [Outcome.seq_eq_ok_iff, Outcome.pure_eq_ok, Except.ok.injEq, and_iff_right hcolumns,
        @eq_comm _ layout]
    · rename_i hcolumns
      simp [hcolumns]
  rw [check, Outcome.seq_eq_ok_iff]
  simp only [Outcome.bind_eq_ok_iff, Codec.require_eq_ok_iff, hfits, exists_and_right]

/-! ## Metadata -/

/-- What is known of a data file that has a metadata file: nothing else matters than whether that is text,
and what the text says. -/
theorem World.metadata_of_file {world : World} (hledger : world.ledger = none)
    (hnode : world.tree.node? (Metadata.path path) = some (.file content)) :
    world.metadata path = match Utf8.decode? content.toBytes with
      | some text => .ok (Metadata.ofText? text)
      | none => .error (.io .notText) := by
  rw [metadata, hledger]
  dsimp only
  rw [storedMetadata, if_pos (FileTree.isFile_iff.mpr ⟨_, hnode⟩), FileTree.readText,
    FileTree.readBytes_of_node? hnode, FileTree.ok_bind]
  cases Utf8.decode? content.toBytes with
  | none => rfl
  | some text => rfl

/-- Metadata that have been recorded are read as their text is. -/
theorem World.metadata_of_node? {world : World} (hledger : world.ledger = none) {text : String}
    (hnode : world.tree.node? (Metadata.path path) = some (.file (.bytes (Utf8.encode text)))) :
    world.metadata path = .ok (Metadata.ofText? text) := by
  rw [metadata_of_file hledger hnode, Content.toBytes, Utf8.decode?_encode]

namespace Medium

variable (hbefore : before.node? path = some (.file content))
  (hafter : after.node? path = some (.file content)) (medium : Medium)

include hbefore

include hafter in
theorem countRows_congr (metadata : Option Metadata) :
    medium.countRows after path metadata = medium.countRows before path metadata := by
  cases medium with
  | delimited dialect =>
    simp only [countRows, Delimited.countRows, Delimited.recordsOf_of_node? hbefore,
      Delimited.recordsOf_of_node? hafter]
  | columnar codec =>
    simp only [countRows, Columnar.countRows, Columnar.readTable_of_node? hbefore,
      Columnar.readTable_of_node? hafter]

/-- A count depends on the file and not on the path under which it is found. -/
theorem countRows_eq_ok_congr {other : Path} (hother : after.node? other = some (.file content))
    {metadata : Option Metadata} {rows : Nat}
    (hrows : medium.countRows before path metadata = .ok rows) :
    medium.countRows after other metadata = .ok rows := by
  cases medium with
  | delimited dialect =>
    simp only [countRows, Delimited.countRows, Delimited.recordsOf_of_node? hbefore,
      Delimited.recordsOf_of_node? hother] at hrows ⊢
    exact hrows
  | columnar codec =>
    rw [countRows, Columnar.countRows] at hrows ⊢
    obtain ⟨⟨⟩, hformat, hcounted⟩ := Outcome.bind_eq_ok_iff.mp hrows
    refine Outcome.bind_eq_ok_iff.mpr ⟨(), ?_, ?_⟩
    · cases metadata with
      | none => rfl
      | some found => cases found <;> first | rfl | contradiction
    · rw [← hcounted]
      simp only [Columnar.readTable_of_node? hbefore, Columnar.readTable_of_node? hother]

include hafter in
theorem readRows_congr (metadata : Option Metadata) :
    medium.readRows after path metadata = medium.readRows before path metadata := by
  cases medium with
  | delimited dialect =>
    simp only [readRows, Delimited.readRows, Delimited.recordsOf_of_node? hbefore,
      Delimited.recordsOf_of_node? hafter]
  | columnar codec =>
    simp only [readRows, Columnar.readRows, Columnar.readTable_of_node? hbefore,
      Columnar.readTable_of_node? hafter]

include hafter in
theorem check_congr (metadata : Option Metadata) (rows : Batch) :
    medium.check after path metadata rows = medium.check before path metadata rows := by
  cases medium with
  | delimited dialect =>
    have hmarks : Delimited.checkMarks after dialect path metadata =
        Delimited.checkMarks before dialect path metadata := by
      unfold Delimited.checkMarks
      rw [FileTree.readBytes_of_node? hbefore, FileTree.readBytes_of_node? hafter]
    have hheader : Delimited.header? after path dialect = Delimited.header? before path dialect := by
      simp only [Delimited.header?, Delimited.recordsOf_of_node? hbefore,
        Delimited.recordsOf_of_node? hafter]
    simp only [check, Delimited.check, hmarks, hheader]
  | columnar codec =>
    simp only [check, Columnar.check, Columnar.readTable_of_node? hbefore,
      Columnar.readTable_of_node? hafter]

end Medium

end TableAppend
