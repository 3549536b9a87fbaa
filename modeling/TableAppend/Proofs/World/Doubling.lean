import TableAppend.Proofs.Columnar.Encoding
import TableAppend.Proofs.Delimited.Keeping
import TableAppend.Proofs.Keys
import TableAppend.Proofs.World.MediumWriting

/-!
# Files that take their rows again

A file that was written from its beginning is accepted for the same rows, whatever the medium.  Once
they are added it holds its rows twice.  Only a delimited file that begins with a byte order mark is
read under another header than it was written with.
-/

namespace TableAppend

variable {rows : Batch}

/-- Rows as they are read from a new file. -/
def Medium.StoredRows (medium : Medium) (rows : Batch) (stored : List (List Cell)) : Prop :=
  match medium with
  | .delimited _ => stored = rows.rows.map (List.map Cell.stored)
  | .columnar _ => ∃ table, Table.encode [] rows = .ok table ∧ stored = table.rows

/-- A content to which the rows it was made of can be added, and what it is then. -/
structure Medium.Doubles (medium : Medium) (rows : Batch) (stored : List (List Cell))
    (once twice : Content) (first second : Metadata) : Prop where
  adds : ∀ tree path, FileTree.node? tree path = some (.file once) → ∃ layout,
    medium.check tree path (some first) (medium.storedForm rows) = .ok layout ∧
      medium.Stores tree path (medium.storedForm rows) layout twice second
  reads : ∀ tree path, FileTree.node? tree path = some (.file once) →
    medium.readRows tree path (some first) = .ok ⟨rows.columns, stored⟩
  readsTwice : ∀ tree path, FileTree.node? tree path = some (.file twice) →
    medium.readRows tree path (some second) = .ok ⟨rows.columns, stored ++ stored⟩

theorem Delimited.wellFormed_storedForm (hrows : rows.WellFormed) :
    (storedForm rows).WellFormed := by
  refine ⟨hrows.1, fun row hrow => ?_⟩
  obtain ⟨before, hbefore, rfl⟩ := List.mem_map.mp hrow
  rw [List.length_map]
  exact hrows.2 before hbefore

theorem Delimited.stored_storedForm (rows : Batch) :
    (storedForm rows).rows.map (List.map Cell.stored) = rows.rows.map (List.map Cell.stored) := by
  rw [storedForm_eq, Batch.mapCells, List.map_map]
  refine List.map_congr_left fun row _ => ?_
  rw [Function.comp_apply, List.map_map]
  exact List.map_congr_left fun cell _ => cell.stored_kept

namespace Delimited

theorem doubles_newBytes {dialect : Dialect} (hvalid : dialect.validate = .ok ())
    (hrows : rows.WellFormed) (hcolumns : rows.columns ≠ [])
    (hmark : byteOrderMark.isPrefixOf (writeHeader dialect rows.columns) = false) :
    ∃ twice, (Medium.delimited dialect).Doubles rows (rows.rows.map (List.map Cell.stored))
      (.bytes (newBytes dialect (storedForm rows))) twice (metadataOf dialect)
        (metadataOf dialect) := by
  have hcandidates := wellFormed_storedForm hrows
  have hunmarked := (isPrefixOf_byteOrderMark_newBytes dialect (storedForm rows)).trans hmark
  have hkeeps := keeps_of_unmarked hvalid hcandidates hcolumns hunmarked
  have hadded := hkeeps.added hvalid hcandidates.2
  have hknown := storedDialect_metadataOf hvalid
  rw [stored_storedForm] at hkeeps hadded
  refine ⟨.bytes (addedBytes dialect (newBytes dialect (storedForm rows)) (storedForm rows)),
    fun tree path hnode => ?_, fun tree path hnode => ?_, fun tree path hnode => ?_⟩
  · have hbytes := FileTree.readBytes_of_node? hnode
    refine ⟨.ofColumns rows.columns, (hkeeps.check_eq_ok_iff hbytes
      (checkMarks_metadataOf tree dialect path)).mpr ⟨rfl, rfl, fun _ => id⟩, rfl, ?_⟩
    exact ⟨_, _, hnode, Batch.project_self hcandidates, rfl⟩
  · exact hkeeps.readRows_eq (FileTree.readBytes_of_node? hnode) hknown
  · exact hadded.readRows_eq (FileTree.readBytes_of_node? hnode) hknown

end Delimited

namespace Columnar

theorem doubles_encode (hrows : rows.WellFormed) {table : Table}
    (htable : Table.encode [] rows = .ok table) (encoding : Table → Bytes) (first : UInt64) :
    ∃ second, (Medium.columnar (some (.standard encoding))).Doubles rows table.rows
      (.table ⟨table, encoding table⟩) (.table ⟨table.doubled, encoding table.doubled⟩)
        (.columnar first) second := by
  have hdecode := Table.decode_of_encode hrows htable
  have hread : ∀ tree path,
      FileTree.node? tree path = some (.file (.table ⟨table, encoding table⟩)) →
        readTable tree path = .ok table := fun tree path hnode => readTable_of_node? hnode
  have hform : (Medium.columnar (some (.standard encoding))).storedForm rows = rows := rfl
  refine ⟨.columnar (UInt64.ofNat (Batch.size ⟨rows.columns, table.rows ++ rows.rows⟩)),
    fun tree path hnode => ?_, fun tree path hnode => ?_, fun tree path hnode => ?_⟩
  · refine ⟨⟨some rows.columns, some ⟨rows.columns, table.rows⟩, some table.schema⟩, ?_, ?_⟩
    · have hcolumns : Batch.hasColumns ⟨rows.columns, table.rows⟩ rows.columns = true :=
        Batch.hasColumns_of_contained hrows.1 rfl fun _ => id
      rw [hform, Medium.check, check, hread tree path hnode]
      simp only [rejectDelimited, Codec.require, Outcome.ok_bind, hdecode, if_pos hcolumns,
        Table.checkTypes_of_encode hrows htable]
      rfl
    · refine ⟨.standard encoding, ⟨rows.columns, table.rows ++ rows.rows⟩, table.schema, rfl, ?_, rfl,
        ?_, rfl⟩
      · rw [hform, allRows]
        simp only [Batch.concat, Batch.project_self hrows, Outcome.ok_bind]
        rfl
      · exact Codec.save_standard_eq_ok_iff.mpr ⟨_, Table.encode_again hrows htable, rfl⟩
  · rw [Medium.readRows, readRows, hread tree path hnode]
    exact hdecode
  · have htwice : readTable tree path = .ok table.doubled := readTable_of_node? hnode
    rw [Medium.readRows, readRows, htwice]
    exact Table.decode_doubled_of_encode hrows htable

end Columnar

/-- What has been written to a new file doubles. -/
theorem Medium.exists_doubles {format : Format} {codec : Option Codec}
    (hcodec : ∀ present, codec = some present → ∃ encoding, present = .standard encoding)
    (hrows : rows.WellFormed)
    (hcolumns : rows.columns ≠ [])
    (hvalid : ∀ dialect, format = .delimited dialect → dialect.validate = .ok () ∧
      Delimited.byteOrderMark.isPrefixOf (Delimited.writeHeader dialect rows.columns) = false)
    {tree : FileTree} {path : Path} {once : Content} {first : Metadata}
    (hstores : (ofFormat format codec).Stores tree path
      ((ofFormat format codec).storedForm rows) .new once first) :
    ∃ stored twice second, (ofFormat format codec).StoredRows rows stored ∧
      (ofFormat format codec).Doubles rows stored once twice first second := by
  cases format with
  | delimited dialect =>
    obtain ⟨rfl, rfl⟩ := hstores
    obtain ⟨hdialect, hmark⟩ := hvalid dialect rfl
    obtain ⟨twice, hdoubles⟩ := Delimited.doubles_newBytes hdialect hrows hcolumns hmark
    exact ⟨_, twice, _, rfl, hdoubles⟩
  | columnar =>
    obtain ⟨present, all, schema, hpresent, hall, hschema, hsave, rfl⟩ := hstores
    obtain ⟨encoding, rfl⟩ := hcodec present hpresent
    obtain rfl := hpresent
    obtain rfl := Except.ok.inj hall
    obtain rfl := Except.ok.inj hschema
    obtain ⟨table, htable, rfl⟩ := Codec.save_standard_eq_ok_iff.mp hsave
    obtain ⟨second, hdoubles⟩ := Columnar.doubles_encode hrows htable encoding _
    exact ⟨_, _, second, ⟨table, htable, rfl⟩, hdoubles⟩

end TableAppend
