import TableAppend.Proofs.Append.Layouts
import TableAppend.Proofs.Columnar.Resaving
import TableAppend.Proofs.FileTree.Making
import TableAppend.Proofs.World.Storing
import TableAppend.Proofs.World.Transfer

/-!
# Adding rows to a columnar file

The stored rows are read, the new ones are added to them, and all are saved again under the stored
types.  Rows that are null throughout fit every file, and nothing but the stored values decides whether
they can be added.
-/

namespace TableAppend.Columnar

open Change (run)
open FileTree (Writable)

variable {world after : World} {path : Path} {name : String} {rows : Batch} {layout : Layout}
  {metadata : Metadata} {encoding : Table → Bytes}

/-! ## What is saved and read back -/

/-- A table that has been saved is read back with each cell in the form that its column gives it. -/
theorem readRows_of_encode {tree : FileTree} {schema : Schema} {all : Batch} {saved : Table}
    (hall : all.WellFormed) (hsaved : Table.encode schema all = .ok saved)
    (hread : readTable tree path = .ok saved) (codec : Codec) (count : UInt64) :
    readRows tree (some codec) path (some (.columnar count)) =
      .ok ⟨all.columns, all.rows.map saved.readBack⟩ := by
  have hnames := Table.names_of_encode hsaved
  have hdecoded : saved.decode = .ok ⟨all.columns, all.rows.map saved.readBack⟩ := by
    rw [Table.decode_eq_ok (hnames ▸ hall.1), hnames, Table.rows_of_encode hall hsaved]
  exact readRows_eq_ok_iff.mpr ⟨rfl, ⟨codec, rfl⟩, saved, hread, hdecoded⟩

/-- Rows are written where the file and its temporary form can be written, if they can be saved. -/
theorem write_standard_eq_ok_iff (hname : path.fileName? = some name)
    (hadds : layout.columns.isSome = true → world.tree.Writable path) :
    run (write (some (.standard encoding)) path rows layout) world = (.ok metadata, after) ↔
      world.tree.Writable path ∧ world.tree.Writable (path.besides Metadata.temporaryEnding) ∧
        ∃ all schema saved, allRows world.tree path rows layout = .ok all ∧
          keptSchema world.tree path layout = .ok schema ∧ Table.encode schema all = .ok saved ∧
            metadata = .columnar (UInt64.ofNat all.size) ∧
              after = { world with
                tree := (Medium.columnar (some (.standard encoding))).put world.tree path
                  (.table ⟨saved, encoding saved⟩) } := by
  have hwrite := @Medium.write_eq_ok_iff_writable _ after path name rows layout metadata
    (.columnar (some (.standard encoding))) hname hadds
  refine hwrite.trans (and_congr_right fun hwritable => and_congr ?_ ?_)
  · exact ⟨fun hall => hall _ (List.mem_singleton_self _),
      fun h temporary hmem => List.mem_singleton.mp hmem ▸ h⟩
  · constructor
    · rintro ⟨content, ⟨present, all, schema, hpresent, hall, hschema, hsave, hmetadata⟩, hafter⟩
      obtain rfl := Option.some.inj hpresent
      obtain ⟨saved, hsaved, rfl⟩ := Codec.save_standard_eq_ok_iff.mp hsave
      exact ⟨all, schema, saved, hall, hschema, hsaved, hmetadata, hafter⟩
    · rintro ⟨all, schema, saved, hall, hschema, hsaved, hmetadata, hafter⟩
      exact ⟨.table ⟨saved, encoding saved⟩, ⟨.standard encoding, all, schema, rfl, hall, hschema,
        Codec.save_standard_eq_ok_iff.mpr ⟨saved, hsaved, rfl⟩, hmetadata⟩, hafter⟩

theorem readTable_put (hwritable : world.tree.Writable path)
    (hscratch : world.tree.Writable (path.besides Metadata.temporaryEnding)) (saved : Table) :
    readTable ((Medium.columnar (some (.standard encoding))).put world.tree path
      (.table ⟨saved, encoding saved⟩)) path = .ok saved := by
  refine readTable_of_node? (Medium.puts_put hwritable ?_ _).node?
  exact fun temporary hmem => List.mem_singleton.mp hmem ▸ hscratch

/-- Where a file has been checked, all rows are the stored ones and the new ones under the stored
columns. -/
theorem allRows_of_check {tree : FileTree} {codec : Option Codec} {recorded : Option Metadata}
    (hrows : rows.columns.Nodup) (hcheck : check tree codec path recorded rows = .ok layout) :
    ∃ table stored, readTable tree path = .ok table ∧ table.decode = .ok stored ∧
      readRows tree codec path recorded = .ok stored ∧ layout.columns = some stored.columns ∧
        (∀ column ∈ rows.columns, column ∈ stored.columns) ∧
          keptSchema tree path layout = .ok table.schema ∧
            allRows tree path rows layout =
              .ok ⟨stored.columns, stored.rows ++ rows.rowsUnder stored.columns⟩ := by
  obtain ⟨hformat, hcodec, table, hread, stored, hstored, hcolumns, -, rfl⟩ :=
    check_eq_ok_iff.mp hcheck
  rw [Batch.hasColumns, Bool.and_eq_true, decide_eq_true_eq, List.all_eq_true] at hcolumns
  obtain ⟨hlength, hcontained⟩ := hcolumns
  have hmem : ∀ column ∈ rows.columns, column ∈ stored.columns := fun column hcolumn => by
    simpa using hcontained column hcolumn
  have hproject : rows.project stored.columns =
      .ok ⟨stored.columns, rows.rowsUnder stored.columns⟩ :=
    Batch.project_eq_ok_iff.mpr ⟨Batch.hasColumns_of_contained hrows hlength hmem, rfl⟩
  refine ⟨table, stored, hread, hstored,
    readRows_eq_ok_iff.mpr ⟨hformat, hcodec, table, hread, hstored⟩, rfl, hmem, rfl, ?_⟩
  exact Outcome.bind_eq_ok_iff.mpr ⟨_, hproject, rfl⟩

/-! ## Rows of nulls -/

theorem rowsUnder_of_null (hnull : ∀ row ∈ rows.rows, ∀ cell ∈ row, cell = .null)
    (header : List String) :
    rows.rowsUnder header = List.replicate rows.size (List.replicate header.length .null) := by
  have hrow : ∀ row ∈ rows.rows, (header.map fun column =>
      (Batch.cell? rows.columns row column).getD .null) = List.replicate header.length .null := by
    intro row hrow
    refine List.eq_replicate_iff.mpr ⟨List.length_map _, fun cell hcell => ?_⟩
    obtain ⟨column, -, rfl⟩ := List.mem_map.mp hcell
    cases hfound : Batch.cell? rows.columns row column with
    | none => rfl
    | some found =>
      obtain ⟨index, -, hindex⟩ := Option.bind_eq_some_iff.mp hfound
      exact hnull row hrow found (List.mem_of_getElem? hindex)
  rw [Batch.rowsUnder, List.map_congr_left hrow, List.map_const', Batch.size]

/-- Rows of nulls can be added to a readable file exactly if nothing is in the way of its temporary form,
it has columns, and no value of it is an integer that is read as a text.  Then its columns and their
types stay, and its rows are read as before, with the new ones after them. -/
theorem write_of_nulls {table : Table} (hsound : table.Sound)
    (hread : readTable world.tree path = .ok table) (hrows : rows.WellFormed)
    (hnull : ∀ row ∈ rows.rows, ∀ cell ∈ row, cell = .null) {recorded : Option Metadata}
    (hcheck : check world.tree (some (.standard encoding)) path recorded rows = .ok layout) :
    ((∃ metadata after,
        run (write (some (.standard encoding)) path rows layout) world = (.ok metadata, after)) ↔
        world.tree.Writable (path.besides Metadata.temporaryEnding) ∧ table.columns ≠ [] ∧
          ∀ column ∈ table.columns, column.type.isReadAsText = true →
            ∀ datum ∈ column.data, datum = .null) ∧
      ∀ metadata after,
        run (write (some (.standard encoding)) path rows layout) world = (.ok metadata, after) →
          ∃ stored saved,
            readRows world.tree (some (.standard encoding)) path recorded = .ok stored ∧
            readTable after.tree path = .ok saved ∧ saved.schema = table.schema ∧
              readRows after.tree (some (.standard encoding)) path (some metadata) =
                .ok ⟨stored.columns, stored.rows ++ List.replicate rows.size
                  (List.replicate stored.columns.length .null)⟩ := by
  obtain ⟨encoded, hnode⟩ := exists_node?_of_readTable hread
  obtain ⟨name, hname⟩ := FileTree.exists_fileName?_of_node? hnode
  have hwritable := FileTree.writable_of_node? hname hnode
  obtain ⟨found, stored, hfound, hdecode, hstored, hcolumns, -, hschema, hall⟩ :=
    allRows_of_check hrows.1 hcheck
  obtain rfl := Except.ok.inj (hread.symm.trans hfound)
  obtain rfl := Except.ok.inj ((Table.decode_eq_ok hsound.names).symm.trans hdecode)
  rw [rowsUnder_of_null hnull] at hall
  have hwrite : ∀ metadata after, run (write (some (.standard encoding)) path rows layout) world =
      (.ok metadata, after) ↔ _ := fun metadata after =>
    @write_standard_eq_ok_iff _ after path name rows layout metadata _ hname fun _ => hwritable
  constructor
  · rw [← @Table.Sound.exists_encode_withNulls_iff table hsound rows.size]
    constructor
    · rintro ⟨metadata, after, hrun⟩
      obtain ⟨-, hscratch, all, schema, saved, hall', hschema', hsaved, -⟩ :=
        (hwrite metadata after).mp hrun
      obtain rfl := Except.ok.inj (hall.symm.trans hall')
      obtain rfl := Except.ok.inj (hschema.symm.trans hschema')
      exact ⟨hscratch, saved, hsaved⟩
    · rintro ⟨hscratch, saved, hsaved⟩
      exact ⟨_, _, (hwrite _ _).mpr
        ⟨hwritable, hscratch, _, _, saved, hall, hschema, hsaved, rfl, rfl⟩⟩
  · intro metadata after hrun
    obtain ⟨-, hscratch, all, schema, saved, hall', hschema', hsaved, rfl, rfl⟩ :=
      (hwrite metadata after).mp hrun
    obtain rfl := Except.ok.inj (hall.symm.trans hall')
    obtain rfl := Except.ok.inj (hschema.symm.trans hschema')
    obtain ⟨hkept, hdecoded⟩ := hsound.decode_of_encode_withNulls hsaved
    have hput := @readTable_put world path encoding hwritable hscratch saved
    refine ⟨_, saved, hstored, hput, hkept, ?_⟩
    rw [readRows]
    simp only [rejectDelimited, Codec.require, Outcome.ok_bind, hput]
    exact hdecoded

/-- A row of nulls for a file with a small integer: the file is accepted, and cannot be saved again. -/
theorem no_nulls_after_small_integers :
    let table : Table := ⟨[⟨"c", .int8, [.integer 1]⟩]⟩
    let rows : Batch := ⟨["c"], [[.null]]⟩
    let world : World := ⟨FileTree.empty.set ["t.parquet"] (.file (.table table)), none⟩
    table.Sound ∧ rows.WellFormed ∧
      ∃ layout, check world.tree (some .standard) ⟨"t.parquet"⟩ none rows = .ok layout ∧
        ¬ ∃ metadata after,
          run (write (some .standard) ⟨"t.parquet"⟩ rows layout) world = (.ok metadata, after) := by
  intro table rows world
  have hsound : table.Sound := by
    refine ⟨by decide, by decide, fun column hcolumn datum hdatum => ?_⟩
    obtain rfl := List.mem_singleton.mp hcolumn
    obtain rfl := List.mem_singleton.mp hdatum
    exact @Datum.Fits.integer .int8 (-128, 127) rfl 1 (by decide) (by decide)
  have hrows : rows.WellFormed := by
    unfold Batch.WellFormed
    decide
  have hnull : ∀ row ∈ rows.rows, ∀ cell ∈ row, cell = .null := by decide
  have hcheck : check world.tree (some .standard) ⟨"t.parquet"⟩ none rows =
      .ok ⟨some ["c"], some ⟨["c"], [[.text "1"]]⟩, some [("c", .int8)]⟩ := by
    decide +kernel
  refine ⟨hsound, hrows, _, hcheck, fun hsuccess => ?_⟩
  obtain ⟨-, -, hnulls⟩ :=
    (write_of_nulls hsound (by decide) hrows hnull hcheck).1.mp hsuccess
  exact absurd (hnulls _ (List.mem_singleton_self _) rfl _ (List.mem_singleton_self _)) (by decide)

end TableAppend.Columnar
