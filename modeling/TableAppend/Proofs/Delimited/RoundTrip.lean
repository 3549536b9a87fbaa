import TableAppend.Proofs.Delimited.Keeping
import TableAppend.Proofs.World.Storing

/-!
# Reading a new file

A new file is read in the marks that are recorded of it, whatever marks are wanted by then.  What comes
back are the columns and the rows that were written, each cell as it is stored.
-/

namespace TableAppend.Delimited

open Change (run)
open FileTree (Writable)

variable {dialect : Dialect} {rows : Batch} {world : World} {path : Path}

/-- A new file can be written where any file can be, and then holds the bytes of its rows. -/
theorem exists_write_new (hwritable : world.tree.Writable path) (dialect : Dialect) (rows : Batch) :
    ∃ after, run (write dialect path rows .new) world = (.ok (metadataOf dialect), after) ∧
      after.tree.readBytes path = .ok (newBytes dialect rows) := by
  let content : Content := .bytes (newBytes dialect rows)
  have hwrite : world.tree.write path content =
      .ok (world.tree.set (FileTree.destination path) (.file content)) :=
    FileTree.write_eq_ok_iff_writable.mpr ⟨hwritable, rfl⟩
  refine ⟨{ world with tree := world.tree.set (FileTree.destination path) (.file content) }, ?_,
    FileTree.readBytes_of_node? (hwritable.node?_set content)⟩
  exact Change.run_bind_eq_ok_iff.mpr ⟨(), _, Change.run_onTree_eq_ok_iff.mpr ⟨_, hwrite, rfl⟩,
    Change.run_pure_eq_ok_iff.mpr ⟨rfl, rfl⟩⟩

/-- What is written to a new file is read back, row by row and cell by cell.  Only a byte order mark at
the beginning of the header would be taken for something else. -/
theorem new_file_reads_back (hvalid : dialect.validate = .ok ()) (hrows : rows.WellFormed)
    (hcolumns : rows.columns ≠ [])
    (hmark : ∀ name ∈ rows.columns.head?, name.toList.head? ≠ some markChar)
    (hwritable : world.tree.Writable path) :
    ∃ metadata after, run (write dialect path rows .new) world = (.ok metadata, after) ∧
      ∀ wanted, storedDialect wanted (some metadata) = dialect ∧
        readRows after.tree wanted path (some metadata) =
          .ok ⟨rows.columns, rows.rows.map (List.map Cell.stored)⟩ ∧
        countRows after.tree wanted path (some metadata) = .ok rows.size := by
  obtain ⟨after, hrun, hbytes⟩ := exists_write_new hwritable dialect rows
  have hkeeps : Keeps dialect (newBytes dialect rows)
      ⟨rows.columns, rows.rows.map (List.map Cell.stored)⟩ :=
    keeps_of_unmarked hvalid hrows hcolumns (unmarked_newBytes hvalid hcolumns hmark)
  refine ⟨metadataOf dialect, after, hrun, fun wanted => ?_⟩
  have hknown : storedDialect wanted (some (metadataOf dialect)) = dialect :=
    storedDialect_recorded hvalid
  refine ⟨hknown, hkeeps.readRows_eq hbytes hknown, ?_⟩
  rw [hkeeps.countRows_eq hbytes hknown, List.length_map, Batch.size]

/-- One column without a name, and a letter and a blank for marks.  A row that is nothing but null is
not an empty line. -/
theorem new_file_reads_back_of_empty_fields :
    let dialect : Dialect := ⟨'a', ' '⟩
    let rows : Batch := ⟨[""], [[.null], [.text ""], [.text "a b\r\n"], [.bool true]]⟩
    let world : World := ⟨.empty, none⟩
    dialect.validate = .ok () ∧ rows.WellFormed ∧ rows.columns ≠ [] ∧
      world.tree.Writable ⟨"p.csv"⟩ ∧
      ∃ metadata after, run (write dialect ⟨"p.csv"⟩ rows .new) world = (.ok metadata, after) ∧
        readRows after.tree .commaSeparated ⟨"p.csv"⟩ (some metadata) =
          .ok ⟨[""], [[.null], [.null], [.text "a b\r\n"], [.text "true"]]⟩ ∧
        countRows after.tree .commaSeparated ⟨"p.csv"⟩ (some metadata) = .ok 4 := by
  intro dialect rows world
  have hvalid : dialect.validate = .ok () := by decide
  have hrows : rows.WellFormed := ⟨by decide, by decide⟩
  have hwritable : world.tree.Writable ⟨"p.csv"⟩ :=
    ⟨@FileTree.place_eq_ok _ _ ["p.csv"] .isDirectory (by decide +kernel), by decide +kernel,
      by decide +kernel⟩
  obtain ⟨metadata, after, hrun, hreads⟩ :=
    new_file_reads_back hvalid hrows (by decide) (by decide) hwritable
  obtain ⟨-, hread, hcount⟩ := hreads .commaSeparated
  exact ⟨hvalid, hrows, by decide, hwritable, metadata, after, hrun, hread, hcount⟩

end TableAppend.Delimited
