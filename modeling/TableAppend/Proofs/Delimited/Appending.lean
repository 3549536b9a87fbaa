import TableAppend.Proofs.Delimited.Keeping

/-!
# Appending to a delimited file

Rows are added to whatever a file holds: a last line without end, line ends of another kind, records
that are too short or too long.  All that was read before is read as before, and the rows come after it,
exactly if the file does not end inside quotes.
-/

namespace TableAppend.Delimited

open Change (run)

variable {dialect : Dialect} {path : Path} {world : World} {bytes : Bytes}
  {metadata : Option Metadata} {columns header : List String} {stored : Batch}

/-- A file with a header has bytes, and its header has a name. -/
theorem ne_nil_of_check (hbytes : world.tree.readBytes path = .ok bytes)
    (hcheck : check world.tree dialect path metadata columns = .ok (.ofColumns header)) :
    bytes ≠ [] ∧ readRecords (.ofDialect dialect) bytes ≠ [] ∧ header ≠ [] := by
  obtain ⟨-, ⟨first, rest, hrecords, hfields⟩, -⟩ := (check_eq_ofColumns_iff hbytes).mp hcheck
  have hfirst : first ∈ readRecords (.ofDialect dialect) bytes := by simp [hrecords]
  refine ⟨?_, by simp [hrecords], names_ne_nil hfirst hfields⟩
  rintro rfl
  cases hrecords

/-- The rows of a file are under the header that a check of it finds. -/
theorem columns_of_readRows (hvalid : dialect.validate = .ok ())
    (hbytes : world.tree.readBytes path = .ok bytes)
    (hcheck : check world.tree dialect path metadata columns = .ok (.ofColumns header))
    (hread : readRows world.tree dialect path metadata = .ok stored) :
    Tabulates (readRecords (.ofDialect dialect) bytes) stored ∧ stored.columns = header := by
  obtain ⟨hmarks, ⟨first, rest, hrecords, hfields⟩, -⟩ := (check_eq_ofColumns_iff hbytes).mp hcheck
  have htable := (readRows_eq_ok_iff hbytes).mp hread
  rw [storedDialect_of_checkMarks hvalid hmarks] at htable
  refine ⟨htable, ?_⟩
  rw [hrecords] at htable
  exact Option.some.inj (htable.1.symm.trans hfields)

/-- What writing to an existing file leaves of it. -/
theorem run_write_added (hbytes : world.tree.readBytes path = .ok bytes) (rows : Batch)
    (header : List String) :
    (∃ failure after, rows.project header = .error failure ∧
        run (write dialect path rows (.ofColumns header)) world = (.error failure, after) ∧
        after.tree.readBytes path = .ok (bytes ++ missingLineEnd bytes)) ∨
      ∃ ordered after, rows.project header = .ok ordered ∧
        run (write dialect path rows (.ofColumns header)) world =
          (.ok (metadataOf dialect), after) ∧
        after.tree.readBytes path = .ok (addedBytes dialect bytes ordered) := by
  obtain ⟨ended, hended, hendedBytes⟩ :=
    FileTree.exists_append_of_readBytes hbytes (missingLineEnd bytes)
  have hfirst : run (Change.onTree fun tree => do
      let found ← tree.readBytes path
      tree.append path (missingLineEnd found)) world = (.ok (), { world with tree := ended }) := by
    rw [Change.run_onTree, hbytes, FileTree.ok_bind, hended]
  have hwrite : write dialect path rows (.ofColumns header) = (do
      Change.onTree fun tree => do
        let found ← tree.readBytes path
        tree.append path (missingLineEnd found)
      let ordered ← Change.ofOutcome (rows.project header)
      Change.onTree fun tree => tree.append path (writeRows dialect ordered)
      return metadataOf dialect) := rfl
  rw [hwrite, Change.run_bind, hfirst]
  dsimp only
  rw [Change.run_bind, Change.run_ofOutcome]
  cases hproject : rows.project header with
  | error failure => exact .inl ⟨failure, _, rfl, rfl, hendedBytes⟩
  | ok ordered =>
    obtain ⟨last, hlast, hlastBytes⟩ :=
      FileTree.exists_append_of_readBytes hendedBytes (writeRows dialect ordered)
    refine .inr ⟨ordered, { world with tree := last }, rfl, ?_, hlastBytes⟩
    dsimp only
    rw [Change.run_bind, Change.run_onTree]
    dsimp only
    rw [hlast]
    rfl

/-- Every batch that fits a file is added to it: what was read of the file is read again, and then the
rows of the batch under the header of the file, as they are stored.  A batch without rows may have
columns that occur twice; it is not accepted in the end, but changes nothing either. -/
def TakesRows (dialect : Dialect) (path : Path) (metadata : Option Metadata) (header : List String)
    (world : World) (stored : Batch) : Prop :=
  ∀ rows : Batch, rows.WellFormed ∨ rows.rows = [] →
    check world.tree dialect path metadata rows.columns = .ok (.ofColumns header) →
    ∃ outcome after, run (write dialect path rows (.ofColumns header)) world = (outcome, after) ∧
      (rows.WellFormed → outcome = .ok (metadataOf dialect)) ∧
      ∀ known, storedDialect dialect known = dialect →
        readRows after.tree dialect path known =
          .ok ⟨stored.columns, stored.rows ++ (rows.rowsUnder header).map (List.map Cell.stored)⟩

/-- Rows that are written after the bytes of a file are read after its rows. -/
theorem readRows_added {after : World} {rows : Batch} (hvalid : dialect.validate = .ok ())
    (hkeeps : Keeps dialect bytes stored)
    (hafter : after.tree.readBytes path =
      .ok (addedBytes dialect bytes ⟨stored.columns, rows.rowsUnder stored.columns⟩))
    {known : Option Metadata} (hknown : storedDialect dialect known = dialect) :
    readRows after.tree dialect path known = .ok ⟨stored.columns,
      stored.rows ++ (rows.rowsUnder stored.columns).map (List.map Cell.stored)⟩ :=
  (hkeeps.added hvalid fun _ hrow => Batch.length_of_mem_rowsUnder hrow).readRows_eq hafter hknown

/-- A row without any text. -/
def blankRow (columns : List String) : Batch :=
  ⟨columns, [List.replicate columns.length .null]⟩

theorem rowsUnder_blankRow (columns : List String) :
    (blankRow columns).rowsUnder columns = (blankRow columns).rows := by
  simp [Batch.rowsUnder, blankRow, Batch.getD_cell?_replicate]

/-- In a field whose quotes are still open a row without any text is lost. -/
theorem length_rows_of_endsInQuotes (hvalid : dialect.validate = .ok ())
    (hquotes : endsInQuotes (.ofDialect dialect) bytes = true)
    (hrecords : readRecords (.ofDialect dialect) bytes ≠ []) (hcolumns : stored.columns ≠ [])
    (htable : Tabulates (readRecords (.ofDialect dialect) bytes) stored) {later : Batch}
    (hlater : Tabulates (readRecords (.ofDialect dialect)
      (addedBytes dialect bytes (blankRow stored.columns))) later) :
    later.rows.length = stored.rows.length := by
  have hnonempty : bytes ≠ [] := by
    rintro rfl
    exact hrecords rfl
  obtain ⟨width, hwidth⟩ : ∃ width, stored.columns.length = width + 1 :=
    Nat.exists_eq_succ_of_ne_zero (by simpa using hcolumns)
  have hline : writeRows dialect (blankRow stored.columns) =
      writeRecord (.ofDialect dialect) (List.replicate (width + 1) []) := by
    simp only [blankRow, hwidth, writeRows, writeRecords, List.map_singleton,
      List.flatMap_singleton, rowFields, List.map_replicate]
    rfl
  have hlost := length_readRecords_of_endsInQuotes (Marks.proper_ofDialect hvalid) hquotes
    hnonempty width
  rw [addedBytes, hline] at hlater
  have hmore := hlater.length_eq (by
    intro hnone
    rw [hnone, List.length_nil, eq_comm, List.length_eq_zero_iff] at hlost
    exact hrecords hlost)
  have hbefore := htable.length_eq hrecords
  omega

/-- Rows can be added to a file exactly if it does not end inside quotes. -/
theorem takesRows_iff (hvalid : dialect.validate = .ok ())
    (hbytes : world.tree.readBytes path = .ok bytes)
    (hcheck : check world.tree dialect path metadata columns = .ok (.ofColumns header))
    (hread : readRows world.tree dialect path metadata = .ok stored) :
    TakesRows dialect path metadata header world stored ↔
      endsInQuotes (.ofDialect dialect) bytes = false := by
  obtain ⟨-, hrecords, hheader⟩ := ne_nil_of_check hbytes hcheck
  obtain ⟨htable, rfl⟩ := columns_of_readRows hvalid hbytes hcheck hread
  obtain ⟨hmarks, hfirst, -⟩ := (check_eq_ofColumns_iff hbytes).mp hcheck
  constructor
  · intro htakes
    by_contra hquotes
    rw [Bool.not_eq_false] at hquotes
    have hrows : (blankRow stored.columns).WellFormed := ⟨htable.nodup, by simp [blankRow]⟩
    obtain ⟨outcome, after, hrun, hsucceeds, hlater⟩ := htakes (blankRow stored.columns) (.inl hrows)
      ((check_eq_ofColumns_iff hbytes).mpr ⟨hmarks, hfirst, rfl, fun _ hcolumn => hcolumn⟩)
    have hread := hlater none rfl
    rcases run_write_added hbytes (blankRow stored.columns) stored.columns with
      ⟨failure, last, -, hfails, -⟩ | ⟨ordered, last, hproject, hadds, hlast⟩
    · rw [hfails, Prod.mk.injEq, hsucceeds hrows] at hrun
      cases hrun.1
    · obtain ⟨-, rfl⟩ := Batch.project_eq_ok_iff.mp hproject
      rw [hadds, Prod.mk.injEq] at hrun
      rw [← hrun.2, readRows_eq_ok_iff hlast, rowsUnder_blankRow] at hread
      have hlost := length_rows_of_endsInQuotes hvalid hquotes hrecords hheader htable hread
      simp [blankRow] at hlost
  · intro hquotes rows hrows hfits
    obtain ⟨-, -, hlength, hcontained⟩ := (check_eq_ofColumns_iff hbytes).mp hfits
    have hadded : ∀ {after : World}, after.tree.readBytes path =
        .ok (addedBytes dialect bytes ⟨stored.columns, rows.rowsUnder stored.columns⟩) →
        ∀ known, storedDialect dialect known = dialect → readRows after.tree dialect path known =
          .ok ⟨stored.columns,
            stored.rows ++ (rows.rowsUnder stored.columns).map (List.map Cell.stored)⟩ :=
      fun hafter _ hknown =>
        readRows_added hvalid ⟨htable, hrecords, hquotes⟩ hafter hknown
    rcases @run_write_added dialect _ _ _ hbytes rows stored.columns with
      ⟨failure, after, hproject, hrun, hafter⟩ | ⟨ordered, after, hproject, hrun, hafter⟩
    · have hnot : ¬ rows.WellFormed := by
        intro hwellFormed
        rw [Batch.project,
          if_pos (Batch.hasColumns_of_contained hwellFormed.1 hlength hcontained)] at hproject
        cases hproject
      refine ⟨_, after, hrun, fun h => absurd h hnot, hadded ?_⟩
      rw [hafter, addedBytes, Batch.rowsUnder, hrows.resolve_left hnot]
      simp [writeRows, writeRecords]
    · obtain ⟨-, rfl⟩ := Batch.project_eq_ok_iff.mp hproject
      exact ⟨_, after, hrun, fun _ => rfl, hadded hafter⟩

/-- A row of which the last text was being written when that was cut short. -/
theorem not_takesRows_of_open_quote :
    let bytes : Bytes := Utf8.encode "id,name\n1,\"Ad"
    let world : World := ⟨⟨[(["p.csv"], .file (.bytes bytes))]⟩, none⟩
    let stored : Batch := ⟨["id", "name"], [[.text "1", .text "Ad"]]⟩
    Dialect.commaSeparated.validate = .ok () ∧ world.tree.readBytes ⟨"p.csv"⟩ = .ok bytes ∧
      check world.tree .commaSeparated ⟨"p.csv"⟩ none ["id", "name"] =
        .ok (.ofColumns ["id", "name"]) ∧
      readRows world.tree .commaSeparated ⟨"p.csv"⟩ none = .ok stored ∧
      ¬ TakesRows .commaSeparated ⟨"p.csv"⟩ none ["id", "name"] world stored := by
  intro bytes world stored
  have hvalid : Dialect.commaSeparated.validate = .ok () := rfl
  have hbytes : world.tree.readBytes ⟨"p.csv"⟩ = .ok bytes := by decide +kernel
  have hcheck : check world.tree .commaSeparated ⟨"p.csv"⟩ none ["id", "name"] =
      .ok (.ofColumns ["id", "name"]) := by decide +kernel
  have hread : readRows world.tree .commaSeparated ⟨"p.csv"⟩ none = .ok stored := by
    decide +kernel
  refine ⟨hvalid, hbytes, hcheck, hread, ?_⟩
  rw [takesRows_iff hvalid hbytes hcheck hread]
  decide +kernel

end TableAppend.Delimited
