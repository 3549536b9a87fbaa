import TableAppend.Proofs.Projection

/-!
# Batches of records

The first record of a batch gives the columns.  Another one is taken over if it has as many values as
there are columns and each of them is named for a column.  So the values are those of the records,
except where a record repeats a name: then the last value counts, and another column is null.
-/

namespace TableAppend.Batch

/-- The names of a record, in its order. -/
def names (record : List (String × Cell)) : List String :=
  record.map Prod.fst

/-- The columns of a batch of records. -/
def header (records : List (List (String × Cell))) : List String :=
  names (records.headD [])

/-- The last value that a record gives for a column. -/
def given? (column : String) : List (String × Cell) → Option Cell
  | [] => none
  | (name, value) :: rest => (given? column rest).or (if name = column then some value else none)

/-! ## Values of a record -/

variable {columns : List String} {record : List (String × Cell)} {column : String} {value : Cell}
  {row filled : List Cell}

theorem given?_eq_none_iff : given? column record = none ↔ column ∉ names record := by
  induction record with
  | nil => simp [given?, names]
  | cons pair rest ih =>
    rw [given?, Option.or_eq_none_iff, ih, ite_eq_right_iff]
    simp [names, eq_comm, and_comm]

theorem mem_of_given? (hgiven : given? column record = some value) : (column, value) ∈ record := by
  induction record with
  | nil => cases hgiven
  | cons pair rest ih =>
    rw [given?] at hgiven
    rcases Option.or_eq_some_iff.mp hgiven with hlater | ⟨-, hfirst⟩
    · exact List.mem_cons_of_mem _ (ih hlater)
    · obtain ⟨hname, hvalue⟩ := Option.ite_none_right_eq_some.mp hfirst
      rw [← hname, ← Option.some.inj hvalue]
      exact List.mem_cons_self

/-- A record that repeats no name gives each value that stands in it. -/
theorem given?_eq_some_iff (hnames : (names record).Nodup) :
    given? column record = some value ↔ (column, value) ∈ record := by
  refine ⟨mem_of_given?, fun hmem => ?_⟩
  cases hgiven : given? column record with
  | none => exact absurd (List.mem_map_of_mem hmem) (given?_eq_none_iff.mp hgiven)
  | some found =>
    have hsame := List.inj_on_of_nodup_map hnames (mem_of_given? hgiven) hmem rfl
    exact congrArg _ (congrArg Prod.snd hsame)

/-! ## Filling a row -/

theorem exists_fillRow_iff (columns : List String) (row : List Cell)
    (record : List (String × Cell)) : (∃ filled, fillRow columns row record = .ok filled) ↔
      ∀ name ∈ names record, name ∈ columns := by
  induction record generalizing row with
  | nil => simp [fillRow, names]
  | cons pair rest ih =>
    obtain ⟨name, value⟩ := pair
    rw [fillRow, names, List.map_cons, List.forall_mem_cons]
    cases hindex : columns.idxOf? name with
    | none => simp [List.idxOf?_eq_none_iff.mp hindex]
    | some index =>
      have hname : name ∈ columns := List.isSome_idxOf?.mp (by rw [hindex]; rfl)
      dsimp only
      rw [ih, and_iff_right hname]
      rfl

theorem cell?_set {name : String} {index : ℕ} (hindex : columns.idxOf? name = some index)
    (hrow : row.length = columns.length) (value : Cell) (column : String) :
    cell? columns (row.set index value) column =
      if name = column then some value else cell? columns row column := by
  obtain ⟨hlt, hat, -⟩ := List.idxOf?_eq_some_iff.mp hindex
  split
  · rename_i hsame
    rw [cell?, ← hsame, hindex, Option.bind_eq_bind, Option.bind_some,
      List.getElem?_set_self (hrow ▸ hlt)]
  · rename_i hother
    rw [cell?, cell?]
    cases hplace : columns.idxOf? column with
    | none => rfl
    | some place =>
      obtain ⟨hthere, hcolumn, -⟩ := List.idxOf?_eq_some_iff.mp hplace
      have hne : index ≠ place := by
        rintro rfl
        exact hother (hat.symm.trans hcolumn)
      exact List.getElem?_set_ne hne

/-- Each column has the last value that is given for it, or else the one it had. -/
theorem cell?_fillRow (hrow : row.length = columns.length)
    (hfill : fillRow columns row record = .ok filled) : filled.length = columns.length ∧
      ∀ column, cell? columns filled column = (given? column record).or (cell? columns row column) := by
  induction record generalizing row with
  | nil =>
    obtain rfl := Except.ok.inj hfill
    exact ⟨hrow, fun column => rfl⟩
  | cons pair rest ih =>
    obtain ⟨name, value⟩ := pair
    rw [fillRow] at hfill
    split at hfill
    · rename_i index hindex
      obtain ⟨hlength, hcells⟩ := ih (by rw [List.length_set, hrow]) hfill
      refine ⟨hlength, fun column => ?_⟩
      rw [hcells, given?, cell?_set hindex hrow, Option.or_assoc]
      congr 1
      split <;> rfl
    · cases hfill

/-! ## Records that are taken over -/

theorem exists_alignRecord_iff : (∃ row, alignRecord columns record = .ok row) ↔
    (names record).Perm columns ∨ Repeats columns (names record) := by
  have hlength : (names record).length = record.length := List.length_map _
  rw [← contained_iff, hlength, alignRecord]
  split
  · rename_i hother
    simp [hother]
  · rename_i hsame
    rw [exists_fillRow_iff, and_iff_right (not_not.mp hsame)]

/-- What a row has of a record: the last value under each name and null where there is none.  These are
the values that the record gives, one for each column, exactly if its names are those of the columns. -/
structure TakesOver (columns : List String) (record : List (String × Cell)) (row : List Cell) :
    Prop where
  cell?_eq : ∀ column ∈ columns,
    cell? columns row column = some ((given? column record).getD .null)
  faithful_iff : (names record).Perm columns ↔ ∀ column ∈ columns, ∃ value,
    (∀ other, (column, other) ∈ record ↔ other = value) ∧ cell? columns row column = some value

/-- A row has the only value for each column exactly if no name is repeated. -/
theorem takesOver_of_cells (hcolumns : columns.Nodup) (hlength : record.length = columns.length)
    (hcells : ∀ column ∈ columns,
      cell? columns row column = some ((given? column record).getD .null)) :
    TakesOver columns record row where
  cell?_eq := hcells
  faithful_iff := by
    have hnames : (names record).length = columns.length := (List.length_map _).trans hlength
    constructor
    · intro hperm column hcolumn
      have hnodup : (names record).Nodup := hperm.nodup_iff.mpr hcolumns
      obtain ⟨value, hvalue⟩ : ∃ value, given? column record = some value :=
        Option.ne_none_iff_exists'.mp fun hnone =>
          given?_eq_none_iff.mp hnone (hperm.mem_iff.mpr hcolumn)
      refine ⟨value, fun other => ?_, by rw [hcells column hcolumn, hvalue, Option.getD_some]⟩
      rw [← given?_eq_some_iff hnodup, hvalue, Option.some.injEq, eq_comm]
    · intro hfaithful
      refine (perm_of_contained hcolumns hnames.symm fun column hcolumn => ?_).symm
      obtain ⟨value, hvalue, -⟩ := hfaithful column hcolumn
      exact List.mem_map_of_mem ((hvalue value).mpr rfl)

theorem takesOver_of_alignRecord (hcolumns : columns.Nodup)
    (halign : alignRecord columns record = .ok row) : TakesOver columns record row := by
  rw [alignRecord] at halign
  split at halign
  · cases halign
  · rename_i hsame
    obtain ⟨-, hcells⟩ := cell?_fillRow List.length_replicate halign
    refine takesOver_of_cells hcolumns (not_not.mp hsame) fun column hcolumn => ?_
    have hwidth : (List.replicate columns.length Cell.null).length = columns.length :=
      List.length_replicate
    obtain ⟨cell, hcell⟩ := exists_cell? hcolumn hwidth
    have hnull := getD_cell?_replicate columns columns.length column
    rw [hcell, Option.getD_some] at hnull
    rw [hcells, hcell, hnull]
    cases given? column record <;> rfl

/-- The record that gives the columns has each of its values under its own name. -/
theorem takesOver_first (hnames : (names record).Nodup) :
    TakesOver (names record) record (record.map Prod.snd) := by
  refine takesOver_of_cells hnames (List.length_map _).symm fun column hcolumn => ?_
  obtain ⟨index, hindex, rfl⟩ := List.getElem_of_mem hcolumn
  have hrecord : index < record.length := by simpa [names] using hindex
  have hplace : (names record).idxOf? (names record)[index] = some index :=
    List.idxOf?_eq_some_iff.mpr ⟨hindex, rfl, fun earlier hearlier hsame =>
      hearlier.ne (hnames.getElem_inj_iff.mp hsame)⟩
  have hgiven : given? (names record)[index] record = some record[index].2 := by
    refine (given?_eq_some_iff hnames).mpr ?_
    have hname : (names record)[index] = record[index].1 := List.getElem_map _
    rw [hname]
    exact List.getElem_mem hrecord
  rw [hgiven, cell?, hplace, Option.bind_eq_bind, Option.bind_some, List.getElem?_map,
    List.getElem?_eq_getElem hrecord]
  rfl

/-! ## All records -/

variable {first : List (String × Cell)} {others : List (List (String × Cell))} {batch : Batch}

theorem ofRecords_eq_ok_iff : ofRecords (first :: others) = .ok batch ↔ ∃ rows,
    List.Forall₂ (fun record row => alignRecord (names first) record = .ok row) others rows ∧
      (⟨names first, first.map Prod.snd :: rows⟩ : Batch).WellFormed ∧
        batch = ⟨names first, first.map Prod.snd :: rows⟩ := by
  rw [ofRecords, Outcome.bind_eq_ok_iff]
  refine exists_congr fun rows => ?_
  rw [Outcome.mapM_eq_ok_iff, ofRows_eq_ok_iff]
  refine and_congr_right fun _ => ⟨?_, ?_⟩
  · rintro ⟨hbatch, rfl⟩
    exact ⟨hbatch, rfl⟩
  · rintro ⟨hbatch, rfl⟩
    exact ⟨hbatch, rfl⟩

theorem length_of_alignRecord (halign : alignRecord columns record = .ok row) :
    row.length = columns.length := by
  rw [alignRecord] at halign
  split at halign
  · cases halign
  · exact (cell?_fillRow List.length_replicate halign).1

theorem exists_ofRecords_iff (records : List (List (String × Cell))) :
    (∃ batch, ofRecords records = .ok batch) ↔ (header records).Nodup ∧ ∀ record ∈ records,
      (names record).Perm (header records) ∨ Repeats (header records) (names record) := by
  cases records with
  | nil => exact ⟨fun _ => ⟨List.nodup_nil, by simp⟩, fun _ => ⟨⟨[], []⟩, rfl⟩⟩
  | cons first others =>
    have hheader : header (first :: others) = names first := rfl
    simp only [← exists_alignRecord_iff, ofRecords_eq_ok_iff, hheader, List.forall_mem_cons]
    constructor
    · rintro ⟨batch, rows, hrows, hbatch, -⟩
      refine ⟨hbatch.1, exists_alignRecord_iff.mpr (.inl (.refl _)), fun record hrecord => ?_⟩
      exact Outcome.exists_of_mapM (Outcome.mapM_eq_ok_iff.mpr hrows) hrecord
    · rintro ⟨hnodup, -, hothers⟩
      obtain ⟨rows, hrows⟩ := Outcome.exists_mapM hothers
      have heach := Outcome.mapM_eq_ok_iff.mp hrows
      refine ⟨_, rows, heach, ⟨hnodup, ?_⟩, rfl⟩
      refine List.forall_mem_cons.mpr ⟨by simp [names], fun row hrow => ?_⟩
      obtain ⟨record, -, halign⟩ := Outcome.exists_of_forall₂ heach hrow
      exact length_of_alignRecord halign

/-- Which records make a batch, and what the rows of the batch have of them. -/
theorem ofRecords_faithful (records : List (List (String × Cell))) :
    ((∃ batch, ofRecords records = .ok batch) ↔ (header records).Nodup ∧ ∀ record ∈ records,
      (names record).Perm (header records) ∨ Repeats (header records) (names record)) ∧
    ∀ batch, ofRecords records = .ok batch → batch.WellFormed ∧ batch.columns = header records ∧
      List.Forall₂ (TakesOver batch.columns) records batch.rows := by
  refine ⟨exists_ofRecords_iff records, fun batch hbatch => ?_⟩
  cases records with
  | nil =>
    obtain rfl := Except.ok.inj hbatch
    exact ⟨⟨List.nodup_nil, by simp⟩, rfl, .nil⟩
  | cons first others =>
    obtain ⟨rows, hrows, hwellFormed, rfl⟩ := ofRecords_eq_ok_iff.mp hbatch
    refine ⟨hwellFormed, rfl, .cons (takesOver_first hwellFormed.1) (hrows.imp ?_)⟩
    exact fun record row halign => takesOver_of_alignRecord hwellFormed.1 halign

/-- A record that gives one column twice and the other not at all is taken over: its first value is
overwritten, and the other column is null. -/
theorem ofRecords_faithful_of_repeated_name :
    let first := [("a", Cell.int 1), ("b", .int 2)]
    let second := [("a", Cell.int 3), ("a", .int 4)]
    ∃ batch, ofRecords [first, second] = .ok batch ∧
      batch = ⟨["a", "b"], [[.int 1, .int 2], [.int 4, .null]]⟩ ∧ batch.WellFormed ∧
        TakesOver batch.columns first [.int 1, .int 2] ∧
          TakesOver batch.columns second [.int 4, .null] ∧
            Repeats batch.columns (names second) := by
  intro first second
  obtain ⟨haccepts, htakes⟩ := ofRecords_faithful [first, second]
  have hrepeats : Repeats ["a", "b"] (names second) := ⟨rfl, by decide, by decide⟩
  obtain ⟨batch, hbatch⟩ := haccepts.mpr ⟨by decide, by
    rintro record hrecord
    rcases List.mem_pair.mp hrecord with rfl | rfl
    · exact .inl (.refl _)
    · exact .inr hrepeats⟩
  obtain ⟨hwellFormed, -, hrows⟩ := htakes batch hbatch
  have hresult : ofRecords [first, second] =
      .ok ⟨["a", "b"], [[.int 1, .int 2], [.int 4, .null]]⟩ := rfl
  obtain rfl := Except.ok.inj (hbatch.symm.trans hresult)
  obtain ⟨hfirst, hsecond⟩ := List.forall₂_cons.mp hrows
  exact ⟨_, hbatch, rfl, hwellFormed, hfirst, (List.forall₂_cons.mp hsecond).1, hrepeats⟩

end TableAppend.Batch
