import TableAppend.Proofs.ColumnOrder

/-!
# Projections of batches

Put under an order of its columns, a batch has in each row the same cell under each name, and so has a
batch whose rows are added to those of another one.  The test of an order counts the names and looks up
each of them, which also lets an order pass that has one column twice and another one not at all.  So
the batches that are built from rows are all well-formed exactly if no projection is given an order that
repeats a name.
-/

namespace TableAppend.Batch

/-! ## Orders that pass the test -/

/-- As many names as there are columns, and all of them columns, but one of them twice, so that another
column is missing. -/
structure Repeats (columns order : List String) : Prop where
  length_eq : order.length = columns.length
  contained : ∀ column ∈ order, column ∈ columns
  repeated : ¬ order.Nodup

variable {columns order : List String} {batch first second ordered all : Batch}

theorem perm_of_contained (hcolumns : order.Nodup) (hlength : order.length = columns.length)
    (hcontained : ∀ column ∈ order, column ∈ columns) : order.Perm columns :=
  (hcolumns.subperm hcontained).perm_of_length_le hlength.ge

/-- Names that are counted and looked up are those of the columns, unless one is repeated. -/
theorem contained_iff : (order.length = columns.length ∧ ∀ column ∈ order, column ∈ columns) ↔
    order.Perm columns ∨ Repeats columns order := by
  constructor
  · rintro ⟨hlength, hcontained⟩
    by_cases hnodup : order.Nodup
    · exact .inl (perm_of_contained hnodup hlength hcontained)
    · exact .inr ⟨hlength, hcontained, hnodup⟩
  · rintro (hperm | hrepeats)
    · exact ⟨hperm.length_eq, fun column => hperm.mem_iff.mp⟩
    · exact ⟨hrepeats.length_eq, hrepeats.contained⟩

theorem hasColumns_iff : batch.hasColumns order = true ↔
    order.Perm batch.columns ∨ Repeats batch.columns order := by
  rw [← contained_iff, hasColumns, Bool.and_eq_true, decide_eq_true_eq, List.all_eq_true, eq_comm]
  simp only [List.contains_iff_mem]

theorem Repeats.not_perm (hcolumns : columns.Nodup) (hrepeats : Repeats columns order) :
    ¬ order.Perm columns :=
  fun hperm => hrepeats.repeated (hperm.nodup_iff.mpr hcolumns)

theorem exists_project_iff :
    (∃ ordered, batch.project order = .ok ordered) ↔ batch.hasColumns order = true := by
  simp only [project_eq_ok_iff, exists_and_left, exists_eq, and_true]

/-! ## Rows under another order -/

/-- A row under another order has the cell under each name of it that it had before. -/
structure Retains (columns order : List String) (row after : List Cell) : Prop where
  length_eq : after.length = order.length
  cell?_eq : ∀ column ∈ order, cell? order after column = cell? columns row column

theorem retains_rowUnder (hcontained : ∀ column ∈ order, column ∈ columns) {row : List Cell}
    (hrow : row.length = columns.length) : Retains columns order row (rowUnder columns order row) where
  length_eq := List.length_map _
  cell?_eq column hcolumn := by
    obtain ⟨cell, hcell⟩ := exists_cell? (hcontained column hcolumn) hrow
    rw [rowUnder, cell?_map_header hcolumn, hcell, Option.getD_some]

theorem retains_of_project (hbatch : batch.WellFormed) (hproject : batch.project order = .ok ordered) :
    ordered.columns = order ∧
      List.Forall₂ (Retains batch.columns order) batch.rows ordered.rows := by
  obtain ⟨hcolumns, rfl⟩ := project_eq_ok_iff.mp hproject
  obtain ⟨-, hcontained⟩ := contained_iff.mpr (hasColumns_iff.mp hcolumns)
  refine ⟨rfl, ?_⟩
  rw [rowsUnder_eq_map, List.forall₂_map_right_iff, List.forall₂_same]
  exact fun row hrow => retains_rowUnder hcontained (hbatch.2 row hrow)

theorem wellFormed_of_project (hproject : batch.project order = .ok ordered) (horder : order.Nodup) :
    ordered.WellFormed := by
  obtain ⟨-, rfl⟩ := project_eq_ok_iff.mp hproject
  exact ⟨horder, fun row hrow => length_of_mem_rowsUnder hrow⟩

theorem wellFormed_iff_of_project (hbatch : batch.WellFormed)
    (hproject : batch.project order = .ok ordered) :
    ordered.WellFormed ↔ order.Perm batch.columns := by
  obtain ⟨hcolumns, hordered⟩ := project_eq_ok_iff.mp hproject
  constructor
  · intro hafter
    rw [hordered] at hafter
    obtain ⟨hlength, hcontained⟩ := contained_iff.mpr (hasColumns_iff.mp hcolumns)
    exact perm_of_contained hafter.1 hlength hcontained
  · intro hperm
    exact wellFormed_of_project hproject (hperm.nodup_iff.mpr hbatch.1)

/-! ## Rows of two batches -/

theorem concat_eq_ok_iff : first.concat second = .ok all ↔ ∃ ordered,
    second.project first.columns = .ok ordered ∧
      all = ⟨first.columns, first.rows ++ ordered.rows⟩ := by
  rw [concat, Outcome.bind_eq_ok_iff]
  exact exists_congr fun ordered => and_congr_right fun _ => by
    rw [Outcome.pure_eq_ok, Except.ok.injEq, eq_comm]

/-- No order that repeats a name is met when rows are added to a well-formed batch. -/
theorem exists_concat_iff (hfirst : first.WellFormed) :
    (∃ all, first.concat second = .ok all) ↔ second.columns.Perm first.columns := by
  have hnot : ¬ Repeats second.columns first.columns := fun hrepeats => hrepeats.repeated hfirst.1
  simp only [concat_eq_ok_iff, exists_comm, exists_and_left, exists_eq, and_true]
  rw [exists_project_iff, hasColumns_iff, or_iff_left hnot, List.perm_comm]

theorem retains_of_concat (hsecond : second.WellFormed) (hconcat : first.concat second = .ok all) :
    all.columns = first.columns ∧ ∃ added, all.rows = first.rows ++ added ∧
      List.Forall₂ (Retains second.columns first.columns) second.rows added := by
  obtain ⟨ordered, hproject, rfl⟩ := concat_eq_ok_iff.mp hconcat
  exact ⟨rfl, ordered.rows, rfl, (retains_of_project hsecond hproject).2⟩

/-! ## Batches that are built -/

/-- The batches that are built from rows, where projections are given the orders that `admits` holds
of. -/
inductive Built (admits : List String → Prop) : Batch → Prop
  | rows {columns : List String} {rows : List (List Cell)} {batch : Batch}
      (hrows : ofRows columns rows = .ok batch) : Built admits batch
  | take {batch : Batch} (hbatch : Built admits batch) (indices : List ℕ) :
      Built admits (batch.take indices)
  | project {batch ordered : Batch} {order : List String} (hbatch : Built admits batch)
      (horder : admits order) (hproject : batch.project order = .ok ordered) : Built admits ordered
  | concat {first second all : Batch} (hfirst : Built admits first) (hsecond : Built admits second)
      (hconcat : first.concat second = .ok all) : Built admits all
  | mapCells {batch : Batch} (hbatch : Built admits batch) (change : Cell → Cell) :
      Built admits (batch.mapCells change)

variable {admits : List String → Prop}

theorem wellFormed_take (hbatch : batch.WellFormed) (indices : List ℕ) :
    (batch.take indices).WellFormed := by
  refine ⟨hbatch.1, fun row hrow => ?_⟩
  obtain ⟨index, -, hindex⟩ := List.mem_filterMap.mp hrow
  exact hbatch.2 row (List.mem_of_getElem? hindex)

theorem wellFormed_mapCells (hbatch : batch.WellFormed) (change : Cell → Cell) :
    (batch.mapCells change).WellFormed := by
  refine ⟨hbatch.1, fun row hrow => ?_⟩
  obtain ⟨before, hbefore, rfl⟩ := List.mem_map.mp hrow
  rw [List.length_map]
  exact hbatch.2 before hbefore

theorem wellFormed_concat (hfirst : first.WellFormed) (hconcat : first.concat second = .ok all) :
    all.WellFormed := by
  obtain ⟨ordered, hproject, rfl⟩ := concat_eq_ok_iff.mp hconcat
  have hordered := wellFormed_of_project hproject hfirst.1
  obtain ⟨-, rfl⟩ := project_eq_ok_iff.mp hproject
  exact ⟨hfirst.1, fun row hrow => (List.mem_append.mp hrow).elim (hfirst.2 row) (hordered.2 row)⟩

theorem Built.wellFormed (hadmits : ∀ order, admits order → order.Nodup)
    (hbuilt : Built admits batch) : batch.WellFormed := by
  induction hbuilt with
  | rows hrows => exact (ofRows_eq_ok_iff.mp hrows).1
  | take _ indices ih => exact wellFormed_take ih indices
  | project _ horder hproject _ => exact wellFormed_of_project hproject (hadmits _ horder)
  | concat _ _ hconcat ih _ => exact wellFormed_concat ih hconcat
  | mapCells _ change ih => exact wellFormed_mapCells ih change

/-- An order that repeats a name passes the test of a batch that has all its names and some more. -/
theorem exists_built_of_repeated (horder : admits order) :
    ∃ batch, Built admits batch ∧ batch.columns = order := by
  obtain ⟨names, hcontained, hcard⟩ :=
    Infinite.exists_superset_card_eq order.toFinset order.length (List.toFinset_card_le order)
  have hwide : ofRows names.toList [] = .ok ⟨names.toList, []⟩ :=
    ofRows_eq_ok_iff.mpr ⟨⟨names.nodup_toList, fun _ hrow => absurd hrow List.not_mem_nil⟩, rfl⟩
  have hpasses : (⟨names.toList, []⟩ : Batch).hasColumns order = true := by
    refine hasColumns_iff.mpr (contained_iff.mp ⟨?_, fun column hcolumn => ?_⟩)
    · rw [Finset.length_toList, hcard]
    · exact Finset.mem_toList.mpr (hcontained (List.mem_toFinset.mpr hcolumn))
  exact ⟨_, .project (.rows hwide) horder (project_eq_ok_iff.mpr ⟨hpasses, rfl⟩), rfl⟩

theorem forall_built_wellFormed_iff :
    (∀ batch, Built admits batch → batch.WellFormed) ↔ ∀ order, admits order → order.Nodup := by
  constructor
  · intro hall order horder
    obtain ⟨batch, hbuilt, rfl⟩ := exists_built_of_repeated horder
    exact (hall batch hbuilt).1
  · exact fun hadmits batch hbuilt => hbuilt.wellFormed hadmits

/-- Which orders pass the test of a batch, what a projection and a concatenation leave, and which
projections keep batches well-formed. -/
theorem projection_permutes (hbatch : batch.WellFormed) :
    (∀ order, batch.hasColumns order = true ↔
      order.Perm batch.columns ∨ Repeats batch.columns order) ∧
    (∀ order, (∃ ordered, batch.project order = .ok ordered) ↔ batch.hasColumns order = true) ∧
    (∀ order ordered, batch.project order = .ok ordered → ordered.columns = order ∧
      List.Forall₂ (Retains batch.columns order) batch.rows ordered.rows ∧
        (ordered.WellFormed ↔ order.Perm batch.columns)) ∧
    (∀ other, other.WellFormed → ((∃ all, batch.concat other = .ok all) ↔
      other.columns.Perm batch.columns) ∧ ∀ all, batch.concat other = .ok all →
        all.columns = batch.columns ∧ ∃ added, all.rows = batch.rows ++ added ∧
          List.Forall₂ (Retains other.columns batch.columns) other.rows added) ∧
    ∀ admits, (∀ built, Built admits built → built.WellFormed) ↔
      ∀ order, admits order → order.Nodup := by
  refine ⟨fun order => hasColumns_iff, fun order => exists_project_iff, ?_, ?_, fun admits =>
    forall_built_wellFormed_iff⟩
  · intro order ordered hproject
    obtain ⟨hcolumns, hrows⟩ := retains_of_project hbatch hproject
    exact ⟨hcolumns, hrows, wellFormed_iff_of_project hbatch hproject⟩
  · exact fun other hother =>
      ⟨exists_concat_iff hbatch, fun all hconcat => retains_of_concat hother hconcat⟩

/-- Of two columns one is asked for twice.  The order passes, and the other column is lost. -/
theorem projection_permutes_of_repeated_name :
    let batch : Batch := ⟨["a", "b"], [[.int 1, .int 2]]⟩
    let order := ["a", "a"]
    batch.WellFormed ∧ Repeats batch.columns order ∧ batch.hasColumns order = true ∧
      ¬ order.Perm batch.columns ∧ ∃ ordered, batch.project order = .ok ordered ∧
        ordered = ⟨["a", "a"], [[.int 1, .int 1]]⟩ ∧ ¬ ordered.WellFormed := by
  intro batch order
  have hbatch : batch.WellFormed := ⟨by decide, by decide⟩
  have hrepeats : Repeats batch.columns order := ⟨rfl, by decide, by decide⟩
  obtain ⟨hpasses, hprojects, hproject, -, -⟩ := projection_permutes hbatch
  have hcolumns := (hpasses order).mpr (.inr hrepeats)
  have hnot := hrepeats.not_perm hbatch.1
  obtain ⟨ordered, hordered⟩ := (hprojects order).mpr hcolumns
  have hresult : batch.project order = .ok ⟨["a", "a"], [[.int 1, .int 1]]⟩ := rfl
  exact ⟨hbatch, hrepeats, hcolumns, hnot, ordered, hordered,
    Except.ok.inj (hordered.symm.trans hresult), mt (hproject order ordered hordered).2.2.mp hnot⟩

end TableAppend.Batch
