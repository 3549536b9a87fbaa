import TableAppend.Proofs.ColumnOrder

/-!
# Baselines of an anti-join

An anti-join keeps the candidates that match no row of its baseline: `apply_exact`.  How the rows of the
baseline are spread over batches, and in what order, does not count, and rows that come in addition
only take candidates away.
-/

namespace TableAppend

/-! ## Matching rows -/

/-- Null agrees with null only, and other cells by their texts. -/
inductive Cell.Agrees : Cell → Cell → Prop
  | null : Agrees .null .null
  | text {left right : Cell} {text : String} : left.canonical? = some text →
      right.canonical? = some text → Agrees left right

theorem Cell.agrees_iff {left right : Cell} :
    left.Agrees right ↔ left.canonical? = right.canonical? := by
  constructor
  · rintro (_ | ⟨hleft, hright⟩)
    · rfl
    · rw [hleft, hright]
  · intro hsame
    cases hright : right.canonical? with
    | none =>
      rw [hright] at hsame
      rw [canonical?_eq_none_iff] at hsame hright
      rw [hsame, hright]
      exact .null
    | some text => exact .text (hsame.trans hright) hright

instance : DecidableRel Cell.Agrees := fun _ _ => decidable_of_iff _ Cell.agrees_iff.symm

namespace AntiJoin

open Batch (keyOn keysOn cell?)

/-- Some row of a baseline agrees with this one under all key columns, each row under its own header. -/
def Matched (keys : List String) (baseline : List Batch) (columns : List String)
    (row : List Cell) : Prop :=
  ∃ batch ∈ baseline, ∃ stored ∈ batch.rows, ∀ key ∈ keys,
    ((cell? batch.columns stored key).getD .null).Agrees ((cell? columns row key).getD .null)

instance (keys : List String) (baseline : List Batch) (columns : List String) (row : List Cell) :
    Decidable (Matched keys baseline columns row) :=
  inferInstanceAs (Decidable (∃ batch ∈ baseline, ∃ stored ∈ batch.rows, ∀ key ∈ keys,
    ((cell? batch.columns stored key).getD .null).Agrees ((cell? columns row key).getD .null)))

variable {join : AntiJoin} {keys : List String} {baseline other : List Batch}
  {candidates result : Batch}

theorem matched_iff {columns : List String} {row : List Cell} :
    Matched keys baseline columns row ↔
      keyOn keys columns row ∈ baseline.flatMap (keysOn keys) := by
  simp only [Matched, List.mem_flatMap, Batch.mem_keysOn_iff]
  refine exists_congr fun batch => and_congr_right fun _ => exists_congr fun stored =>
    and_congr_right fun _ => ?_
  rw [keyOn, keyOn, Key.ofCells, Key.ofCells, List.map_map, List.map_map, List.map_inj_left]
  exact forall_congr' fun key => imp_congr_right fun _ => Cell.agrees_iff

theorem unmatched_eq (keys : List String) (baseline : List Batch) (candidates : Batch) :
    candidates.unmatched (keyOn keys candidates.columns) (baseline.flatMap (keysOn keys)) =
      ⟨candidates.columns,
        candidates.rows.filter fun row => ¬ Matched keys baseline candidates.columns row⟩ := by
  rw [Batch.unmatched]
  congr 1
  refine List.filter_congr fun row _ => ?_
  rw [Bool.eq_iff_iff, Bool.not_eq_true', List.contains_eq_mem, decide_eq_false_iff_not,
    decide_eq_true_eq, matched_iff]

theorem applies_iff_not :
    join.Applies baseline candidates ↔ ¬ (join.keyColumns candidates.columns = [] ∨
      (∃ key ∈ join.keyColumns candidates.columns, key ∉ candidates.columns) ∨
        ∃ batch ∈ baseline, batch.rows ≠ [] ∧
          ∃ key ∈ join.keyColumns candidates.columns, key ∉ batch.columns) := by
  have hempty (batch : Batch) : batch.isEmpty = false ↔ batch.rows ≠ [] :=
    List.isEmpty_eq_false_iff
  push Not
  simp only [← hempty]
  exact ⟨fun ⟨hnamed, hcandidates, hbaseline⟩ => ⟨hnamed, hcandidates, hbaseline⟩,
    fun ⟨hnamed, hcandidates, hbaseline⟩ => ⟨hnamed, hcandidates, hbaseline⟩⟩

/-! ## The same rows in other batches -/

/-- The rows of a baseline spread over batches in another way: the batches in another order, one batch
split in two, or its columns in another order.  Read backwards, a split merges batches. -/
inductive Rearranged : List Batch → List Batch → Prop
  | reordered {baseline other : List Batch} : baseline.Perm other → Rearranged baseline other
  | split {columns : List String} {rows first second : List (List Cell)} {rest : List Batch} :
      rows.Perm (first ++ second) →
        Rearranged (⟨columns, rows⟩ :: rest) (⟨columns, first⟩ :: ⟨columns, second⟩ :: rest)
  | permuted {batch ordered : Batch} {order : List String} {rest : List Batch} :
      order.Perm batch.columns → batch.project order = .ok ordered →
        Rearranged (batch :: rest) (ordered :: rest)
  | symm {baseline other : List Batch} : Rearranged baseline other → Rearranged other baseline
  | trans {baseline other last : List Batch} : Rearranged baseline other →
      Rearranged other last → Rearranged baseline last

/-- What an anti-join sees of a baseline: which columns all batches with rows have, and which keys
occur. -/
structure Alike (baseline other : List Batch) : Prop where
  columns : ∀ key, (∀ batch ∈ baseline, batch.isEmpty = false → key ∈ batch.columns) ↔
    ∀ batch ∈ other, batch.isEmpty = false → key ∈ batch.columns
  keys : ∀ keys key, key ∈ baseline.flatMap (keysOn keys) ↔ key ∈ other.flatMap (keysOn keys)

/-- Each way to spread rows over batches keeps what is seen of them. -/
theorem Rearranged.alike (hrearranged : Rearranged baseline other) : Alike baseline other := by
  induction hrearranged with
  | reordered hperm =>
    exact ⟨fun key => forall_congr' fun batch => imp_congr_left hperm.mem_iff,
      fun keys key => (hperm.flatMap_right _).mem_iff⟩
  | @split columns rows first second rest hperm =>
    refine ⟨fun key => ?_, fun keys key => ?_⟩
    · have hrows : rows ≠ [] ↔ first ≠ [] ∨ second ≠ [] := by
        rw [← not_and_or, not_iff_not, ← List.append_eq_nil_iff]
        exact ⟨fun hnil => (hnil ▸ hperm).symm.eq_nil, fun hnil => (hnil ▸ hperm).eq_nil⟩
      simp only [List.forall_mem_cons, Batch.isEmpty, List.isEmpty_eq_false_iff, hrows]
      tauto
    · have hkeys : (rows.map (keyOn keys columns)).Perm
          (first.map (keyOn keys columns) ++ second.map (keyOn keys columns)) :=
        List.map_append ▸ hperm.map _
      simp only [List.flatMap_cons, List.mem_append, keysOn, hkeys.mem_iff, or_assoc]
  | permuted horder hproject =>
    obtain rfl := Except.ok.inj ((Batch.project_of_perm horder).symm.trans hproject)
    refine ⟨fun key => ?_, fun keys key => ?_⟩
    · simp only [List.forall_mem_cons, Batch.isEmpty_under, Batch.columns_under, horder.mem_iff]
    · simp only [List.flatMap_cons, Batch.keysOn_under horder]
  | symm _ ih => exact ⟨fun key => (ih.columns key).symm, fun keys key => (ih.keys keys key).symm⟩
  | trans _ _ first second =>
    exact ⟨fun key => (first.columns key).trans (second.columns key),
      fun keys key => (first.keys keys key).trans (second.keys keys key)⟩

theorem Alike.symm (halike : Alike baseline other) : Alike other baseline :=
  ⟨fun key => (halike.columns key).symm, fun keys key => (halike.keys keys key).symm⟩

theorem Alike.apply_eq_ok (halike : Alike baseline other) (henabled : join.enabled = true)
    (happly : join.apply baseline candidates = .ok result) :
    join.apply other candidates = .ok result := by
  rw [apply_eq_ok_iff_applies henabled] at happly ⊢
  obtain ⟨⟨hnamed, hcandidates, hbaseline⟩, rfl⟩ := happly
  refine ⟨⟨hnamed, hcandidates, fun batch hbatch hempty key hkey => ?_⟩, ?_⟩
  · exact (halike.columns key).mp (fun batch hbatch hempty => hbaseline batch hbatch hempty key hkey)
      batch hbatch hempty
  · rw [unmatched_eq, unmatched_eq]
    simp only [matched_iff, halike.keys]

/-- Alike baselines leave the same candidates, or both none because the anti-join fails. -/
theorem Alike.toOption_apply (halike : Alike baseline other) (henabled : join.enabled = true)
    (candidates : Batch) :
    (join.apply other candidates).toOption = (join.apply baseline candidates).toOption := by
  cases hbaseline : join.apply baseline candidates with
  | ok result => rw [halike.apply_eq_ok henabled hbaseline]
  | error failure =>
    cases hother : join.apply other candidates with
    | ok result =>
      rw [halike.symm.apply_eq_ok henabled hother] at hbaseline
      contradiction
    | error found => rfl

/-! ## More rows -/

theorem Matched.mono {larger : List Batch} (hlarger : baseline ⊆ larger) {columns : List String}
    {row : List Cell} (hmatched : Matched keys baseline columns row) :
    Matched keys larger columns row :=
  let ⟨batch, hbatch, hrow⟩ := hmatched
  ⟨batch, hlarger hbatch, hrow⟩

/-- Batches that come in addition take candidates away, if they do not make the anti-join fail. -/
theorem exists_apply_of_subset (henabled : join.enabled = true) {larger : List Batch}
    (hlarger : baseline ⊆ larger) {fewer : Batch} (hfewer : join.apply larger candidates = .ok fewer) :
    ∃ kept, join.apply baseline candidates = .ok kept ∧ fewer.columns = kept.columns ∧
      fewer.rows.Sublist kept.rows := by
  obtain ⟨⟨hnamed, hcandidates, hbaseline⟩, rfl⟩ := (apply_eq_ok_iff_applies henabled).mp hfewer
  refine ⟨_, (apply_eq_ok_iff_applies henabled).mpr ⟨⟨hnamed, hcandidates,
    fun batch hbatch => hbaseline batch (hlarger hbatch)⟩, rfl⟩, rfl, ?_⟩
  rw [unmatched_eq, unmatched_eq]
  refine List.monotone_filter_right _ fun row hkept => ?_
  rw [decide_eq_true_eq] at hkept ⊢
  exact mt (Matched.mono hlarger) hkept

/-- An anti-join fails exactly for want of key columns.  Otherwise it keeps, in their order and as often
as they come, the candidates that match no row of the baseline.  How the baseline is arranged has no
influence on this, and a larger one leaves fewer candidates. -/
theorem apply_exact (join : AntiJoin) (henabled : join.enabled = true) (baseline : List Batch)
    (candidates : Batch) :
    ((∃ failure, join.apply baseline candidates = .error failure) ↔
      join.keyColumns candidates.columns = [] ∨
      (∃ key ∈ join.keyColumns candidates.columns, key ∉ candidates.columns) ∨
      ∃ batch ∈ baseline, batch.rows ≠ [] ∧
        ∃ key ∈ join.keyColumns candidates.columns, key ∉ batch.columns) ∧
    (∀ result, join.apply baseline candidates = .ok result → result = ⟨candidates.columns,
      candidates.rows.filter fun row =>
        ¬ Matched (join.keyColumns candidates.columns) baseline candidates.columns row⟩) ∧
    (∀ other, Rearranged baseline other →
      (join.apply other candidates).toOption = (join.apply baseline candidates).toOption) ∧
    ∀ larger fewer, baseline ⊆ larger → join.apply larger candidates = .ok fewer →
      ∃ kept, join.apply baseline candidates = .ok kept ∧ fewer.columns = kept.columns ∧
        fewer.rows.Sublist kept.rows := by
  refine ⟨?_, fun result hresult => ?_, fun other hother => hother.alike.toOption_apply henabled _,
    fun larger fewer hlarger => exists_apply_of_subset henabled hlarger⟩
  · rw [← not_iff_not, ← applies_iff_not]
    have happlies := fun result => @apply_eq_ok_iff_applies join henabled baseline candidates result
    cases happly : join.apply baseline candidates with
    | ok result => simpa using ((happlies result).mp happly).1
    | error failure =>
      simp only [Except.error.injEq, exists_eq', not_true_eq_false, false_iff]
      intro hyes
      exact absurd (happly.symm.trans ((happlies _).mpr ⟨hyes, rfl⟩)) (by simp)
  · rw [((apply_eq_ok_iff_applies henabled).mp hresult).2, unmatched_eq]

/-- The text `1` of a baseline in another column order takes the number one away, and null only null.
The batch without rows need not have the key column.  The candidate that comes twice is kept twice; a
baseline whose batches are merged keeps it too, and one that has its key takes it away. -/
theorem apply_exact_of_two_batches :
    let join : AntiJoin := .onKeys ["id"]
    let baseline : List Batch := [⟨["v", "id"], [[.text "x", .text "1"]]⟩,
      ⟨["v", "id"], [[.text "y", .null]]⟩, ⟨["other"], []⟩]
    let merged : List Batch := [⟨["v", "id"], [[.text "x", .text "1"], [.text "y", .null]]⟩,
      ⟨["other"], []⟩]
    let added : Batch := ⟨["id"], [[.int 2]]⟩
    let candidates : Batch := ⟨["id", "v"], [[.int 2, .text "a"], [.int 1, .text "b"],
      [.null, .text "c"], [.int 2, .text "a"], [.text "", .text "d"]]⟩
    let kept : Batch := ⟨["id", "v"], [[.int 2, .text "a"], [.int 2, .text "a"],
      [.text "", .text "d"]]⟩
    join.enabled = true ∧ join.apply baseline candidates = .ok kept ∧
      kept.rows = candidates.rows.filter
        (fun row => ¬ Matched ["id"] baseline candidates.columns row) ∧
      (join.apply merged candidates).toOption = some kept ∧
      ∃ fewer, join.apply (added :: baseline) candidates = .ok fewer ∧
        fewer.rows.Sublist kept.rows := by
  intro join baseline merged added candidates kept
  obtain ⟨-, hexact, hrearranged, hlarger⟩ := apply_exact join rfl baseline candidates
  have hkept : join.apply baseline candidates = .ok kept := by decide
  have hmerged : Rearranged baseline merged := .symm (.split (.refl _))
  have hadded : join.apply (added :: baseline) candidates =
      .ok ⟨["id", "v"], [[.text "", .text "d"]]⟩ := by decide
  refine ⟨rfl, hkept, congrArg Batch.rows (hexact kept hkept), ?_, _, hadded, ?_⟩
  · rw [hrearranged merged hmerged, hkept]
    rfl
  · obtain ⟨others, hothers, -, hsublist⟩ := hlarger _ _ (List.subset_cons_self _ _) hadded
    obtain rfl := Except.ok.inj (hkept.symm.trans hothers)
    exact hsublist

end AntiJoin

end TableAppend
