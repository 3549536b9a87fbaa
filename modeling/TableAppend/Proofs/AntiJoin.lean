import TableAppend.AntiJoin
import TableAppend.Proofs.Outcome

/-!
# What an anti-join keeps

The candidates whose keys are not stored are kept, in their order.
-/

namespace TableAppend

namespace Batch

theorem filterMap_unmatched {rows : List (List Cell)} {keyOf : List Cell → Key}
    {stored : List Key} (before : List (List Cell)) :
    (((rows.map keyOf).zipIdx before.length).filterMap fun (key, number) =>
        if stored.contains key then none else some number).filterMap
          (fun index => (before ++ rows)[index]?) =
      rows.filter fun row => !stored.contains (keyOf row) := by
  induction rows generalizing before with
  | nil => rfl
  | cons row rest ih =>
    have hrest := ih (before ++ [row])
    rw [List.length_append, List.length_singleton, List.append_assoc, List.singleton_append] at hrest
    have hrow : (before ++ row :: rest)[before.length]? = some row := by simp
    rw [List.map_cons, List.zipIdx_cons, List.filterMap_cons]
    dsimp only
    by_cases hstored : stored.contains (keyOf row) = true
    · rw [if_pos hstored, List.filter_cons_of_neg (by simpa using hstored)]
      exact hrest
    · rw [if_neg hstored, List.filter_cons_of_pos (by simpa using hstored)]
      dsimp only
      rw [List.filterMap_cons, hrow]
      dsimp only
      rw [hrest]

/-- The rows whose keys are not stored. -/
def unmatched (batch : Batch) (keyOf : List Cell → Key) (stored : List Key) : Batch :=
  ⟨batch.columns, batch.rows.filter fun row => !stored.contains (keyOf row)⟩

theorem take_unmatched (batch : Batch) (keyOf : List Cell → Key) (stored : List Key) :
    batch.take ((batch.rows.map keyOf).zipIdx.filterMap fun (key, number) =>
        if stored.contains key then none else some number) = batch.unmatched keyOf stored := by
  rw [take, unmatched]
  congr 1
  exact filterMap_unmatched []

end Batch

namespace AntiJoin

variable {join : AntiJoin} {baseline : List Batch} {candidates result : Batch}

/-- The columns whose cells make up a key: all where none are named. -/
def keyColumns (join : AntiJoin) (columns : List String) : List String :=
  if join.onAllColumns ∨ join.keys = [] then columns else join.keys

theorem effectiveKeys_eq_ok_iff {columns keys : List String} :
    join.effectiveKeys columns = .ok keys ↔
      keys = join.keyColumns columns ∧ keys ≠ [] ∧ ∀ key ∈ keys, key ∈ columns := by
  rw [effectiveKeys, ← keyColumns]
  generalize join.keyColumns columns = chosen
  by_cases hempty : chosen = []
  · rw [if_pos hempty]
    simp only [reduceCtorEq, false_iff]
    rintro ⟨rfl, hne, -⟩
    exact hne hempty
  · rw [if_neg hempty]
    cases hfound : chosen.find? fun key => !columns.contains key with
    | some key =>
      simp only [reduceCtorEq, false_iff]
      rintro ⟨rfl, -, hall⟩
      have hmissing := List.find?_some hfound
      simp [hall key (List.mem_of_find?_eq_some hfound)] at hmissing
    | none =>
      rw [List.find?_eq_none] at hfound
      simp only [Except.ok.injEq]
      constructor
      · rintro rfl
        exact ⟨rfl, hempty, fun key hkey => by simpa using hfound key hkey⟩
      · rintro ⟨rfl, -, -⟩
        rfl

theorem keysOf_eq_ok_iff {keys : List String} {place : String} {batch : Batch} {found : List Key} :
    keysOf keys place batch = .ok found ↔ ∃ positions,
      keys.mapM (keyPosition batch place) = .ok positions ∧
        found = batch.rows.map (Key.ofRow positions) := by
  rw [keysOf, Outcome.bind_eq_ok_iff]
  simp only [Outcome.pure_eq_ok, Except.ok.injEq]
  exact exists_congr fun positions => and_congr_right fun _ => eq_comm

/-- What is left of the candidates. -/
theorem apply_eq_ok_iff (henabled : join.enabled = true) :
    join.apply baseline candidates = .ok result ↔ ∃ keys stored positions,
      join.effectiveKeys candidates.columns = .ok keys ∧ index keys baseline = .ok stored ∧
        keys.mapM (keyPosition candidates "batch") = .ok positions ∧
          result = candidates.unmatched (Key.ofRow positions) stored := by
  rw [apply, filterAgainst, if_pos henabled]
  constructor
  · intro happly
    obtain ⟨keys, hkeys, hrest⟩ := Outcome.bind_eq_ok_iff.mp happly
    obtain ⟨stored, hstored, hrest⟩ := Outcome.bind_eq_ok_iff.mp hrest
    obtain ⟨numbers, hnumbers, hresult⟩ := Outcome.bind_eq_ok_iff.mp hrest
    rw [survivors] at hnumbers
    obtain ⟨found, hfound, hnumbers⟩ := Outcome.bind_eq_ok_iff.mp hnumbers
    obtain ⟨positions, hpositions, rfl⟩ := keysOf_eq_ok_iff.mp hfound
    refine ⟨keys, stored, positions, hkeys, hstored, hpositions, ?_⟩
    rw [← Except.ok.inj hresult, ← Except.ok.inj hnumbers]
    exact candidates.take_unmatched (Key.ofRow positions) stored
  · rintro ⟨keys, stored, positions, hkeys, hstored, hpositions, rfl⟩
    refine Outcome.bind_eq_ok_iff.mpr ⟨keys, hkeys,
      Outcome.bind_eq_ok_iff.mpr ⟨stored, hstored, ?_⟩⟩
    refine Outcome.bind_eq_ok_iff.mpr ⟨_, Outcome.bind_eq_ok_iff.mpr
      ⟨_, keysOf_eq_ok_iff.mpr ⟨positions, hpositions, rfl⟩, rfl⟩, ?_⟩
    exact congrArg Except.ok (candidates.take_unmatched (Key.ofRow positions) stored)

theorem columns_apply (happly : join.apply baseline candidates = .ok result) :
    result.columns = candidates.columns := by
  cases henabled : join.enabled with
  | true =>
    obtain ⟨keys, stored, positions, -, -, -, rfl⟩ := (apply_eq_ok_iff henabled).mp happly
    rfl
  | false =>
    rw [apply, filterAgainst, henabled] at happly
    rw [← Except.ok.inj happly]

theorem mem_of_apply (happly : join.apply baseline candidates = .ok result) {row : List Cell}
    (hrow : row ∈ result.rows) : row ∈ candidates.rows := by
  cases henabled : join.enabled with
  | true =>
    obtain ⟨keys, stored, positions, -, -, -, rfl⟩ := (apply_eq_ok_iff henabled).mp happly
    exact (List.mem_filter.mp hrow).1
  | false =>
    rw [apply, filterAgainst, henabled] at happly
    rwa [← Except.ok.inj happly] at hrow

end AntiJoin

end TableAppend
