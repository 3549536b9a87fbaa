import Mathlib
import TableAppend.Failure

/-!
# Outcomes of steps in a row

A row of steps comes to a result exactly if each of them does, and then the results are those of the
single steps.
-/

namespace TableAppend.Outcome

variable {α β : Type}

@[simp]
theorem ok_bind (value : α) (next : α → Outcome β) :
    ((.ok value : Outcome α) >>= next) = next value :=
  rfl

@[simp]
theorem error_bind (failure : Failure) (next : α → Outcome β) :
    ((.error failure : Outcome α) >>= next) = .error failure :=
  rfl

@[simp]
theorem pure_eq_ok (value : α) : (pure value : Outcome α) = .ok value :=
  rfl

@[simp]
theorem throw_eq_error (failure : Failure) : (throw failure : Outcome α) = .error failure :=
  rfl

@[simp]
theorem map_ok (change : α → β) (value : α) :
    (change <$> (.ok value : Outcome α)) = .ok (change value) :=
  rfl

theorem bind_eq_ok_iff {outcome : Outcome α} {next : α → Outcome β} {result : β} :
    outcome >>= next = .ok result ↔ ∃ value, outcome = .ok value ∧ next value = .ok result := by
  cases outcome with
  | ok value => simp
  | error failure => simp

/-- A step that has no value comes before another one. -/
theorem seq_eq_ok_iff {outcome : Outcome Unit} {next : Outcome β} {result : β} :
    (outcome >>= fun _ => next) = .ok result ↔ outcome = .ok () ∧ next = .ok result := by
  cases outcome <;> simp

theorem map_eq_ok_iff {outcome : Outcome α} {change : α → β} {result : β} :
    change <$> outcome = .ok result ↔ ∃ value, outcome = .ok value ∧ change value = result := by
  cases outcome with
  | ok value => simp
  | error failure => simp [Functor.map, Except.map]

theorem map_eq_error_iff {outcome : Outcome α} {change : α → β} {failure : Failure} :
    change <$> outcome = .error failure ↔ outcome = .error failure := by
  cases outcome with
  | ok value => simp [Functor.map, Except.map]
  | error cause => simp [Functor.map, Except.map]

/-- Steps for all elements of a list come to results exactly if each of them does. -/
theorem mapM_eq_ok_iff {step : α → Outcome β} {items : List α} {results : List β} :
    items.mapM step = .ok results ↔
      List.Forall₂ (fun item result => step item = .ok result) items results := by
  induction items generalizing results with
  | nil =>
    rw [List.mapM_nil, pure_eq_ok, Except.ok.injEq, List.forall₂_nil_left_iff]
    exact eq_comm
  | cons item rest ih =>
    rw [List.mapM_cons, bind_eq_ok_iff]
    constructor
    · rintro ⟨first, hfirst, hrest⟩
      obtain ⟨others, hothers, hresult⟩ := bind_eq_ok_iff.mp hrest
      obtain rfl := Except.ok.inj hresult
      exact .cons hfirst (ih.mp hothers)
    · rintro (_ | ⟨hfirst, hrest⟩)
      exact ⟨_, hfirst, bind_eq_ok_iff.mpr ⟨_, ih.mpr hrest, rfl⟩⟩

/-- A row of steps fails exactly as the first of them does that fails. -/
theorem mapM_eq_error_iff {step : α → Outcome β} {items : List α} {failure : Failure} :
    items.mapM step = .error failure ↔ ∃ before item after, items = before ++ item :: after ∧
      (∀ earlier ∈ before, ∃ result, step earlier = .ok result) ∧ step item = .error failure := by
  induction items with
  | nil => simp
  | cons first rest ih =>
    rw [List.mapM_cons]
    cases hfirst : step first with
    | error found =>
      rw [error_bind]
      constructor
      · rintro hfailure
        obtain rfl := Except.error.inj hfailure
        exact ⟨[], first, rest, rfl, by simp, hfirst⟩
      · rintro ⟨_ | ⟨head, before⟩, item, after, hitems, hbefore, hitem⟩
        · obtain ⟨rfl, -⟩ := List.cons.inj hitems
          rw [hfirst] at hitem
          obtain rfl := Except.error.inj hitem
          rfl
        · obtain ⟨rfl, -⟩ := List.cons.inj hitems
          obtain ⟨result, hresult⟩ := hbefore first List.mem_cons_self
          rw [hfirst] at hresult
          contradiction
    | ok value =>
      have hrest : (do let others ← rest.mapM step; pure (value :: others) : Outcome (List β)) =
          .error failure ↔ rest.mapM step = .error failure := by
        cases rest.mapM step <;> simp
      rw [ok_bind, hrest, ih]
      constructor
      · rintro ⟨before, item, after, rfl, hbefore, hitem⟩
        exact ⟨first :: before, item, after, rfl,
          List.forall_mem_cons.mpr ⟨⟨value, hfirst⟩, hbefore⟩, hitem⟩
      · rintro ⟨_ | ⟨head, before⟩, item, after, hitems, hbefore, hitem⟩
        · obtain ⟨rfl, -⟩ := List.cons.inj hitems
          rw [hfirst] at hitem
          contradiction
        · obtain ⟨-, rfl⟩ := List.cons.inj hitems
          exact ⟨before, item, after, rfl, (List.forall_mem_cons.mp hbefore).2, hitem⟩

theorem exists_of_mapM {step : α → Outcome β} {items : List α} {results : List β}
    (hresults : items.mapM step = .ok results) {item : α} (hitem : item ∈ items) :
    ∃ result, step item = .ok result := by
  have heach : List.Forall₂ (fun item result =>
      (∃ found, step item = .ok found) ∧ step item = .ok result) items results :=
    (mapM_eq_ok_iff.mp hresults).imp fun _ result hresult => ⟨⟨result, hresult⟩, hresult⟩
  exact ((List.forall₂_and_left items results).mp heach).1 item hitem

theorem exists_mapM {step : α → Outcome β} {items : List α}
    (hsteps : ∀ item ∈ items, ∃ result, step item = .ok result) :
    ∃ results, items.mapM step = .ok results := by
  simp only [mapM_eq_ok_iff]
  induction items with
  | nil => exact ⟨[], .nil⟩
  | cons item rest ih =>
    obtain ⟨first, hfirst⟩ := hsteps item List.mem_cons_self
    obtain ⟨others, hothers⟩ := ih fun other hother => hsteps other (List.mem_cons_of_mem _ hother)
    exact ⟨first :: others, .cons hfirst hothers⟩

theorem exists_of_forall₂ {relation : α → β → Prop} {items : List α} {results : List β}
    (heach : List.Forall₂ relation items results) {result : β} (hresult : result ∈ results) :
    ∃ item ∈ items, relation item result := by
  induction heach with
  | nil => exact absurd hresult List.not_mem_nil
  | @cons item found _ _ hfirst _ ih =>
    rcases List.mem_cons.mp hresult with rfl | hlater
    · exact ⟨item, List.mem_cons_self, hfirst⟩
    · obtain ⟨other, hother, hrelated⟩ := ih hlater
      exact ⟨other, List.mem_cons_of_mem _ hother, hrelated⟩

theorem eq_ok_of_toOption {α : Type} {outcome : Outcome α} {value : α}
    (hvalue : outcome.toOption = some value) : outcome = .ok value := by
  cases outcome with
  | ok found => exact congrArg _ (Option.some.inj hvalue)
  | error failure => cases hvalue

theorem mapM_congr {first second : α → Outcome β} {items : List α}
    (hsame : ∀ item ∈ items, first item = second item) : items.mapM first = items.mapM second := by
  induction items with
  | nil => rfl
  | cons item rest ih =>
    rw [List.mapM_cons, List.mapM_cons, hsame item List.mem_cons_self,
      ih fun other hother => hsame other (List.mem_cons_of_mem _ hother)]

end TableAppend.Outcome
