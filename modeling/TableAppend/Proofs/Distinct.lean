import Mathlib

/-!
# First occurrences

`List.eraseDups` keeps the first occurrence of every item.  It goes item by item, and each time the
other occurrences are dropped from the rest: `eraseDups_induction`.
-/

namespace TableAppend

variable {α : Type} [BEq α]

theorem eraseDups_induction {motive : List α → Prop} (nil : motive [])
    (cons : ∀ item rest, motive (rest.filter fun other => !other == item) → motive (item :: rest))
    (items : List α) : motive items := by
  induction hlength : items.length using Nat.strongRecOn generalizing items with
  | ind length ih =>
    cases items with
    | nil => exact nil
    | cons item rest =>
      refine cons item rest (ih _ ?_ _ rfl)
      rw [← hlength, List.length_cons, Nat.lt_succ_iff]
      exact List.length_filter_le _ _

variable [LawfulBEq α]

theorem nodup_eraseDups (items : List α) : items.eraseDups.Nodup := by
  induction items using eraseDups_induction with
  | nil => exact List.nodup_nil
  | cons item rest ih =>
    rw [List.eraseDups_cons, List.nodup_cons]
    refine ⟨fun hmem => ?_, ih⟩
    have hfilter := List.mem_eraseDups.mp hmem
    simp at hfilter

theorem eraseDups_of_nodup {items : List α} (hitems : items.Nodup) : items.eraseDups = items := by
  induction items with
  | nil => rfl
  | cons item rest ih =>
    rw [List.nodup_cons] at hitems
    have hrest : (rest.filter fun other => !other == item) = rest := by
      rw [List.filter_eq_self]
      intro other hother
      simpa using fun hsame : other = item => hitems.1 (hsame ▸ hother)
    rw [List.eraseDups_cons, hrest, ih hitems.2]

theorem eraseDups_filter (keep : α → Bool) (items : List α) :
    (items.filter keep).eraseDups = items.eraseDups.filter keep := by
  induction items using eraseDups_induction with
  | nil => rfl
  | cons item rest ih =>
    rw [List.eraseDups_cons, List.filter_cons, List.filter_cons, ← ih, List.filter_filter]
    split
    · rw [List.eraseDups_cons, List.filter_filter]
      simp only [Bool.and_comm]
    · rename_i hdropped
      refine congrArg List.eraseDups (List.filter_congr fun other _ => ?_)
      by_cases hsame : other = item <;> simp [hsame, hdropped]

theorem eraseDups_takeWhile (keep : α → Bool) (items : List α) :
    (items.takeWhile keep).eraseDups = items.eraseDups.takeWhile keep := by
  induction items using eraseDups_induction with
  | nil => rfl
  | cons item rest ih =>
    rw [List.takeWhile_cons, List.eraseDups_cons, List.takeWhile_cons]
    split
    · rename_i hkeep
      have hkept : (fun other => !(!other == item) || keep other) = keep := by
        funext other
        by_cases hsame : other = item <;> simp [hsame, hkeep]
      rw [List.eraseDups_cons, ← ih, List.takeWhile_filter, hkept]
    · rfl

/-- It does not matter whether repetitions are dropped from parts first. -/
theorem eraseDups_append_eraseDups (first second : List α) :
    (first.eraseDups ++ second.eraseDups).eraseDups = (first ++ second).eraseDups := by
  have hremoved : second.eraseDups.removeAll first.eraseDups =
      (second.removeAll first).eraseDups := by
    rw [List.removeAll, List.removeAll, eraseDups_filter]
    refine List.filter_congr fun item _ => ?_
    rw [Bool.eq_iff_iff]
    simp
  rw [List.eraseDups_append, List.eraseDups_append, hremoved,
    eraseDups_of_nodup (nodup_eraseDups first), eraseDups_of_nodup (nodup_eraseDups _)]

/-- Of two items the one that is kept first occurs before all occurrences of the other. -/
theorem pairwise_eraseDups (items : List α) :
    items.eraseDups.Pairwise fun first second =>
      ∃ before after, items = before ++ first :: after ∧ second ∉ before := by
  rw [List.pairwise_iff_forall_sublist]
  intro first second hpair
  obtain ⟨front, back, hdistinct, hfirst, hsecond⟩ := List.cons_sublist_iff.mp hpair
  have hback : second ∈ back := List.singleton_sublist.mp hsecond
  have hfront : second ∉ front := fun hmem =>
    (List.nodup_append.mp (hdistinct ▸ nodup_eraseDups items)).2.2 second hmem second hback rfl
  have htakeWhile : ∀ before after : List α, first ∉ before →
      ((before ++ first :: after).takeWhile fun other => !other == first) = before := by
    intro before after hbefore
    rw [List.takeWhile_append_of_pos, List.takeWhile_cons_of_neg (by simp), List.append_nil]
    intro other hother
    simpa using fun hsame : other = first => hbefore (hsame ▸ hother)
  have hmem : first ∈ items := by
    rw [← List.mem_eraseDups, hdistinct]
    exact List.mem_append_left _ hfirst
  obtain ⟨before, after, hitems, hbefore⟩ := List.eq_append_cons_of_mem hmem
  obtain ⟨kept, rest, hkept, hnot⟩ := List.eq_append_cons_of_mem hfirst
  refine ⟨before, after, hitems, fun hsecond => hfront ?_⟩
  have hwhile := eraseDups_takeWhile (fun other => !other == first) items
  rw [hdistinct, hkept, List.append_assoc, List.cons_append, htakeWhile _ _ hnot, hitems,
    htakeWhile _ _ hbefore] at hwhile
  rw [hkept]
  exact List.mem_append_left _ (hwhile ▸ List.mem_eraseDups.mpr hsecond)

/-- Items that are put together by a key are still the same items. -/
theorem perm_flatMap_filter {β : Type} (key : β → α) (items : List β) :
    ((items.map key).eraseDups.flatMap fun found => items.filter fun item => key item == found).Perm
      items := by
  generalize hkeys : items.map key = keys
  induction keys using eraseDups_induction generalizing items with
  | nil => simp [List.map_eq_nil_iff.mp hkeys]
  | cons found rest ih =>
    obtain ⟨item, others, rfl, rfl, rfl⟩ := List.map_eq_cons_iff.mp hkeys
    have hleft : ((item :: others).filter fun other => !key other == key item).map key =
        (others.map key).filter fun other => !other == key item := by
      rw [List.filter_cons_of_neg (by simp), List.filter_map]
      rfl
    have hrest := ih _ hleft
    rw [List.eraseDups_cons, List.flatMap_cons]
    have hsame : ∀ found ∈ ((others.map key).filter fun other => !other == key item).eraseDups,
        ((item :: others).filter fun other => key other == found) =
          ((item :: others).filter fun other => !key other == key item).filter fun other =>
            key other == found := by
      intro found hfound
      have hne : found ≠ key item := by
        simpa using (List.mem_filter.mp (List.mem_eraseDups.mp hfound)).2
      rw [List.filter_filter]
      refine List.filter_congr fun other _ => ?_
      by_cases hother : key other = found <;> simp [hother, hne]
    rw [List.flatMap_congr hsame]
    exact (hrest.append_left _).trans (List.filter_append_perm _ _)

end TableAppend
