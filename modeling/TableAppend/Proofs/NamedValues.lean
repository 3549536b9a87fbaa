import Mathlib.Data.List.Nodup

/-!
# Values under names

Where no name is given twice, looking up a name finds the value that stands beside it.
-/

namespace TableAppend

variable {α : Type} {entries : List (String × α)} {name : String} {value : α}

theorem mem_of_lookup (hlookup : entries.lookup name = some value) : (name, value) ∈ entries := by
  obtain ⟨before, after, rfl, -⟩ := List.lookup_eq_some_iff.mp hlookup
  exact List.mem_append_right _ List.mem_cons_self

theorem lookup_eq_some_iff_mem (hnames : (entries.map Prod.fst).Nodup) :
    entries.lookup name = some value ↔ (name, value) ∈ entries := by
  refine ⟨mem_of_lookup, fun hmem => ?_⟩
  obtain ⟨found, hfound⟩ := Option.isSome_iff_exists.mp
    (List.lookup_isSome_iff.mpr ⟨_, hmem, beq_self_eq_true name⟩)
  have hsame := List.inj_on_of_nodup_map hnames (mem_of_lookup hfound) hmem rfl
  rw [hfound, (Prod.mk.inj hsame).2]

end TableAppend
