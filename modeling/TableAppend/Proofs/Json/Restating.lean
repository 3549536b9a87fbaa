import TableAppend.Json.Fields
import TableAppend.Proofs.Json.Documents
import TableAppend.Proofs.NamedValues

/-!
# Documents that say the same

Members of an object may stand in any order, and one that has its usual value may be missing.  A reader
that asks for fields by name, with the usual values for those that are missing, finds the same values in
all these documents.
-/

namespace TableAppend.Json

/-- The members of an object whose names are texts. -/
def entries : Json → List (String × Json)
  | .object members => members.filterMap fun (name, value) => name.map fun name => (name, value)
  | _ => []

@[simp]
theorem entries_record (members : List (String × Json)) : (record members).entries = members := by
  rw [record, entries, List.filterMap_map]
  exact List.filterMap_some

/-- An object with the members of `whole` in any order, where those that `usual` has as well may be
missing. -/
def Restates (usual whole document : Json) : Prop :=
  ∃ members, document = record members ∧ members.Subperm whole.entries ∧
    ∀ member ∈ whole.entries, member ∉ members → member ∈ usual.entries

variable {usual whole document : Json}

theorem restates_of_perm {members : List (String × Json)} (hperm : members.Perm whole.entries) :
    Restates usual whole (record members) :=
  ⟨members, rfl, hperm.subperm, fun _ hmember hmissing =>
    absurd (hperm.mem_iff.mpr hmember) hmissing⟩

theorem restates_record (members : List (String × Json)) :
    Restates usual (record members) (record members) :=
  restates_of_perm (by rw [entries_record])

theorem restates_of_subset {members : List (String × Json)} (hnodup : (members.map Prod.fst).Nodup)
    (hsub : members ⊆ whole.entries) (hrest : whole.entries ⊆ members ++ usual.entries) :
    Restates usual whole (record members) :=
  ⟨members, rfl, hnodup.of_map.subperm hsub, fun _ hmember hmissing =>
    (List.mem_append.mp (hrest hmember)).resolve_left hmissing⟩

theorem Restates.isPlain (hrestates : Restates usual whole document)
    (hwhole : ∀ member ∈ whole.entries, member.2.IsPlain) : document.IsPlain := by
  obtain ⟨members, rfl, hsub, -⟩ := hrestates
  exact .record fun member hmember => hwhole member (hsub.subset hmember)

/-! ## Loading -/

theorem isLoadable_record {members : List (String × Json)} {depth : ℕ}
    (hmembers : ∀ member ∈ members, member.2.isLoadable depth = true) :
    (record members).isLoadable (depth + 1) = true := by
  have hdeep : depth + 1 ≠ 0 := Nat.succ_ne_zero depth
  rw [record, isLoadable, Nat.add_sub_cancel, decide_eq_true hdeep, Bool.true_and]
  induction members with
  | nil => rfl
  | cons member rest ih =>
    rw [List.forall_mem_cons] at hmembers
    rw [List.map_cons, membersAreLoadable, hmembers.1, ih hmembers.2]
    rfl

theorem Restates.isLoadable (hrestates : Restates usual whole document) {depth : ℕ}
    (hwhole : ∀ member ∈ whole.entries, member.2.isLoadable depth = true) :
    document.isLoadable (depth + 1) = true := by
  obtain ⟨members, rfl, hsub, -⟩ := hrestates
  exact isLoadable_record fun member hmember => hwhole member (hsub.subset hmember)

/-! ## Fields -/

theorem members?_record (names : List String) {members : List (String × Json)}
    (hmembers : (members.map Prod.fst).Nodup) : (record members).members? names =
      some (members.filter fun (name, _) => names.contains name) := by
  have hreadable : (members.map fun (name, value) => (some name, value)).mapM
      (fun (name, value) => name.map fun name => (name, value) : Member → Option (String × Json)) =
        some members := by
    induction members with
    | nil => rfl
    | cons member rest ih => simp [ih (List.Nodup.of_cons hmembers)]
  have hknown : ((members.filter fun (name, _) => names.contains name).map Prod.fst).Nodup :=
    hmembers.sublist (List.filter_sublist.map _)
  rw [record, members?, hreadable, Option.bind_eq_bind, Option.bind_some, if_pos hknown]

/-- What is found under a name: the value of the whole document, or nothing where this is the usual
one. -/
structure Offers (usual whole fields : List (String × Json)) (names : List String) : Prop where
  lookup_eq : ∀ name ∈ names, ∀ value, (name, value) ∈ whole → fields.lookup name = some value ∨
    fields.lookup name = none ∧ usual.lookup name = some value

theorem Restates.exists_members (hrestates : Restates usual whole document)
    (husual : (usual.entries.map Prod.fst).Nodup) (hwhole : (whole.entries.map Prod.fst).Nodup)
    (names : List String) : ∃ fields, document.members? names = some fields ∧
      Offers usual.entries whole.entries fields names := by
  obtain ⟨members, rfl, hsub, hmissing⟩ := hrestates
  have hmembers : (members.map Prod.fst).Nodup := by
    obtain ⟨kept, hperm, hkept⟩ := hsub
    exact (hperm.map Prod.fst).nodup_iff.mp (hwhole.sublist (hkept.map Prod.fst))
  refine ⟨_, members?_record names hmembers, ⟨fun name hname value hvalue => ?_⟩⟩
  have hknown := hmembers.sublist ((List.filter_sublist (l := members)
    (p := fun (name, _) => names.contains name)).map Prod.fst)
  by_cases hmem : (name, value) ∈ members
  · refine .inl ((lookup_eq_some_iff_mem hknown).mpr (List.mem_filter.mpr ⟨hmem, ?_⟩))
    exact List.contains_iff_mem.mpr hname
  · refine .inr ⟨?_, (lookup_eq_some_iff_mem husual).mpr (hmissing _ hvalue hmem)⟩
    rw [Option.eq_none_iff_forall_ne_some]
    intro found hfound
    have hin := (List.mem_filter.mp (mem_of_lookup hfound)).1
    have hsame := List.inj_on_of_nodup_map hwhole (hsub.subset hin) hvalue rfl
    exact hmem (hsame ▸ hin)

theorem Restates.exists_fields (hrestates : Restates usual whole document)
    (husual : (usual.entries.map Prod.fst).Nodup) (hwhole : (whole.entries.map Prod.fst).Nodup)
    (names : List String) : ∃ fields, document.fields? names = some fields ∧
      Offers usual.entries whole.entries fields names := by
  obtain ⟨members, hdocument, -⟩ := id hrestates
  have hobject : document.fields? names = document.members? names := by rw [hdocument]; rfl
  rw [hobject]
  exact hrestates.exists_members husual hwhole names

variable {given default fields : List (String × Json)} {names : List String} {name : String}
  {α : Type} {read : Json → Option α} {result absent : α}

/-- A field that may be missing is read as the value of the whole document. -/
theorem Offers.fieldOr_eq (hoffers : Offers default given fields names) (value : Json)
    (hname : name ∈ names) (hvalue : (name, value) ∈ given) (hread : read value = some result)
    (habsent : ∀ found, default.lookup name = some found → read found = some absent) :
    fieldOr fields name read absent = some result := by
  rcases hoffers.lookup_eq name hname value hvalue with hfound | ⟨hnone, husual⟩
  · rw [fieldOr, hfound]
    exact hread
  · rw [fieldOr, hnone, ← hread, habsent value husual]

/-- A field that has no usual value is there. -/
theorem Offers.field?_eq (hoffers : Offers default given fields names) (value : Json)
    (hname : name ∈ names) (hvalue : (name, value) ∈ given) (hread : read value = some result)
    (hneeded : default.lookup name = none) : field? fields name read = some result := by
  rcases hoffers.lookup_eq name hname value hvalue with hfound | ⟨-, husual⟩
  · rw [field?, hfound, Option.bind_eq_bind, Option.bind_some, hread]
  · rw [hneeded] at husual
    cases husual

/-! ## Values -/

theorem char?_text (c : Char) : char? (text c.toString) = some c := by
  simp [char?, text]

theorem list?_texts (values : List String) : list? string? (texts values) = some values := by
  rw [texts, list?]
  induction values with
  | nil => rfl
  | cons value rest ih => simp [ih, text, string?]

theorem optional?_optional (write : α → Json) (hread : ∀ value, read (write value) = some value)
    (hwritten : ∀ value, write value ≠ .null) (value : Option α) :
    optional? read (optional write value) = some value := by
  cases value with
  | none => rfl
  | some value =>
    have hsome : optional? read (write value) = (read (write value)).map some := by
      have hne := hwritten value
      cases hcase : write value with
      | null => exact absurd hcase hne
      | _ => rfl
    rw [optional, hsome, hread]
    rfl

theorem optional?_text (value : Option String) :
    optional? string? (optional text value) = some value :=
  optional?_optional text (fun _ => rfl) (fun _ => Json.noConfusion) value

theorem optional?_nat {ofNat? : Json → Option α} {toNat : α → ℕ}
    (hread : ∀ value, ofNat? (nat (toNat value)) = some value) (value : Option α) :
    optional? ofNat? (optional (fun value => nat (toNat value)) value) = some value :=
  optional?_optional _ hread (fun _ => Json.noConfusion) value

end TableAppend.Json
