import TableAppend.Proofs.Append.Buckets

/-!
# Batches with other rows

What the buckets of a batch are decides which rows its partitions have and in which order.  A batch
that keeps only the rows of some partitions therefore keeps their buckets, and one with the same rows
for each partition has the same buckets, if in another order.
-/

namespace TableAppend

namespace Routing

variable {routing : Routing} {batch : Batch} {buckets : List Bucket}

/-- Whether a row is routed to one of these partitions. -/
def leadsTo (routing : Routing) (columns : List String) (keys : List PartitionKey)
    (row : List Cell) : Bool :=
  (routing.route columns row).toOption.any fun key => key ∈ keys

/-- The batch without the rows of other partitions. -/
def restrict (routing : Routing) (keys : List PartitionKey) (batch : Batch) : Batch :=
  { batch with rows := batch.rows.filter (routing.leadsTo batch.columns keys) }

theorem leadsTo_iff {columns : List String} {keys : List PartitionKey} {row : List Cell}
    {key : PartitionKey} (hroute : routing.route columns row = .ok key) :
    routing.leadsTo columns keys row = true ↔ key ∈ keys := by
  rw [leadsTo, hroute]
  simp [Except.toOption]

section Routed

variable {columns : List String} {rows : List (List Cell)} {keys : List PartitionKey}
  (hkeys : List.Forall₂ (fun row key => routing.route columns row = .ok key) rows keys)

include hkeys

theorem filter_zip_eq (key : PartitionKey) :
    ((keys.zip rows).filter (·.1 = key)).map Prod.snd =
      rows.filter (routing.leadsTo columns [key]) := by
  induction hkeys with
  | nil => rfl
  | @cons row found rows others hroute hothers ih =>
    have hleads := @leadsTo_iff routing _ [key] _ _ hroute
    rw [List.mem_singleton] at hleads
    rw [List.zip_cons_cons]
    by_cases hfound : found = key
    · rw [List.filter_cons_of_pos (by simpa using hfound),
        List.filter_cons_of_pos (hleads.mpr hfound), List.map_cons, ih]
    · rw [List.filter_cons_of_neg (by simpa using hfound),
        List.filter_cons_of_neg (by rwa [hleads]), ih]

theorem forall₂_filter (kept : List PartitionKey) :
    List.Forall₂ (fun row key => routing.route columns row = .ok key)
      (rows.filter (routing.leadsTo columns kept)) (keys.filter fun key => key ∈ kept) := by
  induction hkeys with
  | nil => exact .nil
  | @cons row key rows others hroute hothers ih =>
    have hleads := @leadsTo_iff routing _ kept _ _ hroute
    by_cases hmem : key ∈ kept
    · rw [List.filter_cons_of_pos (hleads.mpr hmem), List.filter_cons_of_pos (by simpa using hmem)]
      exact .cons hroute ih
    · rw [List.filter_cons_of_neg (by rwa [hleads]), List.filter_cons_of_neg (by simpa using hmem)]
      exact ih

theorem mem_routed_iff (key : PartitionKey) :
    key ∈ keys ↔ ∃ row ∈ rows, routing.route columns row = .ok key := by
  induction hkeys with
  | nil => simp
  | @cons row first rows others hfirst hothers ih =>
    simp only [List.mem_cons, exists_eq_or_imp, ih, hfirst, Except.ok.injEq]
    exact or_congr_left eq_comm

end Routed

theorem exists_routed {columns : List String} {rows : List (List Cell)}
    (hroute : ∀ row ∈ rows, ∃ key, routing.route columns row = .ok key) :
    ∃ keys, List.Forall₂ (fun row key => routing.route columns row = .ok key) rows keys := by
  obtain ⟨keys, hkeys⟩ := Outcome.exists_mapM hroute
  exact ⟨keys, Outcome.mapM_eq_ok_iff.mp hkeys⟩

theorem bucketOf_eq {keys : List PartitionKey}
    (hkeys : List.Forall₂ (fun row key => routing.route batch.columns row = .ok key) batch.rows
      keys) (key : PartitionKey) : bucketOf batch keys key = ⟨key, routing.restrict [key] batch⟩ := by
  rw [bucketOf, restrict, filter_zip_eq hkeys]

/-- The buckets of a batch, each as the batch without the rows of other partitions. -/
theorem buckets_eq_ok_iff_restrict :
    routing.buckets batch = .ok buckets ↔ routing.validate = .ok () ∧ ∃ keys,
      List.Forall₂ (fun row key => routing.route batch.columns row = .ok key) batch.rows keys ∧
        buckets = keys.eraseDups.map fun key => ⟨key, routing.restrict [key] batch⟩ := by
  rw [buckets_eq_ok_iff]
  constructor
  · rintro ⟨hvalid, keys, hkeys, rfl⟩
    exact ⟨hvalid, keys, hkeys, List.map_congr_left fun key _ => bucketOf_eq hkeys key⟩
  · rintro ⟨hvalid, keys, hkeys, rfl⟩
    exact ⟨hvalid, keys, hkeys, List.map_congr_left fun key _ => (bucketOf_eq hkeys key).symm⟩

theorem restrict_restrict {kept : List PartitionKey} {key : PartitionKey} (hkey : key ∈ kept)
    (batch : Batch) :
    routing.restrict [key] (routing.restrict kept batch) = routing.restrict [key] batch := by
  simp only [restrict, List.filter_filter]
  congr 1
  apply List.filter_congr
  intro row _
  cases hroute : routing.route batch.columns row with
  | error failure => simp [leadsTo, hroute, Except.toOption]
  | ok found =>
    have hone := @leadsTo_iff routing _ [key] _ _ hroute
    have hmany := @leadsTo_iff routing _ kept _ _ hroute
    rw [Bool.eq_iff_iff, Bool.and_eq_true, hone, hmany, List.mem_singleton]
    constructor
    · exact And.left
    · rintro rfl
      exact ⟨rfl, hkey⟩

/-- The rows of the first partitions have just these for buckets. -/
theorem buckets_restrict {done rest : List Bucket}
    (hbuckets : routing.buckets batch = .ok (done ++ rest)) :
    routing.buckets (routing.restrict (done.map Bucket.key) batch) = .ok done := by
  have hnodup := keys_nodup hbuckets
  obtain ⟨hvalid, keys, hkeys, hsplit⟩ := buckets_eq_ok_iff_restrict.mp hbuckets
  have hall : keys.eraseDups = done.map Bucket.key ++ rest.map Bucket.key := by
    have hmapped := congrArg (List.map Bucket.key) hsplit
    rw [List.map_append, List.map_map] at hmapped
    have hid : Bucket.key ∘ (fun key => ⟨key, routing.restrict [key] batch⟩ : PartitionKey → Bucket) =
        id := rfl
    rw [hmapped, hid, List.map_id]
  have hdone : (keys.filter fun key => key ∈ done.map Bucket.key).eraseDups =
      done.map Bucket.key := by
    rw [eraseDups_filter, hall, List.filter_append, List.filter_eq_self.mpr (by simp),
      List.filter_eq_nil_iff.mpr, List.append_nil]
    intro key hkey hmem
    rw [List.map_append] at hnodup
    exact List.disjoint_of_nodup_append hnodup (by simpa using hmem) hkey
  refine buckets_eq_ok_iff_restrict.mpr
    ⟨hvalid, keys.filter fun key => key ∈ done.map Bucket.key, ?_, ?_⟩
  · exact forall₂_filter hkeys _
  · rw [hdone, List.map_map]
    conv_lhs => rw [← List.map_id done]
    apply List.map_congr_left
    intro bucket hbucket
    have hrow : bucket ∈ keys.eraseDups.map fun key =>
        (⟨key, routing.restrict [key] batch⟩ : Bucket) := by
      rw [← hsplit]
      exact List.mem_append_left _ hbucket
    obtain ⟨key, -, rfl⟩ := List.mem_map.mp hrow
    have hkept := @restrict_restrict routing (done.map Bucket.key) key
      (List.mem_map.mpr ⟨_, hbucket, rfl⟩) batch
    simp only [id_eq, Function.comp_apply, hkept]

/-- Rows that are rearranged but for the rows of each partition have the same buckets. -/
theorem buckets_perm {other : Batch} (hcolumns : other.columns = batch.columns)
    (hrows : other.rows.Perm batch.rows)
    (hkept : ∀ key, routing.restrict [key] other = routing.restrict [key] batch)
    (hbuckets : routing.buckets batch = .ok buckets) :
    ∃ others, routing.buckets other = .ok others ∧ others.Perm buckets := by
  obtain ⟨hvalid, keys, hkeys, rfl⟩ := buckets_eq_ok_iff_restrict.mp hbuckets
  have hroute : ∀ row ∈ other.rows, ∃ key, routing.route other.columns row = .ok key := by
    intro row hrow
    rw [hcolumns]
    exact Outcome.exists_of_mapM (Outcome.mapM_eq_ok_iff.mpr hkeys) (hrows.mem_iff.mp hrow)
  obtain ⟨otherKeys, hotherKeys⟩ := exists_routed hroute
  refine ⟨_, buckets_eq_ok_iff_restrict.mpr ⟨hvalid, otherKeys, hotherKeys, rfl⟩, ?_⟩
  simp only [hkept]
  apply List.Perm.map
  rw [List.perm_ext_iff_of_nodup (nodup_eraseDups _) (nodup_eraseDups _)]
  intro key
  rw [List.mem_eraseDups, List.mem_eraseDups, mem_routed_iff hotherKeys, mem_routed_iff hkeys]
  simp only [hrows.mem_iff, hcolumns]

end Routing

end TableAppend
