import TableAppend.Proofs.Append.Commit
import TableAppend.Proofs.Distinct

/-!
# Buckets

A batch is split by partition.  Each partition occurs once, and its bucket holds rows of the batch that
are routed to it.
-/

namespace TableAppend

namespace Routing

variable {routing : Routing} {batch : Batch} {buckets : List Bucket}

/-- The bucket of a partition, where `keys` are the partitions of the rows. -/
def bucketOf (batch : Batch) (keys : List PartitionKey) (key : PartitionKey) : Bucket :=
  ⟨key, { batch with rows := ((keys.zip batch.rows).filter (·.1 = key)).map Prod.snd }⟩

theorem buckets_eq_ok_iff :
    routing.buckets batch = .ok buckets ↔ routing.validate = .ok () ∧ ∃ keys,
      List.Forall₂ (fun row key => routing.route batch.columns row = .ok key) batch.rows keys ∧
        buckets = keys.eraseDups.map (bucketOf batch keys) := by
  rw [Routing.buckets, Outcome.bind_eq_ok_iff]
  constructor
  · rintro ⟨⟨⟩, hvalid, hrest⟩
    obtain ⟨keys, hkeys, hresult⟩ := Outcome.bind_eq_ok_iff.mp hrest
    exact ⟨hvalid, keys, Outcome.mapM_eq_ok_iff.mp hkeys, (Except.ok.inj hresult).symm⟩
  · rintro ⟨hvalid, keys, hkeys, rfl⟩
    exact ⟨(), hvalid, Outcome.bind_eq_ok_iff.mpr ⟨keys, Outcome.mapM_eq_ok_iff.mpr hkeys, rfl⟩⟩

/-- A routing either gives no row a partition of its own or gives each row one. -/
theorem route_eq_none_iff {columns : List String} {row : List Cell} {key : PartitionKey}
    (hroute : routing.route columns row = .ok key) : key = none ↔ routing.scheme = .none := by
  rw [route] at hroute
  cases hscheme : routing.scheme with
  | none =>
    rw [hscheme] at hroute
    exact ⟨fun _ => rfl, fun _ => (Except.ok.inj hroute).symm⟩
  | byColumn =>
    rw [hscheme] at hroute
    obtain ⟨column, -, hroute⟩ := Outcome.bind_eq_ok_iff.mp hroute
    obtain ⟨cell, -, hroute⟩ := Outcome.bind_eq_ok_iff.mp hroute
    split at hroute
    · contradiction
    · obtain ⟨segment, -, rfl⟩ := Outcome.map_eq_ok_iff.mp hroute
      simp
  | hash =>
    rw [hscheme] at hroute
    obtain ⟨column, -, hroute⟩ := Outcome.bind_eq_ok_iff.mp hroute
    obtain ⟨count, -, hroute⟩ := Outcome.bind_eq_ok_iff.mp hroute
    obtain ⟨cell, -, hroute⟩ := Outcome.bind_eq_ok_iff.mp hroute
    split at hroute
    · contradiction
    · obtain ⟨segment, -, rfl⟩ := Outcome.map_eq_ok_iff.mp hroute
      simp

theorem keys_nodup (hbuckets : routing.buckets batch = .ok buckets) :
    (buckets.map Bucket.key).Nodup := by
  obtain ⟨-, keys, -, rfl⟩ := buckets_eq_ok_iff.mp hbuckets
  rw [List.map_map]
  have hid : Bucket.key ∘ bucketOf batch keys = id := rfl
  rw [hid, List.map_id]
  exact nodup_eraseDups keys

/-- Two rows have the same partition, or partitions that lie apart. -/
theorem eq_or_apart_of_route {columns : List String} {first second : List Cell}
    {key other : PartitionKey} (hfirst : routing.route columns first = .ok key)
    (hsecond : routing.route columns second = .ok other) : key = other ∨ Job.Apart key other := by
  cases hkey : key with
  | none =>
    have hscheme := (route_eq_none_iff hfirst).mp hkey
    exact .inl ((route_eq_none_iff hsecond).mpr hscheme).symm
  | some segment =>
    cases hother : other with
    | none =>
      have hscheme := (route_eq_none_iff hsecond).mp hother
      exact absurd ((route_eq_none_iff hfirst).mpr hscheme) (by rw [hkey]; simp)
    | some another =>
      by_cases hsame : segment = another
      · exact .inl (congrArg some hsame)
      · exact .inr ⟨segment, another, rfl, rfl, hsame⟩

/-- What a bucket holds. -/
theorem mem_bucket (hbuckets : routing.buckets batch = .ok buckets) {bucket : Bucket}
    (hbucket : bucket ∈ buckets) :
    bucket.rows.columns = batch.columns ∧ bucket.rows.rows ≠ [] ∧
      ∀ row ∈ bucket.rows.rows, row ∈ batch.rows ∧
        routing.route batch.columns row = .ok bucket.key := by
  obtain ⟨-, keys, hkeys, rfl⟩ := buckets_eq_ok_iff.mp hbuckets
  obtain ⟨key, hkey, rfl⟩ := List.mem_map.mp hbucket
  have hpairs : ∀ pair ∈ keys.zip batch.rows, routing.route batch.columns pair.2 = .ok pair.1 := by
    rintro ⟨first, second⟩ hpair
    exact (List.forall₂_iff_zip.mp hkeys.flip).2 hpair
  have hlength := hkeys.length_eq
  refine ⟨rfl, ?_, ?_⟩
  · obtain ⟨index, hindex, hget⟩ := List.mem_iff_getElem.mp (List.mem_eraseDups.mp hkey)
    have hrow : index < batch.rows.length := hlength ▸ hindex
    have hpair : (key, batch.rows[index]) ∈ keys.zip batch.rows := by
      rw [List.mem_iff_getElem]
      refine ⟨index, by rw [List.length_zip]; omega, ?_⟩
      rw [List.getElem_zip, hget]
    apply List.ne_nil_of_mem
    exact List.mem_map.mpr ⟨_, List.mem_filter.mpr ⟨hpair, by simp⟩, rfl⟩
  · intro row hrow
    obtain ⟨pair, hpair, rfl⟩ := List.mem_map.mp hrow
    obtain ⟨hmem, hsame⟩ := List.mem_filter.mp hpair
    refine ⟨(List.of_mem_zip hmem).2, ?_⟩
    rw [hpairs pair hmem, of_decide_eq_true hsame]
    rfl

theorem wellFormed_bucket (hbatch : batch.WellFormed)
    (hbuckets : routing.buckets batch = .ok buckets) {bucket : Bucket} (hbucket : bucket ∈ buckets) :
    bucket.rows.WellFormed := by
  obtain ⟨hcolumns, -, hrows⟩ := mem_bucket hbuckets hbucket
  refine ⟨hcolumns ▸ hbatch.1, fun row hrow => ?_⟩
  rw [hcolumns]
  exact hbatch.2 row (hrows row hrow).1

theorem size_bucketOf {keys : List PartitionKey} (hlength : keys.length = batch.rows.length)
    (key : PartitionKey) :
    (bucketOf batch keys key).rows.size = keys.countP fun other => other = key := by
  have hfirst : (keys.zip batch.rows).map Prod.fst = keys := List.map_fst_zip hlength.le
  rw [bucketOf, Batch.size, List.length_map, ← List.countP_eq_length_filter]
  conv_rhs => rw [← hfirst, List.countP_map]
  rfl

/-- Each row of a batch stands in one bucket. -/
theorem sum_size_buckets (hbuckets : routing.buckets batch = .ok buckets) :
    (buckets.map fun bucket => bucket.rows.size).sum = batch.size := by
  obtain ⟨-, keys, hroutes, rfl⟩ := buckets_eq_ok_iff.mp hbuckets
  have hlength := hroutes.length_eq.symm
  have hperm : keys.eraseDups.Perm keys.dedup :=
    (List.perm_ext_iff_of_nodup (nodup_eraseDups keys) keys.nodup_dedup).mpr fun key => by simp
  have hsizes : (fun bucket => bucket.rows.size) ∘ bucketOf batch keys =
      fun key => keys.countP fun other => other = key := funext (size_bucketOf hlength)
  rw [List.map_map, hsizes, (hperm.map _).sum_eq, Batch.size, ← hlength]
  exact List.sum_map_count_dedup_eq_length keys

theorem bucket_key_eq_none_iff (hbuckets : routing.buckets batch = .ok buckets) {bucket : Bucket}
    (hbucket : bucket ∈ buckets) : bucket.key = none ↔ routing.scheme = .none := by
  obtain ⟨-, hne, hrows⟩ := mem_bucket hbuckets hbucket
  obtain ⟨row, rest, hcons⟩ := List.exists_cons_of_ne_nil hne
  exact route_eq_none_iff (hrows row (by rw [hcons]; exact List.mem_cons_self)).2

/-- The partitions of a batch do not lie in each other's directories. -/
theorem apart_buckets (hbuckets : routing.buckets batch = .ok buckets) :
    (buckets.map Bucket.key).Pairwise Job.Apart := by
  have hnodup := keys_nodup hbuckets
  have hkind := fun bucket hbucket => @bucket_key_eq_none_iff _ _ _ hbuckets bucket hbucket
  by_cases hscheme : routing.scheme = .none
  · have hall : ∀ key ∈ buckets.map Bucket.key, key = none := by
      intro key hkey
      obtain ⟨bucket, hbucket, rfl⟩ := List.mem_map.mp hkey
      exact (hkind bucket hbucket).mpr hscheme
    generalize buckets.map Bucket.key = keys at hnodup hall
    match keys, hnodup, hall with
    | [], _, _ => exact List.Pairwise.nil
    | [_], _, _ => exact List.pairwise_singleton _ _
    | first :: second :: rest, hnodup, hall =>
      have hfirst := hall first (by simp)
      have hsecond := hall second (by simp)
      simp [hfirst, hsecond] at hnodup
  · apply Job.apart_of_nodup hnodup
    right
    intro hmem
    obtain ⟨bucket, hbucket, hkey⟩ := List.mem_map.mp hmem
    exact hscheme ((hkind bucket hbucket).mp hkey)

theorem separate_buckets (hbuckets : routing.buckets batch = .ok buckets) (options : Options) :
    Job.Separate options (buckets.map Bucket.key) :=
  Job.separate_of_apart (apart_buckets hbuckets)

end Routing

end TableAppend
