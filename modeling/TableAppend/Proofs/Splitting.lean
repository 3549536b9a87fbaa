import TableAppend.Proofs.Append.Rearranging

/-!
# Splitting a batch

Buckets are a stable partition of the rows of a batch: `buckets_split`.  Each row stands in the bucket
of its partition, rows of one bucket keep their order, and the buckets come in the order in which their
partitions are first met.  A batch that cannot be split is refused for its routing, or else for the first
of its rows that has no partition.
-/

namespace TableAppend

namespace Routing

variable {routing : Routing} {batch : Batch} {buckets : List Bucket}

/-! ## The partition of one row -/

/-- The text of a row in a column, as routing sees it. -/
def textIn? (columns : List String) (row : List Cell) (column : String) : Option KeyPart :=
  (Batch.cell? columns row column).map Cell.canonical?

theorem column_of_required {column : String} (hrequired : routing.requiredColumn = .ok column) :
    routing.column = some column := by
  rw [requiredColumn] at hrequired
  split at hrequired
  · rename_i found hfound
    split at hrequired
    · contradiction
    · rw [hfound, Except.ok.inj hrequired]
  · contradiction

/-- Cells of the same text have the same hash. -/
theorem stableHash_congr {left right : Cell} (hsame : left.canonical? = right.canonical?) :
    left.stableHash = right.stableHash := by
  rw [Cell.stableHash, Cell.stableHash, Cell.fieldText, Cell.fieldText, hsame]

/-- Rows with the same text in a column have cells of this text there, or none at all. -/
theorem rowCell_of_textIn? {columns : List String} {first second : List Cell} {column : String}
    (hsame : textIn? columns first column = textIn? columns second column) :
    rowCell columns first column = rowCell columns second column ∨ ∃ left right,
      rowCell columns first column = .ok left ∧ rowCell columns second column = .ok right ∧
        left.canonical? = right.canonical? := by
  rw [textIn?, textIn?] at hsame
  rw [rowCell, rowCell]
  cases hfirst : Batch.cell? columns first column with
  | none =>
    rw [hfirst, Option.map_none, eq_comm, Option.map_eq_none_iff] at hsame
    exact .inl (by rw [hsame])
  | some left =>
    rw [hfirst, Option.map_some, eq_comm, Option.map_eq_some_iff] at hsame
    obtain ⟨right, hright, hcanonical⟩ := hsame
    exact .inr ⟨left, right, rfl, by rw [hright], hcanonical.symm⟩

/-- What depends only on the text of a cell is the same for rows with the same text. -/
theorem rowCell_bind_congr {columns : List String} {first second : List Cell} {column : String}
    {result : Type} {next : Cell → Outcome result}
    (hsame : textIn? columns first column = textIn? columns second column)
    (hnext : ∀ left right, left.canonical? = right.canonical? → next left = next right) :
    (rowCell columns first column >>= next) = rowCell columns second column >>= next := by
  rcases rowCell_of_textIn? hsame with hcell | ⟨left, right, hleft, hright, hcanonical⟩
  · rw [hcell]
  · rw [hleft, hright, Outcome.ok_bind, Outcome.ok_bind, hnext left right hcanonical]

/-- Rows with the same text in the partition column are routed alike, also where that fails. -/
theorem route_congr {columns : List String} {first second : List Cell}
    (hsame : ∀ column, routing.column = some column →
      textIn? columns first column = textIn? columns second column) :
    routing.route columns first = routing.route columns second := by
  rw [route, route]
  cases routing.scheme with
  | none => rfl
  | byColumn =>
    cases hrequired : routing.requiredColumn with
    | error failure => rfl
    | ok column =>
      simp only [Outcome.ok_bind]
      exact rowCell_bind_congr (hsame column (column_of_required hrequired))
        fun left right hcanonical => by rw [hcanonical]
  | hash =>
    cases hrequired : routing.requiredColumn with
    | error failure => rfl
    | ok column =>
      simp only [Outcome.ok_bind]
      congr 1
      funext count
      exact rowCell_bind_congr (hsame column (column_of_required hrequired))
        fun left right hcanonical => by rw [hcanonical, stableHash_congr hcanonical]

/-! ## All rows -/

/-- The rows of a partition, in the order of the batch. -/
def rowsIn (routing : Routing) (batch : Batch) (key : PartitionKey) : List (List Cell) :=
  batch.rows.filter fun row => routing.route batch.columns row = .ok key

/-- Buckets that split a batch by partition. -/
structure Splits (routing : Routing) (batch : Batch) (buckets : List Bucket) : Prop where
  nodup : (buckets.map Bucket.key).Nodup
  /-- Of two buckets the first one has a row before all rows of the second one. -/
  first_seen : buckets.Pairwise fun first second => ∃ before row after,
    batch.rows = before ++ row :: after ∧ routing.route batch.columns row = .ok first.key ∧
      ∀ other ∈ before, routing.route batch.columns other ≠ .ok second.key
  rows_eq : ∀ bucket ∈ buckets, bucket.rows = ⟨batch.columns, routing.rowsIn batch bucket.key⟩
  nonempty : ∀ bucket ∈ buckets, bucket.rows.rows ≠ []
  /-- No row is lost, and none comes in twice. -/
  perm : (buckets.flatMap fun bucket => bucket.rows.rows).Perm batch.rows
  unique : ∀ row ∈ batch.rows, ∃! bucket, bucket ∈ buckets ∧ row ∈ bucket.rows.rows
  /-- Rows with the same text in the partition column stay together. -/
  together : ∀ column, routing.column = some column → ∀ first ∈ batch.rows, ∀ second ∈ batch.rows,
    textIn? batch.columns first column = textIn? batch.columns second column →
      ∀ bucket ∈ buckets, first ∈ bucket.rows.rows → second ∈ bucket.rows.rows

theorem mem_rowsIn_iff {key : PartitionKey} {row : List Cell} :
    row ∈ routing.rowsIn batch key ↔
      row ∈ batch.rows ∧ routing.route batch.columns row = .ok key := by
  rw [rowsIn, List.mem_filter, decide_eq_true_eq]

theorem restrict_eq (key : PartitionKey) :
    routing.restrict [key] batch = ⟨batch.columns, routing.rowsIn batch key⟩ := by
  rw [restrict, rowsIn]
  congr 1
  refine List.filter_congr fun row _ => ?_
  rw [leadsTo]
  cases routing.route batch.columns row <;> simp [Except.toOption]

/-- The partitions of rows are a function of the rows. -/
theorem exists_keyOf {keys : List PartitionKey}
    (hroutes : List.Forall₂ (fun row key => routing.route batch.columns row = .ok key) batch.rows
      keys) : ∃ keyOf : List Cell → PartitionKey, batch.rows.map keyOf = keys ∧
        ∀ row ∈ batch.rows, routing.route batch.columns row = .ok (keyOf row) := by
  refine ⟨fun row => ((routing.route batch.columns row).toOption).getD none, ?_, fun row hrow => ?_⟩
  · rw [← List.forall₂_eq_eq_eq, List.forall₂_map_left_iff]
    exact hroutes.imp fun row key hroute => by rw [hroute]; rfl
  · obtain ⟨key, -, hroute⟩ := Outcome.exists_of_forall₂ hroutes.flip hrow
    simp only [hroute, Except.toOption, Option.getD_some]

section Keyed

variable {keyOf : List Cell → PartitionKey}
  (hroutes : ∀ row ∈ batch.rows, routing.route batch.columns row = .ok (keyOf row))

include hroutes

theorem rowsIn_eq (key : PartitionKey) :
    routing.rowsIn batch key = batch.rows.filter fun row => keyOf row == key := by
  refine List.filter_congr fun row hrow => ?_
  rw [hroutes row hrow, Bool.eq_iff_iff, decide_eq_true_eq, Except.ok.injEq, beq_iff_eq]

/-- Partitions that are met later have no row before the first row of those met earlier. -/
theorem first_seen_of_keys :
    ((batch.rows.map keyOf).eraseDups).Pairwise fun first second => ∃ before row after,
      batch.rows = before ++ row :: after ∧ routing.route batch.columns row = .ok first ∧
        ∀ other ∈ before, routing.route batch.columns other ≠ .ok second := by
  refine (pairwise_eraseDups _).imp ?_
  rintro first second ⟨beforeKeys, afterKeys, hkeys, hsecond⟩
  obtain ⟨before, rest, hrows, rfl, hrest⟩ := List.map_eq_append_iff.mp hkeys
  obtain ⟨row, after, rfl, rfl, -⟩ := List.map_eq_cons_iff.mp hrest
  refine ⟨before, row, after, hrows, hroutes row (by simp [hrows]), fun other hother hroute => ?_⟩
  rw [hroutes other (by simp [hrows, hother]), Except.ok.injEq] at hroute
  exact hsecond (hroute ▸ List.mem_map_of_mem hother)

end Keyed

theorem splits_of_buckets (hbuckets : routing.buckets batch = .ok buckets) :
    Splits routing batch buckets := by
  have hnodup := keys_nodup hbuckets
  have hmem := fun bucket hbucket => @mem_bucket _ _ _ hbuckets bucket hbucket
  obtain ⟨-, keys, hkeys, hresult⟩ := buckets_eq_ok_iff_restrict.mp hbuckets
  obtain ⟨keyOf, rfl, hroutes⟩ := exists_keyOf hkeys
  simp only [restrict_eq] at hresult
  have hrows : ∀ bucket ∈ buckets, bucket.rows = ⟨batch.columns, routing.rowsIn batch bucket.key⟩ := by
    rw [hresult, List.forall_mem_map]
    exact fun key _ => rfl
  refine ⟨hnodup, ?_, hrows, fun bucket hbucket => (hmem bucket hbucket).2.1, ?_, ?_, ?_⟩
  · rw [hresult, List.pairwise_map]
    exact first_seen_of_keys hroutes
  · rw [hresult, List.flatMap_map]
    simp only [rowsIn_eq hroutes]
    exact perm_flatMap_filter keyOf batch.rows
  · intro row hrow
    refine ⟨⟨keyOf row, batch.columns, routing.rowsIn batch (keyOf row)⟩, ⟨?_, ?_⟩, ?_⟩
    · rw [hresult]
      exact List.mem_map_of_mem (List.mem_eraseDups.mpr (List.mem_map_of_mem hrow))
    · exact mem_rowsIn_iff.mpr ⟨hrow, hroutes row hrow⟩
    · rintro ⟨key, rows⟩ ⟨hbucket, hin⟩
      have hroute := ((hmem _ hbucket).2.2 row hin).2
      rw [hroutes row hrow, Except.ok.injEq] at hroute
      obtain rfl : keyOf row = key := hroute
      exact congrArg _ (hrows _ hbucket)
  · intro column hcolumn first hfirst second hsecond htext bucket hbucket hin
    have hroute : routing.route batch.columns first = routing.route batch.columns second :=
      route_congr fun other hother => by
        obtain rfl := Option.some.inj (hcolumn.symm.trans hother)
        exact htext
    rw [hrows bucket hbucket, mem_rowsIn_iff] at hin ⊢
    exact ⟨hsecond, hroute ▸ hin.2⟩

/-- Splitting a batch fails exactly with the fault of the routing, or else with that of the first row
that has no partition; otherwise the buckets are a stable partition of its rows. -/
theorem buckets_split (routing : Routing) (batch : Batch) :
    (∀ failure, routing.buckets batch = .error failure ↔
      routing.validate = .error failure ∨ routing.validate = .ok () ∧ ∃ before row after,
        batch.rows = before ++ row :: after ∧
          (∀ earlier ∈ before, ∃ key, routing.route batch.columns earlier = .ok key) ∧
            routing.route batch.columns row = .error failure) ∧
      ∀ buckets, routing.buckets batch = .ok buckets → Splits routing batch buckets := by
  refine ⟨fun failure => ?_, fun buckets => splits_of_buckets⟩
  rw [Routing.buckets]
  cases hvalid : routing.validate with
  | error found => simp
  | ok value =>
    rw [Outcome.ok_bind, ← Outcome.mapM_eq_error_iff]
    cases batch.rows.mapM (routing.route batch.columns) <;> simp

/-- Three rows of two regions: the region that is met first comes first, and its rows stay in order. -/
theorem buckets_split_of_two_regions :
    let batch : Batch := ⟨["id", "region"], [[.int 1, .text "us"], [.int 2, .text "eu"],
      [.int 3, .text "us"]]⟩
    ∃ buckets, (byColumn "region").buckets batch = .ok buckets ∧
      buckets.map (fun bucket => (bucket.key.display, bucket.rows.rows)) =
        [("region=us", [[.int 1, .text "us"], [.int 3, .text "us"]]),
          ("region=eu", [[.int 2, .text "eu"]])] ∧
      Splits (byColumn "region") batch buckets := by
  intro batch
  obtain ⟨buckets, hbuckets, hrows⟩ : ∃ buckets, (byColumn "region").buckets batch = .ok buckets ∧
      buckets.map (fun bucket => (bucket.key.display, bucket.rows.rows)) =
        [("region=us", [[.int 1, .text "us"], [.int 3, .text "us"]]),
          ("region=eu", [[.int 2, .text "eu"]])] := ⟨_, rfl, by decide⟩
  exact ⟨buckets, hbuckets, hrows, (buckets_split _ batch).2 buckets hbuckets⟩

end Routing

end TableAppend
