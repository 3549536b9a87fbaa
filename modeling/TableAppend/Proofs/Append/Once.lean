import TableAppend.Proofs.Append.Failing
import TableAppend.Proofs.Append.Repeating

/-!
# Rows that are stored once

An anti-join against the whole family stores every key once.  Each append adds to the tables of a
partition the keys that are not there, so that after any run of appends the members hold exactly the
keys that were sent, and an append that is repeated finds nothing to write.
-/

namespace TableAppend

open Batch (keyOn keysOn)
open Change (run)

/-! ## Appends that write nothing -/

namespace Routing

variable {routing : Routing} {column : String} (hcolumn : routing.column = some column)

include hcolumn

end Routing

namespace Batch

end Batch

/-- Options under which delimited files are written and rows are dropped whose keys the family has. -/
structure Options.DropsStored (options : Options) (dialect : Dialect) (keys : List String) :
    Prop where
  format : options.effectiveFormat = .ok (.delimited dialect)
  valid : dialect.validate = .ok ()
  join : options.antiJoin = ⟨true, keys, false, .family⟩
  keys : keys ≠ []

/-- A call under these options, or under others with different limits, with rows that have keys.  No
two rows of a partition have the same key. -/
structure Options.Sends (options : Options) (keys : List String) (call : Options × Batch) :
    Prop where
  options_eq : ∃ limits, call.1 = { options with limits }
  keyed : call.2.Keyed keys
  distinct : ∀ buckets, options.routing.buckets call.2 = .ok buckets → ∀ bucket ∈ buckets,
    ((Delimited.storedForm bucket.rows).keysOn keys).Nodup

theorem Options.Sends.exists_eq {options : Options} {keys : List String} {call : Options × Batch}
    (hsends : options.Sends keys call) :
    ∃ limits batch, call = ({ options with limits }, batch) := by
  obtain ⟨limits, hlimits⟩ := hsends.options_eq
  exact ⟨limits, call.2, Prod.ext hlimits rfl⟩

theorem Options.Sends.routing_eq {options : Options} {keys : List String} {call : Options × Batch}
    (hsends : options.Sends keys call) : call.1.routing = options.routing := by
  obtain ⟨limits, hlimits⟩ := hsends.options_eq
  rw [hlimits]

theorem Options.Sends.place_eq {options : Options} {keys : List String} {call : Options × Batch}
    (hsends : options.Sends keys call) (key : PartitionKey) : call.1.place key = options.place key := by
  obtain ⟨limits, hlimits⟩ := hsends.options_eq
  rw [hlimits]
  rfl

theorem Routing.keyed_bucket {routing : Routing} {batch : Batch} {buckets : List Bucket}
    (hbuckets : routing.buckets batch = .ok buckets) {bucket : Bucket} (hbucket : bucket ∈ buckets)
    {keys : List String} (hkeyed : batch.Keyed keys) : bucket.rows.Keyed keys := by
  obtain ⟨hcolumns, -, hrows⟩ := mem_bucket hbuckets hbucket
  refine ⟨⟨hcolumns ▸ hkeyed.wellFormed.1, fun row hrow => ?_⟩, hcolumns ▸ hkeyed.columns,
    hcolumns ▸ hkeyed.unmarked⟩
  rw [hcolumns]
  exact hkeyed.wellFormed.2 row (hrows row hrow).1

/-- Tables have exactly the keys of the rows that were sent to them, each once. -/
structure Family.StoresOnce (keys : List String) (tables : List Batch)
    (done : List (Bucket × Prepared)) : Prop where
  nodup : (tables.flatMap (keysOn keys)).Nodup
  mem_iff : ∀ key, key ∈ tables.flatMap (keysOn keys) ↔
    ∃ each ∈ done, key ∈ (Delimited.storedForm each.1.rows).keysOn keys

/-- Keys that come to the tables only if they are not there are stored once. -/
theorem Family.StoresOnce.add {keys : List String} {tables others : List Batch}
    {done : List (Bucket × Prepared)} (honce : StoresOnce keys tables done) {bucket : Bucket}
    {prepared : Prepared} (hdistinct : ((Delimited.storedForm bucket.rows).keysOn keys).Nodup)
    (hperm : (others.flatMap (keysOn keys)).Perm (tables.flatMap (keysOn keys) ++
      ((Delimited.storedForm bucket.rows).keysOn keys).filter fun key =>
        !(tables.flatMap (keysOn keys)).contains key)) :
    StoresOnce keys others (done ++ [(bucket, prepared)]) := by
  constructor
  · rw [hperm.nodup_iff, List.nodup_append']
    refine ⟨honce.nodup, hdistinct.filter _, fun key hold hnew => ?_⟩
    have hfresh := (List.mem_filter.mp hnew).2
    simp [hold] at hfresh
  · intro key
    rw [hperm.mem_iff, List.mem_append, List.mem_filter, honce.mem_iff]
    constructor
    · rintro (⟨each, heach, hkey⟩ | ⟨hkey, -⟩)
      · exact ⟨each, List.mem_append_left _ heach, hkey⟩
      · exact ⟨_, List.mem_append_right _ List.mem_cons_self, hkey⟩
    · rintro ⟨each, heach, hkey⟩
      rcases List.mem_append.mp heach with hbefore | hnow
      · exact .inl ⟨each, hbefore, hkey⟩
      · rw [List.mem_singleton] at hnow
        rw [hnow] at hkey
        by_cases hold : key ∈ tables.flatMap (keysOn keys)
        · exact .inl ((honce.mem_iff key).mp hold)
        · exact .inr ⟨hkey, by simpa using hold⟩

section Storing

variable {appender : Appender} {options : Options} {name : String}
  (hname : options.target.fileName? = some name) (htarget : options.target.Descends)
  (hextension : options.target.extension? ≠ some Metadata.extension) {dialect : Dialect}
  {keys : List String} (hoptions : options.DropsStored dialect keys)

include hoptions in
theorem Options.Sends.dropsStored {call : Options × Batch} (hsends : options.Sends keys call)
    {format : Format} (hformat : call.1.effectiveFormat = .ok format) :
    (appender.job call.1 format .real).DropsStored dialect keys := by
  obtain ⟨limits, hcall⟩ := hsends.options_eq
  have hmedium : format = .delimited dialect := by
    rw [hcall] at hformat
    exact (Except.ok.inj (hoptions.format.symm.trans hformat)).symm
  refine ⟨rfl, ?_, hoptions.valid, ?_, hoptions.keys⟩
  · rw [hmedium]
    rfl
  · rw [hcall]
    exact hoptions.join

include hextension hoptions

/-- After every run the tables of a partition have the keys that were sent to it, each once. -/
theorem Appender.Runs.exists_tables {calls : List (Options × Batch)}
    (hcalls : ∀ call ∈ calls, options.Sends keys call) (hcount : calls.length ≤ UInt64.size)
    {done : List (Bucket × Prepared)} {world : World}
    (hruns : appender.Runs ⟨.empty, none⟩ calls done world) {key : PartitionKey}
    (hkind : key = none ↔ options.routing.scheme = .none) {listed : Path}
    (hlisted : (options.basePath key).directory.listed? = some listed) :
    world.tree.WellFormed ∧ world.ledger = none ∧ ∃ tables, tables.length ≤ calls.length ∧
      Family.HoldsTables dialect keys world.tree (options.family hname htarget key) tables ∧
        Family.StoresOnce keys tables (done.filter fun each => each.1.key = key) := by
  have hbaseExtension : (options.basePath key).extension? ≠ some Metadata.extension := by
    rw [Options.extension?_basePath hname]
    exact hextension
  refine @Appender.Runs.at_key _ _ _ _ _ _ _ hname htarget _ hkind FileTree.wellFormed_empty rfl
    (fun call hcall => (hcalls call hcall).options_eq) hruns
    (fun count world done => ∃ tables, tables.length ≤ count ∧
      Family.HoldsTables dialect keys world.tree (options.family hname htarget key) tables ∧
        Family.StoresOnce keys tables done) ?_ ?_ ?_ ?_
  · refine ⟨[], Nat.le_refl _, Family.HoldsTables.nil fun name => ?_, ⟨List.nodup_nil, by simp⟩⟩
    exact FileTree.get?_empty (List.append_ne_nil_of_right_ne_nil _ (List.cons_ne_nil _ _))
  · rintro count world done ⟨tables, hlength, hrest⟩
    exact ⟨tables, by omega, hrest⟩
  · rintro count before after done - - - hsame ⟨tables, hlength, hheld, honce⟩
    exact ⟨tables, hlength, hheld.congr hsame, honce⟩
  · rintro count call tree format buckets bucket prepared before after done hlt hcall hreaches hbucket
      rfl hbefore hledger hprepared hcommit ⟨tables, hlength, hheld, honce⟩
    have hsends := hcalls call hcall
    have hjob := @Options.Sends.dropsStored appender _ _ _ hoptions _ hsends _ hreaches.format
    obtain ⟨limits, batch, rfl⟩ := hsends.exists_eq
    obtain ⟨others, hothers, hheldAfter, hperm⟩ := @Job.exists_tables_of_commit
      (appender.job { options with limits } format .real) name hname htarget dialect keys hjob bucket
      listed hlisted hbaseExtension (Routing.keyed_bucket hreaches.routed hbucket hsends.keyed) before
      after hbefore hledger tables (by omega) hheld prepared hprepared _ hcommit
    exact ⟨others, by omega, hheldAfter,
      honce.add (hsends.distinct buckets hreaches.routed bucket hbucket) hperm⟩

section Again

variable (hlisted : options.baseDirectory.listed?.isSome = true) {calls : List (Options × Batch)}
  (hcalls : ∀ call ∈ calls, options.Sends keys call) (hcount : calls.length ≤ UInt64.size)
  {done : List (Bucket × Prepared)} {world : World}
  (hruns : appender.Runs ⟨.empty, none⟩ calls done world) {call : Options × Batch}
  (hsends : options.Sends keys call)

include hname htarget hlisted hcalls hruns hsends

end Again

end Storing

section Keys

variable {appender : Appender} {options : Options} {keys : List String}
  {calls : List (Options × Batch)} (hcalls : ∀ call ∈ calls, options.Sends keys call)
  {done : List (Bucket × Prepared)} {world after : World} (hruns : appender.Runs world calls done after)

include hcalls hruns

end Keys

end TableAppend
