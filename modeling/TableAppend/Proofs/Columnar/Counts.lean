import TableAppend.Proofs.Append.Layouts
import TableAppend.Proofs.Columnar.Encoding
import TableAppend.Proofs.World.Transfer

/-!
# How many rows a columnar file has

A columnar file is written as a whole, from the rows that it had and those that come to it, and the
number of all of them is recorded.  Decoding the file counts the same rows.
-/

namespace TableAppend

/-- A codec that may fail, but otherwise has saved the table of the rows that it was given, in whatever
bytes. -/
def Codec.Faithful (codec : Codec) : Prop :=
  ∀ schema rows content, codec.save schema rows = .ok (content, none) →
    ∃ table encoded, Table.encode schema rows = .ok table ∧ content = .table ⟨table, encoded⟩

theorem Codec.faithful_standard {encoding : Table → Bytes} : (Codec.standard encoding).Faithful := by
  intro schema rows content hsave
  obtain ⟨table, htable, hcontent⟩ := save_standard_eq_ok_iff.mp hsave
  exact ⟨table, encoding table, htable, hcontent⟩

/-- A table from which this many rows are decoded. -/
def Table.HasRows (table : Table) (count : ℕ) : Prop :=
  ∃ rows, table.decode = .ok rows ∧ rows.size = count

namespace Table.HasRows

variable {table : Table} {count other : ℕ}

theorem unique (hcount : table.HasRows count) (hother : table.HasRows other) : count = other := by
  obtain ⟨rows, hrows, rfl⟩ := hcount
  obtain ⟨found, hfound, rfl⟩ := hother
  rw [Except.ok.inj (hrows.symm.trans hfound)]

theorem size_eq (hcount : table.HasRows count) : table.size = count := by
  obtain ⟨rows, hrows, rfl⟩ := hcount
  rw [decode, decodeAll, List.flatMap_singleton] at hrows
  obtain ⟨-, rfl⟩ := Batch.ofRows_eq_ok_iff.mp hrows
  exact (size_rows table).symm

end Table.HasRows

namespace Columnar

variable {tree : FileTree} {path : Path} {table : Table} {count : ℕ}

theorem countRows_recorded (tree : FileTree) (codec : Option Codec) (path : Path)
    (recorded : UInt64) :
    countRows tree codec path (some (.columnar recorded)) = .ok recorded.toNat :=
  rfl

/-- Without a recorded number the rows of a file are counted by decoding it. -/
theorem countRows_of_hasRows {encoded : Bytes}
    (hnode : tree.node? path = some (.file (.table ⟨table, encoded⟩)))
    (hcount : table.HasRows count) (codec : Codec) :
    countRows tree (some codec) path none = .ok count := by
  have hread : readTable tree path = .ok table := readTable_of_node? hnode
  have hsize := hcount.size_eq
  obtain ⟨rows, hrows, -⟩ := hcount
  have hcounted : countRows tree (some codec) path none =
      readTable tree path >>= fun table => table.decode >>= fun _ => .ok table.size := rfl
  rw [hcounted, hread, Outcome.ok_bind, hrows, Outcome.ok_bind, hsize]

end Columnar

/-! ## Rows that are written -/

/-- A job that writes columnar files, with a codec that either fails or saves tables. -/
structure Job.SavesTables (job : Job) : Prop where
  mode : job.mode = .real
  medium : ∃ codec, job.medium = .columnar codec ∧
    ∀ present, codec = some present → present.Faithful

/-- The rows of a new file are those that are written, and to the rows of another file they are added. -/
theorem Job.hasRows_of_stores {job : Job} (hjob : job.SavesTables) {world : World} {bucket : Bucket}
    (hbucket : bucket.rows.columns.Nodup) {prepared : Prepared}
    (hprepared : job.prepare world bucket = .ok prepared) {tree : FileTree} {content : Content}
    {metadata : Metadata} (hstores : job.medium.Stores tree prepared.path prepared.survivors
      prepared.layout content metadata) :
    ∃ table encoded count, content = .table ⟨table, encoded⟩ ∧ table.HasRows count ∧
      metadata = .columnar (UInt64.ofNat count) ∧
        (prepared.present = false ∧ count = prepared.survivors.size ∨
          ∃ old kept before, world.tree.node? prepared.path = some (.file (.table ⟨old, kept⟩)) ∧
            old.HasRows before ∧ count = before + prepared.survivors.size) := by
  obtain ⟨codec, hmedium, hcodec⟩ := hjob.medium
  obtain ⟨hcolumns, -, hnew⟩ := fits_of_prepare hjob.mode hprepared
  rw [hmedium] at hstores
  obtain ⟨present, all, schema, rfl, hall, -, hsave, rfl⟩ := hstores
  obtain ⟨table, encoded, htable, rfl⟩ := hcodec present rfl schema all content hsave
  have hdecoded (hnodup : all.columns.Nodup) : table.HasRows all.size := by
    obtain ⟨rows, hrows, hsize, -⟩ := Table.exists_decoded_of_encode htable hnodup
    exact ⟨rows, hrows, hsize⟩
  cases hpresent : prepared.present with
  | false =>
    rw [hnew hpresent] at hall
    obtain rfl : prepared.survivors = all := Except.ok.inj hall
    exact ⟨table, encoded, _, rfl, hdecoded (hcolumns ▸ hbucket), rfl, .inl ⟨rfl, rfl⟩⟩
  | true =>
    obtain ⟨metadata, -, hcheck⟩ := check_of_prepare hjob.mode hprepared hpresent
    rw [hmedium] at hcheck
    obtain ⟨-, -, old, hold, stored, hstored, -, -, hlayout⟩ := Columnar.check_eq_ok_iff.mp hcheck
    rw [hlayout] at hall
    obtain ⟨ordered, hordered, hresult⟩ := Outcome.bind_eq_ok_iff.mp hall
    obtain ⟨-, rfl⟩ := Batch.project_eq_ok_iff.mp hordered
    have hsame : all = ⟨stored.columns, stored.rows ++ prepared.survivors.rowsUnder stored.columns⟩ :=
      (Except.ok.inj hresult).symm
    have hnodup : all.columns.Nodup := by
      rw [hsame]
      obtain ⟨hwellFormed, rfl⟩ := Batch.ofRows_eq_ok_iff.mp hstored
      exact hwellFormed.1
    obtain ⟨kept, hnode⟩ := Columnar.exists_node?_of_readTable hold
    refine ⟨table, encoded, _, rfl, hdecoded hnodup, rfl, .inr ⟨old, kept, stored.size,
      hnode, ⟨stored, hstored, rfl⟩, ?_⟩⟩
    · rw [hsame, Batch.size, List.length_append, Batch.rowsUnder, List.length_map]
      rfl

end TableAppend
