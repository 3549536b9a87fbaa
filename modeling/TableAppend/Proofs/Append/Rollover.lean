import TableAppend.Proofs.Append.Growth
import TableAppend.Proofs.Append.Runs

/-!
# Rollover over many appends

With a limit on its files, a partition's family fills up member by member: every member but the last
is full and is not touched again, and the last one is active.  This needs a directory that can be
searched; where it cannot, the base file stays the active one.
-/

namespace TableAppend

open Change (run)
open Family (Base Holds)
open World (SameBelow)

/-! ## Members that are left alone -/

/-- A member and its metadata file are the same before and after. -/
structure Family.Untouched (base : Base) (before after : FileTree) (number : ℕ) : Prop where
  data : after.get? (base.member number).location = before.get? (base.member number).location
  metadata : after.get? (Metadata.path (base.member number)).location =
    before.get? (Metadata.path (base.member number)).location

namespace Family.Untouched

variable {base : Base} {number : ℕ}

theorem refl (tree : FileTree) : Untouched base tree tree number :=
  ⟨rfl, rfl⟩

theorem trans {first second third : FileTree} (hfirst : Untouched base first second number)
    (hsecond : Untouched base second third number) : Untouched base first third number :=
  ⟨hsecond.data.trans hfirst.data, hsecond.metadata.trans hfirst.metadata⟩

theorem of_sameBelow {before after : World} (hsame : SameBelow base.place before after) :
    Untouched base before.tree after.tree number :=
  ⟨hsame.get?_eq _ (base.member_liesIn number).prefix_location,
    hsame.get?_eq _ (Path.liesIn_metadata (base.member_liesIn number)).prefix_location⟩

/-- A member that is left alone stays full. -/
theorem isFull {job : Job} {before after : World} {count : ℕ}
    (huntouched : Untouched base before.tree after.tree number)
    (hholds : Holds before.tree base count) (hnumber : number < count)
    (hbefore : before.tree.WellFormed) (hafter : after.tree.WellFormed)
    (hledger : before.ledger = none) (hledgerAfter : after.ledger = none)
    (hfull : job.IsFull before (base.member number)) : job.IsFull after (base.member number) := by
  obtain ⟨hreachable, hreachableMetadata⟩ := hholds.reachable number hnumber
  obtain ⟨content, hnode, hget⟩ := hholds.node?_member hbefore hnumber
  have hlies := base.member_liesIn number
  have hnodeAfter : after.tree.node? (base.member number) = some (.file content) := by
    rw [FileTree.node?_eq_file_iff hafter hlies.1, huntouched.data, base.location_member]
    exact ⟨hreachable, hget⟩
  have hmetadata : after.tree.node? (Metadata.path (base.member number)) =
      before.tree.node? (Metadata.path (base.member number)) := by
    have hdescends := (Path.liesIn_metadata hlies).1
    apply Option.ext
    intro node
    rw [FileTree.node?_eq_some_iff hafter hdescends, FileTree.node?_eq_some_iff hbefore hdescends,
      huntouched.metadata]
  apply hfull.congr hnode hnodeAfter
  rw [World.metadata, World.metadata, hledger, hledgerAfter]
  exact World.storedMetadata_congr hmetadata

end Family.Untouched

theorem Job.Grows.untouched {job : Job} {base : Base} {listed : Path} {count number : ℕ}
    {world after : World} {prepared : Prepared} {content : Content} {metadata : Metadata}
    (hgrows : job.Grows base listed count world after prepared number content metadata)
    (hplace : job.options.place prepared.key = base.place) {other : ℕ} (hother : other ≠ number) :
    Family.Untouched base world.tree after.tree other := by
  have hapart : ∀ ending ∈ Family.endings, ∀ last ∈ Family.endings,
      base.memberName other ++ ending ≠ base.memberName number ++ last := by
    intro ending hending last hlast hsame
    exact hother (base.memberName_append_injective hending hlast hsame).1
  have hothers := hgrows.written.others
  rw [hplace] at hothers
  constructor
  · rw [base.location_member]
    apply hothers
    intro ending hending
    have hempty := hapart "" (by decide) ending hending
    rwa [String.append_empty] at hempty
  · rw [base.location_metadata_member]
    exact hothers _ (hapart _ (by decide))

/-! ## One append -/

/-- A family of so many members of which all but the last are full. -/
structure Job.Rolled (job : Job) (base : Base) (world : World) (count : ℕ) : Prop where
  holds : Holds world.tree base count
  full : ∀ number, number + 1 < count → job.IsFull world (base.member number)

namespace Job.Rolled

variable {job : Job} {base : Base} {count : ℕ} {world after : World}
  (hworld : world.tree.WellFormed) (hafter : after.tree.WellFormed)

include hworld hafter

theorem congr (hledger : world.ledger = none) (hsame : SameBelow base.place world after)
    (hrolled : job.Rolled base world count) : job.Rolled base after count := by
  refine ⟨hrolled.holds.congr hsame, ?_⟩
  intro number hnumber
  exact (Family.Untouched.of_sameBelow hsame).isFull hrolled.holds (by omega) hworld hafter hledger
    (hsame.ledger_eq_none base.liesIn hledger) (hrolled.full number hnumber)

/-- With limits, rows go to the last member or to a new one that comes after a full one. -/
theorem step (hlimits : job.options.limits.isEnabled = true) (hledger : world.ledger = none)
    (hrolled : job.Rolled base world count) {listed : Path} {prepared : Prepared} {number : ℕ}
    {content : Content} {metadata : Metadata}
    (hgrows : job.Grows base listed count world after prepared number content metadata)
    (hplace : job.options.place prepared.key = base.place) :
    job.Rolled base after (max count (number + 1)) ∧ count ≤ number + 1 := by
  have hkept : ∀ other, other < number → other + 1 < count → job.IsFull after (base.member other) := by
    intro other hother hbelow
    exact (hgrows.untouched hplace (by omega)).isFull hrolled.holds (by omega) hworld hafter hledger
      hgrows.written.ledger (hrolled.full other hbelow)
  have hholds := hgrows.holds
  cases hgrows.chooses with
  | first hcount => exact ⟨⟨hholds, fun other hother => by omega⟩, by omega⟩
  | unlimited hcount hunlimited =>
    rw [hlimits] at hunlimited
    cases hunlimited
  | last hcount hlimits hroom =>
    refine ⟨⟨hholds, ?_⟩, by omega⟩
    intro other hother
    exact hkept other (by omega) (by omega)
  | next hcount hlimits hfull =>
    refine ⟨⟨hholds, ?_⟩, by omega⟩
    intro other hother
    by_cases hlast : other = count - 1
    · rw [hlast]
      exact (hgrows.untouched hplace (by omega)).isFull hrolled.holds (by omega) hworld hafter
        hledger hgrows.written.ledger hfull
    · exact hkept other (by omega) (by omega)

end Job.Rolled

section Runs

variable {appender : Appender} {options : Options} {name : String}
  (hname : options.target.fileName? = some name) (htarget : options.target.Descends)
  (hextension : options.target.extension? ≠ some Metadata.extension)
  (hlimits : options.limits.isEnabled = true) {format : Format}
  (hformat : options.effectiveFormat = .ok format) {key : PartitionKey}
  (hkind : key = none ↔ options.routing.scheme = .none) {listed : Path}
  (hlisted : (options.basePath key).directory.listed? = some listed)

include hextension hlimits hformat hkind hlisted

end Runs

/-! ## The family between appends -/

/-- A file holds what writing only these rows to a new file makes. -/
def Medium.HoldsOnly (medium : Medium) (rows : Batch) (content : Content) : Prop :=
  match medium with
  | .delimited dialect => content = .bytes (Delimited.newBytes dialect rows)
  | .columnar codec => ∃ present, codec = some present ∧ present.save [] rows = .ok (content, none)

namespace Job

/-- The rows of a bucket go to the last member while it has room, and else to a new member that holds
nothing but them. -/
structure Continues (job : Job) (base : Base) (world after : World) (last : ℕ) (bucket : Bucket)
    (prepared : Prepared) : Prop where
  room : ¬ job.IsFull world (base.member last) →
    prepared.path.location = (base.member last).location
  full : job.IsFull world (base.member last) → prepared.path = base.member (last + 1) ∧
    ∃ content, after.tree.get? (base.member (last + 1)).location = some (.file content) ∧
      job.medium.HoldsOnly prepared.survivors content
  rows : ∀ row ∈ prepared.survivors.rows, row ∈ (job.medium.storedForm bucket.rows).rows

end Job

section Continuing

variable {appender : Appender} {options : Options} {name : String}
  (hname : options.target.fileName? = some name) (htarget : options.target.Descends)
  (hextension : options.target.extension? ≠ some Metadata.extension)
  (hlimits : options.limits.isEnabled = true) {format : Format}
  (hformat : options.effectiveFormat = .ok format) {key : PartitionKey}
  (hkind : key = none ↔ options.routing.scheme = .none) {listed : Path}
  (hlisted : (options.basePath key).directory.listed? = some listed)

include hextension hlimits hformat hkind hlisted

end Continuing

end TableAppend
