import TableAppend.Proofs.Append.Commit
import TableAppend.Proofs.Append.Layouts

/-!
# Growing families

Rows of a partition go to a member of its family that has room, or to a new member with the next
number.  Either way the family stays without gaps: `Holds.grow` is the step that runs of appends repeat.
-/

namespace TableAppend

open Change (run)
open Family (Base Holds endings)
open FileTree (Reachable)
open TableAppend.Path (IsName LiesIn)
open World (SameBelow)

/-! ## The family of a partition -/

/-- The base file of a partition with its place. -/
def Options.family (options : Options) {name : String}
    (hname : options.target.fileName? = some name) (htarget : options.target.Descends)
    (key : PartitionKey) : Base where
  path := options.basePath key
  place := options.place key
  name := name
  descends := (options.basePath_liesIn hname htarget key).1
  fileName?_eq := options.fileName?_basePath hname key
  location_eq := by
    obtain ⟨-, other, hother, hlocation⟩ := options.basePath_liesIn hname htarget key
    rw [options.fileName?_basePath hname, Option.some.injEq] at hother
    rw [hlocation, hother]

namespace Family

theorem Holds.of_get?_eq {base : Base} {count : ℕ} {before after : FileTree}
    (hget : ∀ name, after.get? (base.place ++ [name]) = before.get? (base.place ++ [name]))
    (hholds : Holds before base count) : Holds after base count := by
  refine ⟨?_, ?_, ?_, hholds.reachable⟩
  · intro name
    rw [hget]
    exact hholds.occupied name
  · intro number hnumber
    rw [hget]
    exact hholds.data number hnumber
  · intro number hnumber
    rw [hget]
    exact hholds.metadata number hnumber

theorem Holds.congr {base : Base} {count : ℕ} {before after : World}
    (hsame : SameBelow base.place before after) (hholds : Holds before.tree base count) :
    Holds after.tree base count :=
  hholds.of_get?_eq fun _ => hsame.get?_eq _ (List.prefix_append _ _)

/-- Nothing is there before a family has its base file. -/
theorem holds_zero {tree : FileTree} {base : Base}
    (hnone : ∀ name, tree.get? (base.place ++ [name]) = none) : Holds tree base 0 := by
  refine ⟨?_, ?_, ?_, ?_⟩
  · intro name hsome
    rw [hnone] at hsome
    contradiction
  all_goals
    intro number hnumber
    exact absurd hnumber (Nat.not_lt_zero _)

/-- A family to which a member is added, or one of whose members is written, has no gap after that. -/
theorem Holds.grow {before after : FileTree} {base : Base} {count number : ℕ} {content : Content}
    {metadata : Metadata} (hholds : Holds before base count) (hnumber : number ≤ count)
    (hreachable : Reachable (base.member number) ∧ Reachable (Metadata.path (base.member number)))
    (hdata : after.get? (base.place ++ [base.memberName number]) = some (.file content))
    (hmetadata : after.get? (base.place ++ [base.memberName number ++ Metadata.ending]) =
      some (.file (.bytes (Utf8.encode metadata.toText))))
    (htemporaries : ∀ ending ∈ ["", Metadata.ending],
      before.get? (base.place ++ [base.memberName number ++ ending ++ Metadata.temporaryEnding]) =
          none →
        after.get? (base.place ++ [base.memberName number ++ ending ++ Metadata.temporaryEnding]) =
          none)
    (hothers : ∀ other, (∀ ending ∈ endings, other ≠ base.memberName number ++ ending) →
      after.get? (base.place ++ [other]) = before.get? (base.place ++ [other])) :
    Holds after base (max count (number + 1)) := by
  have hbelow : ∀ other < max count (number + 1), other ≠ number → other < count := by
    intro other hother hne
    omega
  have hapart : ∀ other, other ≠ number → ∀ ending ∈ endings, ∀ last ∈ endings,
      base.memberName other ++ ending ≠ base.memberName number ++ last := by
    intro other hne ending hending last hlast hsame
    exact hne (base.memberName_append_injective hending hlast hsame).1
  have hplain : ∀ other, other ≠ number → ∀ last ∈ endings,
      base.memberName other ≠ base.memberName number ++ last := by
    intro other hne last hlast
    have hempty := hapart other hne "" (by decide) last hlast
    rwa [String.append_empty] at hempty
  -- No temporary file was there, so none is there.
  have hgone : ∀ ending ∈ ["", Metadata.ending], after.get?
      (base.place ++ [base.memberName number ++ ending ++ Metadata.temporaryEnding]) = none := by
    intro ending hending
    apply htemporaries ending hending
    have hin : ending ++ Metadata.temporaryEnding ∈ endings ∧ ending ++ Metadata.temporaryEnding ≠ "" ∧
        ending ++ Metadata.temporaryEnding ≠ Metadata.ending := by
      simp only [List.mem_cons, List.not_mem_nil, or_false] at hending
      rcases hending with rfl | rfl <;> decide
    rw [String.append_assoc]
    exact hholds.get?_eq_none hin.1 (.inr hin.2)
  refine ⟨?_, ?_, ?_, ?_⟩
  · intro name hsome
    by_cases hours : ∃ ending ∈ endings, name = base.memberName number ++ ending
    · obtain ⟨ending, hending, rfl⟩ := hours
      refine ⟨number, by omega, ?_⟩
      simp only [endings, List.mem_cons, List.not_mem_nil, or_false] at hending
      rcases hending with rfl | rfl | rfl | rfl
      · exact .inl (String.append_empty)
      · exact .inr rfl
      · have hnone := hgone "" (by decide)
        rw [String.append_empty] at hnone
        rw [hnone] at hsome
        contradiction
      · rw [← String.append_assoc, hgone Metadata.ending (by decide)] at hsome
        contradiction
    · push Not at hours
      rw [hothers name hours] at hsome
      obtain ⟨other, hother, hname⟩ := hholds.occupied name hsome
      exact ⟨other, by omega, hname⟩
  · intro other hother
    by_cases hsame : other = number
    · exact ⟨content, hsame ▸ hdata⟩
    · rw [hothers _ (hplain other hsame)]
      exact hholds.data other (hbelow other hother hsame)
  · intro other hother
    by_cases hsame : other = number
    · exact ⟨metadata, hsame ▸ hmetadata⟩
    · rw [hothers _ (hapart other hsame _ (by decide))]
      exact hholds.metadata other (hbelow other hother hsame)
  · intro other hother
    by_cases hsame : other = number
    · exact hsame ▸ hreachable
    · exact hholds.reachable other (hbelow other hother hsame)

end Family

/-! ## Files that are full -/

namespace Limits

/-- A file of some size, in which rows have been counted, has reached a limit. -/
def ReachedBy (limits : Limits) (size : ℕ) (rows : Option ℕ) : Prop :=
  (∃ limit, limits.maxBytes = some limit ∧ limit.toNat ≤ size) ∨
    ∃ limit count, limits.maxRows = some limit ∧ rows = some count ∧ limit.toNat ≤ count

variable {limits : Limits} {size : ℕ} {rows : Option ℕ}

/-- Limits are decided where the size is known, and the rows if they are limited. -/
theorem check_of_known (hrows : ∀ limit, limits.maxRows = some limit → ∃ count, rows = some count) :
    (limits.ReachedBy size rows ∧ ∃ limit, limits.check ⟨true, rows, some size⟩ = .reached limit) ∨
      (¬ limits.ReachedBy size rows ∧ limits.check ⟨true, rows, some size⟩ = .within) := by
  unfold ReachedBy check checkBytes checkRows
  cases hmaxBytes : limits.maxBytes with
  | none =>
    cases hmaxRows : limits.maxRows with
    | none => simp
    | some limit =>
      obtain ⟨count, rfl⟩ := hrows limit hmaxRows
      by_cases hle : limit.toNat ≤ count <;> simp [hle]
  | some most =>
    by_cases hreached : most.toNat ≤ size
    · simp [hreached]
    · cases hmaxRows : limits.maxRows with
      | none => simp [hreached]
      | some limit =>
        obtain ⟨count, rfl⟩ := hrows limit hmaxRows
        by_cases hle : limit.toNat ≤ count <;> simp [hreached, hle]

end Limits

namespace Job

/-- A file has reached one of the limits. -/
def IsFull (job : Job) (world : World) (path : Path) : Prop :=
  (∃ limit content, job.options.limits.maxBytes = some limit ∧
    world.tree.node? path = some (.file content) ∧ limit.toNat ≤ content.toBytes.length) ∨
  ∃ limit metadata rows, job.options.limits.maxRows = some limit ∧
    world.metadata path = .ok metadata ∧
      job.medium.countRows world.tree path metadata = .ok rows ∧ limit.toNat ≤ rows

variable {job : Job}

/-- Whether a file is full does not depend on the path under which it is found. -/
theorem IsFull.congr {before after : World} {path other : Path} {content : Content}
    (hbefore : before.tree.node? path = some (.file content))
    (hafter : after.tree.node? other = some (.file content))
    (hmetadata : after.metadata other = before.metadata path) (hfull : job.IsFull before path) :
    job.IsFull after other := by
  rcases hfull with ⟨limit, found, hlimit, hfound, hsize⟩ |
    ⟨limit, metadata, rows, hlimit, hfound, hrows, hcount⟩
  · obtain rfl : content = found := by
      rw [hbefore, Option.some.injEq, Node.file.injEq] at hfound
      exact hfound
    exact .inl ⟨limit, content, hlimit, hafter, hsize⟩
  · exact .inr ⟨limit, metadata, rows, hlimit, hmetadata.trans hfound,
      job.medium.countRows_eq_ok_congr hbefore hafter hrows, hcount⟩

theorem not_isFull_of_unlimited (hlimits : job.options.limits.isEnabled = false) (world : World)
    (path : Path) : ¬ job.IsFull world path := by
  rw [Limits.isEnabled, Bool.or_eq_false_iff, Option.isSome_eq_false_iff, Option.isNone_iff_eq_none,
    Option.isSome_eq_false_iff, Option.isNone_iff_eq_none] at hlimits
  rintro (⟨limit, content, hlimit, -⟩ | ⟨limit, metadata, rows, hlimit, -⟩)
  · simp [hlimits.2] at hlimit
  · simp [hlimits.1] at hlimit

/-- Rows that are limited have been counted. -/
theorem exists_rows_of_countRows (hmode : job.mode = .real) {world : World} {path : Path}
    {metadata : Option Metadata} {limit : UInt64} (hlimit : job.options.limits.maxRows = some limit)
    {rows : Option ℕ} {notes : List Note}
    (hcounted : job.countRows world path metadata = .ok (rows, notes)) :
    ∃ count, rows = some count ∧ job.medium.countRows world.tree path metadata = .ok count := by
  rw [countRows, hlimit] at hcounted
  dsimp only [Option.isSome_some] at hcounted
  rw [if_pos rfl] at hcounted
  cases hcount : job.medium.countRows world.tree path metadata with
  | ok count =>
    rw [hcount] at hcounted
    have hsame := Except.ok.inj hcounted
    rw [Prod.mk.injEq] at hsame
    exact ⟨count, hsame.1.symm, rfl⟩
  | error failure =>
    rw [hcount, attempt] at hcounted
    simp [hmode] at hcounted

/-- A file is full if its size or its counted rows have reached a limit. -/
theorem isFull_iff_of_countRows (hmode : job.mode = .real) {world : World} {path : Path}
    {content : Content} {metadata : Option Metadata} {rows : Option ℕ} {notes : List Note}
    (hnode : world.tree.node? path = some (.file content))
    (hmetadata : world.metadata path = .ok metadata)
    (hcounted : job.countRows world path metadata = .ok (rows, notes)) :
    job.IsFull world path ↔ job.options.limits.ReachedBy content.toBytes.length rows := by
  have hrows : ∀ limit, job.options.limits.maxRows = some limit → ∃ count,
      rows = some count ∧ job.medium.countRows world.tree path metadata = .ok count :=
    fun _ hlimit => exists_rows_of_countRows hmode hlimit hcounted
  constructor
  · rintro (⟨limit, found, hlimit, hfound, hsize⟩ |
      ⟨limit, other, count, hlimit, hother, hcount, hle⟩)
    · rw [hnode, Option.some.injEq, Node.file.injEq] at hfound
      exact .inl ⟨limit, hlimit, hfound ▸ hsize⟩
    · obtain ⟨found, hfound, hcountFound⟩ := hrows limit hlimit
      rw [hmetadata, Except.ok.injEq] at hother
      rw [← hother, hcountFound, Except.ok.injEq] at hcount
      exact .inr ⟨limit, found, hlimit, hfound, hcount ▸ hle⟩
  · rintro (⟨limit, hlimit, hsize⟩ | ⟨limit, count, hlimit, hcount, hle⟩)
    · exact .inl ⟨limit, content, hlimit, hnode, hsize⟩
    · obtain ⟨found, hfound, hcountFound⟩ := hrows limit hlimit
      rw [hcount, Option.some.injEq] at hfound
      exact .inr ⟨limit, metadata, count, hlimit, hmetadata, hfound ▸ hcountFound, hle⟩

/-- A real append always knows whether a file is full. -/
theorem check_of_stateOf (hmode : job.mode = .real) {world : World} {path : Path}
    {content : Content} {metadata : Option Metadata} {state : FileState} {remarks : Remarks}
    (hnode : world.tree.node? path = some (.file content))
    (hmetadata : world.metadata path = .ok metadata)
    (hstate : job.stateOf world path metadata = .ok (state, remarks)) :
    state.present = true ∧
      ((job.IsFull world path ∧ ∃ limit, job.options.limits.check state = .reached limit) ∨
        (¬ job.IsFull world path ∧ job.options.limits.check state = .within)) := by
  obtain ⟨rows, notes, hcounted, rfl⟩ := countRows_of_stateOf hstate hnode
  refine ⟨rfl, ?_⟩
  rw [isFull_iff_of_countRows hmode hnode hmetadata hcounted]
  apply Limits.check_of_known
  intro limit hlimit
  obtain ⟨count, hcount, -⟩ := exists_rows_of_countRows hmode hlimit hcounted
  exact ⟨count, hcount⟩

/-- Where there is nothing yet, nothing is seen. -/
theorem not_present_of_stateOf {world : World} {path : Path} {metadata : Option Metadata}
    {state : FileState} {remarks : Remarks} (hnode : world.tree.node? path = none)
    (hstate : job.stateOf world path metadata = .ok (state, remarks)) : state.present = false := by
  rw [stateOf, hnode] at hstate
  rw [← (Prod.mk.inj (Except.ok.inj hstate)).1]

/-- What a real append does with its first choice: where there is no file one is made, a file with room
is kept, and from a full one it goes on to the next member. -/
theorem locate_cases (hmode : job.mode = .real) {world : World} {base : Path} {file : Located}
    {remarks : Remarks} (hlocate : job.locate world base = .ok (file, remarks)) :
    ∃ path, job.firstChoice world.tree base = .ok path ∧
      (((∀ content, world.tree.node? path ≠ some (.file content)) ∧ file.path = path ∧
          file.rolledOver = false ∧ file.state.present = false) ∨
        ∃ content, world.tree.node? path = some (.file content) ∧
          ((¬ job.IsFull world path ∧ file.path = path ∧ file.rolledOver = false ∧
              file.state.present = true) ∨
            (job.IsFull world path ∧ ∃ next seen, Family.target world.tree base true = .ok next ∧
              job.observe world next true = .ok (file, seen)))) := by
  obtain ⟨path, found, seen, hpath, hobserve, hcases⟩ := locate_eq_ok_iff.mp hlocate
  obtain ⟨metadata, state, hmetadata, hstate, rfl⟩ := observe_eq_ok_iff.mp hobserve
  refine ⟨path, hpath, ?_⟩
  by_cases hfile : ∃ content, world.tree.node? path = some (.file content)
  · obtain ⟨content, hnode⟩ := hfile
    obtain ⟨hpresent, hcheck⟩ := check_of_stateOf hmode hnode hmetadata hstate
    refine .inr ⟨content, hnode, ?_⟩
    rcases hcases with ⟨habsent, -⟩ | ⟨-, hwithin, rfl, -⟩ | ⟨-, hunknown, -⟩ |
      ⟨limit, next, more, -, hreached, hnext, hfresh, -⟩
    · cases hpresent.symm.trans habsent
    · rcases hcheck with ⟨-, limit, hlimit⟩ | ⟨hroom, -⟩
      · cases hwithin.symm.trans hlimit
      · exact .inl ⟨hroom, rfl, rfl, hpresent⟩
    · rcases hcheck with ⟨-, limit, hlimit⟩ | ⟨-, hwithin⟩
      · cases hunknown.symm.trans hlimit
      · cases hunknown.symm.trans hwithin
    · rcases hcheck with ⟨hfull, -⟩ | ⟨-, hwithin⟩
      · exact .inr ⟨hfull, next, more, hnext, hfresh⟩
      · cases hreached.symm.trans hwithin
  · have habsent : state.present = false :=
      Bool.eq_false_iff.mpr fun hpresent => hfile (present_of_stateOf hstate hpresent)
    rcases hcases with ⟨-, rfl, -⟩ | ⟨hpresent, -⟩ | ⟨hpresent, -⟩ | ⟨-, -, -, hpresent, -⟩
    · exact .inl ⟨fun content hnode => hfile ⟨content, hnode⟩, rfl, rfl, habsent⟩
    all_goals cases habsent.symm.trans hpresent

/-! ## The member that receives rows -/

/-- The number of the member that receives the next rows of a family with so many members. -/
inductive Chooses (job : Job) (world : World) (base : Base) (count : ℕ) : ℕ → Prop
  | first (hcount : count = 0) : Chooses job world base count 0
  | unlimited (hcount : 0 < count) (hlimits : job.options.limits.isEnabled = false) :
      Chooses job world base count 0
  | last (hcount : 0 < count) (hlimits : job.options.limits.isEnabled = true)
      (hroom : ¬ job.IsFull world (base.member (count - 1))) :
      Chooses job world base count (count - 1)
  | next (hcount : 0 < count) (hlimits : job.options.limits.isEnabled = true)
      (hfull : job.IsFull world (base.member (count - 1))) : Chooses job world base count count

theorem Chooses.le {world : World} {base : Base} {count number : ℕ}
    (hchooses : job.Chooses world base count number) : number ≤ count := by
  cases hchooses <;> omega

section Limited

variable (hlimits : job.options.limits.isEnabled = true) {world : World} {base : Base}
  {last number : ℕ} (hchooses : job.Chooses world base (last + 1) number)

include hlimits hchooses

end Limited

section Locating

variable {world : World} {base : Base} {count : ℕ} (hholds : Holds world.tree base count)
  (hworld : world.tree.WellFormed) (hledger : world.ledger = none)

include hholds hworld

theorem node?_member_of_le {number : ℕ} (hnumber : count ≤ number) :
    world.tree.node? (base.member number) = none := by
  have habsent := hholds.isPresent_member hworld hnumber
  rw [FileTree.isPresent] at habsent
  cases hnode : world.tree.node? (base.member number) with
  | none => rfl
  | some node => simp [hnode] at habsent

variable {listed : Path} (hlisted : base.path.directory.listed? = some listed)

include hledger hlisted

/-- A member is full under either of its paths. -/
theorem isFull_found_iff {number : ℕ} (hnumber : number < count) :
    job.IsFull world (base.found listed number) ↔ job.IsFull world (base.member number) := by
  obtain ⟨hdata, hmetadata⟩ := hholds.node?_found hworld hlisted hnumber
  obtain ⟨content, hnode, -⟩ := hholds.node?_member hworld hnumber
  have hsame : world.metadata (base.found listed number) = world.metadata (base.member number) := by
    rw [World.metadata, World.metadata, hledger]
    exact World.storedMetadata_congr hmetadata
  exact ⟨IsFull.congr (hdata.trans hnode) hnode hsame.symm,
    IsFull.congr hnode (hdata.trans hnode) hsame⟩

variable (hmode : job.mode = .real) (hextension : base.path.extension? ≠ some Metadata.extension)
  (hcount : count ≤ UInt64.size)

include hmode hextension hcount

omit hledger hmode in
/-- The first choice is the base file, or the last member if files have limits. -/
theorem firstChoice_eq : job.firstChoice world.tree base.path =
    .ok (base.found listed (if job.options.limits.isEnabled then count - 1 else 0)) := by
  rw [firstChoice, hholds.active_eq hworld hlisted hextension hcount]
  split <;> rfl

/-- The file that receives the next rows is a member with room or a new one. -/
theorem chooses_of_locate {file : Located} {remarks : Remarks}
    (hlocate : job.locate world base.path = .ok (file, remarks)) :
    ∃ number, job.Chooses world base count number ∧
      ((number < count ∧ file.path = base.found listed number ∧ file.state.present = true) ∨
        (number = count ∧ file.path = base.member count ∧ file.state.present = false)) := by
  obtain ⟨path, hpath, hcases⟩ := locate_cases hmode hlocate
  rw [firstChoice_eq hholds hworld hlisted hextension hcount, Except.ok.injEq] at hpath
  rcases Nat.eq_zero_or_pos count with rfl | hpositive
  · -- There is no member yet, so the base file is made.
    obtain rfl : base.path = path := by
      rw [← hpath, Nat.zero_sub, ite_self]
      rfl
    have hnone : world.tree.node? base.path = none :=
      node?_member_of_le hholds hworld (Nat.le_refl 0)
    rcases hcases with ⟨-, hfile, -, habsent⟩ | ⟨content, hnode, -⟩
    · exact ⟨0, .first rfl, .inr ⟨rfl, hfile, habsent⟩⟩
    · cases hnone.symm.trans hnode
  · -- The first choice is a member, and all depends on whether it is full.
    obtain ⟨number, hnumber, rfl, hnumberEq⟩ :
        ∃ number < count, path = base.found listed number ∧
          ((job.options.limits.isEnabled = false ∧ number = 0) ∨
            (job.options.limits.isEnabled = true ∧ number = count - 1)) := by
      cases hlimits : job.options.limits.isEnabled with
      | false =>
        rw [hlimits] at hpath
        exact ⟨0, hpositive, hpath.symm, .inl ⟨rfl, rfl⟩⟩
      | true =>
        rw [hlimits] at hpath
        exact ⟨count - 1, by omega, hpath.symm, .inr ⟨rfl, rfl⟩⟩
    obtain ⟨content, hnode, -⟩ := hholds.node?_member hworld hnumber
    have hfoundNode := (hholds.node?_found hworld hlisted hnumber).1.trans hnode
    have hfullIff := @isFull_found_iff job _ _ _ hholds hworld hledger _ hlisted _ hnumber
    rcases hcases with ⟨hnone, -⟩ |
      ⟨-, -, ⟨hroom, hfile, -, hpresent⟩ | ⟨hfull, next, seen, hnext, hfresh⟩⟩
    · exact absurd hfoundNode (hnone content)
    · refine ⟨number, ?_, .inl ⟨hnumber, hfile, hpresent⟩⟩
      rcases hnumberEq with ⟨hlimits, rfl⟩ | ⟨hlimits, rfl⟩
      · exact .unlimited hpositive hlimits
      · exact .last hpositive hlimits fun hfull => hroom (hfullIff.mpr hfull)
    · rw [hholds.target_eq hworld hpositive, Except.ok.injEq] at hnext
      obtain ⟨last, fresh, -, hfreshState, rfl⟩ := observe_eq_ok_iff.mp hfresh
      have habsent := not_present_of_stateOf
        (hnext ▸ node?_member_of_le hholds hworld (Nat.le_refl count)) hfreshState
      refine ⟨count, ?_, .inr ⟨rfl, hnext.symm, habsent⟩⟩
      rcases hnumberEq with ⟨hlimits, -⟩ | ⟨hlimits, rfl⟩
      · exact absurd hfull (not_isFull_of_unlimited hlimits world _)
      · exact .next hpositive hlimits (hfullIff.mp hfull)

end Locating

/-! ## One step of growth -/

/-- What writing rows makes of a family. -/
structure Grows (job : Job) (base : Base) (listed : Path) (count : ℕ) (world after : World)
    (prepared : Prepared) (number : ℕ) (content : Content) (metadata : Metadata) : Prop where
  chooses : job.Chooses world base count number
  path : (number < count ∧ prepared.path = base.found listed number ∧ prepared.present = true) ∨
    (number = count ∧ prepared.path = base.member count ∧ prepared.layout = .new)
  written : prepared.Written job world after (base.memberName number) content metadata
  holds : Holds after.tree base (max count (number + 1))

theorem Grows.location_eq {base : Base} {listed : Path} {count number : ℕ} {world after : World}
    {prepared : Prepared} {content : Content} {metadata : Metadata}
    (hgrows : job.Grows base listed count world after prepared number content metadata)
    (hlisted : base.path.directory.listed? = some listed) :
    prepared.path.location = base.place ++ [base.memberName number] := by
  rcases hgrows.path with ⟨-, hfound, -⟩ | ⟨rfl, hmember, -⟩
  · rw [hfound]
    exact Base.location_found hlisted number
  · rw [hmember]
    exact Base.location_member _ _

variable {name : String} (hname : job.options.target.fileName? = some name)
  (htarget : job.options.target.Descends)

/-- Rows that are written make the family grow. -/
theorem grows_of_commit (hmode : job.mode = .real) {world after : World}
    (hworld : world.tree.WellFormed) (hledger : world.ledger = none) {bucket : Bucket} {count : ℕ}
    (hholds : Holds world.tree (job.options.family hname htarget bucket.key) count) {listed : Path}
    (hlisted : (job.options.basePath bucket.key).directory.listed? = some listed)
    (hextension : (job.options.basePath bucket.key).extension? ≠ some Metadata.extension)
    (hcount : count ≤ UInt64.size) {prepared : Prepared} {action : Action}
    (hprepared : job.prepare world bucket = .ok prepared)
    (hcommit : run (prepared.commit job) world = (.ok action, after))
    (hrows : prepared.survivors.isEmpty = false) :
    ∃ number content metadata, job.Grows (job.options.family hname htarget bucket.key) listed count
      world after prepared number content metadata := by
  obtain ⟨hkey, hpath, -⟩ := prepare_spec hname htarget hworld hprepared
  obtain ⟨-, -, hnew⟩ := fits_of_prepare hmode hprepared
  obtain ⟨file, remarks, layout, checked, survivors, antiJoined, compared, hlocate, -, -, hresult⟩ :=
    prepare_eq_ok_iff.mp hprepared
  obtain ⟨number, hchooses, hcases⟩ := @chooses_of_locate _ _
    (job.options.family hname htarget bucket.key) _ hholds hworld hledger _ hlisted hmode
    hextension hcount _ _ hlocate
  have hfilePath : prepared.path = file.path := by rw [hresult]
  have hpresent : prepared.present = file.state.present := by rw [hresult]
  have hfile : prepared.path.location = job.options.place prepared.key ++
      [(job.options.family hname htarget bucket.key).memberName number] := by
    rw [hfilePath, hkey]
    rcases hcases with ⟨-, hfound, -⟩ | ⟨rfl, hmember, -⟩
    · rw [hfound]
      exact @Base.location_found (job.options.family hname htarget bucket.key) _ hlisted number
    · rw [hmember]
      exact Base.location_member _ _
  rw [← hkey] at hpath
  obtain ⟨content, metadata, hwritten⟩ :=
    Prepared.exists_written_of_commit hname htarget hworld hpath hledger hrows hcommit hfile
  refine ⟨number, content, metadata, hchooses, ?_, hwritten, ?_⟩
  · rcases hcases with ⟨hlt, hfound, hthere⟩ | ⟨heq, hmember, habsent⟩
    · exact .inl ⟨hlt, hfilePath.trans hfound, hpresent.trans hthere⟩
    · exact .inr ⟨heq, hfilePath.trans hmember, hnew (hpresent.trans habsent)⟩
  · have hreachable : Reachable ((job.options.family hname htarget bucket.key).member number) ∧
        Reachable (Metadata.path ((job.options.family hname htarget bucket.key).member number)) := by
      rcases hcases with ⟨hlt, -, -⟩ | ⟨rfl, hmember, -⟩
      · exact hholds.reachable number hlt
      · rw [← hmember, ← hfilePath]
        exact hwritten.reachable
    have hplace : job.options.place prepared.key =
        (job.options.family hname htarget bucket.key).place := by rw [hkey]; rfl
    exact hholds.grow hchooses.le hreachable (hplace ▸ hwritten.data) (hplace ▸ hwritten.metadata)
      (hplace ▸ hwritten.temporaries) (hplace ▸ hwritten.others)

end Job

end TableAppend
