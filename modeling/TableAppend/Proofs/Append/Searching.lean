import TableAppend.Proofs.Append.Preparation
import TableAppend.Proofs.Family.Resolution
import TableAppend.Proofs.FileTree.Making

/-!
# Searches that end

Two loops look for the file that receives rows, and neither has a bound of its own.  One goes on to a
new file as long as the last one has reached a limit.  The other counts up to a number at whose place
there is nothing.  The first goes on once at most, because there is no file at the place of a new one.
The second ends because a directory has fewer entries than there are numbers.
-/

namespace TableAppend

/-! ## Loops -/

section Loops

variable {σ ρ : Type} {turn : σ → σ ⊕ ρ} {state : σ} {count : ℕ} {result : ρ}

/-- A loop that goes on so many times, until a turn ends it with a result. -/
inductive Turns (turn : σ → σ ⊕ ρ) : σ → ℕ → ρ → Prop
  | stop {state : σ} {result : ρ} (hturn : turn state = .inr result) : Turns turn state 0 result
  | again {state next : σ} {count : ℕ} {result : ρ} (hturn : turn state = .inl next)
      (hrest : Turns turn next count result) : Turns turn state (count + 1) result

theorem Turns.unique {other : ℕ} {found : ρ} (hturns : Turns turn state count result)
    (hother : Turns turn state other found) : other = count ∧ found = result := by
  induction hturns generalizing other with
  | stop hturn =>
    cases hother with
    | stop hsame => exact ⟨rfl, Sum.inr.inj (hsame.symm.trans hturn)⟩
    | again hsame => cases hturn.symm.trans hsame
  | again hturn hrest ih =>
    cases hother with
    | stop hsame => cases hturn.symm.trans hsame
    | again hsame hmore =>
      obtain rfl := Sum.inl.inj (hturn.symm.trans hsame)
      obtain ⟨hcount, hresult⟩ := ih hmore
      exact ⟨congrArg (· + 1) hcount, hresult⟩

/-- A loop that goes from each state to the next one. -/
theorem turns_of_iterate (next : σ → σ)
    (hagain : ∀ index < count, turn (next^[index] state) = .inl (next^[index + 1] state))
    (hstop : turn (next^[count] state) = .inr result) : Turns turn state count result := by
  induction count generalizing state with
  | zero => exact .stop hstop
  | succ count ih =>
    refine .again (hagain 0 (Nat.zero_lt_succ count)) (ih (fun index hindex => ?_) hstop)
    exact hagain (index + 1) (Nat.succ_lt_succ hindex)

end Loops

/-! ## Counting up to a free place -/

namespace FileTree

theorem length_list_of_isDirectory {tree : FileTree} {path : Path}
    (hdirectory : tree.isDirectory path = true) :
    (tree.list path).length = (tree.namesIn (destination path)).length := by
  rw [list, find_eq_of_node? (isDirectory_iff.mp hdirectory)]
  exact List.length_mergeSort _

end FileTree

namespace Family

/-- What counts the numbers that are tried. -/
structure Counter (κ : Type) where
  start : κ
  next : κ → κ
  toNat : κ → ℕ

namespace Counter

def unbounded : Counter ℕ := ⟨1, (· + 1), id⟩

/-- A counter of 64 bits, which has zero after its highest value. -/
def wrapping : Counter UInt64 := ⟨1, (· + 1), UInt64.toNat⟩

/-- One turn of the search for a free place. -/
def turn {κ : Type} (counter : Counter κ) (tree : FileTree) (base : Path) (parts : NameParts)
    (value : κ) : κ ⊕ Path :=
  let path := base.withFileName (parts.numbered (counter.toNat value))
  if tree.isPresent path then .inl (counter.next value) else .inr path

/-- The counter goes through as many numbers without leaving one out. -/
def CountsTo {κ : Type} (counter : Counter κ) (count : ℕ) : Prop :=
  ∀ index ≤ count, counter.toNat (counter.next^[index] counter.start) = index + 1

theorem unbounded_countsTo (count : ℕ) : unbounded.CountsTo count := by
  intro index _
  change (Nat.succ)^[index] 1 = index + 1
  rw [Nat.succ_iterate, Nat.add_comm]

theorem wrapping_countsTo {count : ℕ} (hcount : count + 1 < UInt64.size) :
    wrapping.CountsTo count := by
  intro index
  induction index with
  | zero => exact fun _ => rfl
  | succ index ih =>
    intro hindex
    have hlast : (wrapping.next^[index] wrapping.start).toNat = index + 1 := ih (by omega)
    have hone : (1 : UInt64).toNat = 1 := rfl
    rw [Function.iterate_succ_apply']
    change (wrapping.next^[index] wrapping.start + 1).toNat = index + 1 + 1
    rw [UInt64.toNat_add, hlast, hone, Nat.mod_eq_of_lt]
    exact lt_of_le_of_lt (Nat.succ_le_succ hindex) hcount

end Counter

variable {tree : FileTree} {base : Path} {parts : NameParts} {count : ℕ}

/-- A search ends at the least number that is free, if the counter gets there. -/
theorem turns_to_free {κ : Type} {counter : Counter κ} (hcounts : counter.CountsTo count)
    (hfree : tree.isPresent (base.withFileName (parts.numbered (count + 1))) = false)
    (htaken : ∀ smaller < count,
      tree.isPresent (base.withFileName (parts.numbered (smaller + 1))) = true) :
    Turns (counter.turn tree base parts) counter.start count
      (base.withFileName (parts.numbered (count + 1))) := by
  refine turns_of_iterate counter.next (fun index hindex => ?_) ?_
  · rw [Counter.turn, hcounts index hindex.le, if_pos (htaken index hindex),
      Function.iterate_succ_apply']
  · rw [Counter.turn, hcounts count le_rfl, if_neg (by simp [hfree])]

/-- The number of a new member is at most one more than there are entries in the directory. -/
theorem exists_target_among_entries (hparts : NameParts.ofPath base = .ok parts)
    (hfile : tree.isFile base = true) : ∃ count ≤ (tree.list base.directory).length,
      target tree base true = .ok (base.withFileName (parts.numbered (count + 1))) ∧
        tree.isPresent (base.withFileName (parts.numbered (count + 1))) = false ∧
          ∀ smaller < count,
            tree.isPresent (base.withFileName (parts.numbered (smaller + 1))) = true := by
  obtain ⟨count, htarget, hfree, htaken⟩ := exists_target hparts hfile
  refine ⟨count, ?_, htarget, hfree, htaken⟩
  obtain ⟨content, hcontent⟩ := FileTree.isFile_iff.mp hfile
  obtain ⟨name, hname⟩ := exists_fileName?_of_ofPath hparts
  rw [FileTree.length_list_of_isDirectory (FileTree.isDirectory_directory hname hcontent)]
  obtain ⟨index, hindex, hother⟩ := exists_free_among_names tree hparts
  by_contra hlarge
  have hpresent := htaken index (by omega)
  rw [hother] at hpresent
  cases hpresent

end Family

/-! ## Going on to a new file -/

namespace Job

variable {job : Job} {world : World} {base path : Path} {seen fresh : Located × Remarks}

/-- A new file in place of one that has reached a limit. -/
def replaced (job : Job) (world : World) (base : Path) (limit : ReachedLimit)
    (seen : Located × Remarks) : Outcome (Located × Remarks) := do
  let next ← Family.target world.tree base true
  let (fresh, more) ← job.observe world next true
  return (fresh, seen.2 ++ .ofNotes [.rolledOver seen.1.path limit] ++ more)

/-- One turn of the loop over the limits. -/
def limitTurn (job : Job) (world : World) (base : Path) (seen : Located × Remarks) :
    (Located × Remarks) ⊕ Outcome (Located × Remarks) :=
  if seen.1.state.present then
    match job.options.limits.check seen.1.state with
    | .within => .inr (.ok seen)
    | .unknown => .inr (.ok (seen.1, seen.2 ++ .ofWarnings [.countUnknown seen.1.path]))
    | .reached limit =>
      match job.replaced world base limit seen with
      | .ok fresh => .inl fresh
      | .error failure => .inr (.error failure)
  else .inr (.ok seen)

/-- There is no file yet in place of a full one. -/
theorem not_present_of_replaced {limit : ReachedLimit}
    (hreplaced : job.replaced world base limit seen = .ok fresh) :
    world.tree.isFile fresh.1.path = false ∧ fresh.1.state.present = false := by
  obtain ⟨next, hnext, hrest⟩ := Outcome.bind_eq_ok_iff.mp hreplaced
  obtain ⟨⟨found, more⟩, hobserve, hresult⟩ := Outcome.bind_eq_ok_iff.mp hrest
  obtain rfl := Except.ok.inj hresult
  obtain ⟨hpath, -, hpresent⟩ := observe_spec hobserve
  have hfree := Family.isFile_of_target hnext
  rw [← hpath] at hfree
  refine ⟨hfree, ?_⟩
  rw [← Bool.not_eq_true]
  intro hfound
  rw [FileTree.isFile_iff.mpr (hpresent hfound)] at hfree
  cases hfree

theorem limitTurn_of_not_present (habsent : seen.1.state.present = false) :
    job.limitTurn world base seen = .inr (.ok seen) := by
  rw [limitTurn, if_neg (by simp [habsent])]

theorem limitTurn_of_reached {limit : ReachedLimit} (hpresent : seen.1.state.present = true)
    (hcheck : job.options.limits.check seen.1.state = .reached limit) :
    job.limitTurn world base seen = match job.replaced world base limit seen with
      | .ok fresh => .inl fresh
      | .error failure => .inr (.error failure) := by
  rw [limitTurn, if_pos hpresent, hcheck]

/-- The loop goes on only to a new file. -/
theorem exists_replaced_of_limitTurn (hturn : job.limitTurn world base seen = .inl fresh) :
    ∃ limit, job.replaced world base limit seen = .ok fresh := by
  rw [limitTurn] at hturn
  split at hturn
  · split at hturn
    · cases hturn
    · cases hturn
    · rename_i limit hlimit
      split at hturn
      · rename_i found hfound
        exact ⟨limit, Sum.inl.inj hturn ▸ hfound⟩
      · cases hturn
  · cases hturn

/-- The loop goes on once at most, and ends with what becomes of the file that it starts with. -/
theorem exists_turns_rollOver (job : Job) (world : World) (base : Path)
    (seen : Located × Remarks) : ∃ count ≤ 1, Turns (job.limitTurn world base) seen count
      (job.rollOver world base seen.1.path seen) := by
  by_cases hpresent : seen.1.state.present = true
  · rw [rollOver, if_pos hpresent]
    cases hcheck : job.options.limits.check seen.1.state with
    | within => exact ⟨0, by omega, .stop (by rw [limitTurn, if_pos hpresent, hcheck])⟩
    | unknown => exact ⟨0, by omega, .stop (by rw [limitTurn, if_pos hpresent, hcheck])⟩
    | reached limit =>
      change ∃ count ≤ 1, Turns _ seen count (job.replaced world base limit seen)
      have hturn := @limitTurn_of_reached job world base seen limit hpresent hcheck
      cases hreplaced : job.replaced world base limit seen with
      | error failure =>
        rw [hreplaced] at hturn
        exact ⟨0, by omega, .stop hturn⟩
      | ok fresh =>
        rw [hreplaced] at hturn
        have habsent := (not_present_of_replaced hreplaced).2
        exact ⟨1, le_rfl, .again hturn (.stop (limitTurn_of_not_present habsent))⟩
  · rw [Bool.not_eq_true] at hpresent
    refine ⟨0, by omega, .stop ?_⟩
    rw [limitTurn_of_not_present hpresent, rollOver, if_neg (by simp [hpresent])]

/-- How the loops end that look for the file of a partition. -/
structure SearchEnds (job : Job) (world : World) (base : Path) : Prop where
  /-- From any file the loop over the limits goes on once at most. -/
  exists_turns : ∀ seen, ∃ count ≤ 1, ∃ outcome,
    Turns (job.limitTurn world base) seen count outcome
  /-- Where it goes on to there is no file. -/
  isFile_eq : ∀ seen fresh, job.limitTurn world base seen = .inl fresh →
    world.tree.isFile fresh.1.path = false
  /-- From the first choice it comes to the file that is located. -/
  locate_eq : ∀ path seen count outcome, job.firstChoice world.tree base = .ok path →
    job.observe world path false = .ok seen →
      Turns (job.limitTurn world base) seen count outcome → job.locate world base = outcome
  /-- Where there is a base file the numbers from one on are tried.  This ends at the place of the new
  member, whose number is at most one more than there are entries in the directory.  A counter of 64 bits
  gets there as well, unless there are more entries than it can count. -/
  numbered : world.tree.isFile base = true → ∃ parts, Family.NameParts.ofPath base = .ok parts ∧
    ∃ count ≤ (world.tree.list base.directory).length,
      Family.target world.tree base true =
          .ok (base.withFileName (parts.numbered (count + 1))) ∧
        Turns (Family.Counter.unbounded.turn world.tree base parts) 1 count
          (base.withFileName (parts.numbered (count + 1))) ∧
        ((world.tree.list base.directory).length + 1 < UInt64.size →
          Turns (Family.Counter.wrapping.turn world.tree base parts) 1 count
            (base.withFileName (parts.numbered (count + 1))))

/-- The search for the file that receives rows ends, whatever the tree holds. -/
theorem search_ends (job : Job) (world : World) (base : Path) : job.SearchEnds world base where
  exists_turns seen := by
    obtain ⟨count, hcount, hturns⟩ := job.exists_turns_rollOver world base seen
    exact ⟨count, hcount, _, hturns⟩
  isFile_eq seen fresh hturn := by
    obtain ⟨limit, hreplaced⟩ := exists_replaced_of_limitTurn hturn
    exact (not_present_of_replaced hreplaced).1
  locate_eq path seen count outcome hpath hseen hturns := by
    obtain ⟨other, -, hother⟩ := job.exists_turns_rollOver world base seen
    rw [(observe_spec hseen).1] at hother
    rw [Job.locate_eq, hpath, Outcome.ok_bind, hseen, Outcome.ok_bind]
    exact (hturns.unique hother).2
  numbered hfile := by
    obtain ⟨content, hcontent⟩ := FileTree.isFile_iff.mp hfile
    obtain ⟨name, hname⟩ := FileTree.exists_fileName?_of_node? hcontent
    obtain ⟨parts, hparts, -⟩ := Family.exists_parts hname
    obtain ⟨count, hcount, htarget, hfree, htaken⟩ :=
      Family.exists_target_among_entries hparts hfile
    refine ⟨parts, hparts, count, hcount, htarget, ?_, fun hwide => ?_⟩
    · exact Family.turns_to_free (Family.Counter.unbounded_countsTo count) hfree htaken
    · exact Family.turns_to_free (Family.Counter.wrapping_countsTo (by omega)) hfree htaken

/-- A full base file beside a directory and a file that have taken the first two numbers. -/
theorem search_ends_beside_taken_numbers :
    let options : Options := { Options.ofTarget ⟨"p.csv"⟩ with limits := ⟨some 1, none⟩ }
    let job : Job := ⟨options, .delimited .commaSeparated, 200, .real⟩
    let data : Node := .file (.bytes (Utf8.encode "id\n1\n"))
    let tree : FileTree :=
      ⟨[(["p.csv"], data), (["p_1.csv"], .directory), (["p_2.csv"], data)]⟩
    let base : Path := ⟨"p.csv"⟩
    job.SearchEnds ⟨tree, none⟩ base ∧ tree.isFile base = true ∧
      Family.target tree base true = .ok ⟨"p_3.csv"⟩ ∧
      (job.locate ⟨tree, none⟩ base).toOption.map
        (fun seen => (seen.1.path, seen.1.rolledOver)) = some (⟨"p_3.csv"⟩, true) := by
  intro options job data tree base
  have hparts : Family.NameParts.ofPath base = .ok ⟨"p", ".csv"⟩ := by decide +kernel
  have hlisted : base.directory.listed? = some ⟨"."⟩ := by decide +kernel
  have hfind : tree.find base.directory = .ok ([], .directory) := by decide +kernel
  have halone : Family.siblings tree base = .ok [] :=
    Family.siblings_eq_nil hparts hlisted hfind (by decide +kernel)
  have hlocate := @locate_of_alone job ⟨tree, none⟩ base halone
  refine ⟨search_ends job ⟨tree, none⟩ base, by decide +kernel, by decide +kernel, ?_⟩
  rw [hlocate]
  decide +kernel

end Job

end TableAppend
