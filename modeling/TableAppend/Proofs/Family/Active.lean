import TableAppend.Proofs.Digits
import TableAppend.Proofs.Family.Members
import TableAppend.Proofs.Family.Missing

/-!
# The active member after rows have been written

A file that has received rows is there with its metadata file.  Where it was found before, a search
finds what it found before.  A new member is active unless there is a member with a higher number,
since of the names with one number the numbered name without leading zeros is the last.
-/

namespace TableAppend.Family

open Digits (exists_toDigits toDigits_ofDigitChars)
open FileTree (IsUsable Reachable)
open TableAppend.Path (IsName LiesIn)

/-! ## The order of the numbered names -/

/-- Of the names with one number the numbered one is the last. -/
theorem NameParts.le_numbered {parts : NameParts} {other : String} {number : ℕ}
    (hnumber : parts.number? other = some number) (hpositive : 0 < number) :
    other ≤ parts.numbered number := by
  obtain ⟨digits, hother, hne, hdigits, hread, -⟩ := number?_eq_some_iff.mp hnumber
  obtain ⟨first, rest, rfl⟩ := List.exists_cons_of_ne_nil hne
  by_cases hzero : first = '0'
  · obtain ⟨c, more, hnew, hc⟩ := exists_toDigits hpositive
    apply le_of_lt
    rw [String.lt_iff_toList_lt, parts.toList_numbered, hother, hnew, hzero, List.append_assoc,
      List.append_assoc]
    apply List.append_left_lt
    rw [List.cons_append, List.cons_append, List.cons_append, List.cons_append,
      List.cons_lt_cons_iff, List.cons_lt_cons_iff]
    exact .inr ⟨rfl, .inl hc⟩
  · apply le_of_eq
    rw [← String.toList_inj, parts.toList_numbered, hother, ← hread,
      toDigits_ofDigitChars hdigits hzero]

/-! ## The highest number -/

theorem foldl_higher_some {members : List Member} {member : Member}
    (hmembers : ∀ other ∈ members, other.1 < member.1) :
    members.foldl higher (some member) = some member := by
  induction members with
  | nil => rfl
  | cons next rest ih =>
    rw [List.forall_mem_cons] at hmembers
    have hlower : higher (some member) next = some member := by
      rw [higher, if_neg (by omega)]
    rw [List.foldl_cons, hlower, ih hmembers.2]

/-- The last one of those with the highest number is chosen. -/
theorem foldl_higher_eq {before after : List Member} {member : Member}
    (hbefore : ∀ other ∈ before, other.1 ≤ member.1)
    (hafter : ∀ other ∈ after, other.1 < member.1) :
    (before ++ member :: after).foldl higher none = some member := by
  have hhigher : higher (before.foldl higher none) member = some member := by
    cases hfold : before.foldl higher none with
    | none => rfl
    | some best =>
      have hbest := hbefore best ((foldl_higher_mem hfold).resolve_left (by simp))
      rw [higher, if_pos hbest]
  rw [List.foldl_append, List.foldl_cons, hhigher, foldl_higher_some hafter]

theorem active_of_highest {tree : FileTree} (htree : (tree.nodes.map Prod.fst).Nodup)
    {base path : Path}
    {parts : NameParts} (hparts : NameParts.ofPath base = .ok parts) {listed : Path}
    (hlisted : base.directory.listed? = some listed) {number : ℕ} (hpositive : 0 < number)
    (hmem : parts.numbered number ∈ tree.list base.directory)
    (hsibling : sibling? tree listed parts (parts.numbered number) = some (number, path))
    (hhighest : ∀ name ∈ tree.list base.directory, ∀ member,
      sibling? tree listed parts name = some member → member.1 ≤ number) :
    active tree base = .ok path := by
  have hsorted := tree.pairwise_list base.directory
  have hdistinct := FileTree.nodup_list htree base.directory
  obtain ⟨before, after, hnames⟩ := List.append_of_mem hmem
  rw [hnames] at hsorted hdistinct
  have hafter : ∀ name ∈ after, ∀ member,
      sibling? tree listed parts name = some member → member.1 < number := by
    intro name hname member hmember
    have hle := hhighest name (hnames ▸ by simp [hname]) member hmember
    refine lt_of_le_of_ne hle fun hsame => ?_
    have hnumber := (sibling?_eq_some_iff.mp hmember).2.2.2.1
    rw [hsame] at hnumber
    have hlater := (List.pairwise_cons.mp (List.pairwise_append.mp hsorted).2.1).1 name hname
    have hequal := le_antisymm (NameParts.le_numbered hnumber hpositive) hlater
    rw [hequal] at hname
    exact (List.nodup_cons.mp hdistinct.of_append_right).1 hname
  have hsiblings : siblings tree base = .ok (before.filterMap (sibling? tree listed parts) ++
      (number, path) :: after.filterMap (sibling? tree listed parts)) := by
    rw [siblings_eq_ok hparts, hlisted, hnames]
    dsimp only
    rw [List.filterMap_append, List.filterMap_cons, hsibling]
  rw [active, hsiblings, Outcome.ok_bind, foldl_higher_eq, Outcome.pure_eq_ok]
  · intro other hother
    obtain ⟨name, hname, hmember⟩ := List.mem_filterMap.mp hother
    exact hhighest name (hnames ▸ by simp [hname]) other hmember
  · intro other hother
    obtain ⟨name, hname, hmember⟩ := List.mem_filterMap.mp hother
    exact hafter name hname other hmember

/-! ## A file that has received rows -/

/-- The places of what is listed under a name and of its metadata. -/
theorem Base.location_entry (base : Base) {listed : Path}
    (hlisted : base.path.directory.listed? = some listed) {other : String} (hother : IsName other) :
    (listed.entry other).LiesIn base.place ∧
      (listed.entry other).location = base.place ++ [other] ∧
        (Metadata.path (listed.entry other)).location =
          base.place ++ [other ++ Metadata.ending] := by
  have hentry := base.liesIn.entry hlisted hother
  obtain ⟨-, name, hname, hlocation⟩ := id hentry
  rw [Path.fileName?_entry listed hother, Option.some.injEq] at hname
  rw [← hname] at hlocation
  exact ⟨hentry, hlocation, hentry.metadata_location hlocation⟩

/-- The active member is the base file or a sibling that is found. -/
theorem Base.exists_file_of_active {tree : FileTree} {base : Base} {path : Path}
    (hactive : active tree base.path = .ok path) :
    ∃ file, path.location = base.place ++ [file] ∧
      file.toList.count '.' = base.name.toList.count '.' ∧
        ((NameParts.ofName base.name).number? file = none ∨
          ∀ listed, base.path.directory.listed? = some listed →
            (sibling? tree listed (.ofName base.name) file).isSome = true) := by
  rcases active_eq_base_or_sibling hactive with rfl | ⟨numbered, hsiblings, member, hmember, rfl⟩
  · exact ⟨base.name, base.location_eq, rfl, .inl base.divide.number?_eq_none⟩
  · obtain ⟨listed, hlisted, file, -, hsibling⟩ :=
      (mem_iff_of_siblings base.ofPath_eq hsiblings).mp hmember
    obtain ⟨-, -, -, hnumber, hpath⟩ := sibling?_eq_some_iff.mp hsibling
    obtain ⟨hisName, hdots⟩ :=
      base.divide.of_number? (Path.isName_of_fileName? base.fileName?_eq) hnumber
    refine ⟨file, ?_, hdots, .inr ?_⟩
    · rw [← hpath, (base.location_entry hlisted hisName).2.1]
    · intro other hother
      obtain rfl := Option.some.inj (hlisted.symm.trans hother)
      rw [hsibling]
      rfl

/-- What is different in the directory of a family after one of its files has received rows. -/
structure Received (base : Base) (before after : FileTree) (file : String) : Prop where
  data : ∃ content, after.get? (base.place ++ [file]) = some (.file content)
  metadata : ∃ content,
    after.get? (base.place ++ [file ++ Metadata.ending]) = some (.file content)
  others : ∀ other, (∀ ending ∈ endings, other ≠ file ++ ending) →
    after.get? (base.place ++ [other]) = before.get? (base.place ++ [other])

namespace Received

variable {base : Base} {before after : FileTree} {file : String}
  (hreceived : Received base before after file) (hbefore : before.WellFormed)
  (hafter : after.WellFormed) {listed : Path}
  (hlisted : base.path.directory.listed? = some listed)

include hreceived hbefore hafter hlisted

theorem isFile_entry {other : String} (hother : IsName other)
    (hdots : file.toList.count '.' = other.toList.count '.') (hne : other ≠ file) :
    after.isFile (listed.entry other) = before.isFile (listed.entry other) ∧
      after.isFile (Metadata.path (listed.entry other)) =
        before.isFile (Metadata.path (listed.entry other)) := by
  obtain ⟨hentry, hlocation, hmetadata⟩ := base.location_entry hlisted hother
  have hapart : ∀ first ∈ endings, ∀ ending ∈ endings, other ++ first ≠ file ++ ending := by
    intro first hfirst ending hending hsame
    exact hne (eq_of_append_ending hfirst hending hdots.symm hsame).2
  refine ⟨FileTree.isFile_congr hbefore hafter hentry.1 ?_,
    FileTree.isFile_congr hbefore hafter (Path.liesIn_metadata hentry).1 ?_⟩
  · rw [hlocation]
    refine hreceived.others other fun ending hending => ?_
    have hplain := hapart "" (by simp [endings]) ending hending
    rwa [String.append_empty] at hplain
  · rw [hmetadata]
    exact hreceived.others _ (hapart Metadata.ending (by simp [endings]))

/-- Another name has the sibling it had before. -/
theorem sibling?_eq (hdots : file.toList.count '.' = base.name.toList.count '.') {other : String}
    (hne : other ≠ file) :
    sibling? after listed (.ofName base.name) other =
      sibling? before listed (.ofName base.name) other := by
  rw [sibling?, sibling?]
  cases hnumber : (NameParts.ofName base.name).number? other with
  | none => simp
  | some number =>
    obtain ⟨hother, hsame⟩ :=
      base.divide.of_number? (Path.isName_of_fileName? base.fileName?_eq) hnumber
    obtain ⟨hdata, hmetadata⟩ :=
      hreceived.isFile_entry hbefore hafter hlisted hother (hdots.trans hsame.symm) hne
    rw [hdata, hmetadata]

/-- A sibling that received rows is found as before. -/
theorem sibling?_file {member : Member}
    (hmember : sibling? before listed (.ofName base.name) file = some member) :
    sibling? after listed (.ofName base.name) file = some member := by
  rw [sibling?_eq_some_iff] at hmember ⊢
  obtain ⟨hfile, hextension, hmetadata, hnumber, hpath⟩ := hmember
  obtain ⟨hother, -⟩ := base.divide.of_number? (Path.isName_of_fileName? base.fileName?_eq) hnumber
  obtain ⟨hentry, hlocation, hmetadataLocation⟩ := base.location_entry hlisted hother
  rw [FileTree.isFile_iff_get? hbefore hentry.1] at hfile
  rw [FileTree.isFile_iff_get? hbefore (Path.liesIn_metadata hentry).1] at hmetadata
  refine ⟨?_, hextension, ?_, hnumber, hpath⟩
  · rw [FileTree.isFile_iff_get? hafter hentry.1, hlocation]
    exact ⟨hfile.1, hreceived.data⟩
  · rw [FileTree.isFile_iff_get? hafter (Path.liesIn_metadata hentry).1, hmetadataLocation]
    exact ⟨hmetadata.1, hreceived.metadata⟩

end Received

/-- What is listed and found as a sibling. -/
theorem mem_list_of_sibling? {tree : FileTree} (htree : tree.WellFormed) {base : Base}
    {listed : Path} (hlisted : base.path.directory.listed? = some listed) {name : String}
    {member : Member} (hmember : sibling? tree listed (.ofName base.name) name = some member) :
    name ∈ tree.list base.path.directory ↔ IsUsable base.path.directory := by
  obtain ⟨hfile, -, -, hnumber, -⟩ := sibling?_eq_some_iff.mp hmember
  obtain ⟨hname, -⟩ := base.divide.of_number? (Path.isName_of_fileName? base.fileName?_eq) hnumber
  obtain ⟨hentry, hlocation, -⟩ := base.location_entry hlisted hname
  obtain ⟨-, content, hcontent⟩ := (FileTree.isFile_iff_get? htree hentry.1).mp hfile
  rw [FileTree.mem_list_iff htree base.liesIn.directory.1, base.liesIn.directory.2, ← hlocation,
    hcontent]
  exact and_iff_left rfl

namespace Received

variable {base : Base} {before after : FileTree} {file : String}
  (hreceived : Received base before after file) (hbefore : before.WellFormed)
  (hafter : after.WellFormed) (hdots : file.toList.count '.' = base.name.toList.count '.')

include hreceived hbefore hafter hdots

/-- Rows for the base file, or for a sibling that is found, leave the search as it is. -/
theorem siblings_eq (hfound : (NameParts.ofName base.name).number? file = none ∨
      ∀ listed, base.path.directory.listed? = some listed →
        (sibling? before listed (.ofName base.name) file).isSome = true) :
    siblings after base.path = siblings before base.path := by
  rw [siblings_eq_ok base.ofPath_eq, siblings_eq_ok base.ofPath_eq]
  cases hlisted : base.path.directory.listed? with
  | none => rfl
  | some listed =>
    have hsame : ∀ other, sibling? after listed (.ofName base.name) other =
        sibling? before listed (.ofName base.name) other := by
      intro other
      by_cases hother : other = file
      · rw [hother]
        rcases hfound with hnone | hfound
        · rw [sibling?, sibling?, hnone]
          simp
        · obtain ⟨member, hmember⟩ := Option.isSome_iff_exists.mp (hfound listed hlisted)
          rw [hmember, hreceived.sibling?_file hbefore hafter hlisted hmember]
      · exact hreceived.sibling?_eq hbefore hafter hlisted hdots hother
    dsimp only
    rw [funext hsame]
    refine congrArg Except.ok (FileTree.filterMap_eq_of_sorted (after.pairwise_list _)
      (before.pairwise_list _) (FileTree.nodup_list hafter.distinct _)
      (FileTree.nodup_list hbefore.distinct _) fun other hother => ?_)
    obtain ⟨member, hmember⟩ := Option.isSome_iff_exists.mp hother
    rw [mem_list_of_sibling? hbefore hlisted hmember,
      mem_list_of_sibling? hafter hlisted ((hsame other).trans hmember)]

/-- A new member is active where no member has a higher number. -/
theorem active_eq {listed : Path} (hlisted : base.path.directory.listed? = some listed)
    (hextension : base.path.extension? ≠ some Metadata.extension) {number : ℕ}
    (hfile : file = base.memberName (number + 1)) (hsmall : number + 1 < UInt64.size)
    (hreachable : Reachable (base.member (number + 1)) ∧
      Reachable (Metadata.path (base.member (number + 1))))
    (hhighest : ∀ numbered, siblings before base.path = .ok numbered →
      ∀ member ∈ numbered, member.1 ≤ number + 1) :
    active after base.path = .ok (base.found listed (number + 1)) := by
  subst hfile
  have hisName := base.isName_memberName (number + 1)
  obtain ⟨hentry, hlocation, hmetadataLocation⟩ := base.location_entry hlisted hisName
  obtain ⟨hfound, hfoundMetadata⟩ := Base.reachable_found hlisted hreachable
  have hsibling : sibling? after listed (.ofName base.name) (base.memberName (number + 1)) =
      some (number + 1, base.found listed (number + 1)) := by
    refine sibling?_eq_some_iff.mpr ⟨?_, ?_, ?_, number?_numbered _ hsmall, rfl⟩
    · rw [FileTree.isFile_iff_get? hafter hentry.1, hlocation]
      exact ⟨hfound, hreceived.data⟩
    · change (base.found listed (number + 1)).extension? ≠ some Metadata.extension
      rw [base.extension?_found]
      exact hextension
    · rw [FileTree.isFile_iff_get? hafter (Path.liesIn_metadata hentry).1, hmetadataLocation]
      exact ⟨hfoundMetadata, hreceived.metadata⟩
  have husable := base.isUsable_directory hreachable.1
  refine active_of_highest hafter.distinct base.ofPath_eq hlisted (Nat.succ_pos number)
    ((mem_list_of_sibling? hafter hlisted hsibling).mpr husable) hsibling ?_
  intro name hname member hmember
  by_cases hnew : name = base.memberName (number + 1)
  · rw [hnew, hsibling, Option.some.injEq] at hmember
    rw [← hmember]
  · rw [hreceived.sibling?_eq hbefore hafter hlisted hdots hnew] at hmember
    refine hhighest _ (siblings_eq_ok base.ofPath_eq) member ?_
    rw [hlisted]
    exact List.mem_filterMap.mpr
      ⟨name, (mem_list_of_sibling? hbefore hlisted hmember).mpr husable, hmember⟩

end Received

end TableAppend.Family
