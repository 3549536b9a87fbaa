import TableAppend.Proofs.Family.Search

/-!
# Families without gaps

A family that has grown from nothing has its members numbered without gaps, each with a metadata file,
and its directory holds nothing else.  The searches of `Family` then find exactly these members.
-/

namespace TableAppend

open FileTree (IsUsable Reachable)
open TableAppend.Path (IsName LiesIn splitExtension)

namespace Family

/-! ## The names of the members -/

/-- The parts of a name. -/
def NameParts.ofName (name : String) : NameParts :=
  ⟨(splitExtension name).1, match (splitExtension name).2 with | some e => "." ++ e | none => ""⟩

/-- A base file with its place. -/
structure Base where
  path : Path
  place : Location
  name : String
  descends : path.Descends
  fileName?_eq : path.fileName? = some name
  location_eq : path.location = place ++ [name]

namespace Base

/-- The name of a member.  The base file has the number zero. -/
def memberName (base : Base) : ℕ → String
  | 0 => base.name
  | number + 1 => (NameParts.ofName base.name).numbered (number + 1)

/-- A member beside its base file. -/
def member (base : Base) : ℕ → Path
  | 0 => base.path
  | number + 1 => base.path.withFileName (base.memberName (number + 1))

variable (base : Base)

theorem memberName_zero : base.memberName 0 = base.name :=
  rfl

theorem memberName_succ (number : ℕ) :
    base.memberName (number + 1) = (NameParts.ofName base.name).numbered (number + 1) :=
  rfl

theorem liesIn : base.path.LiesIn base.place :=
  ⟨base.descends, base.name, base.fileName?_eq, base.location_eq⟩

theorem ofPath_eq : NameParts.ofPath base.path = .ok (.ofName base.name) := by
  have hstem : base.path.stem? = some (splitExtension base.name).1 := by
    rw [Path.stem?, base.fileName?_eq]
    rfl
  have hextension : base.path.extension? = (splitExtension base.name).2 := by
    rw [Path.extension?, base.fileName?_eq]
    rfl
  rw [NameParts.ofPath]
  simp only [hstem, hextension]
  rfl

theorem divide : (NameParts.ofName base.name).Divide base.name :=
  parts_of_ofPath base.ofPath_eq base.fileName?_eq

theorem isName_memberName (number : ℕ) : IsName (base.memberName number) := by
  have hisName := Path.isName_of_fileName? base.fileName?_eq
  cases number with
  | zero => exact hisName
  | succ number => exact base.divide.isName_numbered hisName _

theorem memberName_injective : Function.Injective base.memberName := by
  intro first second hsame
  cases first with
  | zero =>
    cases second with
    | zero => rfl
    | succ second => exact absurd hsame.symm (base.divide.numbered_ne _)
  | succ first =>
    cases second with
    | zero => exact absurd hsame (base.divide.numbered_ne _)
    | succ second => exact numbered_injective _ hsame

theorem dots_memberName (number : ℕ) :
    (base.memberName number).toList.count '.' = base.name.toList.count '.' := by
  cases number with
  | zero => rfl
  | succ number => exact base.divide.dots_numbered _

theorem splitExtension_memberName (number : ℕ) :
    (splitExtension (base.memberName number)).2 = (splitExtension base.name).2 := by
  cases number with
  | zero => rfl
  | succ number => exact base.divide.splitExtension_numbered _

/-- Members are told apart from each other, from metadata files and from temporary files. -/
theorem memberName_append_injective {first second : ℕ} {left right : String}
    (hleft : left ∈ endings) (hright : right ∈ endings)
    (hsame : base.memberName first ++ left = base.memberName second ++ right) :
    first = second ∧ left = right := by
  have hdots : (base.memberName first).toList.count '.' =
      (base.memberName second).toList.count '.' := by
    rw [dots_memberName, dots_memberName]
  obtain ⟨hending, hnames⟩ := eq_of_append_ending hleft hright hdots hsame
  exact ⟨base.memberName_injective hnames, hending⟩

theorem member_liesIn (number : ℕ) : (base.member number).LiesIn base.place := by
  cases number with
  | zero => exact base.liesIn
  | succ number => exact (withFileName_numbered_liesIn base.liesIn base.ofPath_eq _).1

theorem location_member (number : ℕ) :
    (base.member number).location = base.place ++ [base.memberName number] := by
  cases number with
  | zero => exact base.location_eq
  | succ number => exact (withFileName_numbered_liesIn base.liesIn base.ofPath_eq _).2

theorem location_metadata_member (number : ℕ) :
    (Metadata.path (base.member number)).location =
      base.place ++ [base.memberName number ++ Metadata.ending] :=
  (base.member_liesIn number).metadata_location (base.location_member number)

end Base

/-! ## The files of a family -/

/-- A directory holds the first members of a family, each with a metadata file, and nothing else. -/
structure Holds (tree : FileTree) (base : Base) (count : ℕ) : Prop where
  occupied : ∀ name, (tree.get? (base.place ++ [name])).isSome = true → ∃ number < count,
    name = base.memberName number ∨ name = base.memberName number ++ Metadata.ending
  data : ∀ number < count, ∃ content,
    tree.get? (base.place ++ [base.memberName number]) = some (.file content)
  metadata : ∀ number < count, ∃ metadata : Metadata,
    tree.get? (base.place ++ [base.memberName number ++ Metadata.ending]) =
      some (.file (.bytes (Utf8.encode metadata.toText)))
  reachable : ∀ number < count, Reachable (base.member number) ∧
    Reachable (Metadata.path (base.member number))

namespace Holds

variable {tree : FileTree} {base : Base} {count : ℕ}

theorem node?_member (hholds : Holds tree base count) (htree : tree.WellFormed) {number : ℕ}
    (hnumber : number < count) :
    ∃ content, tree.node? (base.member number) = some (.file content) ∧
      tree.get? (base.place ++ [base.memberName number]) = some (.file content) := by
  obtain ⟨content, hcontent⟩ := hholds.data number hnumber
  refine ⟨content, ?_, hcontent⟩
  rw [FileTree.node?_eq_file_iff htree (base.member_liesIn number).1, base.location_member]
  exact ⟨(hholds.reachable number hnumber).1, hcontent⟩

/-- There are no temporary files, and nothing belongs to later members. -/
theorem get?_eq_none (hholds : Holds tree base count) {number : ℕ} {ending : String}
    (hending : ending ∈ endings)
    (hfree : count ≤ number ∨ ending ≠ "" ∧ ending ≠ Metadata.ending) :
    tree.get? (base.place ++ [base.memberName number ++ ending]) = none := by
  by_contra hsome
  obtain ⟨other, hother, hname⟩ := hholds.occupied _ (Option.isSome_iff_ne_none.mpr hsome)
  obtain ⟨rfl, hordinary⟩ : number = other ∧ (ending = "" ∨ ending = Metadata.ending) := by
    rcases hname with hname | hname
    · rw [← String.append_empty (s := base.memberName other)] at hname
      exact (base.memberName_append_injective hending (by decide) hname).imp_right .inl
    · exact (base.memberName_append_injective hending (by decide) hname).imp_right .inr
  rcases hfree with hfree | ⟨hplain, hmetadata⟩
  · omega
  · exact hordinary.elim hplain hmetadata

/-- There is nothing at the places of later members. -/
theorem isPresent_member (hholds : Holds tree base count) (htree : tree.WellFormed) {number : ℕ}
    (hnumber : count ≤ number) : tree.isPresent (base.member number) = false := by
  rw [Bool.eq_false_iff, FileTree.isPresent, Ne, Option.isSome_iff_exists]
  rintro ⟨node, hnode⟩
  obtain ⟨-, hget, -⟩ := (FileTree.node?_eq_some_iff htree (base.member_liesIn number).1).mp hnode
  have hnone := hholds.get?_eq_none (by decide : "" ∈ endings) (.inl hnumber)
  rw [String.append_empty, ← base.location_member, hget] at hnone
  cases hnone

end Holds

/-! ## Paths under which members are found -/

namespace Base

variable (base : Base)

/-- The path under which a search finds a member. -/
def found (listed : Path) : ℕ → Path
  | 0 => base.path
  | number + 1 => listed.entry (base.memberName (number + 1))

theorem exists_parent : ∃ parent, base.path.parent? = some parent ∧ parent.trimmed = parent ∧
    parent.location = base.place ∧
      (∀ number, base.member (number + 1) = parent.join (base.memberName (number + 1))) ∧
        ∀ number, Metadata.path (base.member number) =
          parent.join (base.memberName number ++ Metadata.ending) := by
  obtain ⟨parent, hparent, -, hlocation⟩ := base.liesIn.exists_parent
  have htrimmed := Path.trimmed_parent hparent
  have hjoin : ∀ number, base.member (number + 1) = parent.join (base.memberName (number + 1)) :=
    fun number => Path.withFileName_of_parent base.fileName?_eq hparent _
  refine ⟨parent, hparent, htrimmed, hlocation, hjoin, ?_⟩
  intro number
  cases number with
  | zero => exact Path.besides_of_parent base.fileName?_eq hparent _
  | succ number => rw [hjoin, Metadata.path, Path.besides_join htrimmed (base.isName_memberName _)]

/-- Where a member can be reached, its directory can be used. -/
theorem isUsable_directory {number : ℕ} (hreachable : Reachable (base.member number)) :
    IsUsable base.path.directory := by
  obtain ⟨parent, hparent, htrimmed, -, hjoin, -⟩ := base.exists_parent
  have husable : parent.text ≠ "" → IsUsable parent := by
    intro htext
    cases number with
    | zero => exact FileTree.isUsable_parent base.fileName?_eq hparent htext hreachable.usable
    | succ number =>
      have hisName := base.isName_memberName (number + 1)
      rw [hjoin] at hreachable
      refine FileTree.isUsable_parent (Path.fileName?_join _ hisName) ?_ htext hreachable.usable
      rw [Path.parent?_join _ hisName, htrimmed]
  rcases Path.directory_cases hparent with ⟨htext, heq⟩ | ⟨-, heq⟩ <;> rw [heq]
  · exact husable htext
  · exact ⟨by decide, by decide⟩

variable {base} {listed : Path} (hlisted : base.path.directory.listed? = some listed)

include hlisted

theorem found_liesIn (number : ℕ) : (base.found listed number).LiesIn base.place := by
  cases number with
  | zero => exact base.liesIn
  | succ number => exact base.liesIn.entry hlisted (base.isName_memberName _)

theorem location_found (number : ℕ) :
    (base.found listed number).location = base.place ++ [base.memberName number] := by
  cases number with
  | zero => exact base.location_eq
  | succ number =>
    obtain ⟨-, other, hother, hlocation⟩ := found_liesIn hlisted (number + 1)
    have hname := Path.fileName?_entry listed (base.isName_memberName (number + 1))
    change (listed.entry (base.memberName (number + 1))).fileName? = some other at hother
    rw [hname, Option.some.injEq] at hother
    rw [hlocation, hother]

theorem metadata_found (number : ℕ) : (Metadata.path (base.found listed (number + 1))) =
    listed.entry (base.memberName (number + 1) ++ Metadata.ending) := by
  obtain ⟨parent, hparent, -⟩ := base.exists_parent
  exact (Path.listedAs_parent base.descends hparent hlisted).besides_entry
    (base.isName_memberName _) _

theorem reachable_found {number : ℕ} (hreachable : Reachable (base.member number) ∧
    Reachable (Metadata.path (base.member number))) :
    Reachable (base.found listed number) ∧ Reachable (Metadata.path (base.found listed number)) := by
  cases number with
  | zero => exact hreachable
  | succ number =>
    obtain ⟨parent, hparent, -, -, hjoin, hmetadata⟩ := base.exists_parent
    have hlistedAs := Path.listedAs_parent base.descends hparent hlisted
    have hisName := base.isName_memberName (number + 1)
    have hfull : IsName (base.memberName (number + 1) ++ Metadata.ending) :=
      Path.isName_append hisName (by decide) (by decide)
    rw [hjoin, ← hjoin, hmetadata, hjoin] at hreachable
    rw [metadata_found hlisted]
    refine ⟨⟨hlistedAs.isUsable_entry hisName hreachable.1.usable, ?_⟩,
      ⟨hlistedAs.isUsable_entry hfull hreachable.2.usable, ?_⟩⟩
    · rw [found, Path.entry_eq_join]
      exact FileTree.endsInName_join _ hisName
    · rw [Path.entry_eq_join]
      exact FileTree.endsInName_join _ hfull

omit hlisted in
/-- The members have the extension of the base file. -/
theorem extension?_found (number : ℕ) :
    (base.found listed number).extension? = base.path.extension? := by
  cases number with
  | zero => rfl
  | succ number =>
    have hname := Path.fileName?_entry listed (base.isName_memberName (number + 1))
    rw [found, Path.extension?, Path.extension?, hname, base.fileName?_eq]
    exact base.splitExtension_memberName (number + 1)

theorem location_metadata_found (number : ℕ) :
    (Metadata.path (base.found listed number)).location =
      (Metadata.path (base.member number)).location := by
  cases number with
  | zero => rfl
  | succ number =>
    have hfull : IsName (base.memberName (number + 1) ++ Metadata.ending) :=
      Path.isName_append (base.isName_memberName (number + 1)) (by decide) (by decide)
    obtain ⟨-, other, hother, hlocation⟩ := base.liesIn.entry hlisted hfull
    rw [Path.fileName?_entry _ hfull, Option.some.injEq] at hother
    rw [metadata_found hlisted, hlocation, base.location_metadata_member, hother]

end Base

/-! ## Searching the directory of such a family -/

namespace Holds

variable {tree : FileTree} {base : Base} {count : ℕ} (hholds : Holds tree base count)
  (htree : tree.WellFormed) {listed : Path}
  (hlisted : base.path.directory.listed? = some listed)

include hholds

theorem isUsable_directory (hcount : 0 < count) : IsUsable base.path.directory :=
  base.isUsable_directory (hholds.reachable 0 hcount).1

include htree hlisted

theorem node?_found {number : ℕ} (hnumber : number < count) :
    tree.node? (base.found listed number) = tree.node? (base.member number) ∧
      tree.node? (Metadata.path (base.found listed number)) =
        tree.node? (Metadata.path (base.member number)) := by
  obtain ⟨hmember, hmetadata⟩ := hholds.reachable number hnumber
  obtain ⟨hfound, hfoundMetadata⟩ := Base.reachable_found hlisted ⟨hmember, hmetadata⟩
  have hlies := Base.found_liesIn hlisted number
  refine ⟨FileTree.node?_eq_of_reachable htree hlies.1 (base.member_liesIn number).1 hfound hmember ?_,
    FileTree.node?_eq_of_reachable htree (Path.liesIn_metadata hlies).1
      (Path.liesIn_metadata (base.member_liesIn number)).1 hfoundMetadata hmetadata ?_⟩
  · rw [Base.location_found hlisted, base.location_member]
  · exact Base.location_metadata_found hlisted number

theorem isFile_found {number : ℕ} (hnumber : number < count) :
    tree.isFile (base.found listed number) = true ∧
      tree.isFile (Metadata.path (base.found listed number)) = true := by
  obtain ⟨hdata, hmetadata⟩ := hholds.node?_found htree hlisted hnumber
  obtain ⟨content, hcontent, -⟩ := hholds.node?_member htree hnumber
  obtain ⟨metadata, hget⟩ := hholds.metadata number hnumber
  refine ⟨FileTree.isFile_iff.mpr ⟨content, hdata.trans hcontent⟩,
    FileTree.isFile_iff.mpr ⟨.bytes (Utf8.encode metadata.toText), ?_⟩⟩
  rw [hmetadata, FileTree.node?_eq_file_iff htree
    (Path.liesIn_metadata (base.member_liesIn number)).1, base.location_metadata_member]
  exact ⟨(hholds.reachable number hnumber).2, hget⟩

variable (hextension : base.path.extension? ≠ some Metadata.extension)
  (hcount : count ≤ UInt64.size)

include hextension hcount

/-- The siblings that are found are the members after the base file. -/
theorem mem_siblings_iff {numbered : List Member} (hsiblings : siblings tree base.path = .ok numbered)
    (member : Member) :
    member ∈ numbered ↔ ∃ number, number + 1 < count ∧
      member = (number + 1, base.found listed (number + 1)) := by
  have hnamed : ∀ name, IsName name → (listed.entry name).extension? = (splitExtension name).2 := by
    intro name hname
    rw [Path.extension?, Path.fileName?_entry listed hname]
    rfl
  rw [mem_iff_of_siblings base.ofPath_eq hsiblings]
  constructor
  · rintro ⟨there, hthere, name, hname, hsibling⟩
    obtain rfl := Option.some.inj (hlisted.symm.trans hthere)
    obtain ⟨-, hother, -, hnumber, hpath⟩ := sibling?_eq_some_iff.mp hsibling
    obtain ⟨-, hsome⟩ := (FileTree.mem_list_iff htree base.liesIn.directory.1).mp hname
    rw [base.liesIn.directory.2] at hsome
    obtain ⟨number, hlt, rfl | rfl⟩ := hholds.occupied name hsome
    · cases number with
      | zero =>
        rw [base.memberName_zero, base.divide.number?_eq_none] at hnumber
        cases hnumber
      | succ number =>
        rw [base.memberName_succ, number?_numbered _ (hlt.trans_le hcount),
          Option.some.injEq] at hnumber
        exact ⟨number, hlt, Prod.ext hnumber.symm hpath.symm⟩
    · exfalso
      have hisName := base.isName_memberName number
      rw [hnamed _ (Path.isName_append hisName (by decide) (by decide)),
        Path.splitExtension_metadata hisName.1] at hother
      exact hother rfl
  · rintro ⟨number, hlt, rfl⟩
    have hisName := base.isName_memberName (number + 1)
    obtain ⟨hfile, hmetadata⟩ := hholds.isFile_found htree hlisted hlt
    obtain ⟨content, hcontent⟩ := hholds.data (number + 1) hlt
    refine ⟨listed, hlisted, base.memberName (number + 1), ?_, sibling?_eq_some_iff.mpr
      ⟨hfile, ?_, hmetadata, number?_numbered _ (hlt.trans_le hcount), rfl⟩⟩
    · rw [FileTree.mem_list_iff htree base.liesIn.directory.1, base.liesIn.directory.2, hcontent]
      exact ⟨hholds.isUsable_directory (Nat.zero_lt_of_lt hlt), rfl⟩
    · change (base.found listed (number + 1)).extension? ≠ some Metadata.extension
      rw [base.extension?_found]
      exact hextension

/-- The member with the highest number is active. -/
theorem active_eq : active tree base.path = .ok (base.found listed (count - 1)) := by
  obtain ⟨numbered, hsiblings⟩ : ∃ numbered, siblings tree base.path = .ok numbered :=
    ⟨_, siblings_eq_ok base.ofPath_eq⟩
  have hmem := hholds.mem_siblings_iff htree hlisted hextension hcount hsiblings
  rw [active, hsiblings, Outcome.ok_bind, Outcome.pure_eq_ok]
  cases hfold : numbered.foldl higher none with
  | none =>
    have hempty := foldl_higher_eq_none hfold
    have hsmall : ¬ 1 < count := by
      intro hlt
      have hmember := (hmem (1, base.found listed 1)).mpr ⟨0, hlt, rfl⟩
      rw [hempty] at hmember
      exact absurd hmember List.not_mem_nil
    rw [show count - 1 = 0 by omega]
    rfl
  | some best =>
    obtain ⟨number, hlt, rfl⟩ := (hmem best).mp
      ((foldl_higher_mem hfold).resolve_left (by simp))
    have hlast := le_of_foldl_higher hfold _
      (.inl ((hmem (count - 2 + 1, _)).mpr ⟨count - 2, by omega, rfl⟩))
    dsimp only at hlast ⊢
    rw [show count - 1 = number + 1 by omega]

omit hextension hcount in
theorem isFile_base_iff : tree.isFile base.path = true ↔ 0 < count := by
  constructor
  · intro hfile
    obtain ⟨content, hnode⟩ := FileTree.isFile_iff.mp hfile
    by_contra hzero
    have habsent : tree.isPresent (base.member 0) = false :=
      hholds.isPresent_member htree (by omega)
    rw [FileTree.isPresent, Base.member, hnode] at habsent
    cases habsent
  · intro hpositive
    exact (hholds.isFile_found htree hlisted hpositive).1

/-- The base file and its siblings are the numbered members, each once. -/
theorem perm_siblings {numbered : List Member} (hsiblings : siblings tree base.path = .ok numbered) :
    ((if tree.isFile base.path then [(0, base.path)] else []) ++ numbered).Perm
      ((List.range count).map fun number => (number, base.found listed number)) := by
  have hmem := hholds.mem_siblings_iff htree hlisted hextension hcount hsiblings
  have hbase := hholds.isFile_base_iff htree hlisted
  refine (List.perm_ext_iff_of_nodup ?_ ?_).mpr ?_
  · refine List.Nodup.append (by split <;> simp) (nodup_siblings htree base.liesIn hsiblings) ?_
    intro member hfirst hsecond
    obtain ⟨number, -, rfl⟩ := (hmem member).mp hsecond
    split at hfirst <;> simp at hfirst
  · exact List.nodup_range.map fun left right hsame => (Prod.mk.inj hsame).1
  · intro member
    rw [List.mem_append, hmem, List.mem_map]
    constructor
    · rintro (hfirst | ⟨number, hlt, rfl⟩)
      · split at hfirst
        · rename_i hfile
          exact ⟨0, List.mem_range.mpr (hbase.mp hfile), (List.mem_singleton.mp hfirst).symm⟩
        · exact absurd hfirst List.not_mem_nil
      · exact ⟨number + 1, List.mem_range.mpr hlt, rfl⟩
    · rintro ⟨number, hnumber, rfl⟩
      have hlt := List.mem_range.mp hnumber
      cases number with
      | zero =>
        left
        rw [if_pos (hbase.mpr hlt)]
        exact List.mem_singleton.mpr rfl
      | succ number => exact .inr ⟨number, hlt, rfl⟩

/-- All members are found, in the order of their numbers. -/
theorem members_eq : members tree base.path = .ok ((List.range count).map (base.found listed)) := by
  obtain ⟨numbered, hsiblings⟩ : ∃ numbered, siblings tree base.path = .ok numbered :=
    ⟨_, siblings_eq_ok base.ofPath_eq⟩
  have hperm := hholds.perm_siblings htree hlisted hextension hcount hsiblings
  have hsorted : ((if tree.isFile base.path then [(0, base.path)] else []) ++ numbered).mergeSort
      (fun left right => left.1 ≤ right.1) =
        (List.range count).map fun number => (number, base.found listed number) := by
    refine @List.Perm.eq_of_pairwise _ (fun left right : Member => decide (left.1 ≤ right.1)) _ _
      ?_ ?_ ?_ ?_
    · intro left right hleft hright hle hge
      obtain ⟨first, -, rfl⟩ := List.mem_map.mp
        (hperm.mem_iff.mp (List.mem_mergeSort.mp hleft))
      obtain ⟨second, -, rfl⟩ := List.mem_map.mp hright
      obtain rfl : first = second :=
        Nat.le_antisymm (of_decide_eq_true hle) (of_decide_eq_true hge)
      rfl
    · apply List.pairwise_mergeSort
      · intro first second third hfirst hsecond
        exact decide_eq_true ((of_decide_eq_true hfirst).trans (of_decide_eq_true hsecond))
      · intro left right
        simpa using Nat.le_total left.1 right.1
    · rw [List.pairwise_map]
      apply List.Pairwise.imp _ List.pairwise_le_range
      intro left right hle
      exact decide_eq_true hle
    · exact (List.mergeSort_perm _ _).trans hperm
  rw [members, hsiblings, Outcome.ok_bind, Outcome.pure_eq_ok, hsorted, List.map_map]
  rfl

omit hlisted hextension hcount in
/-- A new member comes after the others. -/
theorem target_eq (hpositive : 0 < count) :
    target tree base.path true = .ok (base.member count) := by
  obtain ⟨content, hnode, -⟩ := hholds.node?_member htree hpositive
  change tree.node? base.path = some (.file content) at hnode
  have hpresent : tree.isPresent base.path = true := by rw [FileTree.isPresent, hnode]; rfl
  have hdirectory : tree.isDirectory base.path = false := by rw [FileTree.isDirectory, hnode]; rfl
  rw [target, hpresent, hdirectory]
  simp only [Bool.not_true, Bool.or_self, Bool.false_eq_true, ↓reduceIte]
  obtain ⟨number, rfl⟩ : ∃ number, count = number + 1 := ⟨count - 1, by omega⟩
  refine (next_eq_ok_iff base.ofPath_eq).mpr ⟨number, rfl, ?_, ?_⟩
  · exact hholds.isPresent_member htree (Nat.le_refl _)
  · intro smaller hsmaller
    obtain ⟨found, hfound, -⟩ :=
      @Holds.node?_member _ _ _ hholds htree (smaller + 1) (by omega)
    change tree.isPresent (base.member (smaller + 1)) = true
    rw [FileTree.isPresent, hfound]
    rfl

end Holds

end Family

end TableAppend
