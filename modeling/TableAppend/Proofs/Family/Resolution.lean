import TableAppend.Proofs.Family.Active
import TableAppend.Proofs.FileTree.Entries

/-!
# What the searches for a family find

Where the directory of a base file can be searched, the three searches for its family agree on one list
of siblings: the files in the directory whose names have a number between the parts of the base file's
name, and which have metadata files, in the order of these numbers.  The members are the base file and
then the siblings, the active one is the last of them, and a new one gets the least number that is free.
-/

namespace TableAppend.Family

open FileTree (checkPath destination longestName moves)
open TableAppend.Path (IsName splitExtension)

/-! ## Members in the order of their numbers -/

/-- The higher of a first member and the highest one of those after it. -/
theorem foldl_higher_some_eq (first : Member) (rest : List Member) :
    rest.foldl higher (some first) = match rest.foldl higher none with
      | some last => if first.1 ≤ last.1 then some last else some first
      | none => some first := by
  induction rest generalizing first with
  | nil => rfl
  | cons next rest ih =>
    have hnone : (next :: rest).foldl higher none = rest.foldl higher (some next) := rfl
    have hsome : (next :: rest).foldl higher (some first) =
        rest.foldl higher (if first.1 ≤ next.1 then some next else some first) := rfl
    rw [hnone, hsome, ih next]
    by_cases hnext : first.1 ≤ next.1
    · rw [if_pos hnext, ih next]
      cases rest.foldl higher none with
      | none => simp [hnext]
      | some last =>
        dsimp only
        split
        · rename_i hlast
          simp [hnext.trans hlast]
        · simp [hnext]
    · rw [if_neg hnext, ih first]
      cases rest.foldl higher none with
      | none => simp [hnext]
      | some last =>
        dsimp only
        by_cases hlast : next.1 ≤ last.1
        · simp [hlast]
        · simp [hlast, hnext]
          omega

/-- The order of members. -/
def inOrder (left right : Member) : Bool :=
  left.1 ≤ right.1

theorem inOrder_trans (first second third : Member) (hfirst : inOrder first second = true)
    (hsecond : inOrder second third = true) : inOrder first third = true := by
  rw [inOrder, decide_eq_true_eq] at hfirst hsecond ⊢
  exact hfirst.trans hsecond

theorem inOrder_total (left right : Member) : (inOrder left right || inOrder right left) = true := by
  rw [Bool.or_eq_true, inOrder, inOrder, decide_eq_true_eq, decide_eq_true_eq]
  exact Nat.le_total ..

/-- Sorting keeps the order of members with one number, so the last one is the one that is chosen as the
highest. -/
theorem getLast?_mergeSort (numbered : List Member) :
    (numbered.mergeSort inOrder).getLast? = numbered.foldl higher none := by
  induction numbered with
  | nil => simp
  | cons first rest ih =>
    obtain ⟨before, after, hall, hrest, hbefore⟩ :=
      List.mergeSort_cons inOrder_trans inOrder_total first rest
    have hsorted := List.pairwise_mergeSort inOrder_trans inOrder_total (first :: rest)
    have hfirst : (first :: rest).foldl higher none = rest.foldl higher (some first) := rfl
    rw [hrest] at ih
    rw [hall] at hsorted
    rw [hall, hfirst, foldl_higher_some_eq, ← ih]
    cases after with
    | nil =>
      rw [List.append_nil, List.getLast?_concat]
      cases hlast : before.getLast? with
      | none => rfl
      | some last =>
        have hlower := hbefore last (List.mem_of_getLast? hlast)
        rw [inOrder] at hlower
        simp at hlower
        simp [Nat.not_le.mpr hlower]
    | cons next more =>
      obtain ⟨last, hlast⟩ : ∃ last, (next :: more).getLast? = some last := ⟨_, rfl⟩
      have hhigher := (List.pairwise_cons.mp (List.pairwise_append.mp hsorted).2.1).1 last
        (List.mem_of_getLast? hlast)
      rw [inOrder, decide_eq_true_eq] at hhigher
      rw [List.getLast?_append, List.getLast?_append, List.getLast?_cons_cons, hlast]
      simp [hhigher]

/-- The base file, which has the number zero, comes before all siblings. -/
theorem mergeSort_base (base : Path) (numbered : List Member) :
    ((0, base) :: numbered).mergeSort inOrder = (0, base) :: numbered.mergeSort inOrder := by
  obtain ⟨before, after, hall, hrest, hbefore⟩ :=
    List.mergeSort_cons inOrder_trans inOrder_total (0, base) numbered
  cases before with
  | nil => rw [hall, hrest, List.nil_append, List.nil_append]
  | cons first more =>
    have hfirst := hbefore first List.mem_cons_self
    simp [inOrder] at hfirst

variable {tree : FileTree} {base listed : Path} {parts : NameParts} {name : String}

theorem members_eq_of_siblings {numbered : List Member} (hsiblings : siblings tree base = .ok numbered) :
    members tree base = .ok ((if tree.isFile base then [base] else []) ++
      (numbered.mergeSort inOrder).map Prod.snd) := by
  have horder : (fun left right : Member => decide (left.1 ≤ right.1)) = inOrder := rfl
  rw [members, hsiblings, Outcome.ok_bind, Outcome.pure_eq_ok, horder]
  split
  · rw [List.singleton_append, mergeSort_base, List.map_cons, List.singleton_append]
  · rw [List.nil_append, List.nil_append]

theorem active_eq_of_siblings {numbered : List Member} (hsiblings : siblings tree base = .ok numbered) :
    active tree base = .ok (((numbered.mergeSort inOrder).map Prod.snd).getLast?.getD base) := by
  rw [active, hsiblings, Outcome.ok_bind, Outcome.pure_eq_ok, List.getLast?_map, getLast?_mergeSort]
  cases numbered.foldl higher none <;> rfl

/-! ## Siblings -/

/-- The name of a sibling whose number is written with these digits. -/
def NameParts.written (parts : NameParts) (digits : List Char) : String :=
  parts.stem ++ ("_" ++ String.ofList digits) ++ parts.suffix

theorem number?_eq_some_iff_written {other : String} {number : ℕ} :
    parts.number? other = some number ↔ ∃ digits, parts.written digits = other ∧ digits ≠ [] ∧
      (∀ c ∈ digits, c.isDigit = true) ∧ Nat.ofDigitChars 10 digits 0 = number ∧
        number < UInt64.size := by
  rw [number?_eq_some_iff]
  refine exists_congr fun digits => and_congr_left fun _ => ?_
  rw [← String.toList_inj, eq_comm]
  simp [NameParts.written]

/-- A member of a family besides its base file: a file in the directory of the base file that has a
number between the parts of the base file's name, and a metadata file.  The number may have leading
zeros. -/
structure IsSibling (tree : FileTree) (base listed : Path) (parts : NameParts) (member : Member) :
    Prop where
  directory : tree.isDirectory base.directory = true
  named : ∃ digits, digits ≠ [] ∧ (∀ c ∈ digits, c.isDigit = true) ∧
    Nat.ofDigitChars 10 digits 0 = member.1 ∧ listed.entry (parts.written digits) = member.2
  small : member.1 < UInt64.size
  file : tree.isFile member.2 = true
  metadata : tree.isFile (Metadata.path member.2) = true

section Listed

variable (hname : base.fileName? = some name) (hparts : NameParts.ofPath base = .ok parts)
  (hlisted : base.directory.listed? = some listed)

include hname hparts

theorem extension?_entry {other : String} {number : ℕ} (hnumber : parts.number? other = some number) :
    (listed.entry other).extension? = base.extension? := by
  have hdivide := parts_of_ofPath hparts hname
  have hother := (hdivide.of_number? (Path.isName_of_fileName? hname) hnumber).1
  obtain ⟨digits, rfl, -, hdigits, -⟩ := number?_eq_some_iff_written.mp hnumber
  have hmiddle : '.' ∉ ("_" ++ String.ofList digits).toList := by
    intro hmem
    have hin : '.' ∈ digits := by simpa using hmem
    exact absurd (hdigits '.' hin) (by decide)
  rw [Path.extension?, Path.extension?, Path.fileName?_entry listed hother, hname]
  exact hdivide.splitExtension_between hmiddle

include hlisted

theorem mem_siblings_iff (hextension : base.extension? ≠ some Metadata.extension)
    {numbered : List Member} (hsiblings : siblings tree base = .ok numbered) (member : Member) :
    member ∈ numbered ↔ IsSibling tree base listed parts member := by
  rw [mem_iff_of_siblings hparts hsiblings]
  constructor
  · rintro ⟨there, hthere, other, hother, hsibling⟩
    obtain rfl := Option.some.inj (hlisted.symm.trans hthere)
    obtain ⟨hfile, -, hmetadata, hnumber, hpath⟩ := sibling?_eq_some_iff.mp hsibling
    obtain ⟨digits, rfl, hne, hdigits, hread, hsmall⟩ := number?_eq_some_iff_written.mp hnumber
    have hdirectory : tree.isDirectory base.directory = true := by
      rw [FileTree.list] at hother
      split at hother
      · rename_i place hfind
        rw [FileTree.isDirectory_iff, FileTree.node?, hfind]
      · exact absurd hother List.not_mem_nil
    rw [hpath] at hfile hmetadata
    exact ⟨hdirectory, ⟨digits, hne, hdigits, hread, hpath⟩, hsmall, hfile, hmetadata⟩
  · rintro ⟨hdirectory, ⟨digits, hne, hdigits, hread, hpath⟩, hsmall, hfile, hmetadata⟩
    have hnumber : parts.number? (parts.written digits) = some member.1 :=
      number?_eq_some_iff_written.mpr ⟨digits, rfl, hne, hdigits, hread, hsmall⟩
    have hother := ((parts_of_ofPath hparts hname).of_number?
      (Path.isName_of_fileName? hname) hnumber).1
    rw [← hpath] at hfile hmetadata
    have hsame : (listed.entry (parts.written digits)).extension? = base.extension? :=
      extension?_entry hname hparts hnumber
    rw [← hsame] at hextension
    refine ⟨listed, hlisted, parts.written digits, ?_,
      sibling?_eq_some_iff.mpr ⟨hfile, hextension, hmetadata, hnumber, hpath⟩⟩
    obtain ⟨content, hcontent⟩ := FileTree.isFile_iff.mp hfile
    obtain ⟨hget, -⟩ := (FileTree.node?_entry_iff hdirectory hlisted hother).mp hcontent
    have hfind := FileTree.find_eq_of_node? (FileTree.isDirectory_iff.mp hdirectory)
    rw [FileTree.mem_list_of_find hfind, FileTree.mem_namesIn_iff, hget]
    rfl

theorem destination_entry_of_number? {other : String} {number : ℕ}
    (hnumber : parts.number? other = some number) :
    destination (listed.entry other) = destination base.directory ++ [other] := by
  have hother := ((parts_of_ofPath hparts hname).of_number?
    (Path.isName_of_fileName? hname) hnumber).1
  rw [Path.destination_entry _ hother, Path.destination_listed? hlisted]

/-- A sibling lies in the directory of the base file, under the name it is known by. -/
theorem IsSibling.destination_eq {member : Member} (hsibling : IsSibling tree base listed parts member) :
    ∃ other, parts.number? other = some member.1 ∧ listed.entry other = member.2 ∧
      destination member.2 = destination base.directory ++ [other] := by
  obtain ⟨-, ⟨digits, hne, hdigits, hread, hpath⟩, hsmall, -, -⟩ := hsibling
  have hnumber : parts.number? (parts.written digits) = some member.1 :=
    number?_eq_some_iff_written.mpr ⟨digits, rfl, hne, hdigits, hread, hsmall⟩
  exact ⟨_, hnumber, hpath, hpath ▸ destination_entry_of_number? hname hparts hlisted hnumber⟩

theorem IsSibling.destination_ne_base {member : Member}
    (hsibling : IsSibling tree base listed parts member) :
    destination base ≠ destination member.2 := by
  obtain ⟨other, hnumber, -, hdestination⟩ := hsibling.destination_eq hname hparts hlisted
  rw [Path.destination_directory hname, hdestination]
  intro hsame
  have hnames : name = other := by simpa using hsame
  rw [← hnames, (parts_of_ofPath hparts hname).number?_eq_none] at hnumber
  exact Option.some_ne_none _ hnumber.symm

/-- No two siblings are one file. -/
theorem pairwise_siblings (htree : (tree.nodes.map Prod.fst).Nodup) {numbered : List Member}
    (hsiblings : siblings tree base = .ok numbered) :
    numbered.Pairwise fun left right => destination left.2 ≠ destination right.2 := by
  rw [siblings_eq_ok hparts, hlisted, Except.ok.injEq] at hsiblings
  rw [← hsiblings, List.pairwise_filterMap]
  refine (FileTree.nodup_list htree base.directory).imp ?_
  intro left right hne first hfirst second hsecond hsame
  have hplace : ∀ {other : String} {member : Member},
      sibling? tree listed parts other = some member →
        destination member.2 = destination base.directory ++ [other] := by
    intro other member hmember
    obtain ⟨-, -, -, hnumber, hpath⟩ := sibling?_eq_some_iff.mp hmember
    rw [← hpath, destination_entry_of_number? hname hparts hlisted hnumber]
  rw [hplace hfirst, hplace hsecond] at hsame
  exact hne (by simpa using hsame)

end Listed

/-! ## All searches -/

/-- How the searches for the family of a base file are answered, in terms of one list of siblings. -/
structure Resolves (tree : FileTree) (base listed : Path) (parts : NameParts)
    (numbered : List Member) : Prop where
  mem_iff : ∀ member, member ∈ numbered ↔ IsSibling tree base listed parts member
  ordered : numbered.Pairwise fun left right => left.1 ≤ right.1
  /-- No file comes twice. -/
  apart : (base :: numbered.map Prod.snd).Pairwise fun left right =>
    destination left ≠ destination right
  members_eq : members tree base =
    .ok ((if tree.isFile base then [base] else []) ++ numbered.map Prod.snd)
  active_eq : active tree base = .ok ((numbered.map Prod.snd).getLast?.getD base)
  next_eq : tree.isFile base = true → ∃ number,
    target tree base true = .ok (base.withFileName (parts.numbered (number + 1))) ∧
      tree.isPresent (base.withFileName (parts.numbered (number + 1))) = false ∧
        ∀ smaller < number, tree.isPresent (base.withFileName (parts.numbered (smaller + 1))) = true

/-- What the paths of a family lead to is what stands in the directory of the base file. -/
structure Looks (tree : FileTree) (base listed : Path) : Prop where
  entry : ∀ other, IsName other → ∀ node, tree.node? (listed.entry other) = some node ↔
    tree.Stands base.directory (listed.entry other) other node
  metadata : ∀ other, IsName other → ∀ node,
    tree.node? (Metadata.path (listed.entry other)) = some node ↔
      tree.Stands base.directory (Metadata.path (listed.entry other)) (other ++ Metadata.ending) node
  beside : ∀ other, IsName other → ∀ node, tree.node? (base.withFileName other) = some node ↔
    tree.Stands base.directory (base.withFileName other) other node

theorem looks (hname : base.fileName? = some name) (hlisted : base.directory.listed? = some listed)
    (hdirectory : tree.isDirectory base.directory = true) : Looks tree base listed where
  entry _ hother _ := FileTree.node?_entry_iff hdirectory hlisted hother
  metadata _ hother _ := FileTree.node?_besides_entry_iff hdirectory hlisted hother
    (Path.isName_append hother (by decide) (by decide))
  beside _ hother _ :=
    FileTree.node?_withFileName_iff hdirectory hname (Path.moves_directory hname) hother

/-- The new member for a base file that is there. -/
theorem exists_target (hparts : NameParts.ofPath base = .ok parts) (hfile : tree.isFile base = true) :
    ∃ number, target tree base true = .ok (base.withFileName (parts.numbered (number + 1))) ∧
      tree.isPresent (base.withFileName (parts.numbered (number + 1))) = false ∧
        ∀ smaller < number,
          tree.isPresent (base.withFileName (parts.numbered (smaller + 1))) = true := by
  obtain ⟨content, hcontent⟩ := FileTree.isFile_iff.mp hfile
  have hnew : target tree base true = next tree base := by
    simp [target, FileTree.isDirectory, FileTree.isPresent, hcontent]
  obtain ⟨path, hpath⟩ := exists_next_of_ofPath tree hparts
  obtain ⟨number, rfl, hfree, htaken⟩ := (next_eq_ok_iff hparts).mp hpath
  exact ⟨number, hnew.trans hpath, hfree, htaken⟩

/-- Whatever a directory holds, the searches for the family of a base file in it find exactly the siblings
of this file, if they can search the directory: in the order of their numbers, none of them twice, with
the last one active and the least free number for a new one. -/
theorem resolves (htree : (tree.nodes.map Prod.fst).Nodup) (hname : base.fileName? = some name)
    (hextension : base.extension? ≠ some Metadata.extension)
    (hlisted : base.directory.listed? = some listed) :
    ∃ parts, NameParts.ofPath base = .ok parts ∧ parts.Divide name ∧
      (∃ numbered, Resolves tree base listed parts numbered) ∧
        (tree.isDirectory base.directory = true → Looks tree base listed) := by
  obtain ⟨parts, hparts, hdivide⟩ := exists_parts hname
  obtain ⟨numbered, hsiblings⟩ : ∃ numbered, siblings tree base = .ok numbered :=
    ⟨_, siblings_eq_ok hparts⟩
  have hperm := List.mergeSort_perm numbered inOrder
  have hmem : ∀ member, member ∈ numbered.mergeSort inOrder ↔ IsSibling tree base listed parts member :=
    fun member => hperm.mem_iff.trans (mem_siblings_iff hname hparts hlisted hextension hsiblings member)
  refine ⟨parts, hparts, hdivide, ⟨numbered.mergeSort inOrder, hmem, ?_, ?_,
    members_eq_of_siblings hsiblings, active_eq_of_siblings hsiblings, exists_target hparts⟩,
    looks hname hlisted⟩
  · refine (List.pairwise_mergeSort inOrder_trans inOrder_total numbered).imp ?_
    intro left right hle
    exact of_decide_eq_true hle
  · rw [List.pairwise_cons, List.forall_mem_map, List.pairwise_map]
    constructor
    · intro member hmember
      exact ((hmem member).mp hmember).destination_ne_base hname hparts hlisted
    · have hapart := pairwise_siblings hname hparts hlisted htree hsiblings
      exact hapart.perm hperm.symm fun hne => hne.symm

/-- A family among other files: numbers are compared and not names, leading zeros do not count, a file
without metadata and a directory only take up their names, and `*` stands for itself. -/
theorem resolves_among_others :
    let data : Node := .file (.bytes [])
    let tree : FileTree := ⟨[(["a[1]"], .directory), (["a[1]", "p*.csv"], data),
      (["a[1]", "p*_002.csv"], data), (["a[1]", "p*_002.csv.meta"], data),
      (["a[1]", "p*_1.csv"], .directory), (["a[1]", "p*_10.csv"], data),
      (["a[1]", "p*_10.csv.meta"], data), (["a[1]", "p*_2.csv"], data),
      (["a[1]", "p*_2.csv.meta"], data), (["a[1]", "p*_3.csv"], data),
      (["a[1]", "px_4.csv"], data), (["a[1]", "px_4.csv.meta"], data)]⟩
    let base : Path := ⟨"a[1]/p*.csv"⟩
    (tree.nodes.map Prod.fst).Nodup ∧ base.fileName? = some "p*.csv" ∧
      base.extension? ≠ some Metadata.extension ∧ base.directory.listed? = some ⟨"a[1]"⟩ ∧
      target tree base true = .ok ⟨"a[1]/p*_4.csv"⟩ ∧ Looks tree base ⟨"a[1]"⟩ ∧
      ∃ numbered, Resolves tree base ⟨"a[1]"⟩ ⟨"p*", ".csv"⟩ numbered ∧
        numbered.map Prod.snd =
          [⟨"a[1]/p*_002.csv"⟩, ⟨"a[1]/p*_2.csv"⟩, ⟨"a[1]/p*_10.csv"⟩] := by
  intro data tree base
  have htree : (tree.nodes.map Prod.fst).Nodup := by decide +kernel
  have hname : base.fileName? = some "p*.csv" := by decide +kernel
  have hextension : base.extension? ≠ some Metadata.extension := by decide +kernel
  have hlisted : base.directory.listed? = some ⟨"a[1]"⟩ := by decide +kernel
  obtain ⟨parts, hparts, -, ⟨numbered, hresolves⟩, hlooks⟩ :=
    resolves htree hname hextension hlisted
  have hsplit : NameParts.ofPath base = .ok ⟨"p*", ".csv"⟩ := by decide +kernel
  obtain rfl : (⟨"p*", ".csv"⟩ : NameParts) = parts := Except.ok.inj (hsplit.symm.trans hparts)
  -- The names stand in their order, so only the siblings have to be sorted.
  have hlist : tree.list base.directory = tree.namesIn ["a[1]"] := by
    have hfind : tree.find base.directory = .ok (["a[1]"], .directory) := by decide +kernel
    rw [FileTree.list, hfind]
    exact List.mergeSort_of_pairwise (by decide +kernel)
  have hsiblings : siblings tree base = .ok [(2, ⟨"a[1]/p*_002.csv"⟩), (10, ⟨"a[1]/p*_10.csv"⟩),
      (2, ⟨"a[1]/p*_2.csv"⟩)] := by
    rw [siblings_eq_ok hsplit, hlisted, hlist]
    decide +kernel
  have hsorted : ([(2, ⟨"a[1]/p*_002.csv"⟩), (10, ⟨"a[1]/p*_10.csv"⟩), (2, ⟨"a[1]/p*_2.csv"⟩)] :
      List Member).mergeSort inOrder = [(2, ⟨"a[1]/p*_002.csv"⟩), (2, ⟨"a[1]/p*_2.csv"⟩),
        (10, ⟨"a[1]/p*_10.csv"⟩)] := by
    cbv
  have hall := Except.ok.inj (hresolves.members_eq.symm.trans (members_eq_of_siblings hsiblings))
  rw [hsorted] at hall
  exact ⟨htree, hname, hextension, hlisted, by decide +kernel, hlooks (by decide +kernel), numbered,
    hresolves, List.append_cancel_left hall⟩

end TableAppend.Family
