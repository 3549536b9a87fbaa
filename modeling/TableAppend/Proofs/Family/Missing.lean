import TableAppend.Proofs.Family.Search
import TableAppend.Proofs.FileTree.Missing

/-!
# Families whose base file has lost its metadata

The base file belongs to its family without a metadata file, so a search finds the same members, the
same active one and the same place for a new one whether or not the metadata files of base files are
there.
-/

namespace TableAppend.Family

open TableAppend.Path (IsName)
open FileTree (Lacks destination)

/-! ## Names with a number -/

/-- A name in which a number is read differs from the base file's name in digits only. -/
theorem NameParts.Divide.of_number? {parts : NameParts} {name other : String}
    (hdivide : parts.Divide name) (hisName : IsName name) {number : ℕ}
    (hnumber : parts.number? other = some number) :
    IsName other ∧ other.toList.count '.' = name.toList.count '.' := by
  obtain ⟨inner, hother, -, hall, -⟩ := number?_eq_some_iff.mp hnumber
  have hplain : ∀ c, c.isDigit = false → c ∉ inner := by
    intro c hc hmem
    rw [hall c hmem] at hc
    contradiction
  obtain ⟨-, -, -, hseparator⟩ := hisName
  rw [hdivide.1, String.toList_append, List.mem_append, not_or] at hseparator
  have hmem : '_' ∈ other.toList := by simp [hother]
  refine ⟨⟨?_, ?_, ?_, ?_⟩, ?_⟩
  · rintro rfl
    exact absurd hmem (by decide)
  · rintro rfl
    exact absurd hmem (by decide)
  · rintro rfl
    exact absurd hmem (by decide)
  · simp [hother, hseparator, hplain]
  · rw [hother, hdivide.1]
    simp [List.count_eq_zero.mpr (hplain '.' (by decide))]

/-! ## Searches -/

variable {lost : Set Location} {full bare : FileTree} {base : Path} {name : String}
  (hlacks : Lacks lost full bare) (hname : base.fileName? = some name)
  (hlost : ∀ location ∈ lost, location.getLast? = some (name ++ Metadata.ending))

include hlost in
theorem destination_notMem {path : Path} {other : String} (hother : path.fileName? = some other)
    (hne : other ≠ name ++ Metadata.ending) : destination path ∉ lost := by
  intro hmem
  obtain ⟨place, hplace⟩ := FileTree.exists_destination hother
  have hlast := hlost _ hmem
  rw [hplace, List.getLast?_concat, Option.some.injEq] at hlast
  exact hne hlast

include hname hlost in
theorem base_notMem : destination base ∉ lost := by
  refine destination_notMem hlost hname fun hsame => ?_
  have hempty := String.append_eq_left_iff.mp hsame.symm
  exact absurd hempty (by decide)

include hlost in
theorem metadata_notMem {path : Path} {other : String} (hother : path.fileName? = some other)
    (hne : other ≠ name) : destination (Metadata.path path) ∉ lost := by
  obtain ⟨place, hplace⟩ := FileTree.exists_destination hother
  refine destination_notMem hlost
    (FileTree.destination_besides hother hplace (by decide) (by decide)).2 fun hsame => hne ?_
  exact (String.append_left_inj _).mp hsame

include hname hlost in
/-- Neither a sibling nor its metadata file is missing. -/
theorem entry_notMem {parts : NameParts} (hparts : NameParts.ofPath base = .ok parts)
    {other : String} {number : ℕ} (hnumber : parts.number? other = some number) (listed : Path) :
    (∀ place, place ++ [other] ∉ lost) ∧ destination (listed.entry other) ∉ lost ∧
      destination (Metadata.path (listed.entry other)) ∉ lost := by
  have hdivide := parts_of_ofPath hparts hname
  obtain ⟨hother, hdots⟩ := hdivide.of_number? (Path.isName_of_fileName? hname) hnumber
  have hentry := Path.fileName?_entry listed hother
  have hplain : other ≠ name ++ Metadata.ending := by
    intro hsame
    rw [← String.append_empty (s := other)] at hsame
    have hendings := (eq_of_append_ending (by decide) (by decide) hdots hsame).1
    exact absurd hendings (by decide)
  refine ⟨fun place hmem => ?_, destination_notMem hlost hentry hplain,
    metadata_notMem hlost hentry ?_⟩
  · have hlast := hlost _ hmem
    rw [List.getLast?_concat, Option.some.injEq] at hlast
    exact hplain hlast
  · rintro rfl
    rw [hdivide.number?_eq_none] at hnumber
    cases hnumber

include hname hlost in
/-- At the place of a new member neither a file nor its metadata file is missing. -/
theorem numbered_notMem {parts : NameParts} (hparts : NameParts.ofPath base = .ok parts)
    (number : ℕ) : destination (base.withFileName (parts.numbered number)) ∉ lost ∧
      destination (Metadata.path (base.withFileName (parts.numbered number))) ∉ lost := by
  have hdivide := parts_of_ofPath hparts hname
  have hisName := hdivide.isName_numbered (Path.isName_of_fileName? hname) number
  obtain ⟨parent, hparent⟩ := Path.exists_parent?_of_fileName? hname
  have hfile : (base.withFileName (parts.numbered number)).fileName? =
      some (parts.numbered number) := by
    rw [Path.withFileName_of_parent hname hparent, Path.fileName?_join _ hisName]
  refine ⟨destination_notMem hlost hfile fun hsame => ?_,
    metadata_notMem hlost hfile (hdivide.numbered_ne number)⟩
  rw [← String.append_empty (s := parts.numbered number)] at hsame
  have hendings := (eq_of_append_ending (by decide) (by decide) (hdivide.dots_numbered number) hsame).1
  exact absurd hendings (by decide)

include hname hlost in
theorem sibling_notMem {tree : FileTree} {numbered : List Member}
    (hsiblings : siblings tree base = .ok numbered) {member : Member} (hmember : member ∈ numbered) :
    destination member.2 ∉ lost ∧ destination (Metadata.path member.2) ∉ lost ∧
      tree.isFile member.2 = true := by
  obtain ⟨parts, hparts, -⟩ := exists_parts hname
  obtain ⟨listed, -, other, -, hsibling⟩ := (mem_iff_of_siblings hparts hsiblings).mp hmember
  obtain ⟨hfile, -, -, hnumber, hpath⟩ := sibling?_eq_some_iff.mp hsibling
  obtain ⟨-, hentry, hmetadata⟩ := entry_notMem hname hlost hparts hnumber listed
  exact hpath ▸ ⟨hentry, hmetadata, hfile⟩

include hname hlost in
/-- What is missing is at most the metadata file of the base file. -/
theorem member_notMem {tree : FileTree} {files : List Path} (hfiles : members tree base = .ok files)
    {file : Path} (hfile : file ∈ files) : tree.isFile file = true ∧ destination file ∉ lost ∧
      (file = base ∨ destination (Metadata.path file) ∉ lost) := by
  rcases (mem_iff_of_members hfiles).mp hfile with ⟨hisFile, rfl⟩ |
    ⟨numbered, hsiblings, member, hmember, rfl⟩
  · exact ⟨hisFile, base_notMem hname hlost, .inl rfl⟩
  · obtain ⟨hplace, hmetadata, hisFile⟩ := sibling_notMem hname hlost hsiblings hmember
    exact ⟨hisFile, hplace, .inr hmetadata⟩

section Elsewhere

include hlacks

/-- A family without siblings has none either where files are missing. -/
theorem siblings_eq_nil_of_lacks (halone : siblings full base = .ok []) :
    siblings bare base = .ok [] := by
  obtain ⟨parts, hparts, hfull⟩ := Outcome.bind_eq_ok_iff.mp halone
  rw [siblings_eq_ok hparts]
  rw [Outcome.pure_eq_ok, Except.ok.injEq] at hfull
  cases hlisted : base.directory.listed? with
  | none => rfl
  | some listed =>
    simp only [hlisted, List.filterMap_eq_nil_iff] at hfull
    refine congrArg Except.ok (List.filterMap_eq_nil_iff.mpr fun other hother => ?_)
    by_contra hsome
    obtain ⟨member, hmember⟩ := Option.ne_none_iff_exists'.mp hsome
    obtain ⟨hfile, hextension, hmetadata, hnumber⟩ := sibling?_eq_some_iff.mp hmember
    have hfound := sibling?_eq_some_iff.mpr
      ⟨hlacks.isFile_of_bare hfile, hextension, hlacks.isFile_of_bare hmetadata, hnumber⟩
    exact hsome (hmember.trans (hfound.symm.trans (hfull other (hlacks.mem_list_of_bare hother))))

/-- Where nothing is missing at the paths of a family, a new member comes to the same place. -/
theorem target_eq_of_notMem {parts : NameParts} (hparts : NameParts.ofPath base = .ok parts)
    (hbase : destination base ∉ lost)
    (hnumbered : ∀ number, destination (base.withFileName (parts.numbered (number + 1))) ∉ lost)
    (needsNew : Bool) : target bare base needsNew = target full base needsNew := by
  have hpresent : ∀ {path}, destination path ∉ lost → bare.isPresent path = full.isPresent path := by
    intro path hpath
    rw [FileTree.isPresent, FileTree.isPresent, hlacks.node?_eq hpath]
  rw [target, target, hlacks.isDirectory_eq, hpresent hbase,
    next_eq_of_isPresent hparts fun number => hpresent (hnumbered number)]

end Elsewhere

include hlacks hname hlost

theorem sibling?_of_lacks {parts : NameParts} (hparts : NameParts.ofPath base = .ok parts)
    (listed : Path) (other : String) :
    sibling? bare listed parts other = sibling? full listed parts other := by
  rw [sibling?, sibling?]
  cases hnumber : parts.number? other with
  | none => simp
  | some number =>
    obtain ⟨-, hentry, hmetadata⟩ := entry_notMem hname hlost hparts hnumber listed
    rw [hlacks.isFile_eq hentry, hlacks.isFile_eq hmetadata]

theorem siblings_of_lacks : siblings bare base = siblings full base := by
  obtain ⟨parts, hparts, -⟩ := exists_parts hname
  rw [siblings_eq_ok hparts, siblings_eq_ok hparts]
  cases base.directory.listed? with
  | none => rfl
  | some listed =>
    dsimp only
    rw [funext (sibling?_of_lacks hlacks hname hlost hparts listed)]
    refine congrArg Except.ok (hlacks.filterMap_list_eq _ fun other hsibling => ?_)
    obtain ⟨member, hmember⟩ := Option.isSome_iff_exists.mp hsibling
    exact (entry_notMem hname hlost hparts (sibling?_eq_some_iff.mp hmember).2.2.2.1 listed).1

theorem isFile_of_lacks : bare.isFile base = full.isFile base :=
  hlacks.isFile_eq (base_notMem hname hlost)

theorem members_of_lacks : members bare base = members full base := by
  rw [members, members, siblings_of_lacks hlacks hname hlost, isFile_of_lacks hlacks hname hlost]

theorem active_of_lacks : active bare base = active full base := by
  rw [active, active, siblings_of_lacks hlacks hname hlost]

theorem target_of_lacks (needsNew : Bool) : target bare base needsNew = target full base needsNew := by
  obtain ⟨parts, hparts, -⟩ := exists_parts hname
  exact target_eq_of_notMem hlacks hparts (base_notMem hname hlost)
    (fun number => (numbered_notMem hname hlost hparts (number + 1)).1) needsNew

end TableAppend.Family
