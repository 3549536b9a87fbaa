import TableAppend.Proofs.Family.Names
import TableAppend.Proofs.FileTree.Missing
import TableAppend.Proofs.Outcome
import TableAppend.Proofs.Path.Listing

/-!
# Searching a directory for a family

The members of a family, the active one and the place of a new one are found in the directory of the
base file, so worlds that agree there find the same.
-/

namespace TableAppend

open TableAppend.Path (IsName LiesIn)
open FileTree (destination)

/-! ## Listed names -/

namespace FileTree

variable {tree : FileTree} (htree : tree.WellFormed) {path : Path}

include htree

variable (hpath : path.Descends)

include hpath

theorem mem_list_iff {name : String} :
    name ∈ tree.list path ↔
      IsUsable path ∧ (tree.get? (path.location ++ [name])).isSome := by
  have hdirectory : (tree.get? (path.location ++ [name])).isSome →
      tree.get? path.location = some .directory := by
    intro hsome
    obtain ⟨node, hnode⟩ := Option.isSome_iff_exists.mp hsome
    exact isDirectoryAt_iff.mp (htree.grounded hnode)
  rw [list]
  constructor
  · intro hmem
    split at hmem
    · rename_i there hfind
      obtain ⟨husable, rfl, -, -⟩ := (find_eq_ok_iff htree hpath).mp hfind
      exact ⟨husable, mem_namesIn_iff.mp (List.mem_mergeSort.mp hmem)⟩
    · contradiction
  · rintro ⟨husable, hsome⟩
    have hfind := (find_eq_ok_iff htree hpath).mpr
      ⟨husable, rfl, hdirectory hsome, Or.inl rfl⟩
    rw [hfind]
    exact List.mem_mergeSort.mpr (mem_namesIn_iff.mpr hsome)

theorem isName_of_mem_list {name : String} (hname : name ∈ tree.list path) : IsName name := by
  obtain ⟨node, hnode⟩ := Option.isSome_iff_exists.mp ((mem_list_iff htree hpath).mp hname).2
  exact htree.named hnode name (by simp)

end FileTree

namespace Path

variable {base : Path} {place : Location}

theorem LiesIn.exists_parent (hbase : base.LiesIn place) :
    ∃ parent, base.parent? = some parent ∧ parent.Descends ∧ parent.location = place := by
  obtain ⟨hdescends, name, hname, hlocation⟩ := hbase
  obtain ⟨parent, hparent⟩ := exists_parent?_of_fileName? hname
  rw [location_parent hname hparent] at hlocation
  exact ⟨parent, hparent, (descends_parent hname hparent).mpr hdescends,
    List.append_inj_left' hlocation rfl⟩

theorem LiesIn.directory (hbase : base.LiesIn place) :
    base.directory.Descends ∧ base.directory.location = place := by
  obtain ⟨parent, hparent, hdescends, hlocation⟩ := hbase.exists_parent
  exact ⟨(descends_directory hparent).mpr hdescends, (location_directory hparent).trans hlocation⟩

/-- An entry of the listed directory of a file lies beside it. -/
theorem LiesIn.entry (hbase : base.LiesIn place) {listed : Path}
    (hlisted : base.directory.listed? = some listed) {name : String} (hname : IsName name) :
    (listed.entry name).LiesIn place := by
  obtain ⟨parent, hparent, -, hlocation⟩ := hbase.exists_parent
  rw [← hlocation]
  exact (listedAs_parent hbase.1 hparent hlisted).liesIn_entry hname

/-- A file lies in its directory, also by upward steps. -/
theorem destination_directory {path : Path} {name : String} (hname : path.fileName? = some name) :
    destination path = destination path.directory ++ [name] := by
  obtain ⟨parent, hparent⟩ := exists_parent?_of_fileName? hname
  rw [FileTree.destination_parent hname hparent]
  rcases directory_cases hparent with ⟨-, heq⟩ | ⟨rfl, heq⟩ <;> rw [heq]
  rfl

end Path

namespace Family

variable {tree : FileTree} {base : Path} {place : Location}

/-! ## Siblings and members -/

theorem siblings_eq_ok {parts : NameParts} (hparts : NameParts.ofPath base = .ok parts) :
    siblings tree base = .ok (match base.directory.listed? with
      | some listed => (tree.list base.directory).filterMap (sibling? tree listed parts)
      | none => []) := by
  cases hlisted : base.directory.listed? <;> simp only [siblings, hparts, hlisted] <;> rfl

/-- The siblings are found under the names in a directory that can be searched. -/
theorem mem_iff_of_siblings {parts : NameParts} (hparts : NameParts.ofPath base = .ok parts)
    {numbered : List Member} (hsiblings : siblings tree base = .ok numbered) {member : Member} :
    member ∈ numbered ↔ ∃ listed, base.directory.listed? = some listed ∧
      ∃ other ∈ tree.list base.directory, sibling? tree listed parts other = some member := by
  rw [siblings_eq_ok hparts, Except.ok.injEq] at hsiblings
  rw [← hsiblings]
  cases hlisted : base.directory.listed? with
  | none => simp
  | some listed => simp [List.mem_filterMap]

section Alone

variable (halone : siblings tree base = .ok [])

include halone

theorem active_eq_of_alone : active tree base = .ok base := by
  rw [active, halone]
  rfl

theorem members_eq_of_alone :
    members tree base = .ok (if tree.isFile base then [base] else []) := by
  rw [members, halone, Outcome.ok_bind, Outcome.pure_eq_ok]
  split <;> simp

end Alone

theorem siblings_eq_nil {parts : NameParts} (hparts : NameParts.ofPath base = .ok parts)
    {listed : Path} (hlisted : base.directory.listed? = some listed) {here : Location}
    (hfind : tree.find base.directory = .ok (here, .directory))
    (hnone : ∀ name ∈ tree.namesIn here, sibling? tree listed parts name = none) :
    siblings tree base = .ok [] := by
  rw [siblings_eq_ok hparts, hlisted]
  dsimp only
  rw [FileTree.list, hfind]
  dsimp only
  rw [List.filterMap_eq_nil_iff.mpr fun name hname => hnone name (List.mem_mergeSort.mp hname)]

theorem sibling?_eq_some_iff {listed : Path} {parts : NameParts} {name : String} {member : Member} :
    sibling? tree listed parts name = some member ↔
      tree.isFile (listed.entry name) = true ∧
        (listed.entry name).extension? ≠ some Metadata.extension ∧
          tree.isFile (Metadata.path (listed.entry name)) = true ∧
            parts.number? name = some member.1 ∧ listed.entry name = member.2 := by
  obtain ⟨number, path⟩ := member
  rw [sibling?]
  dsimp only
  constructor
  · intro h
    split at h
    · rename_i hfound
      obtain ⟨found, hnumber, heq⟩ := Option.map_eq_some_iff.mp h
      rw [Prod.mk.injEq] at heq
      exact ⟨hfound.1, hfound.2.1, hfound.2.2, heq.1 ▸ hnumber, heq.2⟩
    · contradiction
  · rintro ⟨hfile, hextension, hmetadata, hnumber, heq⟩
    rw [if_pos ⟨hfile, hextension, hmetadata⟩, hnumber, heq]
    rfl

theorem mem_siblings (htree : tree.WellFormed) (hbase : base.LiesIn place)
    {numbered : List Member} (hsiblings : siblings tree base = .ok numbered) {member : Member}
    (hmember : member ∈ numbered) :
    member.2.LiesIn place ∧ tree.isFile member.2 = true := by
  obtain ⟨-, name, hname, -⟩ := id hbase
  obtain ⟨parts, hparts, -⟩ := exists_parts hname
  obtain ⟨listed, hlisted, other, hother, hsibling⟩ :=
    (mem_iff_of_siblings hparts hsiblings).mp hmember
  obtain ⟨hfile, -, -, -, heq⟩ := sibling?_eq_some_iff.mp hsibling
  rw [← heq]
  have hisName := FileTree.isName_of_mem_list htree hbase.directory.1 hother
  exact ⟨hbase.entry hlisted hisName, hfile⟩

theorem nodup_siblings (htree : tree.WellFormed) (hbase : base.LiesIn place)
    {numbered : List Member} (hsiblings : siblings tree base = .ok numbered) : numbered.Nodup := by
  obtain ⟨-, name, hname, -⟩ := id hbase
  obtain ⟨parts, hparts, -⟩ := exists_parts hname
  rw [siblings_eq_ok hparts, Except.ok.injEq] at hsiblings
  rw [← hsiblings]
  cases hlisted : base.directory.listed? with
  | none => exact List.nodup_nil
  | some listed =>
    dsimp only
    rw [List.Nodup, List.pairwise_filterMap]
    have hdirectory := hbase.directory.1
    apply List.Pairwise.imp_of_mem _ (FileTree.nodup_list htree.distinct _)
    intro left right hleft hright hne first hfirst second hsecond hsame
    obtain ⟨-, -, -, -, hleftPath⟩ := sibling?_eq_some_iff.mp hfirst
    obtain ⟨-, -, -, -, hrightPath⟩ := sibling?_eq_some_iff.mp hsecond
    have hentries : listed.entry left = listed.entry right := by rw [hleftPath, hrightPath, hsame]
    have hnames := congrArg Path.fileName? hentries
    rw [Path.fileName?_entry _ (FileTree.isName_of_mem_list htree hdirectory hleft),
      Path.fileName?_entry _ (FileTree.isName_of_mem_list htree hdirectory hright),
      Option.some.injEq] at hnames
    exact hne hnames

/-- The members are the base file, if it is there, and the siblings. -/
theorem mem_iff_of_members {files : List Path} (hmembers : members tree base = .ok files)
    {file : Path} : file ∈ files ↔ (tree.isFile base = true ∧ file = base) ∨
      ∃ numbered, siblings tree base = .ok numbered ∧ ∃ member ∈ numbered, member.2 = file := by
  rw [members] at hmembers
  obtain ⟨numbered, hsiblings, hfiles⟩ := Outcome.bind_eq_ok_iff.mp hmembers
  obtain rfl := Except.ok.inj hfiles
  simp only [List.mem_map, List.mem_mergeSort, List.mem_append, or_and_right, exists_or, hsiblings,
    Except.ok.injEq, exists_eq_left']
  refine or_congr_left ?_
  split <;> simp [*, eq_comm]

theorem mem_members (htree : tree.WellFormed) (hbase : base.LiesIn place)
    {files : List Path} (hmembers : members tree base = .ok files) {file : Path}
    (hfile : file ∈ files) : file.LiesIn place ∧ tree.isFile file = true := by
  rcases (mem_iff_of_members hmembers).mp hfile with ⟨hisFile, rfl⟩ |
    ⟨numbered, hsiblings, member, hmember, rfl⟩
  · exact ⟨hbase, hisFile⟩
  · exact mem_siblings htree hbase hsiblings hmember

theorem foldl_higher_mem {best : Option Member} {numbered : List Member} {member : Member}
    (hfold : numbered.foldl higher best = some member) : best = some member ∨ member ∈ numbered := by
  induction numbered generalizing best with
  | nil => exact .inl hfold
  | cons next rest ih =>
    rw [List.foldl_cons] at hfold
    rcases ih hfold with hbest | hmem
    · cases best with
      | none =>
        rw [higher, Option.some.injEq] at hbest
        exact .inr (hbest ▸ List.mem_cons_self)
      | some old =>
        rw [higher] at hbest
        split at hbest
        · rw [Option.some.injEq] at hbest
          exact .inr (hbest ▸ List.mem_cons_self)
        · exact .inl hbest
    · exact .inr (List.mem_cons_of_mem _ hmem)

theorem foldl_higher_eq_none {best : Option Member} {numbered : List Member}
    (hfold : numbered.foldl higher best = none) : numbered = [] := by
  have hsome : ∀ (members : List Member) (best : Member),
      (members.foldl higher (some best)).isSome = true := by
    intro members
    induction members with
    | nil => intro best; rfl
    | cons next rest ih =>
      intro best
      rw [List.foldl_cons, higher]
      split <;> exact ih _
  cases numbered with
  | nil => rfl
  | cons next rest =>
    have hnext : ∃ found, higher best next = some found := by
      cases best with
      | none => exact ⟨next, rfl⟩
      | some old =>
        rw [higher]
        split <;> exact ⟨_, rfl⟩
    obtain ⟨found, hfound⟩ := hnext
    rw [List.foldl_cons, hfound] at hfold
    have := hsome rest found
    rw [hfold] at this
    contradiction

/-- No member has a higher number than the one that is chosen. -/
theorem le_of_foldl_higher {best : Option Member} {numbered : List Member} {member : Member}
    (hfold : numbered.foldl higher best = some member) :
    ∀ other, other ∈ numbered ∨ best = some other → other.1 ≤ member.1 := by
  induction numbered generalizing best with
  | nil =>
    rintro other (hother | hother)
    · contradiction
    · rw [List.foldl_nil, hother, Option.some.injEq] at hfold
      rw [hfold]
  | cons next rest ih =>
    rw [List.foldl_cons] at hfold
    have hrest := ih hfold
    have hbound : next.1 ≤ member.1 ∧ ∀ old, best = some old → old.1 ≤ member.1 := by
      cases best with
      | none => exact ⟨hrest next (.inr rfl), fun old hold => by contradiction⟩
      | some old =>
        rw [higher] at hrest
        split at hrest
        · rename_i hle
          have hnext := hrest next (.inr rfl)
          exact ⟨hnext, fun other hother => by
            rw [← Option.some.inj hother]
            exact hle.trans hnext⟩
        · rename_i hlt
          have hold := hrest old (.inr rfl)
          exact ⟨by omega, fun other hother => by
            rw [← Option.some.inj hother]
            exact hold⟩
    rintro other (hother | hother)
    · rcases List.mem_cons.mp hother with rfl | hmem
      · exact hbound.1
      · exact hrest other (.inl hmem)
    · exact hbound.2 other hother

theorem active_eq_base_or_sibling {path : Path} (hactive : active tree base = .ok path) :
    path = base ∨ ∃ numbered, siblings tree base = .ok numbered ∧ ∃ member ∈ numbered,
      path = member.2 := by
  rw [active] at hactive
  cases hsiblings : siblings tree base with
  | error failure => rw [hsiblings] at hactive; contradiction
  | ok numbered =>
    rw [hsiblings] at hactive
    obtain rfl := Except.ok.inj hactive
    cases hfold : numbered.foldl higher none with
    | none => exact .inl rfl
    | some member =>
      have hmember := (foldl_higher_mem hfold).resolve_left (by simp)
      exact .inr ⟨numbered, rfl, member, hmember, rfl⟩

theorem active_liesIn (htree : tree.WellFormed) (hbase : base.LiesIn place) {path : Path}
    (hactive : active tree base = .ok path) : path.LiesIn place := by
  rcases active_eq_base_or_sibling hactive with rfl | ⟨numbered, hsiblings, member, hmember, rfl⟩
  · exact hbase
  · exact (mem_siblings htree hbase hsiblings hmember).1

/-! ## The place of a new member -/

theorem withFileName_numbered_liesIn (hbase : base.LiesIn place) {parts : NameParts}
    (hparts : NameParts.ofPath base = .ok parts) (number : ℕ) :
    (base.withFileName (parts.numbered number)).LiesIn place ∧
      (base.withFileName (parts.numbered number)).location =
        place ++ [parts.numbered number] := by
  obtain ⟨-, name, hname, -⟩ := id hbase
  have hisName := (parts_of_ofPath hparts hname).isName_numbered (Path.isName_of_fileName? hname)
    number
  obtain ⟨parent, hparent, -, hlocation⟩ := hbase.exists_parent
  refine ⟨hbase.withFileName hisName, ?_⟩
  rw [Path.withFileName_of_parent hname hparent, Path.location_join _ hisName, hlocation]

/-- All of these paths lead into the directory of the base file. -/
theorem destination_numbered {name : String} (hname : base.fileName? = some name) {parts : NameParts}
    (hparts : NameParts.ofPath base = .ok parts) (number : ℕ) :
    (base.withFileName (parts.numbered number)).fileName? = some (parts.numbered number) ∧
      destination (base.withFileName (parts.numbered number)) =
        destination base.directory ++ [parts.numbered number] := by
  have hisName := (parts_of_ofPath hparts hname).isName_numbered (Path.isName_of_fileName? hname) number
  obtain ⟨parent, hparent⟩ := Path.exists_parent?_of_fileName? hname
  have hbase := FileTree.destination_parent hname hparent
  rw [Path.destination_directory hname] at hbase
  rw [Path.withFileName_of_parent hname hparent]
  exact ⟨Path.fileName?_join _ hisName, by
    rw [FileTree.destination_join _ hisName, (List.append_inj' hbase rfl).1]⟩

theorem exists_fileName?_of_ofPath {parts : NameParts} (hparts : NameParts.ofPath base = .ok parts) :
    ∃ name, base.fileName? = some name := by
  cases hname : base.fileName? with
  | none =>
    rw [NameParts.ofPath, Path.stem?, hname] at hparts
    contradiction
  | some name => exact ⟨name, rfl⟩

/-- There are fewer names in the directory than candidates, so one of these is free. -/
theorem exists_free_among_names (tree : FileTree) {parts : NameParts}
    (hparts : NameParts.ofPath base = .ok parts) :
    ∃ index < (tree.namesIn (destination base.directory)).length + 1,
      tree.isPresent (base.withFileName (parts.numbered (index + 1))) = false := by
  obtain ⟨name, hname⟩ := exists_fileName?_of_ofPath hparts
  by_contra hnone
  push Not at hnone
  have hsub : ((List.range ((tree.namesIn (destination base.directory)).length + 1)).map
      fun index => parts.numbered (index + 1)) ⊆ tree.namesIn (destination base.directory) := by
    intro name hin
    obtain ⟨index, hindex, rfl⟩ := List.mem_map.mp hin
    have hpresent := hnone index (List.mem_range.mp hindex)
    rw [Bool.ne_false_iff, FileTree.isPresent, Option.isSome_iff_exists] at hpresent
    obtain ⟨node, hnode⟩ := hpresent
    rw [FileTree.mem_namesIn_iff, ← (destination_numbered hname hparts (index + 1)).2,
      FileTree.get?_of_node? hnode]
    rfl
  have hnodup : ((List.range ((tree.namesIn (destination base.directory)).length + 1)).map
      fun index => parts.numbered (index + 1)).Nodup := by
    apply List.Nodup.map _ List.nodup_range
    intro first second hsame
    exact Nat.succ_injective (numbered_injective parts hsame)
  have hlength := (hnodup.subperm hsub).length_le
  rw [List.length_map, List.length_range] at hlength
  omega

theorem exists_free (tree : FileTree) {parts : NameParts}
    (hparts : NameParts.ofPath base = .ok parts) :
    ∃ index < tree.nodes.length + 1,
      tree.isPresent (base.withFileName (parts.numbered (index + 1))) = false := by
  obtain ⟨index, hindex, hfree⟩ := exists_free_among_names tree hparts
  have hnodes : (tree.namesIn (destination base.directory)).length ≤ tree.nodes.length := by
    rw [FileTree.namesIn]
    exact List.length_filterMap_le _ _
  exact ⟨index, by omega, hfree⟩

/-- Rows go to the base file or to a new member. -/
theorem target_eq_base_or_numbered {parts : NameParts} (hparts : NameParts.ofPath base = .ok parts)
    {needsNew : Bool} {path : Path} (htarget : target tree base needsNew = .ok path) :
    path = base ∨ ∃ number, path = base.withFileName (parts.numbered (number + 1)) := by
  rw [target] at htarget
  split at htarget
  · exact .inl (Except.ok.inj htarget).symm
  · rw [next, hparts, Outcome.ok_bind] at htarget
    obtain rfl := Except.ok.inj htarget
    cases hfree : (candidates tree base parts).find? fun path => !tree.isPresent path with
    | none => exact .inl rfl
    | some path =>
      obtain ⟨number, -, rfl⟩ := List.mem_map.mp (List.mem_of_find?_eq_some hfree)
      exact .inr ⟨number, rfl⟩

/-- A new member gets the least number at whose place there is nothing. -/
theorem next_eq_ok_iff {parts : NameParts} (hparts : NameParts.ofPath base = .ok parts)
    {path : Path} :
    next tree base = .ok path ↔ ∃ number, path = base.withFileName (parts.numbered (number + 1)) ∧
      tree.isPresent path = false ∧ ∀ smaller < number,
        tree.isPresent (base.withFileName (parts.numbered (smaller + 1))) = true := by
  obtain ⟨index, hindex, hfree⟩ := exists_free tree hparts
  have hnext : next tree base = .ok ((((List.range (tree.nodes.length + 1)).find? fun number =>
      !tree.isPresent (base.withFileName (parts.numbered (number + 1)))).map fun number =>
        base.withFileName (parts.numbered (number + 1))).getD base) := by
    simp only [next, hparts, Outcome.ok_bind, Outcome.pure_eq_ok, candidates, List.find?_map,
      Function.comp_def]
  have hfound : ∃ number, (List.range (tree.nodes.length + 1)).find? (fun number =>
      !tree.isPresent (base.withFileName (parts.numbered (number + 1)))) = some number := by
    apply Option.isSome_iff_exists.mp
    rw [List.find?_isSome]
    exact ⟨index, List.mem_range.mpr hindex, by rw [hfree]; rfl⟩
  obtain ⟨number, hnumber⟩ := hfound
  have hleast := List.find?_range_eq_some.mp hnumber
  rw [hnext, hnumber, Option.map_some, Option.getD_some, Except.ok.injEq]
  constructor
  · rintro rfl
    refine ⟨number, rfl, by simpa using hleast.1, ?_⟩
    intro smaller hsmaller
    simpa using hleast.2.2 smaller hsmaller
  · rintro ⟨other, rfl, hother, hbelow⟩
    have hsame : number = other := by
      rcases Nat.lt_trichotomy number other with hlt | heq | hlt
      · have := hbelow number hlt
        simp [this] at hleast
      · exact heq
      · have := hleast.2.2 other hlt
        simp [hother] at this
    rw [hsame]

theorem exists_next_of_ofPath (tree : FileTree) {parts : NameParts}
    (hparts : NameParts.ofPath base = .ok parts) : ∃ path, next tree base = .ok path := by
  rw [next, hparts]
  exact ⟨_, rfl⟩

/-- The place of a new member depends only on where there is something. -/
theorem next_eq_of_isPresent {other : FileTree} {parts : NameParts}
    (hparts : NameParts.ofPath base = .ok parts) (hpresent : ∀ number,
      other.isPresent (base.withFileName (parts.numbered (number + 1))) =
        tree.isPresent (base.withFileName (parts.numbered (number + 1)))) :
    next other base = next tree base := by
  obtain ⟨path, hpath⟩ := exists_next_of_ofPath tree hparts
  rw [hpath]
  refine (next_eq_ok_iff hparts).mpr ?_
  obtain ⟨number, rfl, habsent, hbelow⟩ := (next_eq_ok_iff hparts).mp hpath
  exact ⟨number, rfl, (hpresent _).trans habsent, fun smaller hsmaller =>
    (hpresent _).trans (hbelow smaller hsmaller)⟩

/-- What stands where rows are to go after a full file is no file, whatever the base file is. -/
theorem isFile_of_target {path : Path} (htarget : target tree base true = .ok path) :
    tree.isFile path = false := by
  have habsent : ∀ {path : Path}, tree.isPresent path = false → tree.isFile path = false := by
    intro path hpresent
    rw [FileTree.isPresent, Option.isSome_eq_false_iff, Option.isNone_iff_eq_none] at hpresent
    rw [FileTree.isFile, hpresent]
  rw [target] at htarget
  split at htarget
  · rename_i hbaseFree
    obtain rfl := Except.ok.inj htarget
    rw [Bool.not_true, Bool.or_false, Bool.or_eq_true, Bool.not_eq_true'] at hbaseFree
    rcases hbaseFree with hdirectory | hpresent
    · rw [FileTree.isDirectory, decide_eq_true_iff] at hdirectory
      rw [FileTree.isFile, hdirectory]
    · exact habsent hpresent
  · obtain ⟨parts, hparts, -⟩ := Outcome.bind_eq_ok_iff.mp htarget
    obtain ⟨number, rfl, hfree, -⟩ := (next_eq_ok_iff hparts).mp htarget
    exact habsent hfree

theorem exists_next (tree : FileTree) (hbase : base.LiesIn place) :
    ∃ path, next tree base = .ok path ∧ path.LiesIn place := by
  obtain ⟨-, name, hname, -⟩ := id hbase
  obtain ⟨parts, hparts, -⟩ := exists_parts hname
  obtain ⟨path, hpath⟩ := exists_next_of_ofPath tree hparts
  obtain ⟨number, rfl, -, -⟩ := (next_eq_ok_iff hparts).mp hpath
  exact ⟨_, hpath, (withFileName_numbered_liesIn hbase hparts _).1⟩

/-! ## Agreement -/

section Agreement

variable {before after : World} (hsame : World.SameBelow place before after)
  (hbefore : before.tree.WellFormed) (hafter : after.tree.WellFormed) (hbase : base.LiesIn place)

include hsame hbefore hafter hbase

theorem siblings_congr : siblings after.tree base = siblings before.tree base := by
  obtain ⟨-, name, hname, -⟩ := id hbase
  obtain ⟨parts, hparts, -⟩ := exists_parts hname
  rw [siblings_eq_ok hparts, siblings_eq_ok hparts]
  cases hlisted : base.directory.listed? with
  | none => rfl
  | some listed =>
    dsimp only
    rw [hsame.list_eq hbefore hafter hbase.directory.1 hbase.directory.2]
    apply congrArg Except.ok
    apply List.filterMap_congr
    intro other hother
    have hentry := hbase.entry hlisted
      (FileTree.isName_of_mem_list hbefore hbase.directory.1 hother)
    rw [sibling?, sibling?]
    simp only [hsame.isFile_eq hbefore hafter hentry,
      hsame.isFile_eq hbefore hafter (Path.liesIn_metadata hentry)]

theorem members_congr : members after.tree base = members before.tree base := by
  rw [members, members, siblings_congr hsame hbefore hafter hbase,
    hsame.isFile_eq hbefore hafter hbase]

theorem active_congr : active after.tree base = active before.tree base := by
  rw [active, active, siblings_congr hsame hbefore hafter hbase]

theorem next_congr : next after.tree base = next before.tree base := by
  obtain ⟨-, name, hname, -⟩ := id hbase
  obtain ⟨parts, hparts, -⟩ := exists_parts hname
  exact next_eq_of_isPresent hparts fun number =>
    hsame.isPresent_eq hbefore hafter (withFileName_numbered_liesIn hbase hparts _).1

theorem target_congr (needsNew : Bool) :
    target after.tree base needsNew = target before.tree base needsNew := by
  rw [target, target, hsame.isDirectory_eq hbefore hafter hbase,
    hsame.isPresent_eq hbefore hafter hbase, next_congr hsame hbefore hafter hbase]

end Agreement

theorem target_liesIn (hbase : base.LiesIn place) {needsNew : Bool}
    {path : Path} (htarget : target tree base needsNew = .ok path) : path.LiesIn place := by
  rw [target] at htarget
  split at htarget
  · exact Except.ok.inj htarget ▸ hbase
  · obtain ⟨other, hother, hliesIn⟩ := exists_next tree hbase
    rw [hother] at htarget
    exact Except.ok.inj htarget ▸ hliesIn

end Family

end TableAppend
