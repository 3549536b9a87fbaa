import TableAppend.Proofs.Path.Location

/-!
# Looking up paths in a tree

In a tree whose nodes all lie in directories, what a path without upward steps leads to depends only on
the node at its location.  `find_eq_ok_iff` and `place_eq_ok_iff` say so, and nothing after this file
follows a path step by step.
-/

namespace TableAppend.FileTree

open TableAppend.Path (Descends IsName location)

/-- Every node lies in a directory and is reached through names, and none is there twice. -/
structure WellFormed (tree : FileTree) : Prop where
  grounded : ∀ {location : Location} {name : String} {node : Node},
    tree.get? (location ++ [name]) = some node → tree.isDirectoryAt location = true
  named : ∀ {location : Location} {node : Node}, tree.get? location = some node →
    ∀ name ∈ location, IsName name
  distinct : (tree.nodes.map Prod.fst).Nodup

variable {tree : FileTree}

@[simp]
theorem get?_nil (tree : FileTree) : tree.get? [] = some .directory := rfl

theorem isDirectoryAt_iff {location : Location} :
    tree.isDirectoryAt location = true ↔ tree.get? location = some .directory := by
  simp [isDirectoryAt]

theorem get?_empty {location : Location} (hne : location ≠ []) : empty.get? location = none := by
  simp [get?, empty, hne]

theorem get?_empty_ne_file (place : Location) (content : Content) :
    empty.get? place ≠ some (.file content) := by
  by_cases hroot : place = []
  · rw [hroot]
    simp [get?]
  · rw [get?_empty hroot]
    simp

theorem wellFormed_empty : empty.WellFormed := by
  constructor
  · intro location name node hnode
    rw [get?_empty (by simp)] at hnode
    contradiction
  · intro location node hnode name hname
    have hne : location ≠ [] := List.ne_nil_of_mem hname
    rw [get?_empty hne] at hnode
    contradiction
  · exact List.nodup_nil

/-- All that lies above a node is a directory. -/
theorem WellFormed.isDirectoryAt_above (htree : tree.WellFormed) {above below : Location}
    {node : Node} (hnode : tree.get? (above ++ below) = some node) (hbelow : below ≠ []) :
    tree.isDirectoryAt above = true := by
  induction below using List.reverseRecOn generalizing node with
  | nil => contradiction
  | append_singleton init name ih =>
    rw [← List.append_assoc] at hnode
    have hinit := htree.grounded hnode
    by_cases hnil : init = []
    · simpa [hnil] using hinit
    · exact ih (isDirectoryAt_iff.mp hinit) hnil

theorem WellFormed.isSome_above (htree : tree.WellFormed) {above below : Location}
    (hnode : (tree.get? (above ++ below)).isSome) : (tree.get? above).isSome := by
  by_cases hbelow : below = []
  · simpa [hbelow] using hnode
  · obtain ⟨node, hnode⟩ := Option.isSome_iff_exists.mp hnode
    rw [isDirectoryAt_iff.mp (htree.isDirectoryAt_above hnode hbelow)]
    rfl

/-- A directory lists each of its names once. -/
theorem nodup_namesIn (hdistinct : (tree.nodes.map Prod.fst).Nodup) (here : Location) :
    (tree.namesIn here).Nodup := by
  rw [List.nodup_iff_pairwise_ne, List.pairwise_map] at hdistinct
  rw [namesIn, List.nodup_iff_pairwise_ne, List.pairwise_filterMap]
  refine hdistinct.imp (@fun (first, _) (second, _) hne => ?_)
  intro name hfirst other hother
  dsimp only at hne hfirst hother
  by_cases hhere : first.dropLast = here
  · by_cases hthere : second.dropLast = here
    · rintro rfl
      rw [if_pos hhere] at hfirst
      rw [if_pos hthere] at hother
      obtain ⟨init, hinit⟩ := List.getLast?_eq_some_iff.mp hfirst
      obtain ⟨rest, hrest⟩ := List.getLast?_eq_some_iff.mp hother
      rw [hinit, List.dropLast_concat] at hhere
      rw [hrest, List.dropLast_concat] at hthere
      exact hne (by rw [hinit, hrest, hhere, hthere])
    · rw [if_neg hthere] at hother
      contradiction
  · rw [if_neg hhere] at hfirst
    contradiction

theorem mem_namesIn_iff {here : Location} {name : String} :
    name ∈ tree.namesIn here ↔ (tree.get? (here ++ [name])).isSome := by
  have hne : here ++ [name] ≠ [] := by simp
  have hlookup : (tree.nodes.lookup (here ++ [name])).isSome ↔
      ∃ node, (here ++ [name], node) ∈ tree.nodes := by
    rw [List.lookup_isSome_iff]
    constructor
    · rintro ⟨⟨other, node⟩, hmem, hsame⟩
      exact ⟨node, eq_of_beq hsame ▸ hmem⟩
    · rintro ⟨node, hmem⟩
      exact ⟨_, hmem, beq_self_eq_true _⟩
  rw [namesIn, List.mem_filterMap, get?, if_neg hne, hlookup]
  constructor
  · rintro ⟨⟨other, node⟩, hmem, hother⟩
    dsimp only at hother
    split at hother
    · rename_i hhere
      obtain ⟨init, hinit⟩ := List.getLast?_eq_some_iff.mp hother
      subst hinit
      rw [List.dropLast_concat] at hhere
      subst hhere
      exact ⟨node, hmem⟩
    · contradiction
  · rintro ⟨node, hmem⟩
    exact ⟨_, hmem, by simp⟩

/-! ## Listed names -/

theorem mem_list_of_find {path : Path} {here : Location} {name : String}
    (hfind : tree.find path = .ok (here, .directory)) :
    name ∈ tree.list path ↔ name ∈ tree.namesIn here := by
  rw [list, hfind]
  exact List.mem_mergeSort

theorem nodup_list (hdistinct : (tree.nodes.map Prod.fst).Nodup) (path : Path) :
    (tree.list path).Nodup := by
  rw [list]
  split
  · exact (List.mergeSort_perm _ _).nodup_iff.mpr (nodup_namesIn hdistinct _)
  · exact List.nodup_nil

/-- Names are listed in their order. -/
theorem pairwise_list (tree : FileTree) (path : Path) : (tree.list path).Pairwise (· ≤ ·) := by
  have hle : ∀ first second : String, (!decide (second < first)) = true ↔ first ≤ second := by
    intro first second
    rw [Bool.not_eq_true', decide_eq_false_iff_not, not_lt]
  rw [list]
  split
  · refine (List.pairwise_mergeSort ?_ ?_ _).imp fun {first second} => (hle first second).mp
    · intro first second third hfirst hsecond
      exact (hle _ _).mpr (((hle _ _).mp hfirst).trans ((hle _ _).mp hsecond))
    · intro first second
      rw [Bool.or_eq_true, hle, hle]
      exact le_total first second
  · exact .nil

/-- What is picked from sorted names depends only on which of the names can be picked. -/
theorem filterMap_eq_of_sorted {α : Type} {pick : String → Option α} {left right : List String}
    (hleftSorted : left.Pairwise (· ≤ ·)) (hrightSorted : right.Pairwise (· ≤ ·))
    (hleft : left.Nodup) (hright : right.Nodup)
    (hmem : ∀ name, (pick name).isSome = true → (name ∈ left ↔ name ∈ right)) :
    left.filterMap pick = right.filterMap pick := by
  have hkeep : ∀ names : List String, names.filterMap pick =
      (names.filter fun name => (pick name).isSome).filterMap pick := by
    intro names
    rw [List.filterMap_filter]
    refine List.filterMap_congr fun name _ => ?_
    cases hname : pick name <;> simp
  rw [hkeep, hkeep right]
  congr 1
  refine List.Perm.eq_of_pairwise (fun _ _ _ _ => le_antisymm) (hleftSorted.filter _)
    (hrightSorted.filter _) ?_
  refine (List.perm_ext_iff_of_nodup (hleft.filter _) (hright.filter _)).mpr fun name => ?_
  rw [List.mem_filter, List.mem_filter]
  exact and_congr_left (hmem name)

/-! ## Walking -/

/-- The names on a way. -/
def wayNames (way : List Step) : Location :=
  way.filterMap Step.name?

theorem location_eq_wayNames (path : Path) : path.location = wayNames (steps path) := by
  rw [location, wayNames, steps, List.filterMap_filterMap]
  rfl

theorem up_notMem_steps {path : Path} (hpath : Descends path) : Step.up ∉ steps path := by
  intro hmem
  obtain ⟨piece, hpiece, hup⟩ := List.mem_filterMap.mp hmem
  rw [Step.ofPiece?] at hup
  split at hup
  · contradiction
  split at hup
  · simp at hup
  split at hup
  · rename_i hdots
    subst hdots
    exact hpath hpiece
  · simp at hup

theorem walk_cons (here : Location) (next : Step) (rest : List Step) :
    tree.walk here (next :: rest) =
      match tree.step here next with
      | .ok there => if (tree.get? there).isSome then tree.walk there rest else .error .notFound
      | .error fault => .error fault := by
  rw [walk]
  cases tree.step here next <;> rfl

/-- A step down is made in a directory, by a name that is not too long. -/
theorem step_down_eq_ok_iff {here there : Location} {name : String} :
    tree.step here (.down name) = .ok there ↔
      tree.isDirectoryAt here = true ∧ name.utf8ByteSize ≤ longestName ∧ there = here ++ [name] := by
  rw [step]
  by_cases hdirectory : tree.isDirectoryAt here = true
  · by_cases hlong : longestName < name.utf8ByteSize
    · simp [hdirectory, hlong]
    · simp [hdirectory, hlong, Nat.le_of_not_lt hlong, eq_comm]
  · simp [hdirectory]

/-- A stay is a step only where there is a directory. -/
theorem walk_stay_eq_ok_iff {here there : Location} (hhere : (tree.get? here).isSome)
    {rest : List Step} : tree.walk here (.stay :: rest) = .ok there ↔
      tree.isDirectoryAt here = true ∧ tree.walk here rest = .ok there := by
  rw [walk_cons, step]
  by_cases hdirectory : tree.isDirectoryAt here = true
  · simp [hdirectory, hhere]
  · simp [hdirectory]

/-- A step down needs a name that is not too long and leads to something. -/
theorem walk_down_eq_ok_iff {here there : Location} {name : String} {rest : List Step} :
    tree.walk here (.down name :: rest) = .ok there ↔ tree.isDirectoryAt here = true ∧
      name.utf8ByteSize ≤ longestName ∧ (tree.get? (here ++ [name])).isSome ∧
        tree.walk (here ++ [name]) rest = .ok there := by
  rw [walk_cons, step]
  by_cases hdirectory : tree.isDirectoryAt here = true
  · by_cases hlong : longestName < name.utf8ByteSize
    · simp [hdirectory, hlong]
    · cases hget : (tree.get? (here ++ [name])).isSome <;>
        simp [hdirectory, hlong, hget, Nat.le_of_not_lt hlong]
  · simp [hdirectory]

/-- A way without names that does not lead up stays where it begins. -/
theorem getLast?_eq_stay {way : List Step} (hup : .up ∉ way) (hnone : wayNames way = [])
    (hne : way ≠ []) : way.getLast? = some .stay := by
  rw [List.getLast?_eq_some_getLast hne, Option.some.injEq]
  have hlast := List.getLast_mem hne
  have hname := List.filterMap_eq_nil_iff.mp hnone _ hlast
  cases hstep : way.getLast hne with
  | stay => rfl
  | up => exact absurd (hstep ▸ hlast) hup
  | down name => simp [hstep, Step.name?] at hname

/-- A way leads down to its last name if everything on it is there, and where it ends with a stay that
has to be a directory. -/
theorem walk_eq_ok_iff (htree : tree.WellFormed) {here there : Location} {way : List Step}
    (hhere : (tree.get? here).isSome) (hup : .up ∉ way) :
    tree.walk here way = .ok there ↔
      there = here ++ wayNames way ∧ (∀ name ∈ wayNames way, name.utf8ByteSize ≤ longestName) ∧
        (tree.get? there).isSome ∧ (way.getLast? = some .stay → tree.isDirectoryAt there = true) := by
  induction way generalizing here with
  | nil =>
    rw [walk]
    constructor
    · intro h
      obtain rfl : here = there := by simpa using h
      simp [wayNames, hhere]
    · rintro ⟨rfl, -⟩
      simp [wayNames]
  | cons next rest ih =>
    have hrest : Step.up ∉ rest := fun h => hup (List.mem_cons_of_mem _ h)
    cases next with
    | up => exact absurd (List.mem_cons_self) hup
    | stay =>
      have hnames : wayNames (.stay :: rest) = wayNames rest := rfl
      rw [walk_stay_eq_ok_iff hhere, ih hhere hrest, hnames]
      constructor
      · rintro ⟨hdirectory, rfl, hshort, hsome, hstay⟩
        refine ⟨rfl, hshort, hsome, fun hlast => ?_⟩
        cases rest with
        | nil => simpa [wayNames] using hdirectory
        | cons second others => exact hstay (by rwa [List.getLast?_cons_cons] at hlast)
      · rintro ⟨rfl, hshort, hsome, hstay⟩
        refine ⟨?_, rfl, hshort, hsome, fun hlast => hstay ?_⟩
        · by_cases hnone : wayNames rest = []
          · have hdirectory := hstay (getLast?_eq_stay hup (hnames.trans hnone) (List.cons_ne_nil _ _))
            rwa [hnone, List.append_nil] at hdirectory
          · obtain ⟨node, hnode⟩ := Option.isSome_iff_exists.mp hsome
            exact htree.isDirectoryAt_above hnode hnone
        · rw [List.getLast?_cons, hlast, Option.getD_some]
    | down name =>
      have hnames : wayNames (.down name :: rest) = name :: wayNames rest := rfl
      have hlast : (Step.down name :: rest).getLast? = some .stay ↔ rest.getLast? = some .stay := by
        cases rest <;> simp
      have hassoc : here ++ name :: wayNames rest = (here ++ [name]) ++ wayNames rest := by simp
      rw [walk_down_eq_ok_iff, hnames, hlast, hassoc, List.forall_mem_cons]
      constructor
      · rintro ⟨-, hname, hnext, hwalk⟩
        obtain ⟨rfl, hshort, hthere⟩ := (ih hnext hrest).mp hwalk
        exact ⟨rfl, ⟨hname, hshort⟩, hthere⟩
      · rintro ⟨rfl, ⟨hname, hshort⟩, hsome, hstay⟩
        have hnext : (tree.get? (here ++ [name])).isSome := htree.isSome_above hsome
        obtain ⟨node, hnode⟩ := Option.isSome_iff_exists.mp hnext
        exact ⟨htree.grounded hnode, hname, hnext, (ih hnext hrest).mpr ⟨rfl, hshort, hsome, hstay⟩⟩

/-! ## Finding -/

/-- A path that the system takes: neither it nor a name in it is too long. -/
def IsUsable (path : Path) : Prop :=
  checkPath path = .ok () ∧ ∀ name ∈ location path, name.utf8ByteSize ≤ longestName

/-- A path that may lead to a file, because nothing follows its last name. -/
def EndsInName (path : Path) : Prop :=
  (∃ name, (steps path).getLast? = some (.down name)) ∧ endsInSeparator path = false

theorem endsInName_join (outer : Path) {name : String} (hname : IsName name) :
    EndsInName (outer.join name) := by
  refine ⟨⟨name, ?_⟩, Path.endsInSeparator_join outer hname⟩
  rw [Path.steps_join outer hname, List.getLast?_concat]

theorem find_eq (path : Path) :
    tree.find path =
      match checkPath path with
      | .error fault => .error fault
      | .ok () =>
        match tree.walk [] (steps path) with
        | .error fault => .error fault
        | .ok location =>
          match tree.get? location with
          | none => .error .notFound
          | some (.file content) =>
            if endsInSeparator path then .error .notDirectory else .ok (location, .file content)
          | some .directory => .ok (location, .directory) := by
  rw [find]
  cases checkPath path with
  | error fault => rfl
  | ok _ => cases tree.walk [] (steps path) <;> rfl

/-- A path leads where its steps lead, to a file only if no separator ends it. -/
theorem find_eq_ok_iff_walk {path : Path} {there : Location} {node : Node} :
    tree.find path = .ok (there, node) ↔ checkPath path = .ok () ∧
      tree.walk [] (steps path) = .ok there ∧ tree.get? there = some node ∧
        (node = .directory ∨ endsInSeparator path = false) := by
  rw [find_eq]
  constructor
  · intro hfind
    split at hfind
    · contradiction
    rename_i hcheck
    split at hfind
    · contradiction
    rename_i walked hwalked
    split at hfind
    · contradiction
    · rename_i content hcontent
      split at hfind
      · contradiction
      · rename_i hends
        obtain ⟨rfl, rfl⟩ : walked = there ∧ Node.file content = node := by simpa using hfind
        exact ⟨hcheck, hwalked, hcontent, .inr (by simpa using hends)⟩
    · rename_i hdirectory
      obtain ⟨rfl, rfl⟩ : walked = there ∧ Node.directory = node := by simpa using hfind
      exact ⟨hcheck, hwalked, hdirectory, .inl rfl⟩
  · rintro ⟨hcheck, hwalk, hnode, hends⟩
    simp only [hcheck, hwalk, hnode]
    cases node with
    | directory => rfl
    | file content => simp [hends.resolve_left (by simp)]

/-- A path leads to the node at its location, to a file only if it ends in a name. -/
theorem find_eq_ok_iff (htree : tree.WellFormed) {path : Path} (hpath : Descends path)
    {there : Location} {node : Node} :
    tree.find path = .ok (there, node) ↔
      IsUsable path ∧ there = location path ∧ tree.get? there = some node ∧
        (node = .directory ∨ EndsInName path) := by
  have hup := up_notMem_steps hpath
  have hwalk := @walk_eq_ok_iff tree htree [] there (steps path) rfl hup
  rw [List.nil_append, ← location_eq_wayNames] at hwalk
  rw [find_eq_ok_iff_walk, hwalk]
  constructor
  · rintro ⟨hcheck, ⟨hlocation, hshort, -, hstay⟩, hnode, hkind⟩
    refine ⟨⟨hcheck, hshort⟩, hlocation, hnode, ?_⟩
    cases node with
    | directory => exact .inl rfl
    | file content =>
      refine .inr ⟨?_, hkind.resolve_left (by simp)⟩
      rcases List.eq_nil_or_concat (steps path) with hnil | ⟨init, last, hconcat⟩
      · rw [location_eq_wayNames, hnil] at hlocation
        subst hlocation
        simp [wayNames] at hnode
      · rw [List.concat_eq_append] at hconcat
        rw [hconcat, List.getLast?_concat] at hstay ⊢
        cases last with
        | down name => exact ⟨name, rfl⟩
        | up => exact absurd (by simp [hconcat]) hup
        | stay => simp [isDirectoryAt_iff, hnode] at hstay
  · rintro ⟨⟨hcheck, hshort⟩, rfl, hnode, hkind⟩
    refine ⟨hcheck, ⟨rfl, hshort, by simp [hnode], fun hstay => ?_⟩, hnode, hkind.imp_right (·.2)⟩
    rcases hkind with rfl | ⟨⟨name, hlast⟩, -⟩
    · exact isDirectoryAt_iff.mpr hnode
    · rw [hlast] at hstay
      simp at hstay

theorem node?_eq_some_iff_find {path : Path} {node : Node} :
    tree.node? path = some node ↔ ∃ there, tree.find path = .ok (there, node) := by
  rw [node?]
  rcases tree.find path with fault | ⟨there, found⟩ <;> simp

theorem node?_eq_some_iff (htree : tree.WellFormed) {path : Path} (hpath : Descends path)
    {node : Node} :
    tree.node? path = some node ↔
      IsUsable path ∧ tree.get? (location path) = some node ∧
        (node = .directory ∨ EndsInName path) := by
  rw [node?_eq_some_iff_find]
  constructor
  · rintro ⟨there, hthere⟩
    obtain ⟨husable, rfl, h⟩ := (find_eq_ok_iff htree hpath).mp hthere
    exact ⟨husable, h⟩
  · rintro ⟨husable, h⟩
    exact ⟨_, (find_eq_ok_iff htree hpath).mpr ⟨husable, rfl, h⟩⟩

/-- A path at which a file can be found. -/
structure Reachable (path : Path) : Prop where
  usable : IsUsable path
  endsInName : EndsInName path

theorem node?_eq_file_iff (htree : tree.WellFormed) {path : Path} (hpath : Descends path)
    {content : Content} :
    tree.node? path = some (.file content) ↔
      Reachable path ∧ tree.get? (location path) = some (.file content) := by
  rw [node?_eq_some_iff htree hpath]
  constructor
  · rintro ⟨husable, hget, hends⟩
    exact ⟨⟨husable, hends.resolve_left (by simp)⟩, hget⟩
  · rintro ⟨⟨husable, hends⟩, hget⟩
    exact ⟨husable, hget, .inr hends⟩

/-- Two paths that lead to one place find the same there. -/
theorem node?_eq_of_reachable (htree : tree.WellFormed) {first second : Path}
    (hfirst : Descends first) (hsecond : Descends second) (hreachFirst : Reachable first)
    (hreachSecond : Reachable second) (hlocation : location first = location second) :
    tree.node? first = tree.node? second := by
  apply Option.ext
  intro node
  rw [node?_eq_some_iff htree hfirst, node?_eq_some_iff htree hsecond, hlocation]
  constructor
  · rintro ⟨-, hget, -⟩
    exact ⟨hreachSecond.usable, hget, .inr hreachSecond.endsInName⟩
  · rintro ⟨-, hget, -⟩
    exact ⟨hreachFirst.usable, hget, .inr hreachFirst.endsInName⟩

theorem isFile_iff {path : Path} :
    tree.isFile path = true ↔ ∃ content, tree.node? path = some (.file content) := by
  rw [isFile]
  cases hnode : tree.node? path with
  | none => simp
  | some node => cases node <;> simp

theorem isFile_iff_get? (htree : tree.WellFormed) {path : Path} (hpath : Descends path) :
    tree.isFile path = true ↔
      Reachable path ∧ ∃ content, tree.get? (location path) = some (.file content) := by
  rw [isFile_iff]
  simp only [node?_eq_file_iff htree hpath, exists_and_left]

theorem isFile_congr {other : FileTree} (htree : tree.WellFormed) (hother : other.WellFormed)
    {path : Path} (hpath : Descends path)
    (hget : other.get? (location path) = tree.get? (location path)) :
    other.isFile path = tree.isFile path := by
  rw [Bool.eq_iff_iff, isFile_iff_get? hother hpath, isFile_iff_get? htree hpath, hget]

theorem isDirectory_iff {path : Path} :
    tree.isDirectory path = true ↔ tree.node? path = some .directory := by
  simp [isDirectory]

/-! ## Places -/

theorem place_eq (path : Path) (otherwise : IoFault) :
    tree.place path otherwise =
      match checkPath path with
      | .error fault => .error fault
      | .ok () =>
        match tree.walk [] (steps path).dropLast with
        | .error fault => .error fault
        | .ok here =>
          match (steps path).getLast? with
          | some (.down name) => tree.step here (.down name)
          | some _ => if tree.isDirectoryAt here then .error otherwise else .error .notDirectory
          | none => .error otherwise := by
  rw [place]
  cases checkPath path with
  | error fault => rfl
  | ok _ => cases tree.walk [] (steps path).dropLast <;> rfl

theorem location_of_getLast? {path : Path} {name : String}
    (hlast : (steps path).getLast? = some (.down name)) :
    location path = wayNames (steps path).dropLast ++ [name] := by
  obtain ⟨init, hinit⟩ := List.getLast?_eq_some_iff.mp hlast
  rw [location_eq_wayNames, hinit, List.dropLast_concat, wayNames, List.filterMap_append]
  rfl

theorem place_eq_ok_iff_walk {path : Path} {otherwise : IoFault} {there : Location} :
    tree.place path otherwise = .ok there ↔ checkPath path = .ok () ∧ ∃ above name,
      tree.walk [] (steps path).dropLast = .ok above ∧ (steps path).getLast? = some (.down name) ∧
        tree.step above (.down name) = .ok there := by
  rw [place_eq]
  constructor
  · intro hplace
    split at hplace
    · contradiction
    rename_i hcheck
    split at hplace
    · contradiction
    rename_i above habove
    split at hplace
    · rename_i name hlast
      exact ⟨hcheck, above, name, habove, hlast, hplace⟩
    · split at hplace <;> contradiction
    · contradiction
  · rintro ⟨hcheck, above, name, hwalk, hlast, hstep⟩
    simp only [hcheck, hwalk, hlast, hstep]

/-- A path has a place in the directory above its location, if it ends in a name. -/
theorem place_eq_ok_iff (htree : tree.WellFormed) {path : Path} (hpath : Descends path)
    {otherwise : IoFault} {there : Location} :
    tree.place path otherwise = .ok there ↔
      IsUsable path ∧ there = location path ∧
        (∃ name, (steps path).getLast? = some (.down name)) ∧
          tree.isDirectoryAt there.dropLast = true := by
  have hup : Step.up ∉ (steps path).dropLast :=
    fun h => up_notMem_steps hpath (List.mem_of_mem_dropLast h)
  have hwalk := fun here => @walk_eq_ok_iff tree htree [] here (steps path).dropLast rfl hup
  rw [place_eq_ok_iff_walk]
  constructor
  · rintro ⟨hcheck, above, name, habove, hlast, hstep⟩
    obtain ⟨rfl, hshort, -, -⟩ := (hwalk above).mp habove
    obtain ⟨hdirectory, hlong, rfl⟩ := step_down_eq_ok_iff.mp hstep
    have hfull := location_of_getLast? hlast
    rw [List.nil_append, ← hfull]
    refine ⟨⟨hcheck, fun other hother => ?_⟩, rfl, ⟨name, hlast⟩, ?_⟩
    · rw [hfull, List.mem_append, List.mem_singleton] at hother
      rcases hother with hother | rfl
      · exact hshort other hother
      · exact hlong
    · rwa [hfull, List.dropLast_concat]
  · rintro ⟨⟨hcheck, hshort⟩, rfl, ⟨name, hlast⟩, hdirectory⟩
    have hfull := location_of_getLast? hlast
    rw [hfull, List.dropLast_concat] at hdirectory
    refine ⟨hcheck, wayNames (steps path).dropLast, name, ?_, hlast, ?_⟩
    · rw [hwalk, List.nil_append]
      refine ⟨rfl, ?_, ?_, fun _ => hdirectory⟩
      · intro other hother
        exact hshort other (by simp [hfull, hother])
      · simp [isDirectoryAt_iff.mp hdirectory]
    · exact step_down_eq_ok_iff.mpr ⟨hdirectory, hshort name (by simp [hfull]), hfull⟩

end TableAppend.FileTree
