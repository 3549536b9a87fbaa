import Mathlib.Data.Set.Insert
import TableAppend.Proofs.FileTree.Directories

/-!
# Trees that lack some files

A tree may lack some files of another one.  Since these are not directories, a way that ends elsewhere
does not pass them: it can be gone in one tree exactly if it can be gone in the other.  All operations
that are used to write a file then succeed in both trees or in none, and they leave trees of which the
one lacks the same files, but for the one that has been written.
-/

namespace TableAppend.FileTree

variable {tree : FileTree} {path parent : Path} {name : String} {here there : Location}

/-! ## Changes at the ends of paths -/

section Changes

variable {after : FileTree} {content : Content}

theorem write_eq_ok_iff_place : tree.write path content = .ok after ↔ ∃ there,
    tree.place path .isDirectory = .ok there ∧
      ¬ (endsInSeparator path = true ∨ tree.isDirectoryAt there = true) ∧
        after = tree.set there (.file content) := by
  rw [write]
  constructor
  · intro h
    obtain ⟨there, hthere, h⟩ := exists_of_bind_eq_ok h
    split at h
    · contradiction
    · rename_i hnot
      exact ⟨there, hthere, hnot, (Except.ok.inj h).symm⟩
  · rintro ⟨there, hthere, hnot, rfl⟩
    rw [hthere, ok_bind, if_neg hnot]

theorem append_eq_ok_iff_find {bytes : Bytes} : tree.append path bytes = .ok after ↔
    ∃ there content, tree.find path = .ok (there, .file content) ∧
      after = tree.set there (.file (.bytes (content.toBytes ++ bytes))) := by
  rw [append]
  constructor
  · intro h
    obtain ⟨⟨there, node⟩, hfind, h⟩ := exists_of_bind_eq_ok h
    cases node with
    | directory => cases h
    | file content => exact ⟨there, content, hfind, (Except.ok.inj h).symm⟩
  · rintro ⟨there, content, hfind, rfl⟩
    rw [hfind, ok_bind]

theorem rename_eq_ok_iff_place {source : Path} : tree.rename source path = .ok after ↔
    ∃ start origin node there, tree.place source .busy = .ok start ∧
      tree.find source = .ok (origin, node) ∧ tree.place path .busy = .ok there ∧
        endsInSeparator path = false ∧ tree.isDirectoryAt there = false ∧
          after = if there = origin then tree else (tree.eraseNode origin).set there node := by
  rw [rename]
  constructor
  · intro h
    obtain ⟨start, hstart, h⟩ := exists_of_bind_eq_ok h
    obtain ⟨⟨origin, node⟩, hfind, h⟩ := exists_of_bind_eq_ok h
    obtain ⟨there, hthere, h⟩ := exists_of_bind_eq_ok h
    refine ⟨start, origin, node, there, hstart, hfind, hthere, ?_⟩
    split at h
    · contradiction
    rename_i hends
    split at h
    · contradiction
    rename_i hdirectory
    refine ⟨by simpa using hends, by simpa using hdirectory, ?_⟩
    split at h
    · rename_i hsame
      rw [if_pos hsame]
      exact (Except.ok.inj h).symm
    · rename_i hsame
      rw [if_neg hsame]
      exact (Except.ok.inj h).symm
  · rintro ⟨start, origin, node, there, hstart, hfind, hthere, hends, hdirectory, rfl⟩
    rw [hstart, ok_bind, hfind, ok_bind, hthere]
    dsimp only
    rw [ok_bind, hends, hdirectory]
    simp only [Bool.false_eq_true, ↓reduceIte]
    split <;> rfl

theorem removeFile_eq_ok_iff_find : tree.removeFile path = .ok after ↔
    ∃ there content, tree.find path = .ok (there, .file content) ∧
      after = tree.eraseNode there := by
  rw [removeFile]
  constructor
  · intro h
    obtain ⟨⟨there, node⟩, hfind, h⟩ := exists_of_bind_eq_ok h
    cases node with
    | directory => cases h
    | file content => exact ⟨there, content, hfind, (Except.ok.inj h).symm⟩
  · rintro ⟨there, content, hfind, rfl⟩
    rw [hfind, ok_bind]

end Changes

/-! ## A tree and one that lacks some of its files -/

theorem nodup_eraseNode (hdistinct : (tree.nodes.map Prod.fst).Nodup) {place : Location} :
    ((tree.eraseNode place).nodes.map Prod.fst).Nodup :=
  hdistinct.sublist (List.filter_sublist.map Prod.fst)

/-- The second tree is the first one without some files. -/
structure Lacks (lost : Set Location) (full bare : FileTree) : Prop where
  kept : ∀ place ∉ lost, bare.get? place = full.get? place
  present : ∀ place ∈ lost, ∃ content, full.get? place = some (.file content)
  gone : ∀ place ∈ lost, bare.get? place = none
  distinct : (full.nodes.map Prod.fst).Nodup
  bareDistinct : (bare.nodes.map Prod.fst).Nodup

namespace Lacks

variable {lost : Set Location} {full bare : FileTree} (hlacks : Lacks lost full bare)

theorem refl {tree : FileTree} (hdistinct : (tree.nodes.map Prod.fst).Nodup) :
    Lacks ∅ tree tree :=
  ⟨fun _ _ => rfl, fun _ hplace => absurd hplace (Set.notMem_empty _),
    fun _ hplace => absurd hplace (Set.notMem_empty _), hdistinct, hdistinct⟩

include hlacks

theorem isDirectoryAt_eq (place : Location) :
    bare.isDirectoryAt place = full.isDirectoryAt place := by
  rw [Bool.eq_iff_iff, isDirectoryAt_iff, isDirectoryAt_iff]
  by_cases hplace : place ∈ lost
  · obtain ⟨content, hcontent⟩ := hlacks.present place hplace
    rw [hlacks.gone place hplace, hcontent]
    simp
  · rw [hlacks.kept place hplace]

theorem step_eq (here : Location) (next : Step) : bare.step here next = full.step here next := by
  unfold step
  rw [hlacks.isDirectoryAt_eq]

theorem notMem_of_isDirectoryAt {place : Location} (hplace : full.isDirectoryAt place = true) :
    place ∉ lost := by
  intro hlost
  obtain ⟨content, hcontent⟩ := hlacks.present place hlost
  rw [isDirectoryAt_iff, hcontent] at hplace
  cases hplace

/-- Ways pass directories only, so the same ways can be gone but for those that end at a file which is
missing. -/
theorem walk_eq_ok_iff {here there : Location} (hhere : here ∉ lost) {way : List Step} :
    bare.walk here way = .ok there ↔ full.walk here way = .ok there ∧ there ∉ lost := by
  induction way generalizing here with
  | nil =>
    rw [walk, walk]
    constructor
    · intro h
      obtain rfl := Except.ok.inj h
      exact ⟨rfl, hhere⟩
    · exact And.left
  | cons next rest ih =>
    rw [walk_cons, walk_cons, hlacks.step_eq]
    cases hstep : full.step here next with
    | error fault => simp
    | ok between =>
      dsimp only
      by_cases hbetween : between ∈ lost
      · obtain ⟨content, hcontent⟩ := hlacks.present between hbetween
        rw [hlacks.gone between hbetween, hcontent]
        simp only [Option.isSome_none, Bool.false_eq_true, ↓reduceIte, reduceCtorEq,
          Option.isSome_some, false_iff, not_and, not_not]
        intro hwalk
        cases rest with
        | nil => exact Except.ok.inj hwalk ▸ hbetween
        | cons after more =>
          rw [walk_cons] at hwalk
          split at hwalk
          · rename_i later hlater
            have hdirectory := (target_of_step hlater).2
            exact absurd hbetween (hlacks.notMem_of_isDirectoryAt hdirectory)
          · contradiction
      · rw [hlacks.kept between hbetween]
        split
        · exact ih hbetween
        · simp

theorem root_notMem : [] ∉ lost :=
  hlacks.notMem_of_isDirectoryAt rfl

theorem find_eq_ok_iff {path : Path} {there : Location} {node : Node} :
    bare.find path = .ok (there, node) ↔ full.find path = .ok (there, node) ∧ there ∉ lost := by
  rw [find_eq_ok_iff_walk, find_eq_ok_iff_walk, hlacks.walk_eq_ok_iff hlacks.root_notMem]
  constructor
  · rintro ⟨hcheck, ⟨hwalk, hthere⟩, hnode, hends⟩
    exact ⟨⟨hcheck, hwalk, hlacks.kept there hthere ▸ hnode, hends⟩, hthere⟩
  · rintro ⟨⟨hcheck, hwalk, hnode, hends⟩, hthere⟩
    exact ⟨hcheck, ⟨hwalk, hthere⟩, (hlacks.kept there hthere).trans hnode, hends⟩

/-- Files can be put at the same places. -/
theorem place_eq_ok_iff {path : Path} {otherwise : IoFault} {there : Location} :
    bare.place path otherwise = .ok there ↔ full.place path otherwise = .ok there := by
  rw [place_eq_ok_iff_walk, place_eq_ok_iff_walk]
  refine and_congr_right fun _ => exists_congr fun above => exists_congr fun name => ?_
  rw [hlacks.walk_eq_ok_iff hlacks.root_notMem, hlacks.step_eq, and_assoc]
  refine and_congr_right fun _ => ⟨And.right, fun h => ⟨?_, h⟩⟩
  exact hlacks.notMem_of_isDirectoryAt (target_of_step h.2).2

/-! ### Questions about other files -/

theorem node?_eq {path : Path} (hpath : destination path ∉ lost) :
    bare.node? path = full.node? path := by
  apply Option.ext
  intro node
  rw [node?_eq_some_iff_find, node?_eq_some_iff_find]
  refine exists_congr fun there => ?_
  rw [hlacks.find_eq_ok_iff]
  exact ⟨And.left, fun hfull => ⟨hfull, (eq_of_find hfull).1 ▸ hpath⟩⟩

theorem readBytes_eq_ok_iff {path : Path} (hpath : destination path ∉ lost) {bytes : Bytes} :
    bare.readBytes path = .ok bytes ↔ full.readBytes path = .ok bytes := by
  rw [FileTree.readBytes_eq_ok_iff, FileTree.readBytes_eq_ok_iff]
  refine exists_congr fun there => exists_congr fun content => and_congr_left fun _ => ?_
  rw [hlacks.find_eq_ok_iff]
  exact ⟨And.left, fun hfull => ⟨hfull, (eq_of_find hfull).1 ▸ hpath⟩⟩

theorem isFile_eq {path : Path} (hpath : destination path ∉ lost) :
    bare.isFile path = full.isFile path := by
  rw [isFile, isFile, hlacks.node?_eq hpath]

/-- What is found without some files is found with them. -/
theorem node?_of_bare {path : Path} {node : Node} (hnode : bare.node? path = some node) :
    full.node? path = some node := by
  exact node?_eq_some_iff_find.mpr ⟨_, (hlacks.find_eq_ok_iff.mp (find_eq_of_node? hnode)).1⟩

theorem isFile_of_bare {path : Path} (hfile : bare.isFile path = true) : full.isFile path = true := by
  obtain ⟨content, hnode⟩ := isFile_iff.mp hfile
  exact isFile_iff.mpr ⟨content, hlacks.node?_of_bare hnode⟩

theorem mem_list_of_bare {path : Path} {name : String} (hname : name ∈ bare.list path) :
    name ∈ full.list path := by
  rw [list] at hname
  split at hname
  case h_2 => exact absurd hname List.not_mem_nil
  case h_1 here hfind =>
    obtain ⟨node, hnode⟩ := Option.isSome_iff_exists.mp
      (mem_namesIn_iff.mp (List.mem_mergeSort.mp hname))
    rw [mem_list_of_find (hlacks.find_eq_ok_iff.mp hfind).1, mem_namesIn_iff,
      ← hlacks.kept _ fun hlost => ?_, hnode]
    · rfl
    · rw [hlacks.gone _ hlost] at hnode
      contradiction

theorem isDirectory_eq (path : Path) : bare.isDirectory path = full.isDirectory path := by
  by_cases hpath : destination path ∈ lost
  · have hnone : ∀ tree : FileTree, tree = full ∨ tree = bare → tree.isDirectory path = false := by
      intro tree htree
      rw [Bool.eq_false_iff]
      intro hdirectory
      have hget := isDirectoryAt_iff.mpr (get?_of_node? (isDirectory_iff.mp hdirectory))
      have hfull : full.isDirectoryAt (destination path) = true := by
        rcases htree with rfl | rfl
        · exact hget
        · rwa [← hlacks.isDirectoryAt_eq]
      exact hlacks.notMem_of_isDirectoryAt hfull hpath
    rw [hnone bare (.inr rfl), hnone full (.inl rfl)]
  · rw [isDirectory, isDirectory, hlacks.node?_eq hpath]

/-- Directories list the same names but for those of missing files. -/
theorem filterMap_list_eq (path : Path) {α : Type} {pick : String → Option α}
    (hpick : ∀ name, (pick name).isSome = true → ∀ place, place ++ [name] ∉ lost) :
    (bare.list path).filterMap pick = (full.list path).filterMap pick := by
  have hdirectory : ∀ there, bare.find path = .ok (there, .directory) ↔
      full.find path = .ok (there, .directory) := by
    intro there
    rw [hlacks.find_eq_ok_iff]
    refine ⟨And.left, fun hfull => ⟨hfull, hlacks.notMem_of_isDirectoryAt ?_⟩⟩
    exact isDirectoryAt_iff.mpr (eq_of_find hfull).2
  refine filterMap_eq_of_sorted (bare.pairwise_list path) (full.pairwise_list path)
    (nodup_list hlacks.bareDistinct path) (nodup_list hlacks.distinct path) fun name hname => ?_
  rw [list, list]
  split
  · rename_i there hthere
    rw [(hdirectory there).mp hthere, List.mem_mergeSort, List.mem_mergeSort, mem_namesIn_iff,
      mem_namesIn_iff, hlacks.kept _ (hpick name hname there)]
  · rename_i hnone
    split
    · rename_i there hthere
      exact absurd ((hdirectory there).mpr hthere) (hnone there)
    · rfl

/-! ### Changes of both trees -/

theorem set {place : Location} (hplace : place ≠ []) (node : Node) :
    Lacks (lost \ {place}) (full.set place node) (bare.set place node) := by
  refine ⟨?_, ?_, ?_, nodup_insertNode hlacks.distinct, nodup_insertNode hlacks.bareDistinct⟩
  · intro other hother
    rw [get?_set _ _ _ _ hplace, get?_set _ _ _ _ hplace]
    split
    · rfl
    · rename_i hne
      exact hlacks.kept other fun hlost => hother ⟨hlost, hne⟩
  · rintro other ⟨hlost, hne⟩
    rw [get?_set_other _ _ _ _ hne]
    exact hlacks.present other hlost
  · rintro other ⟨hlost, hne⟩
    rw [get?_set_other _ _ _ _ hne]
    exact hlacks.gone other hlost

theorem eraseNode {place : Location} (hplace : place ∉ lost) :
    Lacks lost (full.eraseNode place) (bare.eraseNode place) := by
  have hget : ∀ tree : FileTree, ∀ other, other ≠ [] → other ≠ place →
      (tree.eraseNode place).get? other = tree.get? other := by
    intro tree other hroot hne
    rw [get?_eraseNode _ _ _ hroot, if_neg hne]
  have hlostNe : ∀ other ∈ lost, other ≠ [] ∧ other ≠ place := by
    intro other hother
    exact ⟨fun h => hlacks.root_notMem (h ▸ hother), fun h => hplace (h ▸ hother)⟩
  refine ⟨?_, ?_, ?_, nodup_eraseNode hlacks.distinct, nodup_eraseNode hlacks.bareDistinct⟩
  · intro other hother
    by_cases hroot : other = []
    · rw [hroot, get?_nil, get?_nil]
    · rw [get?_eraseNode _ _ _ hroot, get?_eraseNode _ _ _ hroot, hlacks.kept other hother]
  · intro other hother
    rw [hget _ _ (hlostNe other hother).1 (hlostNe other hother).2]
    exact hlacks.present other hother
  · intro other hother
    rw [hget _ _ (hlostNe other hother).1 (hlostNe other hother).2]
    exact hlacks.gone other hother

/-- A file that is removed from one tree is missing there. -/
theorem remove {place : Location} {content : Content}
    (hplace : full.get? place = some (.file content)) :
    Lacks (insert place lost) full (bare.eraseNode place) := by
  have hroot : place ≠ [] := by
    rintro rfl
    cases hplace
  refine ⟨?_, ?_, ?_, hlacks.distinct, nodup_eraseNode hlacks.bareDistinct⟩
  · intro other hother
    rw [Set.mem_insert_iff, not_or] at hother
    by_cases hnil : other = []
    · rw [hnil, get?_nil, get?_nil]
    · rw [get?_eraseNode _ _ _ hnil, if_neg hother.1, hlacks.kept other hother.2]
  · rintro other (rfl | hother)
    · exact ⟨content, hplace⟩
    · exact hlacks.present other hother
  · rintro other (rfl | hother)
    · rw [get?_eraseNode _ _ _ hroot, if_pos rfl]
    · have hnil : other ≠ [] := fun h => hlacks.root_notMem (h ▸ hother)
      rw [get?_eraseNode _ _ _ hnil, hlacks.gone other hother, ite_self]

/-- A file that is missing is there again after it has been written. -/
theorem write {path : Path} {content : Content} :
    (∀ after, full.write path content = .ok after → ∃ later, bare.write path content = .ok later ∧
      Lacks (lost \ {destination path}) after later) ∧
    ∀ later, bare.write path content = .ok later → ∃ after, full.write path content = .ok after ∧
      Lacks (lost \ {destination path}) after later := by
  constructor
  · intro after hwrite
    obtain ⟨there, hplace, hnot, rfl⟩ := write_eq_ok_iff_place.mp hwrite
    obtain ⟨rfl, hne⟩ := eq_of_place hplace
    rw [← hlacks.isDirectoryAt_eq] at hnot
    exact ⟨_, write_eq_ok_iff_place.mpr ⟨_, hlacks.place_eq_ok_iff.mpr hplace, hnot, rfl⟩,
      hlacks.set hne _⟩
  · intro later hwrite
    obtain ⟨there, hplace, hnot, rfl⟩ := write_eq_ok_iff_place.mp hwrite
    obtain ⟨rfl, hne⟩ := eq_of_place hplace
    rw [hlacks.isDirectoryAt_eq] at hnot
    exact ⟨_, write_eq_ok_iff_place.mpr ⟨_, hlacks.place_eq_ok_iff.mp hplace, hnot, rfl⟩,
      hlacks.set hne _⟩

theorem append {path : Path} (hpath : destination path ∉ lost) {bytes : Bytes} :
    (∀ after, full.append path bytes = .ok after → ∃ later, bare.append path bytes = .ok later ∧
      Lacks lost after later) ∧
    ∀ later, bare.append path bytes = .ok later → ∃ after, full.append path bytes = .ok after ∧
      Lacks lost after later := by
  have hset : ∀ (there : Location) (content : Content) (node : Node),
      full.find path = .ok (there, .file content) → Lacks lost (full.set there node)
        (bare.set there node) := by
    intro there content node hfind
    obtain ⟨rfl, hget⟩ := eq_of_find hfind
    have hne : destination path ≠ [] := by
      intro hroot
      rw [hroot, get?_nil] at hget
      cases hget
    have hputs := hlacks.set hne node
    rwa [Set.sdiff_singleton_eq_self hpath] at hputs
  constructor
  · intro after happend
    obtain ⟨there, content, hfind, rfl⟩ := append_eq_ok_iff_find.mp happend
    exact ⟨_, append_eq_ok_iff_find.mpr ⟨there, content, hlacks.find_eq_ok_iff.mpr
      ⟨hfind, (eq_of_find hfind).1 ▸ hpath⟩, rfl⟩, hset there content _ hfind⟩
  · intro later happend
    obtain ⟨there, content, hfind, rfl⟩ := append_eq_ok_iff_find.mp happend
    have hfull := (hlacks.find_eq_ok_iff.mp hfind).1
    exact ⟨_, append_eq_ok_iff_find.mpr ⟨there, content, hfull, rfl⟩, hset there content _ hfull⟩

theorem rename {source path : Path} (hsource : destination source ∉ lost) :
    (∀ after, full.rename source path = .ok after → ∃ later, bare.rename source path = .ok later ∧
      Lacks (lost \ {destination path}) after later) ∧
    ∀ later, bare.rename source path = .ok later → ∃ after, full.rename source path = .ok after ∧
      Lacks (lost \ {destination path}) after later := by
  have hmoved : ∀ {there origin : Location} {node : Node},
      full.find source = .ok (origin, node) → full.place path .busy = .ok there →
        Lacks (lost \ {destination path})
          (if there = origin then full else (full.eraseNode origin).set there node)
          (if there = origin then bare else (bare.eraseNode origin).set there node) := by
    intro there origin node hfind hplace
    obtain ⟨rfl, hne⟩ := eq_of_place hplace
    obtain ⟨rfl, -⟩ := eq_of_find hfind
    split
    · rename_i hsame
      rwa [hsame, Set.sdiff_singleton_eq_self hsource]
    · exact (hlacks.eraseNode hsource).set hne node
  constructor
  · intro after hrename
    obtain ⟨start, origin, node, there, hstart, hfind, hplace, hends, hdirectory, rfl⟩ :=
      rename_eq_ok_iff_place.mp hrename
    exact ⟨_, rename_eq_ok_iff_place.mpr ⟨start, origin, node, there,
      hlacks.place_eq_ok_iff.mpr hstart,
      hlacks.find_eq_ok_iff.mpr ⟨hfind, (eq_of_find hfind).1 ▸ hsource⟩,
      hlacks.place_eq_ok_iff.mpr hplace, hends, (hlacks.isDirectoryAt_eq _).trans hdirectory, rfl⟩,
      hmoved hfind hplace⟩
  · intro later hrename
    obtain ⟨start, origin, node, there, hstart, hfind, hplace, hends, hdirectory, rfl⟩ :=
      rename_eq_ok_iff_place.mp hrename
    have hfull := (hlacks.find_eq_ok_iff.mp hfind).1
    have hthere := hlacks.place_eq_ok_iff.mp hplace
    exact ⟨_, rename_eq_ok_iff_place.mpr ⟨start, origin, node, there,
      hlacks.place_eq_ok_iff.mp hstart, hfull, hthere, hends,
      (hlacks.isDirectoryAt_eq _).symm.trans hdirectory, rfl⟩, hmoved hfull hthere⟩

theorem walk_eq_notFound {here : Location} {way : List Step}
    (hwalk : full.walk here way = .error .notFound) : bare.walk here way = .error .notFound := by
  induction way generalizing here with
  | nil => cases hwalk
  | cons next rest ih =>
    rw [walk_cons] at hwalk ⊢
    rw [hlacks.step_eq]
    cases hstep : full.step here next with
    | error fault =>
      rw [hstep] at hwalk
      exact hwalk
    | ok there =>
      rw [hstep] at hwalk
      dsimp only at hwalk ⊢
      by_cases hthere : there ∈ lost
      · rw [hlacks.gone there hthere]
        rfl
      · rw [hlacks.kept there hthere]
        split
        · rename_i hsome
          rw [if_pos hsome] at hwalk
          exact ih hwalk
        · rfl

theorem makeDirectory {path : Path} {after : FileTree}
    (hmade : full.makeDirectory path = .ok after) :
    ∃ later, bare.makeDirectory path = .ok later ∧ Lacks lost after later := by
  obtain ⟨there, hplace, hnone, rfl⟩ := makeDirectory_eq_ok_iff_place.mp hmade
  have hthere : there ∉ lost := by
    intro hlost
    obtain ⟨content, hcontent⟩ := hlacks.present there hlost
    rw [hnone] at hcontent
    cases hcontent
  refine ⟨bare.set there .directory, ?_, ?_⟩
  · exact makeDirectory_eq_ok_iff_place.mpr
      ⟨there, hlacks.place_eq_ok_iff.mpr hplace, by rw [hlacks.kept there hthere, hnone], rfl⟩
  · have hputs := hlacks.set (eq_of_place hplace).2 .directory
    rwa [Set.sdiff_singleton_eq_self hthere] at hputs

theorem makeDirectory_eq_notFound {path : Path}
    (hmade : full.makeDirectory path = .error .notFound) :
    bare.makeDirectory path = .error .notFound := by
  rw [makeDirectory_eq_notFound_iff, place_eq] at hmade ⊢
  cases hcheck : checkPath path with
  | error fault =>
    rw [hcheck] at hmade
    exact hmade
  | ok value =>
    rw [hcheck] at hmade
    dsimp only at hmade ⊢
    cases hwalk : full.walk [] (steps path).dropLast with
    | error fault =>
      rw [hwalk] at hmade
      obtain rfl := Except.error.inj hmade
      rw [hlacks.walk_eq_notFound hwalk]
    | ok above =>
      -- Nothing but the way can be missing.
      exfalso
      rw [hwalk] at hmade
      dsimp only at hmade
      split at hmade
      · unfold step at hmade
        split at hmade
        · dsimp only at hmade
          split at hmade <;> cases hmade
        · cases hmade
      · split at hmade <;> cases hmade
      · cases hmade

theorem ends {path : Path} {after : FileTree} (hends : full.Ends after path) :
    ∃ later, bare.Ends later path ∧ Lacks lost after later := by
  rcases hends with hmade | ⟨hdirectory, rfl⟩
  · obtain ⟨later, hlater, hstill⟩ := hlacks.makeDirectory hmade
    exact ⟨later, .inl hlater, hstill⟩
  · exact ⟨bare, .inr ⟨(hlacks.isDirectory_eq path).trans hdirectory, rfl⟩, hlacks⟩

theorem makeEach {paths : List Path} {after : FileTree}
    (hmade : full.makeEach paths = (.ok (), after)) :
    ∃ later, bare.makeEach paths = (.ok (), later) ∧ Lacks lost after later := by
  induction paths generalizing after with
  | nil =>
    obtain ⟨-, rfl⟩ := Prod.mk.inj hmade
    exact ⟨bare, rfl, hlacks⟩
  | cons path parents ih =>
    by_cases htext : path.text = ""
    · rw [FileTree.makeEach, if_pos htext] at hmade
      obtain ⟨-, rfl⟩ := Prod.mk.inj hmade
      exact ⟨bare, by rw [FileTree.makeEach, if_pos htext], hlacks⟩
    rcases makeEach_cons_spec htext hmade with hends | ⟨hmissing, changed, hparents, hends⟩
    · obtain ⟨later, hlater, hstill⟩ := hlacks.ends hends
      exact ⟨later, makeEach_cons_of_ends htext parents hlater, hstill⟩
    · obtain ⟨between, hbetween, hstill⟩ := ih hparents
      obtain ⟨later, hlater, hlast⟩ := hstill.ends hends
      exact ⟨later, makeEach_cons_of_missing htext (hlacks.makeDirectory_eq_notFound hmissing)
        hbetween hlater, hlast⟩

theorem makeDirectories {path : Path} {after : FileTree}
    (hmade : full.makeDirectories path = (.ok (), after)) :
    ∃ later, bare.makeDirectories path = (.ok (), later) ∧ Lacks lost after later :=
  hlacks.makeEach hmade

/-- A directory that can be made where files are missing can be made where they are there, if none of
them stands in its way. -/
theorem makeDirectories_full (hfull : full.WellFormed) (hbare : bare.WellFormed) {path : Path}
    (hpath : Path.Descends path) (htrimmed : path.trimmed = path) (htext : path.text ≠ "")
    (hapart : ∀ place ∈ lost, ¬ place <+: path.location) {later : FileTree}
    (hmade : bare.makeDirectories path = (.ok (), later)) :
    ∃ after, full.makeDirectories path = (.ok (), after) ∧ Lacks lost after later := by
  obtain ⟨hlater, husable⟩ := directoryMade_of_makeDirectories hbare hpath htext hmade
  have hpassable : Passable full path.location := by
    intro above habove content hcontent
    have hkept := hlacks.kept above fun hlost => hapart above hlost habove
    exact hlater.passable above habove content (hkept.trans hcontent)
  obtain ⟨after, hafter⟩ := exists_makeDirectories hfull hpath htrimmed htext husable hpassable
  have hmadeFull := (directoryMade_of_makeDirectories hfull hpath htext hafter).1
  refine ⟨after, hafter, ?_, ?_, ?_, hmadeFull.wellFormed.distinct, hlater.wellFormed.distinct⟩
  · intro place hplace
    rw [hmadeFull.get?_eq, hlater.get?_eq, hlacks.kept place hplace]
  · intro place hplace
    rw [hmadeFull.get?_eq, if_neg (hapart place hplace)]
    exact hlacks.present place hplace
  · intro place hplace
    rw [hlater.get?_eq, if_neg (hapart place hplace), hlacks.gone place hplace]

end Lacks

/-- A tree lacks a file that is put where there is nothing. -/
theorem lacks_set (htree : (tree.nodes.map Prod.fst).Nodup) {place : Location}
    (hplace : tree.get? place = none) (content : Content) :
    Lacks {place} (tree.set place (.file content)) tree := by
  have hroot : place ≠ [] := by
    rintro rfl
    cases hplace
  refine ⟨fun other hother => ?_, ?_, ?_, nodup_insertNode htree, htree⟩
  · exact (get?_set_other _ _ _ _ hother).symm
  · rintro other rfl
    exact ⟨content, by rw [get?_set _ _ _ _ hroot, if_pos rfl]⟩
  · rintro other rfl
    exact hplace

end TableAppend.FileTree
