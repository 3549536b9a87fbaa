import TableAppend.Proofs.FileTree.Lookup

/-!
# What changes do to a tree

Each operation that succeeds sets or erases the node at the location of its path, so what it does is
said through `get?` and through the names that it leaves in other directories.
-/

namespace TableAppend.FileTree

open TableAppend.Path (Descends IsName location)

variable {tree : FileTree}

/-! ## Names in other directories -/

theorem namesIn_set {place here : Location} (node : Node) (hplace : place.dropLast ≠ here) :
    (tree.set place node).namesIn here = tree.namesIn here := by
  simp only [namesIn, set]
  induction tree.nodes with
  | nil => simp [insertNode, hplace]
  | cons entry rest ih =>
    obtain ⟨other, old⟩ := entry
    rw [insertNode]
    split
    · rename_i hsame
      subst hsame
      simp [hplace]
    · rw [List.filterMap_cons, List.filterMap_cons, ih]

theorem namesIn_eraseNode {place here : Location} (hplace : place.dropLast ≠ here) :
    (tree.eraseNode place).namesIn here = tree.namesIn here := by
  simp only [namesIn, eraseNode, List.filterMap_filter]
  congr 1
  funext entry
  by_cases hsame : entry.1 = place
  · subst hsame
    simp [hplace]
  · simp [hsame]

/-! ## Well-formed trees stay so -/

theorem fst_mem_insertNode {place other : Location} {node : Node} {nodes : List (Location × Node)} :
    other ∈ (insertNode place node nodes).map Prod.fst ↔
      other = place ∨ other ∈ nodes.map Prod.fst := by
  induction nodes with
  | nil => simp [insertNode]
  | cons entry rest ih =>
    obtain ⟨name, old⟩ := entry
    rw [insertNode]
    split
    · rename_i hsame
      subst hsame
      simp
    · rw [List.map_cons, List.mem_cons, ih, List.map_cons, List.mem_cons]
      tauto

theorem nodup_insertNode {place : Location} {node : Node} {nodes : List (Location × Node)}
    (hnodes : (nodes.map Prod.fst).Nodup) : ((insertNode place node nodes).map Prod.fst).Nodup := by
  induction nodes with
  | nil => simp [insertNode]
  | cons entry rest ih =>
    obtain ⟨name, old⟩ := entry
    rw [List.map_cons, List.nodup_cons] at hnodes
    rw [insertNode]
    split
    · rename_i hsame
      subst hsame
      exact List.nodup_cons.mpr hnodes
    · rename_i hother
      rw [List.map_cons, List.nodup_cons, fst_mem_insertNode]
      refine ⟨?_, ih hnodes.2⟩
      rintro (rfl | hmem)
      · exact hother rfl
      · exact hnodes.1 hmem

/-- A node may be put where there is no directory, if there is one above. -/
theorem WellFormed.set (htree : tree.WellFormed) {place : Location} {node : Node}
    (hnames : ∀ name ∈ place, IsName name) (habove : tree.isDirectoryAt place.dropLast = true)
    (hplace : tree.get? place ≠ some .directory) : (tree.set place node).WellFormed := by
  have hne : place ≠ [] := by
    rintro rfl
    exact hplace rfl
  have hdirectory : ∀ other, tree.isDirectoryAt other = true →
      (tree.set place node).isDirectoryAt other = true := by
    intro other hother
    rw [isDirectoryAt_iff] at hother ⊢
    rw [get?_set_other _ _ _ _ (by rintro rfl; exact hplace hother), hother]
  constructor
  · intro here name found hfound
    rw [get?_set _ _ _ _ hne] at hfound
    split at hfound
    · rename_i hsame
      rw [← hsame, List.dropLast_concat] at habove
      exact hdirectory _ habove
    · exact hdirectory _ (htree.grounded hfound)
  · intro here found hfound
    rw [get?_set _ _ _ _ hne] at hfound
    split at hfound
    · rename_i hsame
      rwa [hsame]
    · exact htree.named hfound
  · exact nodup_insertNode htree.distinct

theorem WellFormed.eraseNode_file (htree : tree.WellFormed) {place : Location}
    (hplace : tree.get? place ≠ some .directory) : (tree.eraseNode place).WellFormed := by
  have hget : ∀ other node, (tree.eraseNode place).get? other = some node →
      tree.get? other = some node := by
    intro other node hnode
    by_cases hnil : other = []
    · subst hnil
      exact hnode
    · rw [get?_eraseNode _ _ _ hnil] at hnode
      split at hnode
      · contradiction
      · exact hnode
  constructor
  · intro here name node hnode
    have habove := isDirectoryAt_iff.mp (htree.grounded (hget _ _ hnode))
    rw [isDirectoryAt_iff]
    by_cases hnil : here = []
    · rw [hnil]
      rfl
    · rw [get?_eraseNode _ _ _ hnil, if_neg (by rintro rfl; exact hplace habove), habove]
  · intro here node hnode
    exact htree.named (hget _ _ hnode)
  · exact htree.distinct.sublist (List.filter_sublist.map _)

/-! ## Files -/

/-- A file can be put where a path leads, once there is a directory for it. -/
structure Admits (tree : FileTree) (path : Path) : Prop where
  usable : IsUsable path
  endsInName : EndsInName path
  notDirectory : tree.get? (location path) ≠ some .directory

theorem ok_bind {α β : Type} (value : α) (next : α → Except IoFault β) :
    ((.ok value : Except IoFault α) >>= next) = next value :=
  rfl

theorem exists_of_bind_eq_ok {α β : Type} {first : Except IoFault α} {next : α → Except IoFault β}
    {result : β} (hbind : first >>= next = .ok result) :
    ∃ value, first = .ok value ∧ next value = .ok result := by
  cases first with
  | error fault => cases hbind
  | ok value => exact ⟨value, rfl, hbind⟩

theorem write_eq_ok_iff (htree : tree.WellFormed) {path : Path} (hpath : Descends path)
    {content : Content} {after : FileTree} :
    tree.write path content = .ok after ↔
      tree.Admits path ∧ tree.isDirectoryAt (location path).dropLast = true ∧
        after = tree.set (location path) (.file content) := by
  have hplace := fun there => @place_eq_ok_iff tree htree path hpath .isDirectory there
  have hwrite : tree.write path content =
      (tree.place path .isDirectory >>= fun there =>
        if endsInSeparator path ∨ tree.isDirectoryAt there then .error .isDirectory
        else .ok (tree.set there (.file content))) := rfl
  rw [hwrite]
  constructor
  · intro h
    obtain ⟨there, hthere, h⟩ := exists_of_bind_eq_ok h
    obtain ⟨husable, rfl, hname, habove⟩ := (hplace there).mp hthere
    split at h
    · contradiction
    rename_i hnot
    rw [not_or] at hnot
    refine ⟨⟨husable, ⟨hname, by simpa using hnot.1⟩, ?_⟩, habove, ?_⟩
    · intro hdirectory
      exact hnot.2 (isDirectoryAt_iff.mpr hdirectory)
    · simpa using h.symm
  · rintro ⟨⟨husable, ⟨hname, hseparator⟩, hdirectory⟩, habove, rfl⟩
    rw [(hplace (location path)).mpr ⟨husable, rfl, hname, habove⟩, ok_bind]
    have hnot : ¬ (endsInSeparator path = true ∨ tree.isDirectoryAt (location path) = true) := by
      rw [isDirectoryAt_iff, hseparator]
      simpa using hdirectory
    simp only [hnot, ↓reduceIte]

theorem read_of_node? {path : Path} {content : Content}
    (hnode : tree.node? path = some (.file content)) : tree.read path = .ok content := by
  obtain ⟨there, hfind⟩ := node?_eq_some_iff_find.mp hnode
  rw [read, hfind]
  rfl

theorem readBytes_of_node? {path : Path} {content : Content}
    (hnode : tree.node? path = some (.file content)) :
    tree.readBytes path = .ok content.toBytes := by
  rw [readBytes, read_of_node? hnode]
  rfl

theorem readBytes_eq_ok_iff {path : Path} {bytes : Bytes} :
    tree.readBytes path = .ok bytes ↔
      ∃ there content, tree.find path = .ok (there, .file content) ∧ content.toBytes = bytes := by
  rw [readBytes, read]
  cases hfind : tree.find path with
  | error fault => simp [bind, Except.bind]
  | ok found =>
    obtain ⟨there, node⟩ := found
    cases node with
    | directory => simp [bind, Except.bind]
    | file content => simp [bind, Except.bind]

theorem exists_node?_of_readBytes {path : Path} {bytes : Bytes}
    (hread : tree.readBytes path = .ok bytes) :
    ∃ content, tree.node? path = some (.file content) := by
  obtain ⟨there, content, hfind, -⟩ := readBytes_eq_ok_iff.mp hread
  exact ⟨content, by rw [node?, hfind]⟩

end TableAppend.FileTree
