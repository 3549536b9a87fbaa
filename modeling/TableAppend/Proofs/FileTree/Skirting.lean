import TableAppend.Proofs.FileTree.Writable

/-!
# Paths that keep away from files

A path may pass a file that is missing in one of two trees, or end at it.  If it does neither, every
question about it has the same answer in both trees, and a change at its end succeeds in both or fails in
both in the same way.
-/

namespace TableAppend.FileTree

variable {tree full bare after : FileTree} {path source : Path} {here place : Location}
  {lost places : Set Location} {content : Content}

/-- A path neither passes nor reaches any of these places. -/
def Skirts (places : Set Location) (path : Path) : Prop :=
  ∀ way, way <+: steps path → way.foldl Step.target [] ∉ places

namespace Skirts

theorem mono (hskirts : Skirts places path) (hsub : lost ⊆ places) : Skirts lost path :=
  fun way hway hmem => hskirts way hway (hsub hmem)

theorem destination_notMem (hskirts : Skirts places path) : destination path ∉ places :=
  hskirts _ (List.prefix_refl _)

/-- The way to a parent is the first part of the way. -/
theorem parent {parent : Path} (hskirts : Skirts places path) (hparent : path.parent? = some parent) :
    Skirts places parent :=
  fun way hway => hskirts way (hway.trans (Path.steps_parent_above hparent))

theorem of_mem_ancestors {parent : Path} (hskirts : Skirts places path) {count : ℕ}
    (hmem : parent ∈ ancestors count path) : Skirts places parent := by
  induction count generalizing path with
  | zero => exact absurd hmem List.not_mem_nil
  | succ count ih =>
    rw [ancestors_succ, List.mem_cons] at hmem
    rcases hmem with rfl | hupper
    · exact hskirts
    · cases hnext : path.parent? with
      | none =>
        rw [hnext] at hupper
        exact absurd hupper List.not_mem_nil
      | some next =>
        rw [hnext] at hupper
        exact ih (hskirts.parent hnext) hupper

/-- A path beside another one goes the same way but for its last name. -/
theorem besides (hskirts : Skirts places path) {name : String} (hname : path.fileName? = some name)
    {ending : String} (hending : '/' ∉ ending.toList) (hlong : 2 ≤ ending.toList.length)
    (hnot : destination (path.besides ending) ∉ places) : Skirts places (path.besides ending) := by
  obtain ⟨parent, hparent⟩ := Path.exists_parent?_of_fileName? hname
  have hfull := Path.isName_append (Path.isName_of_fileName? hname) hending hlong
  have hsteps : steps (path.besides ending) = steps parent ++ [.down (name ++ ending)] := by
    rw [Path.besides_of_parent hname hparent, Path.steps_join _ hfull]
  intro way hway
  rw [hsteps] at hway
  rcases List.prefix_concat_iff.mp hway with rfl | hbefore
  · rw [destination, hsteps] at hnot
    exact hnot
  · exact hskirts.parent hparent way hbefore

end Skirts

namespace Lacks

variable (hlacks : Lacks lost full bare)

include hlacks

/-! ## Questions -/

theorem walk_eq {way : List Step}
    (hway : ∀ front, front <+: way → front.foldl Step.target here ∉ lost) :
    bare.walk here way = full.walk here way := by
  induction way generalizing here with
  | nil => rfl
  | cons next rest ih =>
    rw [walk_cons, walk_cons, hlacks.step_eq]
    cases hstep : full.step here next with
    | error fault => rfl
    | ok there =>
      obtain ⟨rfl, -⟩ := target_of_step hstep
      have hthere : next.target here ∉ lost := hway [next] (by simp)
      have hrest := ih fun front hfront => hway (next :: front) (by simpa using hfront)
      dsimp only
      rw [hlacks.kept _ hthere, hrest]

/-- Where a path leads is told by what is above it. -/
theorem place_eq_of_above
    (habove : ∀ way, way <+: (steps path).dropLast → way.foldl Step.target [] ∉ lost)
    (otherwise : IoFault) : bare.place path otherwise = full.place path otherwise := by
  simp only [FileTree.place_eq, hlacks.walk_eq habove, hlacks.step_eq, hlacks.isDirectoryAt_eq]

variable (hskirts : Skirts lost path)

include hskirts

theorem find_eq : bare.find path = full.find path := by
  rw [FileTree.find_eq, FileTree.find_eq, hlacks.walk_eq hskirts]
  cases hwalk : full.walk [] (steps path) with
  | error fault => rfl
  | ok there =>
    obtain rfl : there = destination path := eq_of_walk hwalk
    dsimp only
    rw [hlacks.kept _ hskirts.destination_notMem]

theorem place_eq (otherwise : IoFault) : bare.place path otherwise = full.place path otherwise :=
  hlacks.place_eq_of_above (fun front hfront => hskirts front (hfront.trans (List.dropLast_prefix _)))
    otherwise

theorem read_eq : bare.read path = full.read path := by
  rw [read, read, hlacks.find_eq hskirts]

theorem readBytes_eq : bare.readBytes path = full.readBytes path := by
  rw [readBytes, readBytes, hlacks.read_eq hskirts]

end Lacks

/-! ## Changes -/

/-- Two outcomes of a change in trees of which the second one lacks some files: it still lacks them, or
the change has failed for the same reason. -/
inductive Alike (lost : Set Location) : Except IoFault FileTree → Except IoFault FileTree → Prop
  | changed {after later : FileTree} (hlacks : Lacks lost after later) :
    Alike lost (.ok after) (.ok later)
  | failed (fault : IoFault) : Alike lost (.error fault) (.error fault)

theorem Alike.exists_of_ok {second : Except IoFault FileTree} (halike : Alike lost (.ok after) second) :
    ∃ later, second = .ok later ∧ Lacks lost after later := by
  cases halike with
  | changed hlacks => exact ⟨_, rfl, hlacks⟩

theorem Alike.eq_error {second : Except IoFault FileTree} {fault : IoFault}
    (halike : Alike lost (.error fault) second) : second = .error fault := by
  cases halike with
  | failed => rfl

namespace Lacks

variable (hlacks : Lacks lost full bare)

include hlacks

theorem set_of_notMem (hplace : place ∉ lost) (hne : place ≠ []) (node : Node) :
    Lacks lost (full.set place node) (bare.set place node) := by
  have hset := hlacks.set hne node
  rwa [Set.sdiff_singleton_eq_self hplace] at hset

variable (hskirts : Skirts lost path)

include hskirts

theorem alike_write (content : Content) :
    Alike lost (full.write path content) (bare.write path content) := by
  rw [FileTree.write, FileTree.write, hlacks.place_eq hskirts]
  cases hplace : full.place path .isDirectory with
  | error fault => exact .failed fault
  | ok there =>
    obtain ⟨rfl, hne⟩ := eq_of_place hplace
    simp only [ok_bind, hlacks.isDirectoryAt_eq]
    split
    · exact .failed _
    · exact .changed (hlacks.set_of_notMem hskirts.destination_notMem hne _)

theorem alike_append (bytes : Bytes) :
    Alike lost (full.append path bytes) (bare.append path bytes) := by
  rw [FileTree.append, FileTree.append, hlacks.find_eq hskirts]
  cases hfind : full.find path with
  | error fault => exact .failed fault
  | ok found =>
    obtain ⟨there, node⟩ := found
    obtain ⟨rfl, hget⟩ := eq_of_find hfind
    cases node with
    | directory => exact .failed _
    | file content =>
      have hne : destination path ≠ [] := by
        intro hroot
        rw [hroot, get?_nil] at hget
        cases hget
      exact .changed (hlacks.set_of_notMem hskirts.destination_notMem hne _)

theorem alike_removeFile : Alike lost (full.removeFile path) (bare.removeFile path) := by
  rw [removeFile, removeFile, hlacks.find_eq hskirts]
  cases hfind : full.find path with
  | error fault => exact .failed fault
  | ok found =>
    obtain ⟨there, node⟩ := found
    obtain ⟨rfl, -⟩ := eq_of_find hfind
    cases node with
    | directory => exact .failed _
    | file content => exact .changed (hlacks.eraseNode hskirts.destination_notMem)

omit hskirts in
/-- A file may be moved to where one is missing. -/
theorem alike_rename_onto (hsource : Skirts lost source)
    (habove : ∀ way, way <+: (steps path).dropLast → way.foldl Step.target [] ∉ lost) :
    Alike (lost \ {destination path}) (full.rename source path) (bare.rename source path) := by
  rw [FileTree.rename, FileTree.rename, hlacks.place_eq hsource, hlacks.find_eq hsource,
    hlacks.place_eq_of_above habove]
  cases full.place source .busy with
  | error fault => exact .failed fault
  | ok start =>
    cases hfind : full.find source with
    | error fault => exact .failed fault
    | ok found =>
      obtain ⟨origin, node⟩ := found
      obtain ⟨rfl, -⟩ := eq_of_find hfind
      cases hplace : full.place path .busy with
      | error fault => exact .failed fault
      | ok there =>
        obtain ⟨rfl, hne⟩ := eq_of_place hplace
        simp only [ok_bind, hlacks.isDirectoryAt_eq]
        split
        · exact .failed _
        split
        · exact .failed _
        split
        · rename_i hsame
          rw [hsame, Set.sdiff_singleton_eq_self hsource.destination_notMem]
          exact .changed hlacks
        · exact .changed ((hlacks.eraseNode hsource.destination_notMem).set hne node)

theorem alike_rename (hsource : Skirts lost source) :
    Alike lost (full.rename source path) (bare.rename source path) := by
  have honto := hlacks.alike_rename_onto hsource fun way hway =>
    hskirts way (hway.trans (List.dropLast_prefix _))
  rwa [Set.sdiff_singleton_eq_self hskirts.destination_notMem] at honto

theorem alike_makeDirectory : Alike lost (full.makeDirectory path) (bare.makeDirectory path) := by
  rw [makeDirectory_eq, makeDirectory_eq, hlacks.place_eq hskirts]
  cases hplace : full.place path .alreadyExists with
  | error fault => exact .failed fault
  | ok there =>
    obtain ⟨rfl, hne⟩ := eq_of_place hplace
    dsimp only
    rw [hlacks.kept _ hskirts.destination_notMem]
    split
    · exact .failed _
    · exact .changed (hlacks.set_of_notMem hskirts.destination_notMem hne _)

omit hskirts in
/-- Directories are made equally far in both trees. -/
theorem alike_makeEach {paths : List Path} (hpaths : ∀ path ∈ paths, Skirts lost path) :
    (bare.makeEach paths).1 = (full.makeEach paths).1 ∧
      Lacks lost (full.makeEach paths).2 (bare.makeEach paths).2 := by
  induction paths generalizing full bare with
  | nil => exact ⟨rfl, hlacks⟩
  | cons path parents ih =>
    have hpath := hpaths path List.mem_cons_self
    have hparents := ih hlacks fun parent hmem => hpaths parent (List.mem_cons_of_mem _ hmem)
    by_cases htext : path.text = ""
    · rw [FileTree.makeEach, FileTree.makeEach, if_pos htext, if_pos htext]
      exact ⟨rfl, hlacks⟩
    rw [makeEach_cons htext, makeEach_cons htext]
    have hfirst := hlacks.alike_makeDirectory hpath
    cases hmade : full.makeDirectory path with
    | ok changed =>
      rw [hmade] at hfirst
      obtain ⟨later, hlater, hstill⟩ := hfirst.exists_of_ok
      rw [hlater]
      exact ⟨rfl, hstill⟩
    | error fault =>
      rw [hmade] at hfirst
      rw [hfirst.eq_error, hlacks.isDirectory_eq]
      cases fault
      case notFound =>
        obtain ⟨hresult, hstill⟩ := hparents
        rcases hmore : full.makeEach parents with ⟨result, changed⟩
        rcases hother : bare.makeEach parents with ⟨other, later⟩
        rw [hmore, hother] at hresult hstill
        obtain rfl : other = result := hresult
        replace hstill : Lacks lost changed later := hstill
        have hsecond := hstill.alike_makeDirectory hpath
        cases other with
        | error fault => exact ⟨rfl, hstill⟩
        | ok value =>
          dsimp only
          cases hagain : changed.makeDirectory path with
          | ok last =>
            rw [hagain] at hsecond
            obtain ⟨final, hfinal, hlast⟩ := hsecond.exists_of_ok
            rw [hfinal]
            exact ⟨rfl, hlast⟩
          | error fault =>
            rw [hagain] at hsecond
            rw [hsecond.eq_error, hstill.isDirectory_eq]
            dsimp only
            split <;> exact ⟨rfl, hstill⟩
      all_goals
        dsimp only
        split <;> exact ⟨rfl, hlacks⟩

theorem alike_makeDirectories : (bare.makeDirectories path).1 = (full.makeDirectories path).1 ∧
    Lacks lost (full.makeDirectories path).2 (bare.makeDirectories path).2 :=
  hlacks.alike_makeEach fun _ hmem => hskirts.of_mem_ancestors hmem

end Lacks

/-! ## Places that are left alone -/

/-- Nothing changes but at the ends of the paths. -/
theorem get?_makeEach {paths : List Path} (hne : ∀ path ∈ paths, place ≠ destination path) :
    (tree.makeEach paths).2.get? place = tree.get? place := by
  refine @makeEach_preserves tree (fun after => after.get? place = tree.get? place) paths rfl ?_
  intro path hpath before after hbefore hmade
  rw [(makeDirectory_spec hmade).2.1, get?_set_other _ _ _ _ (hne path hpath)]
  exact hbefore

theorem get?_removeFile (hne : place ≠ destination path) (hremove : tree.removeFile path = .ok after) :
    after.get? place = tree.get? place := by
  obtain ⟨there, content, hfind, rfl⟩ := removeFile_eq_ok_iff_find.mp hremove
  obtain ⟨rfl, -⟩ := eq_of_find hfind
  by_cases hroot : place = []
  · rw [hroot, get?_nil, get?_nil]
  · rw [get?_eraseNode _ _ _ hroot, if_neg hne]

end TableAppend.FileTree
