import TableAppend.Proofs.Distinct
import TableAppend.Proofs.FileTree.Writable

/-!
# Directories made one after the other

Whether and where directories are made depends on the directories that are there, and on no file as
long as none stands in the way.  Two trees with the same directories therefore have the same
directories after the same have been made in both, and to make one again changes nothing.
-/

namespace TableAppend.FileTree

variable {tree other before after again : FileTree} {path : Path} {place : Location}
  {name : String} {content : Content}

theorem SameDirectories.symm (hsame : SameDirectories before after) :
    SameDirectories after before :=
  fun place => (hsame place).symm

/-! ## Files in trees with the same directories -/

/-- The two trees have the same file, or none, at a place. -/
def SameFile (tree other : FileTree) (place : Location) : Prop :=
  ∀ content, other.get? place = some (.file content) ↔ tree.get? place = some (.file content)

theorem SameFile.trans {third : FileTree} (hfirst : SameFile tree other place)
    (hsecond : SameFile other third place) : SameFile tree third place :=
  fun content => (hsecond content).trans (hfirst content)

theorem SameFile.symm (hsame : SameFile tree other place) : SameFile other tree place :=
  fun content => (hsame content).symm

/-- Trees with the same directories and the same files are the same. -/
theorem SameDirectories.get?_eq (hsame : SameDirectories tree other)
    (hfile : SameFile tree other place) : other.get? place = tree.get? place := by
  have hdirectory := hsame place
  cases htree : tree.get? place with
  | none =>
    cases hother : other.get? place with
    | none => rfl
    | some node =>
      cases node with
      | file content => exact absurd ((hfile content).mp hother) (by rw [htree]; simp)
      | directory => simp [isDirectoryAt, htree, hother] at hdirectory
  | some node =>
    cases node with
    | file content => exact (hfile content).mpr htree
    | directory => exact isDirectoryAt_iff.mp (hdirectory.trans (isDirectoryAt_iff.mpr htree))

/-- The bytes of the file that a path leads to. -/
def bytes? (tree : FileTree) (path : Path) : Option Bytes :=
  match tree.node? path with
  | some (.file content) => some content.toBytes
  | _ => none

theorem bytes?_of_node? {content : Content} (hnode : tree.node? path = some (.file content)) :
    tree.bytes? path = some content.toBytes := by
  rw [bytes?, hnode]

theorem bytes?_of_absent (habsent : ∀ content, tree.node? path ≠ some (.file content)) :
    tree.bytes? path = none := by
  rw [bytes?]
  split
  · rename_i content hnode
    exact absurd hnode (habsent content)
  · rfl

theorem node?_of_same (hsame : SameDirectories tree other)
    (hfile : SameFile tree other (destination path)) {content : Content}
    (hnode : tree.node? path = some (.file content)) : other.node? path = some (.file content) :=
  hsame.stay.node?_eq hnode ((hfile content).mpr (get?_of_node? hnode))

theorem bytes?_eq (hsame : SameDirectories tree other)
    (hfile : SameFile tree other (destination path)) : other.bytes? path = tree.bytes? path := by
  by_cases hnode : ∃ content, tree.node? path = some (.file content)
  · obtain ⟨content, hnode⟩ := hnode
    rw [bytes?_of_node? hnode, bytes?_of_node? (node?_of_same hsame hfile hnode)]
  · rw [not_exists] at hnode
    rw [bytes?_of_absent hnode, bytes?_of_absent fun content hother =>
      hnode content (node?_of_same hsame.symm hfile.symm hother)]

/-! ## Paths that lead to files -/

/-- A walk leads through directories, so that all locations above its end are directories. -/
theorem isDirectoryAt_above {way : List Step} (hhere : ∀ above, above <+: here → above ≠ here →
    tree.isDirectoryAt above = true) (hwalk : tree.walk here way = .ok there) {above : Location}
    (habove : above <+: there) (hne : above ≠ there) : tree.isDirectoryAt above = true := by
  induction way generalizing here with
  | nil =>
    obtain rfl := Except.ok.inj hwalk
    exact hhere above habove hne
  | cons next rest ih =>
    rw [walk_cons] at hwalk
    split at hwalk
    case h_2 => contradiction
    case h_1 between hstep =>
      split at hwalk
      case isFalse => contradiction
      case isTrue =>
        obtain ⟨rfl, hdirectory⟩ := target_of_step hstep
        refine ih (fun place hplace hother => ?_) hwalk
        cases next with
        | stay => exact hhere place hplace hother
        | up =>
          refine hhere place (hplace.trans (List.dropLast_prefix here)) ?_
          rintro rfl
          exact hother (hplace.eq_of_length_le (by simp [Step.target]))
        | down name =>
          rcases List.prefix_concat_iff.mp hplace with hsame | hplace
          · exact absurd hsame hother
          · by_cases hsame : place = here
            · exact hsame ▸ hdirectory
            · exact hhere place hplace hsame

/-- A path that leads to a file ends in a name. -/
theorem exists_fileName?_of_node? (hnode : tree.node? path = some (.file content)) :
    ∃ name, path.fileName? = some name := by
  have hget := get?_of_node? hnode
  obtain ⟨-, hwalk, -, -⟩ := node?_eq_some_iff_walk.mp hnode
  have hroot : destination path ≠ [] := by
    intro hroot
    rw [hroot, get?, if_pos rfl] at hget
    exact Node.noConfusion (Option.some.inj hget)
  cases hsplit : path.splitLast? with
  | none =>
    obtain ⟨junk, hpieces, hjunk, -⟩ := Path.trimPieces_spec path.isRooted path.pieces
    rw [Path.splitLast?, Option.map_eq_none_iff, List.getLast?_eq_none_iff] at hsplit
    rw [hsplit, List.nil_append] at hpieces
    refine absurd ?_ hroot
    rw [destination, steps, hpieces]
    exact foldl_target_idle hjunk []
  | some parts =>
    obtain ⟨front, last⟩ := parts
    obtain ⟨junk, hpieces, hjunk, hsignificant⟩ := Path.splitLast?_eq_some hsplit
    by_cases hup : last = ".."
    · -- A step up leads to a directory, since the walk came down from there.
      subst hup
      have hsteps : steps path = front.filterMap Step.ofPiece? ++
          .up :: junk.filterMap Step.ofPiece? := by
        rw [steps, hpieces, List.filterMap_append, List.filterMap_cons]
        rfl
      obtain ⟨above, habove, -⟩ := exists_of_walk_append (hsteps ▸ hwalk)
      have hend : destination path = above.dropLast := by
        rw [destination, hsteps, List.foldl_append, ← eq_of_walk habove, List.foldl_cons,
          foldl_target_idle hjunk]
        rfl
      have hdirectory : tree.isDirectoryAt above.dropLast = true := by
        refine isDirectoryAt_above (fun place hplace hne => ?_) habove (List.dropLast_prefix above) ?_
        · exact absurd (List.prefix_nil.mp hplace) hne
        · intro hsame
          have hlength := congrArg List.length hsame
          rw [List.length_dropLast] at hlength
          refine hroot (hend.trans (List.length_eq_zero_iff.mp ?_))
          rw [List.length_dropLast]
          omega
      rw [isDirectoryAt, ← hend, hget] at hdirectory
      exact absurd hdirectory (by simp)
    · by_cases hdot : last = "."
      · subst hdot
        have hfront : front = [] ∧ path.isRooted = false := by
          simpa [Path.isSignificant] using hsignificant
        refine absurd ?_ hroot
        rw [destination, steps, hpieces, hfront.1]
        exact foldl_target_idle hjunk []
      · exact ⟨last, by rw [Path.fileName?, hsplit]; exact if_neg (not_or_intro hdot hup)⟩

/-! ## One directory -/

/-- Where a directory can be made none is there, in no tree with the same directories. -/
theorem isDirectory_of_made (hsame : SameDirectories tree other)
    (hmade : tree.makeDirectory path = .ok after) : other.isDirectory path = false := by
  obtain ⟨hnone, -, -, -⟩ := makeDirectory_spec hmade
  rw [← Bool.not_eq_true]
  intro hdirectory
  have hget := get?_of_node? (isDirectory_iff.mp (hsame.symm.stay.isDirectory hdirectory))
  rw [hnone] at hget
  contradiction

theorem Ends.same (hsame : SameDirectories tree other) (hends : tree.Ends after path)
    (hagain : other.Ends again path) : SameDirectories after again := by
  rcases hends with hmade | ⟨hdirectory, rfl⟩ <;> rcases hagain with hremade | ⟨hstill, rfl⟩
  · obtain ⟨hnone, rfl, -⟩ := makeDirectory_spec hmade
    obtain ⟨-, rfl, -⟩ := makeDirectory_spec hremade
    have hne : destination path ≠ [] := by
      rintro hroot
      rw [hroot, get?_nil] at hnone
      contradiction
    intro place
    rw [isDirectoryAt, isDirectoryAt, get?_set _ _ _ _ hne, get?_set _ _ _ _ hne]
    split
    · rfl
    · exact hsame place
  · exact absurd hstill (by rw [isDirectory_of_made hsame hmade]; simp)
  · exact absurd hdirectory (by rw [isDirectory_of_made hsame.symm hremade]; simp)
  · exact hsame

/-- If the parent of a directory is missing, the directory is so in every tree with the same ones. -/
theorem Ends.exists_parent (hsame : SameDirectories tree other) (hends : tree.Ends after path) :
    other.makeDirectory path ≠ .error .notFound := by
  rcases hends with hmade | ⟨hdirectory, -⟩
  · obtain ⟨there, hplace, -⟩ := makeDirectory_eq_ok_iff_place.mp hmade
    rw [Ne, makeDirectory_eq_notFound_iff, hsame.stay.place hplace]
    simp
  · rw [makeDirectory_eq_of_isDirectory (hsame.stay.isDirectory hdirectory)]
    simp

/-! ## A directory and those above it -/

/-- The same directories are made in trees with the same directories. -/
theorem sameDirectories_makeEach (hsame : SameDirectories tree other) {paths : List Path}
    (hmade : tree.makeEach paths = (.ok (), after)) (hagain : other.makeEach paths = (.ok (), again)) :
    SameDirectories after again := by
  induction paths generalizing after again with
  | nil =>
    obtain rfl := (Prod.mk.inj hmade).2
    obtain rfl := (Prod.mk.inj hagain).2
    exact hsame
  | cons path parents ih =>
    by_cases htext : path.text = ""
    · rw [makeEach, if_pos htext] at hmade hagain
      obtain rfl := (Prod.mk.inj hmade).2
      obtain rfl := (Prod.mk.inj hagain).2
      exact hsame
    rcases makeEach_cons_spec htext hmade with hends | ⟨hmissing, changed, hparents, hends⟩ <;>
      rcases makeEach_cons_spec htext hagain with hlast | ⟨habsent, between, habove, hlast⟩
    · exact hends.same hsame hlast
    · exact absurd habsent (hends.exists_parent hsame)
    · exact absurd hmissing (hlast.exists_parent hsame.symm)
    · exact hends.same (ih hparents habove) hlast

/-! ## Directories in a row -/

section Makes

variable {κ : Type} (directoryOf : κ → Path)

/-- The directories of a row of keys are made one after the other.  Files may come and go in between. -/
inductive Makes : List κ → FileTree → FileTree → Prop
  | nothing {before after : FileTree} (hsame : SameDirectories before after) : Makes [] before after
  | next {key : κ} {rest : List κ} {before start made after : FileTree}
      (hsame : SameDirectories before start)
      (hmade : start.makeDirectories (directoryOf key) = (.ok (), made))
      (hrest : Makes rest made after) : Makes (key :: rest) before after

namespace Makes

variable {directoryOf} {keys others : List κ}

theorem of_same (hsame : SameDirectories tree before) (hmakes : Makes directoryOf keys before after) :
    Makes directoryOf keys tree after := by
  cases hmakes with
  | nothing hkept => exact .nothing (hsame.trans hkept)
  | next hkept hmade hrest => exact .next (hsame.trans hkept) hmade hrest

theorem append (hmakes : Makes directoryOf keys before after)
    (hmore : Makes directoryOf others after tree) :
    Makes directoryOf (keys ++ others) before tree := by
  induction hmakes with
  | nothing hsame => exact hmore.of_same hsame
  | next hsame hmade _ ih => exact .next hsame hmade (ih hmore)

theorem stay (hmakes : Makes directoryOf keys before after) : DirectoriesStay before after := by
  induction hmakes with
  | nothing hsame => exact hsame.stay
  | next hsame hmade _ ih => exact (hsame.stay.trans (directoriesStay_makeEach hmade)).trans ih

/-- What directories there are in the end is determined by those at the beginning. -/
theorem unique (hsame : SameDirectories before tree) (hmakes : Makes directoryOf keys before after)
    (hagain : Makes directoryOf keys tree again) : SameDirectories after again := by
  induction hmakes generalizing tree with
  | nothing hkept =>
    cases hagain with
    | nothing hstill => exact hkept.symm.trans (hsame.trans hstill)
  | next hkept hmade _ ih =>
    cases hagain with
    | next hstill hremade hmore =>
      exact ih (sameDirectories_makeEach (hkept.symm.trans (hsame.trans hstill)) hmade hremade) hmore

variable [BEq κ] [LawfulBEq κ]

/-- A directory that is there is not made. -/
theorem filter {key : κ} (hdirectory : before.isDirectory (directoryOf key) = true)
    (hmakes : Makes directoryOf keys before after) :
    Makes directoryOf (keys.filter fun other => !other == key) before after := by
  induction hmakes with
  | nothing hsame => exact .nothing hsame
  | @next head rest _ _ _ _ hsame hmade _ ih =>
    have hstart := hsame.stay.isDirectory hdirectory
    have hrest := ih ((directoriesStay_makeEach hmade).isDirectory hstart)
    by_cases hhead : head = key
    · subst hhead
      rw [makeDirectories_eq_self hstart] at hmade
      obtain rfl := (Prod.mk.inj hmade).2
      rw [List.filter_cons_of_neg (by simp)]
      exact hrest.of_same hsame
    · rw [List.filter_cons_of_pos (by simpa using hhead)]
      exact .next hsame hmade hrest

/-- Each directory is made once only. -/
theorem eraseDups (htexts : ∀ key ∈ keys, (directoryOf key).text ≠ "")
    (hmakes : Makes directoryOf keys before after) :
    Makes directoryOf keys.eraseDups before after := by
  induction keys using eraseDups_induction generalizing before with
  | nil => exact hmakes
  | cons key rest ih =>
    cases hmakes with
    | next hsame hmade hrest =>
      rw [List.eraseDups_cons]
      refine .next hsame hmade (ih ?_ (filter ?_ hrest))
      · exact fun other hother => htexts other
          (List.mem_cons_of_mem _ (List.mem_of_mem_filter hother))
      · exact isDirectory_of_makeDirectories (htexts key List.mem_cons_self) hmade

end Makes

end Makes

end TableAppend.FileTree
