import TableAppend.Proofs.FileTree.Changes
import TableAppend.Proofs.FileTree.Walking

/-!
# Making directories

`makeDirectories` succeeds exactly if no file stands on the way, and then the way consists of
directories and nothing else has changed.
-/

namespace TableAppend.FileTree

open TableAppend.Path (Descends IsName location trimmed)

variable {tree : FileTree}

/-- No file stands at a location or above it. -/
def Passable (tree : FileTree) (place : Location) : Prop :=
  ∀ above, above <+: place → ∀ content, tree.get? above ≠ some (.file content)

/-- The change of a tree in which a location and all above it become directories. -/
structure DirectoryMade (before after : FileTree) (place : Location) : Prop where
  passable : Passable before place
  wellFormed : after.WellFormed
  get?_eq : ∀ other,
    after.get? other = if other <+: place then some .directory else before.get? other
  namesIn_eq : ∀ here, ¬ here <+: place → after.namesIn here = before.namesIn here

theorem DirectoryMade.isDirectoryAt {before after : FileTree} {place : Location}
    (hmade : DirectoryMade before after place) : after.isDirectoryAt place = true := by
  rw [isDirectoryAt_iff, hmade.get?_eq, if_pos (List.prefix_refl _)]

theorem directoryMade_self (htree : tree.WellFormed) {place : Location}
    (hplace : tree.get? place = some .directory) : DirectoryMade tree tree place := by
  have habove : ∀ other, other <+: place → tree.get? other = some .directory := by
    rintro other ⟨below, rfl⟩
    by_cases hbelow : below = []
    · simpa [hbelow] using hplace
    · exact isDirectoryAt_iff.mp (htree.isDirectoryAt_above hplace hbelow)
  refine ⟨?_, htree, ?_, fun _ _ => rfl⟩
  · intro other hother content hfile
    simp [habove other hother] at hfile
  · intro other
    split
    · rename_i hother
      exact habove other hother
    · rfl

theorem DirectoryMade.trans {first second third : FileTree} {outer inner : Location}
    (houter : DirectoryMade first second outer) (hinner : DirectoryMade second third inner)
    (hupper : outer <+: inner) : DirectoryMade first third inner := by
  refine ⟨?_, hinner.wellFormed, ?_, ?_⟩
  · intro above habove content hfile
    by_cases hmade : above <+: outer
    · exact houter.passable above hmade content hfile
    · apply hinner.passable above habove content
      rw [houter.get?_eq, if_neg hmade, hfile]
  · intro other
    rw [hinner.get?_eq]
    split
    · rfl
    · rename_i hnot
      rw [houter.get?_eq, if_neg fun h => hnot (h.trans hupper)]
  · intro here hnot
    rw [hinner.namesIn_eq here hnot, houter.namesIn_eq here fun h => hnot (h.trans hupper)]

theorem directoryMade_set (htree : tree.WellFormed) {place : Location}
    (hnames : ∀ name ∈ place, IsName name) (habove : tree.isDirectoryAt place.dropLast = true)
    (hplace : tree.get? place = none) :
    DirectoryMade tree (tree.set place .directory) place := by
  have hne : place ≠ [] := by
    rintro rfl
    contradiction
  have hmade := directoryMade_self htree (isDirectoryAt_iff.mp habove)
  have hdrop : ∀ other, other <+: place → other ≠ place → other <+: place.dropLast := by
    rintro other ⟨below, rfl⟩ hother
    rcases List.eq_nil_or_concat below with rfl | ⟨init, last, rfl⟩
    · simp at hother
    · rw [List.concat_eq_append, ← List.append_assoc, List.dropLast_concat]
      exact List.prefix_append _ _
  refine ⟨?_, htree.set hnames habove (by simp [hplace]), ?_, ?_⟩
  · intro above hupper content hfile
    by_cases hsame : above = place
    · rw [hsame, hplace] at hfile
      contradiction
    · exact hmade.passable above (hdrop above hupper hsame) content hfile
  · intro other
    rw [get?_set _ _ _ _ hne]
    by_cases hsame : other = place
    · rw [if_pos hsame, if_pos (hsame ▸ List.prefix_rfl)]
    · rw [if_neg hsame]
      split
      · rename_i hupper
        rw [hmade.get?_eq, if_pos (hdrop other hupper hsame)]
      · rfl
  · intro here hnot
    apply namesIn_set
    rintro rfl
    exact hnot (List.dropLast_prefix place)

/-! ## One directory -/

theorem makeDirectory_eq (path : Path) :
    tree.makeDirectory path =
      match tree.place path .alreadyExists with
      | .error fault => .error fault
      | .ok there =>
        if (tree.get? there).isSome then .error .alreadyExists
        else .ok (tree.set there .directory) := by
  rw [makeDirectory]
  cases tree.place path .alreadyExists <;> rfl

/-- A directory is made at a place where there is nothing. -/
theorem makeDirectory_eq_ok_iff_place {path : Path} {after : FileTree} :
    tree.makeDirectory path = .ok after ↔ ∃ there,
      tree.place path .alreadyExists = .ok there ∧ tree.get? there = none ∧
        after = tree.set there .directory := by
  rw [makeDirectory_eq]
  cases tree.place path .alreadyExists with
  | error fault => simp
  | ok there => cases hget : tree.get? there <;> simp [hget, eq_comm]

theorem makeDirectory_eq_notFound_iff {path : Path} :
    tree.makeDirectory path = .error .notFound ↔
      tree.place path .alreadyExists = .error .notFound := by
  rw [makeDirectory_eq]
  cases tree.place path .alreadyExists with
  | error fault => simp
  | ok there => cases hget : tree.get? there <;> simp [hget]

theorem makeDirectory_eq_ok_iff (htree : tree.WellFormed) {path : Path} (hpath : Descends path)
    {after : FileTree} :
    tree.makeDirectory path = .ok after ↔
      IsUsable path ∧ (∃ name, (steps path).getLast? = some (.down name)) ∧
        tree.isDirectoryAt (location path).dropLast = true ∧ tree.get? (location path) = none ∧
          after = tree.set (location path) .directory := by
  rw [makeDirectory_eq_ok_iff_place]
  simp only [place_eq_ok_iff htree hpath]
  constructor
  · rintro ⟨there, ⟨husable, rfl, hname, habove⟩, hnone, hafter⟩
    exact ⟨husable, hname, habove, hnone, hafter⟩
  · rintro ⟨husable, hname, habove, hnone, hafter⟩
    exact ⟨location path, ⟨husable, rfl, hname, habove⟩, hnone, hafter⟩

theorem directoryMade_of_makeDirectory (htree : tree.WellFormed) {path : Path}
    (hpath : Descends path) {after : FileTree} (hmade : tree.makeDirectory path = .ok after) :
    DirectoryMade tree after (location path) := by
  obtain ⟨-, -, habove, hnone, rfl⟩ := (makeDirectory_eq_ok_iff htree hpath).mp hmade
  exact directoryMade_set htree (fun _ => Path.isName_of_mem_location) habove hnone

theorem isDirectory_iff_usable (htree : tree.WellFormed) {path : Path} (hpath : Descends path) :
    tree.isDirectory path = true ↔
      IsUsable path ∧ tree.get? (location path) = some .directory := by
  rw [isDirectory_iff, node?_eq_some_iff htree hpath]
  simp

/-- On a way without files that does not lead to its end, a directory is missing. -/
theorem walk_eq_notFound {here : Location} {way : List Step} (hup : .up ∉ way)
    (hshort : ∀ name ∈ wayNames way, name.utf8ByteSize ≤ longestName)
    (hhere : tree.get? here = some .directory) (hpassable : Passable tree (here ++ wayNames way))
    (hnone : tree.get? (here ++ wayNames way) = none) :
    tree.walk here way = .error .notFound := by
  induction way generalizing here with
  | nil =>
    rw [wayNames, List.filterMap_nil, List.append_nil, hhere] at hnone
    contradiction
  | cons next rest ih =>
    have hrest : Step.up ∉ rest := fun h => hup (List.mem_cons_of_mem _ h)
    have hdirectory := isDirectoryAt_iff.mpr hhere
    rw [walk_cons]
    cases next with
    | up => exact absurd List.mem_cons_self hup
    | stay =>
      simp only [step, hdirectory, ↓reduceIte, hhere, Option.isSome_some]
      exact ih hrest hshort hhere hpassable hnone
    | down name =>
      have hlong : ¬ longestName < name.utf8ByteSize :=
        Nat.not_lt_of_le (hshort name List.mem_cons_self)
      have hassoc : here ++ wayNames (.down name :: rest) = (here ++ [name]) ++ wayNames rest := by
        simp [wayNames, Step.name?]
      rw [hassoc] at hpassable hnone
      simp only [step, hdirectory, hlong, ↓reduceIte]
      cases hnode : tree.get? (here ++ [name]) with
      | none => rfl
      | some node =>
        cases node with
        | file content => exact absurd hnode (hpassable _ (List.prefix_append _ _) content)
        | directory =>
          exact ih hrest (fun other hother => hshort other (List.mem_cons_of_mem _ hother)) hnode
            hpassable hnone

theorem makeDirectory_eq_notFound {path : Path} (hpath : Descends path) (husable : IsUsable path)
    {name : String} (hname : (steps path).getLast? = some (.down name))
    (hpassable : Passable tree (location path))
    (hnone : tree.get? (location path).dropLast = none) :
    tree.makeDirectory path = .error .notFound := by
  have hfull := location_of_getLast? hname
  have hwalk : tree.walk [] (steps path).dropLast = .error .notFound := by
    apply walk_eq_notFound
    · exact fun h => up_notMem_steps hpath (List.mem_of_mem_dropLast h)
    · intro other hother
      exact husable.2 other (by simp [hfull, hother])
    · rfl
    · intro above habove
      apply hpassable
      rw [hfull]
      exact habove.trans (List.prefix_append _ _)
    · rwa [hfull, List.dropLast_concat] at hnone
  rw [makeDirectory_eq, place_eq]
  simp only [husable.1, hwalk]

/-! ## A directory and those above it -/

theorem makeEach_cons {path : Path} (htext : path.text ≠ "") (parents : List Path) :
    tree.makeEach (path :: parents) =
      match tree.makeDirectory path with
      | .ok changed => (.ok (), changed)
      | .error .notFound =>
        match tree.makeEach parents with
        | (.error fault, changed) => (.error fault, changed)
        | (.ok (), changed) =>
          match changed.makeDirectory path with
          | .ok last => (.ok (), last)
          | .error fault =>
            if changed.isDirectory path then (.ok (), changed) else (.error fault, changed)
      | .error fault => if tree.isDirectory path then (.ok (), tree) else (.error fault, tree) :=
  if_neg htext

/-- Nothing is to be made where a path leads to a directory. -/
theorem directoryMade_of_isDirectory (htree : tree.WellFormed) {path : Path} (hpath : Descends path)
    (hdirectory : tree.isDirectory path = true) :
    DirectoryMade tree tree (location path) ∧ IsUsable path := by
  obtain ⟨husable, hget⟩ := (isDirectory_iff_usable htree hpath).mp hdirectory
  exact ⟨directoryMade_self htree hget, husable⟩

/-- A directory that is there is not made again. -/
theorem makeDirectory_eq_of_isDirectory {path : Path} (hdirectory : tree.isDirectory path = true) :
    tree.makeDirectory path = .error .alreadyExists := by
  obtain ⟨hcheck, hwalk, hget, -⟩ := node?_eq_some_iff_walk.mp (isDirectory_iff.mp hdirectory)
  have hplace : tree.place path .alreadyExists = .ok (destination path) ∨
      tree.place path .alreadyExists = .error .alreadyExists := by
    rw [place_eq, hcheck]
    generalize destination path = there at hwalk
    rcases List.eq_nil_or_concat (steps path) with hnil | ⟨init, last, hconcat⟩
    · rw [hnil]
      exact .inr rfl
    · rw [hconcat, List.concat_eq_append, List.dropLast_concat, List.getLast?_concat]
      rw [hconcat, List.concat_eq_append] at hwalk
      obtain ⟨above, habove, hlast⟩ := exists_of_walk_append hwalk
      rw [walk_cons] at hlast
      split at hlast
      · rename_i between hbetween
        split at hlast
        · obtain rfl := Except.ok.inj hlast
          obtain ⟨hthere, haboveDirectory⟩ := target_of_step hbetween
          rw [habove]
          cases last with
          | down name => exact .inl hbetween
          | stay => exact .inr (if_pos haboveDirectory)
          | up => exact .inr (if_pos haboveDirectory)
        · contradiction
      · contradiction
  rw [makeDirectory_eq]
  rcases hplace with hplace | hplace
  · rw [hplace]
    dsimp only
    rw [hget]
    rfl
  · rw [hplace]

/-- A directory is there in the end: it has been made, or it was there before. -/
def Ends (before after : FileTree) (path : Path) : Prop :=
  before.makeDirectory path = .ok after ∨ before.isDirectory path = true ∧ after = before

theorem Ends.directoryMade {after : FileTree} {path : Path} (hends : tree.Ends after path)
    (htree : tree.WellFormed) (hpath : Descends path) :
    DirectoryMade tree after (location path) ∧ IsUsable path := by
  rcases hends with hmade | ⟨hdirectory, rfl⟩
  · exact ⟨directoryMade_of_makeDirectory htree hpath hmade,
      ((makeDirectory_eq_ok_iff htree hpath).mp hmade).1⟩
  · exact directoryMade_of_isDirectory htree hpath hdirectory

/-- A directory is made at the first try, or when the ones above it have been made. -/
theorem makeEach_cons_spec {path : Path} {after : FileTree} (htext : path.text ≠ "")
    {parents : List Path} (hmade : tree.makeEach (path :: parents) = (.ok (), after)) :
    tree.Ends after path ∨ tree.makeDirectory path = .error .notFound ∧
      ∃ changed, tree.makeEach parents = (.ok (), changed) ∧ changed.Ends after path := by
  rw [makeEach_cons htext] at hmade
  split at hmade
  case h_1 changed hchanged => exact .inl (.inl ((Prod.mk.inj hmade).2 ▸ hchanged))
  case h_2 hmissing =>
    refine .inr ⟨hmissing, ?_⟩
    split at hmade
    case h_1 => simp at hmade
    case h_2 changed hparents =>
      refine ⟨changed, hparents, ?_⟩
      split at hmade
      case h_1 last hlast => exact .inl ((Prod.mk.inj hmade).2 ▸ hlast)
      case h_2 =>
        split at hmade
        case isTrue hdirectory => exact .inr ⟨hdirectory, (Prod.mk.inj hmade).2.symm⟩
        case isFalse => simp at hmade
  case h_3 =>
    split at hmade
    case isTrue hdirectory => exact .inl (.inr ⟨hdirectory, (Prod.mk.inj hmade).2.symm⟩)
    case isFalse => simp at hmade

theorem makeEach_cons_of_ends {path : Path} {after : FileTree} (htext : path.text ≠ "")
    (parents : List Path) (hends : tree.Ends after path) : tree.makeEach (path :: parents) = (.ok (), after) := by
  rw [makeEach_cons htext]
  rcases hends with hmade | ⟨hdirectory, rfl⟩
  · rw [hmade]
  · rw [makeDirectory_eq_of_isDirectory hdirectory]
    exact if_pos hdirectory

theorem makeEach_cons_of_missing {path : Path} (htext : path.text ≠ "") {parents : List Path}
    {changed after : FileTree} (hmissing : tree.makeDirectory path = .error .notFound)
    (hparents : tree.makeEach parents = (.ok (), changed)) (hends : changed.Ends after path) :
    tree.makeEach (path :: parents) = (.ok (), after) := by
  rw [makeEach_cons htext, hmissing, hparents]
  rcases hends with hmade | ⟨hdirectory, rfl⟩
  · dsimp only
    rw [hmade]
  · dsimp only
    rw [makeDirectory_eq_of_isDirectory hdirectory]
    exact if_pos hdirectory

/-- However far the directories of a row are made, each step makes one of them. -/
theorem makeEach_preserves {holds : FileTree → Prop} {paths : List Path} (hstart : holds tree)
    (hstep : ∀ path ∈ paths, ∀ before after : FileTree, holds before →
      before.makeDirectory path = .ok after → holds after) : holds (tree.makeEach paths).2 := by
  induction paths with
  | nil => exact hstart
  | cons path parents ih =>
    have hmake := hstep path List.mem_cons_self
    have hparents := ih fun parent hparent => hstep parent (List.mem_cons_of_mem _ hparent)
    by_cases htext : path.text = ""
    · rwa [makeEach, if_pos htext]
    rw [makeEach_cons htext]
    split
    · rename_i changed hchanged
      exact hmake _ _ hstart hchanged
    · split
      · rename_i fault changed hchanged
        rwa [hchanged] at hparents
      · rename_i changed hchanged
        rw [hchanged] at hparents
        split
        · rename_i last hlast
          exact hmake _ _ hparents hlast
        · split <;> exact hparents
    · split <;> exact hstart

/-- In a trimmed path that leads anywhere the last step is a name. -/
theorem exists_lastStep {path : Path} (hpath : Descends path) (htrimmed : path.trimmed = path)
    (hlocation : location path ≠ []) : ∃ name, (steps path).getLast? = some (.down name) := by
  obtain ⟨before, name, hpieces, hname⟩ := Path.pieces_of_trimmed hpath htrimmed hlocation
  refine ⟨name, ?_⟩
  rw [steps, hpieces, List.filterMap_append]
  simp [Path.ofPiece?_name hname]

theorem checkPath_parent {path parent : Path} {name : String} (hname : path.fileName? = some name)
    (hparent : path.parent? = some parent) (htext : parent.text ≠ "")
    (hcheck : checkPath path = .ok ()) : checkPath parent = .ok () := by
  obtain ⟨tail, -, hpathText⟩ := Path.exists_text_parent hname hparent
  rw [checkPath] at hcheck ⊢
  split at hcheck
  · contradiction
  rename_i hnull
  split at hcheck
  · contradiction
  split at hcheck
  · contradiction
  rename_i hlong
  rw [hpathText, String.toList_append, List.mem_append, not_or] at hnull
  rw [hpathText, String.utf8ByteSize_append] at hlong
  rw [if_neg hnull.1, if_neg htext, if_neg (by omega)]

theorem isUsable_parent {path parent : Path} {name : String} (hname : path.fileName? = some name)
    (hparent : path.parent? = some parent) (htext : parent.text ≠ "") (husable : IsUsable path) :
    IsUsable parent := by
  refine ⟨checkPath_parent hname hparent htext husable.1, fun other hother => husable.2 other ?_⟩
  rw [Path.location_parent hname hparent]
  exact List.mem_append_left _ hother

theorem ancestors_succ (count : ℕ) (path : Path) :
    ancestors (count + 1) path = path :: (path.parent?.map (ancestors count)).getD [] := by
  rw [ancestors]
  cases path.parent? <;> rfl

/-- What has been made of a directory and those above it is a part of the way, or all of it. -/
theorem exists_directoryMade_of_makeEach (htree : tree.WellFormed) {path : Path}
    (hpath : Descends path) {count : ℕ} {after : FileTree}
    (hmade : tree.makeEach (ancestors count path) = (.ok (), after)) :
    ∃ outer, outer <+: location path ∧ DirectoryMade tree after outer ∧
      (0 < count → path.text ≠ "" → outer = location path ∧ IsUsable path) := by
  have hself : DirectoryMade tree tree [] := directoryMade_self htree rfl
  induction count generalizing path after with
  | zero =>
    obtain rfl : tree = after := (Prod.mk.inj hmade).2
    exact ⟨[], List.nil_prefix, hself, fun hzero => absurd hzero (Nat.lt_irrefl 0)⟩
  | succ count ih =>
    rw [ancestors_succ] at hmade
    by_cases htext : path.text = ""
    · rw [makeEach, if_pos htext] at hmade
      obtain rfl : tree = after := (Prod.mk.inj hmade).2
      exact ⟨[], List.nil_prefix, hself, fun _ hother => absurd htext hother⟩
    rcases makeEach_cons_spec htext hmade with hends | ⟨-, changed, hparents, hends⟩
    · obtain ⟨hlast, husable⟩ := hends.directoryMade htree hpath
      exact ⟨location path, List.prefix_rfl, hlast, fun _ _ => ⟨rfl, husable⟩⟩
    · have habove : ∃ outer, outer <+: location path ∧ DirectoryMade tree changed outer := by
        cases hparent : path.parent? with
        | none =>
          rw [hparent] at hparents
          obtain rfl : tree = changed := (Prod.mk.inj hparents).2
          exact ⟨[], List.nil_prefix, hself⟩
        | some parent =>
          rw [hparent, Option.map_some, Option.getD_some] at hparents
          obtain ⟨hupper, hdescends⟩ := Path.parent_above hparent
          obtain ⟨outer, houter, hbefore, -⟩ := ih (hdescends hpath) hparents
          exact ⟨outer, houter.trans hupper, hbefore⟩
      obtain ⟨outer, houter, hbefore⟩ := habove
      obtain ⟨hlast, husable⟩ := hends.directoryMade hbefore.wellFormed hpath
      exact ⟨location path, List.prefix_rfl, hbefore.trans hlast houter, fun _ _ => ⟨rfl, husable⟩⟩

/-- What has been made when a directory and those above it are made without a fault. -/
theorem directoryMade_of_makeEach (htree : tree.WellFormed) {path : Path} (hpath : Descends path)
    (htext : path.text ≠ "") {count : ℕ} {after : FileTree}
    (hmade : tree.makeEach (ancestors (count + 1) path) = (.ok (), after)) :
    DirectoryMade tree after (location path) ∧ IsUsable path := by
  obtain ⟨outer, -, hlast, hall⟩ := exists_directoryMade_of_makeEach htree hpath hmade
  obtain ⟨rfl, husable⟩ := hall (Nat.succ_pos count) htext
  exact ⟨hlast, husable⟩

section Passable

variable (htree : tree.WellFormed) {path : Path} (hpath : Descends path)
  (htrimmed : path.trimmed = path) (husable : IsUsable path) (hlocation : location path ≠ [])
  (hpassable : Passable tree (location path))

include htree hpath htrimmed husable hlocation hpassable

/-- On a way without files a directory is there in the end, or its parents are missing. -/
theorem ends_or_missing :
    (∃ last, tree.Ends last path) ∨ tree.makeDirectory path = .error .notFound := by
  obtain ⟨last, hlast⟩ := exists_lastStep hpath htrimmed hlocation
  cases hnode : tree.get? (location path) with
  | some node =>
    cases node with
    | directory =>
      exact .inl ⟨tree, .inr ⟨(isDirectory_iff_usable htree hpath).mpr ⟨husable, hnode⟩, rfl⟩⟩
    | file content => exact absurd hnode (hpassable _ (List.prefix_refl _) content)
  | none =>
    cases hget : tree.get? (location path).dropLast with
    | none => exact .inr (makeDirectory_eq_notFound hpath husable hlast hpassable hget)
    | some node =>
      cases node with
      | directory =>
        exact .inl ⟨_, .inl ((makeDirectory_eq_ok_iff htree hpath).mpr
          ⟨husable, ⟨last, hlast⟩, isDirectoryAt_iff.mpr hget, hnode, rfl⟩)⟩
      | file content => exact absurd hget (hpassable _ (List.dropLast_prefix _) content)

omit htree in
/-- Once its parents are made, a directory is made or it is there. -/
theorem exists_ends_of_parents {changed : FileTree}
    (hmade : DirectoryMade tree changed (location path).dropLast) :
    ∃ last, changed.Ends last path := by
  have hget : changed.get? (location path) = tree.get? (location path) := by
    rw [hmade.get?_eq, if_neg]
    intro hupper
    have hlength := hupper.length_le
    rw [List.length_dropLast] at hlength
    exact hlocation (List.eq_nil_of_length_eq_zero (by omega))
  obtain ⟨last, hlast⟩ := exists_lastStep hpath htrimmed hlocation
  cases hnode : tree.get? (location path) with
  | some node =>
    cases node with
    | directory =>
      exact ⟨changed, .inr ⟨(isDirectory_iff_usable hmade.wellFormed hpath).mpr
        ⟨husable, hget.trans hnode⟩, rfl⟩⟩
    | file content => exact absurd hnode (hpassable _ (List.prefix_refl _) content)
  | none =>
    exact ⟨_, .inl ((makeDirectory_eq_ok_iff hmade.wellFormed hpath).mpr
      ⟨husable, ⟨last, hlast⟩, hmade.isDirectoryAt, hget.trans hnode, rfl⟩)⟩

end Passable

/-- On a way without files all missing directories are made. -/
theorem exists_makeEach (htree : tree.WellFormed) {path : Path} (hpath : Descends path)
    (htrimmed : path.trimmed = path) (htext : path.text ≠ "") {count : ℕ}
    (hcount : path.text.toList.length < count) (husable : IsUsable path)
    (hpassable : Passable tree (location path)) :
    ∃ after, tree.makeEach (ancestors count path) = (.ok (), after) := by
  induction count generalizing path with
  | zero => omega
  | succ count ih =>
    rw [ancestors_succ]
    by_cases hlocation : location path = []
    · have hdirectory := (isDirectory_iff_usable htree hpath).mpr ⟨husable, hlocation ▸ rfl⟩
      exact ⟨tree, makeEach_cons_of_ends htext _ (.inr ⟨hdirectory, rfl⟩)⟩
    obtain ⟨name, hname⟩ := Path.exists_fileName?_of_location hpath hlocation
    obtain ⟨parent, hparent⟩ := Path.exists_parent?_of_fileName? hname
    have hsplit := Path.location_parent hname hparent
    -- The parents can be made, because nothing stands in their way either.
    have hparents : ∃ changed, tree.makeEach (ancestors count parent) = (.ok (), changed) ∧
        DirectoryMade tree changed (location parent) := by
      obtain ⟨tail, htail, hlonger⟩ := Path.exists_text_parent hname hparent
      have hshorter : parent.text.toList.length < path.text.toList.length := by
        have htailLength : 0 < tail.toList.length := by
          apply List.length_pos_iff.mpr
          simpa using htail
        rw [hlonger, String.toList_append, List.length_append]
        omega
      obtain ⟨less, rfl⟩ : ∃ less, count = less + 1 := ⟨count - 1, by omega⟩
      by_cases hempty : parent.text = ""
      · have hroot : location parent = [] := by
          rw [Path.location, Path.pieces_eq, hempty]
          rfl
        rw [hroot]
        exact ⟨tree, by rw [ancestors_succ, makeEach, if_pos hempty], directoryMade_self htree rfl⟩
      · have hdescends := (Path.descends_parent hname hparent).mpr hpath
        obtain ⟨changed, hchanged⟩ := ih hdescends (Path.trimmed_parent hparent) hempty (by omega)
          (isUsable_parent hname hparent hempty husable)
          (fun above habove => hpassable above (hsplit ▸ habove.trans (List.prefix_append _ _)))
        exact ⟨changed, hchanged, (directoryMade_of_makeEach htree hdescends hempty hchanged).1⟩
    obtain ⟨changed, hchanged, hmade⟩ := hparents
    obtain ⟨last, hends⟩ := exists_ends_of_parents hpath htrimmed husable hlocation hpassable
      (by rwa [hsplit, List.dropLast_concat])
    rw [hparent, Option.map_some, Option.getD_some]
    rcases ends_or_missing htree hpath htrimmed husable hlocation hpassable with
      ⟨first, hfirst⟩ | hmissing
    · exact ⟨first, makeEach_cons_of_ends htext _ hfirst⟩
    · exact ⟨last, makeEach_cons_of_missing htext hmissing hchanged hends⟩

/-! ## All directories of a path -/

/-- What is there after the directories of a path have been made. -/
theorem directoryMade_of_makeDirectories (htree : tree.WellFormed) {path : Path}
    (hpath : Descends path) (htext : path.text ≠ "") {after : FileTree}
    (hmade : tree.makeDirectories path = (.ok (), after)) :
    DirectoryMade tree after (location path) ∧ IsUsable path :=
  directoryMade_of_makeEach htree hpath htext hmade

theorem exists_makeDirectories (htree : tree.WellFormed) {path : Path} (hpath : Descends path)
    (htrimmed : path.trimmed = path) (htext : path.text ≠ "") (husable : IsUsable path)
    (hpassable : Passable tree (location path)) :
    ∃ after, tree.makeDirectories path = (.ok (), after) := by
  apply exists_makeEach htree hpath htrimmed htext _ husable hpassable
  rw [String.length_toList]
  exact Nat.lt_succ_self _

end TableAppend.FileTree
