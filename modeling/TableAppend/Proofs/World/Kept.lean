import TableAppend.Proofs.World.MediumWriting

/-!
# What a failed write keeps

A write that fails may have done a part of its work.  It may have made directories, and it may have
left or removed temporary files, but it has kept all other files as they were: `KeptBut` names the
places at which something may be different.
-/

namespace TableAppend

open TableAppend.Path (LiesIn)

/-! ## Where a change fails -/

namespace Change

variable {α β : Type} {world after : World} {failure : Failure}

/-- A row of changes fails where its first failure is. -/
theorem run_bind_eq_error_iff {change : Change α} {next : α → Change β} :
    run (change >>= next) world = (.error failure, after) ↔
      run change world = (.error failure, after) ∨
        ∃ value between, run change world = (.ok value, between) ∧
          run (next value) between = (.error failure, after) := by
  rw [run_bind]
  rcases run change world with ⟨_ | value, between⟩
  · simp
  · simp

theorem run_ofOutcome_eq_error_iff {outcome : Outcome α} :
    run (ofOutcome outcome) world = (.error failure, after) ↔
      outcome = .error failure ∧ after = world := by
  rw [run_ofOutcome, Prod.mk.injEq]
  exact and_congr_right fun _ => eq_comm

theorem run_inspect_eq_error_iff {question : World → Outcome α} :
    run (inspect question) world = (.error failure, after) ↔
      question world = .error failure ∧ after = world := by
  rw [run_inspect, Prod.mk.injEq]
  exact and_congr_right fun _ => eq_comm

theorem run_onTree_eq_error_iff {change : FileTree → Except IoFault FileTree} :
    run (onTree change) world = (.error failure, after) ↔
      ∃ fault, change world.tree = .error fault ∧ failure = .io fault ∧ after = world := by
  rw [run_onTree]
  cases change world.tree with
  | ok tree => simp
  | error fault => simp [eq_comm]

end Change

open Change (run run_bind_eq_error_iff run_onTree_eq_error_iff run_onTree_eq_ok_iff)

/-! ## Differences at some places -/

namespace FileTree

/-- Nothing is different but at some places, and except for directories where there was nothing. -/
structure KeptBut (places : List Location) (before after : FileTree) : Prop where
  wellFormed : after.WellFormed
  get?_eq : ∀ other, other ∉ places → after.get? other = before.get? other ∨
    (before.get? other = none ∧ after.get? other = some .directory)

variable {before after tree : FileTree} {places others : List Location}

theorem KeptBut.refl (htree : tree.WellFormed) (places : List Location) :
    KeptBut places tree tree :=
  ⟨htree, fun _ _ => .inl rfl⟩

theorem KeptBut.mono (hkept : KeptBut places before after) (hsubset : places ⊆ others) :
    KeptBut others before after :=
  ⟨hkept.wellFormed, fun other hother => hkept.get?_eq other fun hmem => hother (hsubset hmem)⟩

theorem KeptBut.trans {first second third : FileTree} (hfirst : KeptBut places first second)
    (hsecond : KeptBut places second third) : KeptBut places first third := by
  refine ⟨hsecond.wellFormed, ?_⟩
  intro other hother
  rcases hsecond.get?_eq other hother with hsame | ⟨hnone, hnew⟩
  · rw [hsame]
    exact hfirst.get?_eq other hother
  · rcases hfirst.get?_eq other hother with hsame | ⟨-, hdirectory⟩
    · exact .inr ⟨hsame ▸ hnone, hnew⟩
    · rw [hnone] at hdirectory
      contradiction

theorem DirectoryMade.keptBut {place : Location} (hmade : DirectoryMade before after place)
    (places : List Location) : KeptBut places before after := by
  refine ⟨hmade.wellFormed, ?_⟩
  intro other _
  rw [hmade.get?_eq]
  split
  · rename_i hupper
    rcases hget : before.get? other with _ | _ | content
    · exact .inr ⟨rfl, rfl⟩
    · exact .inl rfl
    · exact absurd hget (hmade.passable other hupper content)
  · exact .inl rfl

theorem FilePut.keptBut {place : Location} {content : Content} {gone : List Location}
    (hput : FilePut before after place content gone) : KeptBut (place :: gone) before after := by
  refine ⟨hput.wellFormed, ?_⟩
  intro other hother
  rw [List.mem_cons, not_or] at hother
  rw [hput.get?_eq, if_neg hother.1, if_neg hother.2]
  exact .inl rfl

/-! ## Directories -/

theorem keptBut_of_makeDirectory (htree : tree.WellFormed) {path : Path} (hpath : path.Descends)
    (hmade : tree.makeDirectory path = .ok after) : KeptBut [] tree after :=
  (directoryMade_of_makeDirectory htree hpath hmade).keptBut []

/-- Whether or not all directories can be made, nothing else is different afterwards. -/
theorem keptBut_of_makeEach (htree : tree.WellFormed) {paths : List Path}
    (hpaths : ∀ path ∈ paths, path.Descends) : KeptBut [] tree (tree.makeEach paths).2 := by
  exact makeEach_preserves (.refl htree []) fun path hpath _ _ hbefore hmade =>
    hbefore.trans (keptBut_of_makeDirectory hbefore.wellFormed (hpaths path hpath) hmade)

theorem descends_of_mem_ancestors {count : ℕ} {path parent : Path} (hpath : path.Descends)
    (hparent : parent ∈ ancestors count path) : parent.Descends := by
  induction count generalizing path with
  | zero => exact absurd hparent List.not_mem_nil
  | succ count ih =>
    rw [ancestors_succ, List.mem_cons] at hparent
    rcases hparent with rfl | hupper
    · exact hpath
    · cases hnext : path.parent? with
      | none =>
        rw [hnext] at hupper
        exact absurd hupper List.not_mem_nil
      | some next =>
        rw [hnext] at hupper
        exact ih ((Path.parent_above hnext).2 hpath) hupper

theorem keptBut_of_makeDirectories (htree : tree.WellFormed) {path : Path}
    (hpath : path.Descends) : KeptBut [] tree (tree.makeDirectories path).2 :=
  keptBut_of_makeEach htree fun _ hparent => descends_of_mem_ancestors hpath hparent

/-! ## Removing a file -/

theorem removeFile_of_file (htree : tree.WellFormed) {path : Path} (hpath : path.Descends)
    {content : Content} (hnode : tree.node? path = some (.file content)) :
    tree.removeFile path = .ok (tree.eraseNode path.location) := by
  rw [removeFile, find_of_node? htree hpath hnode]
  rfl

theorem removeFile_eq_error {path : Path}
    (hnode : ∀ content, tree.node? path ≠ some (.file content)) :
    ∃ fault, tree.removeFile path = .error fault := by
  rw [removeFile]
  rcases hfind : tree.find path with fault | ⟨there, _ | content⟩
  · exact ⟨fault, rfl⟩
  · exact ⟨_, rfl⟩
  · exact absurd (node?_eq_some_iff_find.mpr ⟨there, hfind⟩) (hnode content)

theorem get?_eraseNode_of_file {place : Location} {content : Content}
    (hplace : tree.get? place = some (.file content)) (other : Location) :
    (tree.eraseNode place).get? other = if other = place then none else tree.get? other := by
  have hne : place ≠ [] := by
    rintro rfl
    simp at hplace
  by_cases hnil : other = []
  · subst hnil
    rw [if_neg (Ne.symm hne)]
    rfl
  · exact get?_eraseNode _ _ _ hnil

theorem keptBut_eraseNode (htree : tree.WellFormed) {place : Location} {content : Content}
    (hplace : tree.get? place = some (.file content)) :
    KeptBut [place] tree (tree.eraseNode place) := by
  refine ⟨htree.eraseNode_file (by simp [hplace]), ?_⟩
  intro other hother
  rw [get?_eraseNode_of_file hplace, if_neg (by simpa using hother)]
  exact .inl rfl

end FileTree

open FileTree (KeptBut)

/-! ## Saving under a temporary name -/

/-- A codec fails with some rows, whether or not it leaves a content of them. -/
def Codec.Fails (codec : Codec) (schema : Schema) (rows : Batch) (failure : Failure) : Prop :=
  codec.save schema rows = .error failure ∨
    ∃ content, codec.save schema rows = .ok (content, some failure)

namespace Columnar

variable {world after : World} {path : Path}

theorem run_discard (path : Path) (world : World) :
    run (discard path) world =
      (.ok (), { world with tree := (world.tree.removeFile path).toOption.getD world.tree }) := by
  change ((.ok () : Outcome Unit), _) = _
  dsimp only
  cases world.tree.removeFile path <;> rfl

theorem run_discard_of_file (hworld : world.tree.WellFormed) (hpath : path.Descends)
    {content : Content} (hnode : world.tree.node? path = some (.file content)) :
    run (discard path) world =
      (.ok (), { world with tree := world.tree.eraseNode path.location }) := by
  rw [run_discard, FileTree.removeFile_of_file hworld hpath hnode]
  rfl

theorem run_discard_of_no_file
    (hnode : ∀ content, world.tree.node? path ≠ some (.file content)) :
    run (discard path) world = (.ok (), world) := by
  obtain ⟨fault, hfault⟩ := FileTree.removeFile_eq_error hnode
  rw [run_discard, hfault]
  rfl

theorem keptBut_of_discard (hworld : world.tree.WellFormed) (hpath : path.Descends) :
    KeptBut [path.location] world.tree (run (discard path) world).2.tree ∧
      (run (discard path) world).2.ledger = world.ledger := by
  by_cases hnode : ∃ content, world.tree.node? path = some (.file content)
  · obtain ⟨content, hcontent⟩ := hnode
    obtain ⟨-, hget⟩ := (FileTree.node?_eq_file_iff hworld hpath).mp hcontent
    rw [run_discard_of_file hworld hpath hcontent]
    exact ⟨FileTree.keptBut_eraseNode hworld hget, rfl⟩
  · rw [run_discard_of_no_file (not_exists.mp hnode)]
    exact ⟨.refl hworld _, rfl⟩

/-- Saving fails with the codec or with the file system. -/
theorem failure_of_save_error {codec : Codec} {schema : Schema} {rows : Batch} {failure : Failure}
    (hrun : run (save codec schema rows path) world = (.error failure, after)) :
    codec.Fails schema rows failure ∨ ∃ fault, failure = .io fault := by
  rw [save] at hrun
  rcases run_bind_eq_error_iff.mp hrun with hsave | ⟨⟨content, failure?⟩, first, hsave, hrest⟩
  · exact .inl (.inl (Change.run_ofOutcome_eq_error_iff.mp hsave).1)
  obtain ⟨hsaved, rfl⟩ := Change.run_ofOutcome_eq_ok_iff.mp hsave
  rcases run_bind_eq_error_iff.mp hrest with hwrite | ⟨⟨⟩, second, -, hresult⟩
  · obtain ⟨fault, -, hfault, -⟩ := run_onTree_eq_error_iff.mp hwrite
    exact .inr ⟨fault, hfault⟩
  cases failure? with
  | none => simp at hresult
  | some cause =>
    rw [Change.run_throw, Prod.mk.injEq, Except.error.injEq] at hresult
    exact .inl (.inr ⟨content, hresult.1 ▸ hsaved⟩)

/-- A codec that fails has left nothing or a file at the path that it was given. -/
theorem left_of_save_error {codec : Codec} {schema : Schema} {rows : Batch} {failure : Failure}
    (hworld : world.tree.WellFormed) (hpath : path.Descends)
    (hrun : run (save codec schema rows path) world = (.error failure, after)) :
    after = world ∨ ∃ content tree, FileTree.FilePut world.tree tree path.location content [] ∧
      tree.node? path = some (.file content) ∧ after = { world with tree } := by
  rw [save] at hrun
  rcases run_bind_eq_error_iff.mp hrun with hsave | ⟨⟨content, failure?⟩, first, hsave, hrest⟩
  · exact .inl (Change.run_ofOutcome_eq_error_iff.mp hsave).2
  obtain ⟨-, rfl⟩ := Change.run_ofOutcome_eq_ok_iff.mp hsave
  rcases run_bind_eq_error_iff.mp hrest with hwrite | ⟨⟨⟩, second, hwrite, hresult⟩
  · obtain ⟨-, -, -, rfl⟩ := run_onTree_eq_error_iff.mp hwrite
    exact .inl rfl
  obtain ⟨tree, htree, rfl⟩ := run_onTree_eq_ok_iff.mp hwrite
  have hput := FileTree.filePut_of_write hworld hpath htree
  obtain ⟨hadmits, -, -⟩ := (FileTree.write_eq_ok_iff hworld hpath).mp htree
  have hnode : tree.node? path = some (.file content) := by
    rw [FileTree.node?_eq_file_iff hput.wellFormed hpath, hput.get?_eq, if_pos rfl]
    exact ⟨⟨hadmits.usable, hadmits.endsInName⟩, rfl⟩
  cases failure? with
  | none => simp at hresult
  | some cause =>
    rw [Change.run_throw, Prod.mk.injEq] at hresult
    exact .inr ⟨content, tree, hput, hnode, hresult.2.symm⟩

/-- Once a failed saving is cleaned up after, there is nothing at its path or what was there before. -/
theorem discarded_of_save_error {codec : Codec} {schema : Schema} {rows : Batch}
    {failure : Failure} (hworld : world.tree.WellFormed) (hpath : path.Descends)
    (hrun : run (save codec schema rows path) world = (.error failure, after)) :
    KeptBut [path.location] world.tree (run (discard path) after).2.tree ∧
      (run (discard path) after).2.ledger = world.ledger ∧
      ((run (discard path) after).2.tree.get? path.location = none ∨
        (run (discard path) after).2 = world) := by
  rcases left_of_save_error hworld hpath hrun with rfl | ⟨content, tree, hput, hnode, rfl⟩
  · obtain ⟨hkept, hledger⟩ := @keptBut_of_discard after path hworld hpath
    refine ⟨hkept, hledger, ?_⟩
    by_cases hnode : ∃ content, after.tree.node? path = some (.file content)
    · obtain ⟨content, hcontent⟩ := hnode
      obtain ⟨-, hget⟩ := (FileTree.node?_eq_file_iff hworld hpath).mp hcontent
      rw [run_discard_of_file hworld hpath hcontent, FileTree.get?_eraseNode_of_file hget,
        if_pos rfl]
      exact .inl rfl
    · rw [run_discard_of_no_file (not_exists.mp hnode)]
      exact .inr rfl
  · obtain ⟨hkept, hledger⟩ := @keptBut_of_discard { world with tree } path hput.wellFormed hpath
    have hget : tree.get? path.location = some (.file content) := by
      rw [hput.get?_eq, if_pos rfl]
    refine ⟨hput.keptBut.trans hkept, hledger, .inl ?_⟩
    rw [@run_discard_of_file { world with tree } _ hput.wellFormed hpath _ hnode,
      FileTree.get?_eraseNode_of_file hget, if_pos rfl]

theorem save_or_discard_eq_error_iff {change : Change Unit} {failure : Failure} :
    run (tryCatch change fun cause => do
        discard path
        throw cause) world = (.error failure, after) ↔
      ∃ cause left, run change world = (.error cause, left) ∧ failure = cause ∧
        after = (run (discard path) left).2 := by
  rw [Change.run_tryCatch]
  rcases run change world with ⟨cause | found, left⟩
  · have hdiscard : run (do discard path; throw cause : Change Unit) left =
        (.error cause, (run (discard path) left).2) := by
      rw [Change.run_bind]
      rfl
    dsimp only
    rw [hdiscard]
    simp [eq_comm]
  · simp

/-- A write whose table the codec fails to save ends with cleaning up after the codec. -/
theorem run_write_of_save_error {codec : Codec} {rows all : Batch} {layout : Layout}
    {schema : Schema} {failure : Failure} {left : World}
    (hall : allRows world.tree path rows layout = .ok all)
    (hschema : keptSchema world.tree path layout = .ok schema)
    (hsave : run (save codec schema all (path.besides Metadata.temporaryEnding)) world =
      (.error failure, left)) :
    run (write (some codec) path rows layout) world = (.error failure,
      (run (discard (path.besides Metadata.temporaryEnding)) left).2) := by
  rw [write, run_bind_eq_error_iff]
  refine .inr ⟨codec, world, Change.run_ofOutcome_eq_ok_iff.mpr ⟨rfl, rfl⟩, ?_⟩
  rw [run_bind_eq_error_iff]
  refine .inr ⟨all, world, Change.run_inspect_eq_ok_iff.mpr ⟨hall, rfl⟩, ?_⟩
  rw [run_bind_eq_error_iff]
  refine .inr ⟨schema, world, Change.run_inspect_eq_ok_iff.mpr ⟨hschema, rfl⟩, ?_⟩
  rw [run_bind_eq_error_iff]
  exact .inl (save_or_discard_eq_error_iff.mpr ⟨failure, left, hsave, rfl, rfl⟩)

/-- Where a columnar write fails: before anything is saved, while it is saved, or when what is saved is
moved to its place. -/
theorem write_error_cases {codec : Option Codec} {rows : Batch} {layout : Layout} {failure : Failure}
    (hrun : run (write codec path rows layout) world = (.error failure, after)) :
    (after = world ∧ ¬ ∃ present all schema, codec = some present ∧
        allRows world.tree path rows layout = .ok all ∧
          keptSchema world.tree path layout = .ok schema) ∨
      ∃ present all schema, codec = some present ∧
        allRows world.tree path rows layout = .ok all ∧
        keptSchema world.tree path layout = .ok schema ∧
          ((∃ left, run (save present schema all (path.besides Metadata.temporaryEnding)) world =
              (.error failure, left) ∧
                after = (run (discard (path.besides Metadata.temporaryEnding)) left).2) ∨
            ∃ content tree fault,
              world.tree.write (path.besides Metadata.temporaryEnding) content = .ok tree ∧
                failure = .io fault ∧ after = { world with tree }) := by
  rw [write] at hrun
  rcases run_bind_eq_error_iff.mp hrun with hcodec | ⟨present, first, hcodec, hafterCodec⟩
  · obtain ⟨hmissing, rfl⟩ := Change.run_ofOutcome_eq_error_iff.mp hcodec
    refine .inl ⟨rfl, ?_⟩
    rintro ⟨present, -, -, rfl, -⟩
    contradiction
  obtain ⟨hpresent, rfl⟩ := Change.run_ofOutcome_eq_ok_iff.mp hcodec
  obtain rfl := Codec.require_eq_ok_iff.mp hpresent
  rcases run_bind_eq_error_iff.mp hafterCodec with hall | ⟨all, second, hall, hafterRows⟩
  · obtain ⟨hfailed, rfl⟩ := Change.run_inspect_eq_error_iff.mp hall
    refine .inl ⟨rfl, ?_⟩
    rintro ⟨-, all, -, -, hall, -⟩
    exact absurd (hfailed.symm.trans hall) (by simp)
  obtain ⟨hallRows, rfl⟩ := Change.run_inspect_eq_ok_iff.mp hall
  rcases run_bind_eq_error_iff.mp hafterRows with hschema | ⟨schema, third, hschema, hafterSchema⟩
  · obtain ⟨hfailed, rfl⟩ := Change.run_inspect_eq_error_iff.mp hschema
    refine .inl ⟨rfl, ?_⟩
    rintro ⟨-, -, schema, -, -, hschema⟩
    exact absurd (hfailed.symm.trans hschema) (by simp)
  obtain ⟨hkept, rfl⟩ := Change.run_inspect_eq_ok_iff.mp hschema
  refine .inr ⟨present, all, schema, rfl, hallRows, hkept, ?_⟩
  rcases run_bind_eq_error_iff.mp hafterSchema with hsave | ⟨⟨⟩, saved, hsave, hafterSave⟩
  · obtain ⟨cause, left, hfailed, rfl, rfl⟩ := save_or_discard_eq_error_iff.mp hsave
    exact .inl ⟨left, hfailed, rfl⟩
  · obtain ⟨content, -, hwrite⟩ := save_eq_ok_iff.mp (save_or_discard_eq_ok_iff.mp hsave)
    obtain ⟨tree, htree, rfl⟩ := run_onTree_eq_ok_iff.mp hwrite
    rcases run_bind_eq_error_iff.mp hafterSave with hrename | ⟨⟨⟩, renamed, -, hresult⟩
    · obtain ⟨fault, -, rfl, rfl⟩ := run_onTree_eq_error_iff.mp hrename
      exact .inr ⟨content, tree, fault, htree, rfl, rfl⟩
    · simp at hresult

/-- Only the temporary file can tell that a columnar file could not be written. -/
theorem keptBut_of_write_error {codec : Option Codec} {rows : Batch} {layout : Layout}
    {failure : Failure} {place : Location} (hworld : world.tree.WellFormed)
    (hpath : path.LiesIn place)
    (hrun : run (write codec path rows layout) world = (.error failure, after)) :
    KeptBut [(path.besides Metadata.temporaryEnding).location] world.tree after.tree ∧
      after.ledger = world.ledger := by
  have hscratch := hpath.temporary.1
  rcases write_error_cases hrun with ⟨rfl, -⟩ |
    ⟨present, all, schema, -, -, -, ⟨left, hsave, rfl⟩ | ⟨content, tree, fault, htree, -, rfl⟩⟩
  · exact ⟨.refl hworld _, rfl⟩
  · obtain ⟨hkept, hledger, -⟩ := discarded_of_save_error hworld hscratch hsave
    exact ⟨hkept, hledger⟩
  · exact ⟨(FileTree.filePut_of_write hworld hscratch htree).keptBut, rfl⟩

end Columnar

/-! ## Either medium -/

section Writing

variable {world after : World} {path : Path} {place : Location} {content : Content}
  {metadata : Metadata} {failure : Failure} (hworld : world.tree.WellFormed)
  (hpath : path.LiesIn place)

include hworld hpath

/-- Rows for a file that they fit are added to it or leave it as it was. -/
theorem Delimited.eq_of_write_error {dialect : Dialect} {rows : Batch} {layout : Layout}
    (hfits : ∀ header, layout.columns = some header →
      (∃ ordered, rows.project header = .ok ordered) ∧
        ∃ content, world.tree.node? path = some (.file content))
    (hrun : run (write dialect path rows layout) world = (.error failure, after)) :
    after = world := by
  cases hlayout : layout.columns with
  | none =>
    rw [write] at hrun
    simp only [hlayout] at hrun
    rcases run_bind_eq_error_iff.mp hrun with hwrite | ⟨⟨⟩, first, -, hresult⟩
    · obtain ⟨-, -, -, rfl⟩ := run_onTree_eq_error_iff.mp hwrite
      rfl
    · simp at hresult
  | some header =>
    obtain ⟨⟨ordered, hordered⟩, content, hnode⟩ := hfits header hlayout
    have hwritten := (@write_added_eq_ok_iff _ _ path place rows layout _ hpath dialect
      header hlayout content hnode).mpr ⟨ordered, hordered, rfl, rfl⟩
    rw [hwritten] at hrun
    simp at hrun

theorem Medium.keptBut_of_write {medium : Medium} {rows : Batch} {layout : Layout}
    (hrun : run (medium.write path rows layout) world = (.ok metadata, after)) :
    KeptBut [path.location, (path.besides Metadata.temporaryEnding).location] world.tree
      after.tree := by
  obtain ⟨tree, content, gone, -, -, hput, hgone, rfl⟩ :=
    medium.exists_filePut_of_write hworld hpath hrun
  apply hput.keptBut.mono
  intro other hother
  rcases List.mem_cons.mp hother with rfl | hother
  · simp
  · simp [hgone other hother]

/-- Rows that cannot be written leave the file of their path as it was. -/
theorem Medium.keptBut_of_write_error {medium : Medium} {rows : Batch} {layout : Layout}
    (hfits : ∀ header, layout.columns = some header →
      (∃ ordered, rows.project header = .ok ordered) ∧
        ∃ content, world.tree.node? path = some (.file content))
    (hrun : run (medium.write path rows layout) world = (.error failure, after)) :
    KeptBut [(path.besides Metadata.temporaryEnding).location] world.tree after.tree := by
  cases medium with
  | delimited dialect =>
    rw [Delimited.eq_of_write_error hworld hpath hfits hrun]
    exact .refl hworld _
  | columnar codec => exact (Columnar.keptBut_of_write_error hworld hpath hrun).1

theorem Change.keptBut_of_replace
    (hrun : run (replace path content) world = (.ok (), after)) :
    KeptBut [path.location, (path.besides Metadata.temporaryEnding).location] world.tree
      after.tree := by
  obtain ⟨-, -, tree, hput, rfl⟩ := exists_filePut_of_replace hworld hpath hrun
  exact hput.keptBut

/-- A file that cannot be replaced is left as it is, and the new one may stand under its temporary
name. -/
theorem Change.left_of_replace_error
    (hrun : run (replace path content) world = (.error failure, after)) :
    after = world ∨ ∃ tree, FileTree.FilePut world.tree tree
      (path.besides Metadata.temporaryEnding).location content [] ∧ after = { world with tree } := by
  rw [replace] at hrun
  rcases run_bind_eq_error_iff.mp hrun with hwrite | ⟨⟨⟩, first, hwrite, hrename⟩
  · obtain ⟨-, -, -, rfl⟩ := run_onTree_eq_error_iff.mp hwrite
    exact .inl rfl
  · obtain ⟨tree, htree, rfl⟩ := run_onTree_eq_ok_iff.mp hwrite
    obtain ⟨-, -, -, rfl⟩ := run_onTree_eq_error_iff.mp hrename
    exact .inr ⟨tree, FileTree.filePut_of_write hworld hpath.temporary.1 htree, rfl⟩

theorem Change.keptBut_of_replace_error
    (hrun : run (replace path content) world = (.error failure, after)) :
    KeptBut [(path.besides Metadata.temporaryEnding).location] world.tree after.tree := by
  rcases left_of_replace_error hworld hpath hrun with rfl | ⟨tree, hput, rfl⟩
  · exact .refl hworld _
  · exact hput.keptBut

end Writing

/-! ## The files of a path -/

/-- The places of the files that stand beside a data file: a temporary one, the metadata and a
temporary one for these. -/
def Path.auxiliaries (path : Path) : List Location :=
  [(path.besides Metadata.temporaryEnding).location, (Metadata.path path).location,
    ((Metadata.path path).besides Metadata.temporaryEnding).location]

/-- The places of a data file and of the files beside it. -/
def Path.places (path : Path) : List Location :=
  path.location :: path.auxiliaries

theorem Path.LiesIn.location_notMem_auxiliaries {path : Path} {place : Location}
    (hpath : path.LiesIn place) : path.location ∉ path.auxiliaries := by
  obtain ⟨-, name, -, hlocation⟩ := id hpath
  have hlonger : ∀ ending : String, ending ≠ "" → place ++ [name] ≠ place ++ [name ++ ending] := by
    intro ending hending hsame
    have hnames := List.append_cancel_left hsame
    rw [List.cons.injEq] at hnames
    exact hending (String.append_eq_left_iff.mp hnames.1.symm)
  simp only [Path.auxiliaries, List.mem_cons, List.not_mem_nil, or_false, not_or]
  rw [hpath.temporary_location hlocation, hpath.metadata_location hlocation,
    hpath.metadata_temporary_location hlocation, hlocation]
  exact ⟨hlonger _ (by decide), hlonger _ (by decide), hlonger _ (by decide)⟩

namespace World

variable {world after : World} {path : Path} {place : Location} {metadata : Metadata}
  (hworld : world.tree.WellFormed) (hpath : path.LiesIn place)

include hworld hpath

theorem keptBut_of_recordMetadata
    (hrun : (recordMetadata path metadata).run world = (.ok (), after)) :
    KeptBut path.auxiliaries world.tree after.tree := by
  cases hledger : world.ledger with
  | none =>
    rw [recordMetadata_of_files hledger] at hrun
    apply (Change.keptBut_of_replace hworld (Path.liesIn_metadata hpath) hrun).mono
    simp [Path.auxiliaries]
  | some ledger =>
    rw [recordMetadata_of_ledger hledger, Prod.mk.injEq] at hrun
    rw [← hrun.2]
    exact .refl hworld _

theorem keptBut_of_recordMetadata_error {failure : Failure}
    (hrun : (recordMetadata path metadata).run world = (.error failure, after)) :
    KeptBut path.auxiliaries world.tree after.tree := by
  cases hledger : world.ledger with
  | none =>
    rw [recordMetadata_of_files hledger] at hrun
    apply (Change.keptBut_of_replace_error hworld (Path.liesIn_metadata hpath) hrun).mono
    simp [Path.auxiliaries]
  | some ledger =>
    rw [recordMetadata_of_ledger hledger] at hrun
    simp at hrun

end World

end TableAppend
