import TableAppend.Proofs.AntiJoin
import TableAppend.Proofs.Append.Preparation
import TableAppend.Proofs.Batch

/-!
# Layouts that come from a check

A layout names the columns of an existing file, and a check has found the columns of the rows among
them.  A file that is not there has a layout without columns.
-/

namespace TableAppend

/-- A layout that fits rows with some columns. -/
def Layout.Fits (layout : Layout) (columns : List String) : Prop :=
  ∀ header, layout.columns = some header →
    header.length = columns.length ∧ ∀ column ∈ columns, column ∈ header

theorem Layout.fits_new (columns : List String) : Layout.new.Fits columns := by
  intro header hheader
  contradiction

theorem Delimited.fits_of_check {tree : FileTree} {dialect : Dialect} {path : Path}
    {metadata : Option Metadata} {columns : List String} {layout : Layout}
    (hcheck : check tree dialect path metadata columns = .ok layout) : layout.Fits columns := by
  obtain ⟨-, ⟨-, rfl⟩ | ⟨found, -, hlength, hcontained, rfl⟩⟩ := check_eq_ok_iff.mp hcheck
  · exact Layout.fits_new columns
  · intro header hheader
    obtain rfl := Option.some.inj hheader
    exact ⟨hlength, hcontained⟩

theorem Columnar.fits_of_check {tree : FileTree} {codec : Option Codec} {path : Path}
    {metadata : Option Metadata} {rows : Batch} {layout : Layout}
    (hcheck : check tree codec path metadata rows = .ok layout) : layout.Fits rows.columns := by
  obtain ⟨-, -, table, -, stored, -, hcolumns, -, rfl⟩ := check_eq_ok_iff.mp hcheck
  intro header hheader
  rw [Batch.hasColumns, Bool.and_eq_true] at hcolumns
  obtain rfl : stored.columns = header := by simpa using hheader
  exact ⟨of_decide_eq_true hcolumns.1, fun column hcolumn => by
    simpa using List.all_eq_true.mp hcolumns.2 column hcolumn⟩

theorem Medium.fits_of_check {medium : Medium} {tree : FileTree} {path : Path}
    {metadata : Option Metadata} {rows : Batch} {layout : Layout}
    (hcheck : medium.check tree path metadata rows = .ok layout) : layout.Fits rows.columns := by
  cases medium with
  | delimited dialect => exact Delimited.fits_of_check hcheck
  | columnar codec => exact Columnar.fits_of_check hcheck

theorem Medium.isEmpty_storedForm (medium : Medium) (rows : Batch) :
    (medium.storedForm rows).isEmpty = rows.isEmpty := by
  cases medium with
  | delimited dialect => exact List.isEmpty_map
  | columnar codec => rfl

theorem Medium.columns_storedForm (medium : Medium) (rows : Batch) :
    (medium.storedForm rows).columns = rows.columns := by
  cases medium <;> rfl

namespace Job

variable {job : Job} {world : World}

/-- A real append leaves no step out. -/
theorem attempt_real_eq_ok_iff (hmode : job.mode = .real) {α : Type} {step : String}
    {outcome : Outcome α} {result : Option α × List Note} :
    job.attempt step outcome = .ok result ↔
      ∃ value, outcome = .ok value ∧ result = (some value, []) := by
  unfold attempt
  cases outcome with
  | ok value => simp [eq_comm]
  | error failure => simp [hmode]

/-- The rows that survive are candidates. -/
theorem subset_of_survivors {base : Path} {candidates : Batch} {survivors : Batch}
    {antiJoined : Bool} {notes : List Note}
    (hsurvivors : job.survivors world base candidates = .ok ((survivors, antiJoined), notes)) :
    survivors.columns = candidates.columns ∧ ∀ row ∈ survivors.rows, row ∈ candidates.rows := by
  rw [Job.survivors] at hsurvivors
  split at hsurvivors
  · obtain ⟨keys, -, hsurvivors⟩ := Outcome.bind_eq_ok_iff.mp hsurvivors
    obtain ⟨files, -, hsurvivors⟩ := Outcome.bind_eq_ok_iff.mp hsurvivors
    obtain ⟨⟨baseline?, told⟩, -, hsurvivors⟩ := Outcome.bind_eq_ok_iff.mp hsurvivors
    cases baseline? with
    | none =>
      have hresult := Except.ok.inj hsurvivors
      rw [Prod.mk.injEq, Prod.mk.injEq] at hresult
      rw [hresult.1.1]
      exact ⟨rfl, fun row hrow => hrow⟩
    | some baseline =>
      obtain ⟨kept, hkept, hresult⟩ := Outcome.bind_eq_ok_iff.mp hsurvivors
      have hpair := Except.ok.inj hresult
      rw [Prod.mk.injEq, Prod.mk.injEq] at hpair
      rw [← hpair.1.1]
      exact ⟨AntiJoin.columns_apply hkept, fun row hrow => AntiJoin.mem_of_apply hkept hrow⟩
  · have hresult := Except.ok.inj hsurvivors
    rw [Prod.mk.injEq, Prod.mk.injEq] at hresult
    rw [← hresult.1.1]
    exact ⟨rfl, fun row hrow => hrow⟩

/-- The layout of a file that is there is that of its check. -/
theorem layoutFor_real_eq_ok_iff (hmode : job.mode = .real) {file : Located} {candidates : Batch}
    {layout : Layout} {notes : List Note} :
    job.layoutFor world file candidates = .ok (layout, notes) ↔
      notes = [] ∧ ((file.state.present = false ∧ layout = .new) ∨ (file.state.present = true ∧
        job.medium.check world.tree file.path file.metadata candidates = .ok layout)) := by
  rw [layoutFor]
  cases hpresent : file.state.present with
  | false =>
    simp only [Bool.false_eq_true, ↓reduceIte, Except.ok.injEq, Prod.mk.injEq, true_and, false_and,
      or_false]
    rw [and_comm, eq_comm, @eq_comm _ notes, @eq_comm _ Layout.new]
  | true =>
    simp only [↓reduceIte, Bool.true_eq_false, false_and, true_and, false_or]
    rw [Outcome.bind_eq_ok_iff]
    constructor
    · rintro ⟨read, hattempt, hresult⟩
      obtain ⟨found, hcheck, rfl⟩ := (attempt_real_eq_ok_iff hmode).mp hattempt
      obtain ⟨rfl, rfl⟩ := Prod.mk.inj (Except.ok.inj hresult)
      exact ⟨rfl, hcheck⟩
    · rintro ⟨rfl, hcheck⟩
      exact ⟨_, (attempt_real_eq_ok_iff hmode).mpr ⟨layout, hcheck, rfl⟩, rfl⟩

/-- A prepared file fits the rows that are to be written. -/
theorem fits_of_prepare (hmode : job.mode = .real) {bucket : Bucket} {prepared : Prepared}
    (hprepared : job.prepare world bucket = .ok prepared) :
    prepared.survivors.columns = bucket.rows.columns ∧
      prepared.layout.Fits bucket.rows.columns ∧
      (prepared.present = false → prepared.layout = .new) := by
  obtain ⟨file, found, layout, checked, survivors, antiJoined, compared, hlocate, hlayout,
    hsurvivors, rfl⟩ := prepare_eq_ok_iff.mp hprepared
  have hcolumns := Medium.columns_storedForm job.medium bucket.rows
  refine ⟨(subset_of_survivors hsurvivors).1.trans hcolumns, ?_, ?_⟩
  · rcases ((layoutFor_real_eq_ok_iff hmode).mp hlayout).2 with ⟨-, rfl⟩ | ⟨-, hcheck⟩
    · exact Layout.fits_new _
    · exact hcolumns ▸ Medium.fits_of_check hcheck
  · intro hpresent
    rcases ((layoutFor_real_eq_ok_iff hmode).mp hlayout).2 with ⟨-, rfl⟩ | ⟨hthere, -⟩
    · rfl
    · dsimp only at hpresent
      rw [hpresent] at hthere
      contradiction

/-- What is known of the file that receives rows is what is found and recorded at its path. -/
theorem exists_stateOf_of_locate {base : Path} {file : Located} {remarks : Remarks}
    (hlocate : job.locate world base = .ok (file, remarks)) :
    world.metadata file.path = .ok file.metadata ∧
      ∃ seen, job.stateOf world file.path file.metadata = .ok (file.state, seen) := by
  have hobserved : ∀ {path : Path} {rolledOver : Bool} {found : Located} {seen : Remarks},
      job.observe world path rolledOver = .ok (found, seen) →
        world.metadata found.path = .ok found.metadata ∧
          ∃ seen, job.stateOf world found.path found.metadata = .ok (found.state, seen) := by
    intro path rolledOver found seen hfound
    obtain ⟨metadata, state, hmetadata, hstate, rfl⟩ := observe_eq_ok_iff.mp hfound
    exact ⟨hmetadata, seen, hstate⟩
  rcases observe_of_locate hlocate with ⟨path, seen, -, hfound⟩ | ⟨path, seen, -, -, hfound⟩
  · exact hobserved hfound
  · exact hobserved hfound

theorem metadata_of_locate {base : Path} {file : Located} {remarks : Remarks}
    (hlocate : job.locate world base = .ok (file, remarks)) :
    world.metadata file.path = .ok file.metadata :=
  (exists_stateOf_of_locate hlocate).1

/-- A file that is found is known to be there. -/
theorem present_of_node? {bucket : Bucket} {prepared : Prepared}
    (hprepared : job.prepare world bucket = .ok prepared) {content : Content}
    (hnode : world.tree.node? prepared.path = some (.file content)) : prepared.present = true := by
  obtain ⟨file, found, layout, checked, survivors, antiJoined, compared, hlocate, -, -, rfl⟩ :=
    prepare_eq_ok_iff.mp hprepared
  obtain ⟨-, seen, hstate⟩ := exists_stateOf_of_locate hlocate
  obtain ⟨rows, notes, -, hfile⟩ := countRows_of_stateOf hstate hnode
  rw [hfile]

/-- A file that is there was checked as it is recorded. -/
theorem check_of_prepare (hmode : job.mode = .real) {bucket : Bucket} {prepared : Prepared}
    (hprepared : job.prepare world bucket = .ok prepared) (hpresent : prepared.present = true) :
    ∃ metadata, world.metadata prepared.path = .ok metadata ∧
      job.medium.check world.tree prepared.path metadata (job.medium.storedForm bucket.rows) =
        .ok prepared.layout := by
  obtain ⟨file, found, layout, checked, survivors, antiJoined, compared, hlocate, hlayout, -, rfl⟩ :=
    prepare_eq_ok_iff.mp hprepared
  dsimp only at hpresent
  rcases ((layoutFor_real_eq_ok_iff hmode).mp hlayout).2 with ⟨habsent, -⟩ | ⟨-, hcheck⟩
  · rw [hpresent] at habsent
    contradiction
  · exact ⟨_, metadata_of_locate hlocate, hcheck⟩

end Job

end TableAppend
