import TableAppend.Append.Preparation
import TableAppend.Proofs.Family.Search
import TableAppend.Proofs.World.Reading

/-!
# Decisions about one partition

All that a preparation looks at lies in the partition's own directory.  `prepare_eq_ok_iff` names the
decisions it consists of, and `prepare_congr` says that worlds which agree in that directory lead to
the same decisions.
-/

namespace TableAppend

open TableAppend.Path (IsName LiesIn)

/-! ## Where a partition lies -/

/-- What a token is accepted for as a segment: neither separators nor null characters in it, and a value
that is not blank and no relative step. -/
theorem segmentFault?_eq_none_iff {token : String} :
    segmentFault? token = none ↔ stripBlanks (segmentValue token.toList) ≠ [] ∧
      '/' ∉ token.toList ∧ '\\' ∉ token.toList ∧ Char.ofNat 0 ∉ token.toList ∧
        segmentValue token.toList ≠ ['.'] ∧ segmentValue token.toList ≠ ['.', '.'] := by
  rw [segmentFault?]
  by_cases hblank : stripBlanks (segmentValue token.toList) = []
  · simp [hblank]
  by_cases hseparator : '/' ∈ token.toList ∨ '\\' ∈ token.toList
  · rw [if_neg hblank, if_pos hseparator]
    simp only [reduceCtorEq, false_iff]
    tauto
  by_cases hnull : Char.ofNat 0 ∈ token.toList
  · rw [if_neg hblank, if_neg hseparator, if_pos hnull]
    simp only [reduceCtorEq, false_iff]
    tauto
  rw [if_neg hblank, if_neg hseparator, if_neg hnull]
  split
  · simp only [reduceCtorEq, false_iff]
    tauto
  · simp only [true_iff]
    tauto

/-- What is accepted as a segment is a name. -/
theorem Segment.isName (segment : Segment) : IsName segment.text := by
  obtain ⟨token, haccepted⟩ := segment
  obtain ⟨hblank, hslash, -, -, hhere, hup⟩ := segmentFault?_eq_none_iff.mp haccepted
  refine ⟨?_, ?_, ?_, hslash⟩
  · rintro rfl
    exact hblank (by decide)
  · rintro rfl
    exact hhere (by decide)
  · rintro rfl
    exact hup (by decide)

namespace Options

/-- The directory of a partition's files. -/
def directoryOf (options : Options) (key : PartitionKey) : Path :=
  key.directory options.baseDirectory

/-- The place of a partition's files. -/
def place (options : Options) (key : PartitionKey) : Location :=
  (options.directoryOf key).location

variable {options : Options} {name : String} (hname : options.target.fileName? = some name)
  (htarget : options.target.Descends)

include hname htarget

theorem descends_baseDirectory : options.baseDirectory.Descends := by
  obtain ⟨parent, hparent⟩ := Path.exists_parent?_of_fileName? hname
  exact (Path.descends_directory hparent).mpr ((Path.descends_parent hname hparent).mpr htarget)

theorem descends_directoryOf (key : PartitionKey) : (options.directoryOf key).Descends := by
  cases key with
  | none => exact descends_baseDirectory hname htarget
  | some segment =>
    exact (Path.descends_join _ segment.isName).mpr (descends_baseDirectory hname htarget)

theorem basePath_liesIn (key : PartitionKey) :
    (options.basePath key).LiesIn (options.place key) := by
  cases key with
  | none =>
    obtain ⟨parent, hparent⟩ := Path.exists_parent?_of_fileName? hname
    refine ⟨htarget, name, hname, ?_⟩
    rw [place, directoryOf, PartitionKey.directory, baseDirectory,
      Path.location_directory hparent]
    exact Path.location_parent hname hparent
  | some segment =>
    rw [basePath, hname, Option.getD_some]
    exact Path.liesIn_join (descends_directoryOf hname htarget (some segment))
      (Path.isName_of_fileName? hname)

omit htarget in
theorem fileName?_basePath (key : PartitionKey) : (options.basePath key).fileName? = some name := by
  cases key with
  | none => exact hname
  | some segment =>
    rw [basePath, hname, Option.getD_some]
    exact Path.fileName?_join _ (Path.isName_of_fileName? hname)

omit htarget in
theorem trimmed_directoryOf (key : PartitionKey) :
    (options.directoryOf key).trimmed = options.directoryOf key ∧
      (options.directoryOf key).text ≠ "" := by
  cases key with
  | none =>
    refine ⟨?_, Path.text_directory_ne _⟩
    change options.target.directory.trimmed = options.target.directory
    obtain ⟨parent, hparent⟩ := Path.exists_parent?_of_fileName? hname
    rcases Path.directory_cases hparent with ⟨-, heq⟩ | ⟨-, heq⟩ <;> rw [heq]
    · exact Path.trimmed_parent hparent
    · decide
  | some segment =>
    refine ⟨Path.trimmed_join _ segment.isName, ?_⟩
    intro hempty
    have hjoin := Path.fileName?_join options.baseDirectory segment.isName
    have hpath : options.baseDirectory.join segment.text = ⟨""⟩ := congrArg Path.mk hempty
    rw [hpath] at hjoin
    have hnone : (Path.mk "").fileName? = none := by decide
    rw [hnone] at hjoin
    contradiction

omit htarget in
theorem directory_basePath (key : PartitionKey) :
    (options.basePath key).directory = options.directoryOf key := by
  cases key with
  | none => rfl
  | some segment =>
    obtain ⟨htrimmed, htext⟩ := trimmed_directoryOf hname (some segment)
    have hbase : options.basePath (some segment) =
        (options.directoryOf (some segment)).join name := by
      rw [basePath, hname]
      rfl
    rw [hbase, Path.directory, Path.parent?_join _ (Path.isName_of_fileName? hname), htrimmed]
    dsimp only
    rw [if_neg htext]

omit htarget in
/-- All partitions have directories that can be searched, or none has. -/
theorem isSome_listed?_basePath (key : PartitionKey) :
    (options.basePath key).directory.listed?.isSome = options.baseDirectory.listed?.isSome := by
  rw [directory_basePath hname]
  cases key with
  | none => rfl
  | some segment =>
    obtain ⟨htrimmed, htext⟩ := trimmed_directoryOf hname none
    exact Path.isSome_listed?_join htrimmed htext segment.isName

omit htarget in
theorem extension?_basePath (key : PartitionKey) :
    (options.basePath key).extension? = options.target.extension? := by
  rw [Path.extension?, Path.extension?, fileName?_basePath hname, hname]

omit hname htarget in
/-- Two partitions have their directories side by side. -/
theorem not_prefix_place {first second : Segment} (hne : first ≠ second) :
    ¬ options.place (some first) <+: options.place (some second) := by
  have hplace : ∀ segment : Segment, options.place (some segment) =
      options.baseDirectory.location ++ [segment.text] := by
    intro segment
    exact Path.location_join _ segment.isName
  rw [hplace, hplace]
  intro hupper
  have hsame := hupper.eq_of_length (by simp)
  have htext := List.append_cancel_left hsame
  rw [List.cons.injEq] at htext
  apply hne
  obtain ⟨token, haccepted⟩ := first
  obtain ⟨other, hother⟩ := second
  obtain rfl : token = other := htext.1
  rfl

end Options

theorem Limits.check_of_unlimited {limits : Limits} (hlimits : limits.isEnabled = false)
    (state : FileState) : limits.check state = .within := by
  rw [Limits.isEnabled, Bool.or_eq_false_iff, Option.isSome_eq_false_iff,
    Option.isSome_eq_false_iff, Option.isNone_iff_eq_none, Option.isNone_iff_eq_none] at hlimits
  rw [Limits.check, Limits.checkBytes, Limits.checkRows, hlimits.1, hlimits.2]

theorem Limits.isEnabled_of_reached {limits : Limits} {state : FileState} {limit : ReachedLimit}
    (hcheck : limits.check state = .reached limit) : limits.isEnabled = true := by
  by_contra hdisabled
  rw [Bool.not_eq_true] at hdisabled
  rw [check_of_unlimited hdisabled] at hcheck
  cases hcheck

namespace Job

variable {job : Job} {world : World}

/-! ## The single decisions -/

theorem present_of_stateOf {path : Path} {metadata : Option Metadata} {state : FileState}
    {remarks : Remarks} (hstate : job.stateOf world path metadata = .ok (state, remarks))
    (hpresent : state.present = true) : ∃ content, world.tree.node? path = some (.file content) := by
  rw [stateOf] at hstate
  split at hstate
  · rename_i content hnode
    exact ⟨content, hnode⟩
  · rw [Except.ok.injEq, Prod.mk.injEq] at hstate
    rw [← hstate.1] at hpresent
    contradiction

/-- The state of a file that is there. -/
theorem countRows_of_stateOf {path : Path} {metadata : Option Metadata} {state : FileState}
    {remarks : Remarks} (hstate : job.stateOf world path metadata = .ok (state, remarks))
    {content : Content} (hnode : world.tree.node? path = some (.file content)) :
    ∃ rows notes, job.countRows world path metadata = .ok (rows, notes) ∧
      state = ⟨true, rows, some content.toBytes.length⟩ := by
  rw [stateOf, hnode] at hstate
  obtain ⟨⟨rows, notes⟩, hcounted, hresult⟩ := Outcome.bind_eq_ok_iff.mp hstate
  obtain ⟨rfl, -⟩ := Prod.mk.inj (Except.ok.inj hresult)
  exact ⟨rows, notes, hcounted, rfl⟩

theorem observe_eq_ok_iff {path : Path} {rolledOver : Bool} {file : Located} {remarks : Remarks} :
    job.observe world path rolledOver = .ok (file, remarks) ↔
      ∃ metadata state, world.metadata path = .ok metadata ∧
        job.stateOf world path metadata = .ok (state, remarks) ∧
          file = ⟨path, metadata, state, rolledOver⟩ := by
  rw [observe, Outcome.bind_eq_ok_iff]
  constructor
  · rintro ⟨metadata, hmetadata, hrest⟩
    obtain ⟨⟨state, notes⟩, hstate, hresult⟩ := Outcome.bind_eq_ok_iff.mp hrest
    obtain ⟨rfl, rfl⟩ := Prod.mk.inj (Except.ok.inj hresult)
    exact ⟨metadata, state, hmetadata, hstate, rfl⟩
  · rintro ⟨metadata, state, hmetadata, hstate, rfl⟩
    exact ⟨metadata, hmetadata, Outcome.bind_eq_ok_iff.mpr ⟨(state, remarks), hstate, rfl⟩⟩

/-- The file that may be chosen first: the active one, or the base file if files have no limits. -/
def firstChoice (job : Job) (tree : FileTree) (base : Path) : Outcome Path :=
  if job.options.limits.isEnabled then Family.active tree base else .ok base

theorem firstChoice_cases {job : Job} {tree : FileTree} {base path : Path}
    (hpath : job.firstChoice tree base = .ok path) : path = base ∨
      job.options.limits.isEnabled = true ∧ Family.active tree base = .ok path := by
  rw [firstChoice] at hpath
  split at hpath
  · rename_i hlimits
    exact .inr ⟨hlimits, hpath⟩
  · exact .inl (Except.ok.inj hpath).symm

/-- What becomes of the first choice: it is kept while it has room. -/
def rollOver (job : Job) (world : World) (base path : Path) (seen : Located × Remarks) :
    Outcome (Located × Remarks) :=
  if seen.1.state.present then
    match job.options.limits.check seen.1.state with
    | .within => .ok seen
    | .unknown => .ok (seen.1, seen.2 ++ .ofWarnings [.countUnknown path])
    | .reached limit => Family.target world.tree base true >>= fun next =>
        job.observe world next true >>= fun (fresh, more) =>
          .ok (fresh, seen.2 ++ .ofNotes [.rolledOver path limit] ++ more)
  else .ok seen

theorem locate_eq (job : Job) (world : World) (base : Path) :
    job.locate world base = job.firstChoice world.tree base >>= fun path =>
      job.observe world path false >>= job.rollOver world base path := by
  rw [locate, firstChoice]
  split <;> rfl

/-- A base file without siblings is the first choice. -/
theorem locate_of_alone {base : Path}
    (halone : Family.siblings world.tree base = .ok []) : job.locate world base =
      job.observe world base false >>= job.rollOver world base base := by
  have hfirst : job.firstChoice world.tree base = .ok base := by
    rw [firstChoice, Family.active_eq_of_alone halone]
    split <;> rfl
  rw [locate_eq, hfirst]
  rfl

/-- Without limits the base file receives all rows. -/
theorem locate_of_unlimited (hlimits : job.options.limits.isEnabled = false) (base : Path) :
    job.locate world base = job.observe world base false := by
  have hfirst : job.firstChoice world.tree base = .ok base := by
    rw [firstChoice, hlimits]
    rfl
  rw [locate_eq, hfirst, Outcome.ok_bind]
  cases job.observe world base false with
  | error failure => rfl
  | ok seen =>
    rw [Outcome.ok_bind, rollOver, Limits.check_of_unlimited hlimits]
    split <;> rfl

theorem baselineFiles_eq_base {base : Path} (halone : job.options.antiJoin.scope = .family →
      Family.siblings world.tree base = .ok []) :
    job.baselineFiles world base = .ok (if world.tree.isFile base then [base] else []) := by
  rw [baselineFiles]
  split
  · rfl
  · rename_i hscope
    exact Family.members_eq_of_alone (halone hscope)

theorem baselineFiles_of_alone {base : Path}
    (halone : Family.siblings world.tree base = .ok []) :
    job.baselineFiles world base = .ok (if world.tree.isFile base then [base] else []) :=
  baselineFiles_eq_base fun _ => halone

/-- Either the first choice is taken, or it is full and a new file comes after it. -/
theorem locate_eq_ok_iff {base : Path} {file : Located} {remarks : Remarks} :
    job.locate world base = .ok (file, remarks) ↔
      ∃ path found seen, job.firstChoice world.tree base = .ok path ∧
        job.observe world path false = .ok (found, seen) ∧
        ((found.state.present = false ∧ file = found ∧ remarks = seen) ∨
          (found.state.present = true ∧ job.options.limits.check found.state = .within ∧
            file = found ∧ remarks = seen) ∨
          (found.state.present = true ∧ job.options.limits.check found.state = .unknown ∧
            file = found ∧ remarks = seen ++ .ofWarnings [.countUnknown path]) ∨
          ∃ limit next more, found.state.present = true ∧
            job.options.limits.check found.state = .reached limit ∧
            Family.target world.tree base true = .ok next ∧
            job.observe world next true = .ok (file, more) ∧
            remarks = seen ++ .ofNotes [.rolledOver path limit] ++ more) := by
  rw [locate_eq, Outcome.bind_eq_ok_iff]
  constructor
  · rintro ⟨path, hpath, hrest⟩
    obtain ⟨⟨found, seen⟩, hfound, hresult⟩ := Outcome.bind_eq_ok_iff.mp hrest
    refine ⟨path, found, seen, hpath, hfound, ?_⟩
    dsimp only [rollOver] at hresult
    split at hresult
    · rename_i hpresent
      split at hresult
      · rename_i hwithin
        rw [Except.ok.injEq, Prod.mk.injEq] at hresult
        exact .inr (.inl ⟨hpresent, hwithin, hresult.1.symm, hresult.2.symm⟩)
      · rename_i hunknown
        rw [Except.ok.injEq, Prod.mk.injEq] at hresult
        exact .inr (.inr (.inl ⟨hpresent, hunknown, hresult.1.symm, hresult.2.symm⟩))
      · rename_i limit hreached
        obtain ⟨next, hnext, hresult⟩ := Outcome.bind_eq_ok_iff.mp hresult
        obtain ⟨⟨fresh, more⟩, hfresh, hresult⟩ := Outcome.bind_eq_ok_iff.mp hresult
        rw [Except.ok.injEq, Prod.mk.injEq] at hresult
        obtain ⟨rfl, rfl⟩ := hresult
        exact .inr (.inr (.inr ⟨limit, next, more, hpresent, hreached, hnext, hfresh, rfl⟩))
    · rename_i hpresent
      rw [Except.ok.injEq, Prod.mk.injEq] at hresult
      exact .inl ⟨by simpa using hpresent, hresult.1.symm, hresult.2.symm⟩
  · rintro ⟨path, found, seen, hpath, hfound, hcases⟩
    refine ⟨path, hpath, Outcome.bind_eq_ok_iff.mpr ⟨(found, seen), hfound, ?_⟩⟩
    dsimp only [rollOver]
    rcases hcases with ⟨hpresent, rfl, rfl⟩ | ⟨hpresent, hcheck, rfl, rfl⟩ |
      ⟨hpresent, hcheck, rfl, rfl⟩ | ⟨limit, next, more, hpresent, hcheck, hnext, hfresh, rfl⟩
    · rw [if_neg (by simp [hpresent])]
    · rw [if_pos hpresent, hcheck]
    · rw [if_pos hpresent, hcheck]
    · rw [if_pos hpresent, hcheck]
      exact Outcome.bind_eq_ok_iff.mpr ⟨next, hnext, Outcome.bind_eq_ok_iff.mpr
        ⟨(file, more), hfresh, rfl⟩⟩

/-- Whatever file is located, it is the first choice or the next member of its family. -/
theorem observe_of_locate {base : Path} {file : Located} {remarks : Remarks}
    (hlocate : job.locate world base = .ok (file, remarks)) :
    (∃ path seen, job.firstChoice world.tree base = .ok path ∧
        job.observe world path false = .ok (file, seen)) ∨
      ∃ path seen, job.options.limits.isEnabled = true ∧
        Family.target world.tree base true = .ok path ∧
          job.observe world path true = .ok (file, seen) := by
  obtain ⟨path, found, seen, hpath, hfound, ⟨-, rfl, -⟩ | ⟨-, -, rfl, -⟩ | ⟨-, -, rfl, -⟩ |
    ⟨limit, next, more, -, hreached, hnext, hfresh, -⟩⟩ := locate_eq_ok_iff.mp hlocate
  · exact .inl ⟨path, seen, hpath, hfound⟩
  · exact .inl ⟨path, seen, hpath, hfound⟩
  · exact .inl ⟨path, seen, hpath, hfound⟩
  · exact .inr ⟨next, more, Limits.isEnabled_of_reached hreached, hnext, hfresh⟩

/-- A file is located alike by another job in another world if both choose the same paths and see
what is there alike, down to the decision about the limits. -/
theorem exists_locate_of_alike {other : Job} {after : World} {base : Path}
    {alike : Located → Located → Prop}
    (hstate : ∀ found file, alike found file → found.state.present = file.state.present ∧
      other.options.limits.check found.state = job.options.limits.check file.state)
    (hchosen : ∀ path, job.firstChoice world.tree base = .ok path →
      other.firstChoice after.tree base = .ok path ∧
        ∀ file seen, job.observe world path false = .ok (file, seen) →
          ∃ found told, other.observe after path false = .ok (found, told) ∧ alike found file)
    (hfresh : ∀ first, job.firstChoice world.tree base = .ok first →
      job.options.limits.isEnabled = true → ∀ path, Family.target world.tree base true = .ok path →
        Family.target after.tree base true = .ok path ∧
          ∀ file seen, job.observe world path true = .ok (file, seen) →
            ∃ found told, other.observe after path true = .ok (found, told) ∧ alike found file)
    {file : Located} {remarks : Remarks} (hlocate : job.locate world base = .ok (file, remarks)) :
    ∃ found told, other.locate after base = .ok (found, told) ∧ alike found file := by
  obtain ⟨path, first, seen, hpath, hfirst, hcases⟩ := locate_eq_ok_iff.mp hlocate
  obtain ⟨hpathAfter, hobserve⟩ := hchosen path hpath
  obtain ⟨found, told, hfound, halike⟩ := hobserve first seen hfirst
  obtain ⟨hpresent, hcheck⟩ := hstate found first halike
  have hlocated := fun file remarks => @locate_eq_ok_iff other after base file remarks
  rcases hcases with ⟨hthere, rfl, -⟩ | ⟨hthere, hwithin, rfl, -⟩ | ⟨hthere, hunknown, rfl, -⟩ |
    ⟨limit, next, more, hthere, hreached, hnext, hmore, -⟩
  · exact ⟨found, told, (hlocated _ _).mpr ⟨path, found, told, hpathAfter, hfound,
      .inl ⟨hpresent.trans hthere, rfl, rfl⟩⟩, halike⟩
  · exact ⟨found, told, (hlocated _ _).mpr ⟨path, found, told, hpathAfter, hfound,
      .inr (.inl ⟨hpresent.trans hthere, hcheck.trans hwithin, rfl, rfl⟩)⟩, halike⟩
  · exact ⟨found, _, (hlocated _ _).mpr ⟨path, found, told, hpathAfter, hfound,
      .inr (.inr (.inl ⟨hpresent.trans hthere, hcheck.trans hunknown, rfl, rfl⟩))⟩, halike⟩
  · obtain ⟨hnextAfter, hobserveNext⟩ :=
      hfresh path hpath (Limits.isEnabled_of_reached hreached) next hnext
    obtain ⟨last, news, hlast, halikeLast⟩ := hobserveNext file more hmore
    exact ⟨last, _, (hlocated _ _).mpr ⟨path, found, told, hpathAfter, hfound,
      .inr (.inr (.inr ⟨limit, next, news, hpresent.trans hthere, hcheck.trans hreached, hnextAfter,
        hlast, rfl⟩))⟩, halikeLast⟩

theorem prepare_eq_ok_iff {bucket : Bucket} {prepared : Prepared} :
    job.prepare world bucket = .ok prepared ↔
      ∃ file found layout checked survivors antiJoined compared,
        job.locate world (job.options.basePath bucket.key) = .ok (file, found) ∧
        job.layoutFor world file (job.medium.storedForm bucket.rows) = .ok (layout, checked) ∧
        job.survivors world (job.options.basePath bucket.key) (job.medium.storedForm bucket.rows) =
          .ok ((survivors, antiJoined), compared) ∧
        prepared = {
          key := bucket.key
          basePath := job.options.basePath bucket.key
          path := file.path
          present := file.state.present
          storedRows := file.state.rows
          candidateRows := bucket.rows.size
          survivors, layout, antiJoined
          rolledOver := file.rolledOver
          remarks := found ++ .ofNotes checked ++ .ofNotes compared ++
            .ofWarnings (job.writeWarnings file.path survivors) } := by
  rw [prepare]
  constructor
  · intro h
    obtain ⟨⟨file, found⟩, hlocate, h⟩ := Outcome.bind_eq_ok_iff.mp h
    obtain ⟨⟨layout, checked⟩, hlayout, h⟩ := Outcome.bind_eq_ok_iff.mp h
    obtain ⟨⟨⟨survivors, antiJoined⟩, compared⟩, hsurvivors, h⟩ := Outcome.bind_eq_ok_iff.mp h
    exact ⟨file, found, layout, checked, survivors, antiJoined, compared, hlocate, hlayout,
      hsurvivors, (Except.ok.inj h).symm⟩
  · rintro ⟨file, found, layout, checked, survivors, antiJoined, compared, hlocate, hlayout,
      hsurvivors, rfl⟩
    exact Outcome.bind_eq_ok_iff.mpr ⟨_, hlocate, Outcome.bind_eq_ok_iff.mpr ⟨_, hlayout,
      Outcome.bind_eq_ok_iff.mpr ⟨_, hsurvivors, rfl⟩⟩⟩

/-! ## Where the decisions lead -/

variable {base : Path} {place : Location}

theorem firstChoice_liesIn (hworld : world.tree.WellFormed) (hbase : base.LiesIn place)
    {path : Path} (hpath : job.firstChoice world.tree base = .ok path) : path.LiesIn place := by
  rcases firstChoice_cases hpath with rfl | ⟨-, hactive⟩
  · exact hbase
  · exact Family.active_liesIn hworld hbase hactive

theorem observe_spec {path : Path} {rolledOver : Bool} {file : Located} {remarks : Remarks}
    (hobserve : job.observe world path rolledOver = .ok (file, remarks)) :
    file.path = path ∧ file.rolledOver = rolledOver ∧ (file.state.present = true →
      ∃ content, world.tree.node? file.path = some (.file content)) := by
  obtain ⟨metadata, state, -, hstate, rfl⟩ := observe_eq_ok_iff.mp hobserve
  exact ⟨rfl, rfl, present_of_stateOf hstate⟩

/-- A file that is found for rows is a file. -/
theorem present_of_locate {file : Located} {remarks : Remarks}
    (hlocate : job.locate world base = .ok (file, remarks)) (hpresent : file.state.present = true) :
    ∃ content, world.tree.node? file.path = some (.file content) := by
  rcases observe_of_locate hlocate with ⟨path, seen, -, hfound⟩ | ⟨path, seen, -, -, hfound⟩
  · exact (observe_spec hfound).2.2 hpresent
  · exact (observe_spec hfound).2.2 hpresent

theorem locate_spec (hworld : world.tree.WellFormed) (hbase : base.LiesIn place) {file : Located}
    {remarks : Remarks} (hlocate : job.locate world base = .ok (file, remarks)) :
    file.path.LiesIn place ∧ (file.state.present = true →
      ∃ content, world.tree.node? file.path = some (.file content)) := by
  refine ⟨?_, present_of_locate hlocate⟩
  rcases observe_of_locate hlocate with ⟨path, seen, hpath, hfound⟩ | ⟨path, seen, -, hnext, hfound⟩
  · rw [(observe_spec hfound).1]
    exact firstChoice_liesIn hworld hbase hpath
  · rw [(observe_spec hfound).1]
    exact Family.target_liesIn hbase hnext

/-! ## Agreement -/

end Job

/-- A path leads to the same file with the same metadata in both worlds. -/
structure World.SameAt (before after : World) (path : Path) : Prop where
  node?_eq : after.tree.node? path = before.tree.node? path
  metadata_eq : after.metadata path = before.metadata path

theorem World.SameBelow.sameAt {place : Location} {before after : World} {path : Path}
    (hsame : World.SameBelow place before after) (hbefore : before.tree.WellFormed)
    (hafter : after.tree.WellFormed) (hpath : path.LiesIn place) : World.SameAt before after path :=
  ⟨hsame.node?_eq hbefore hafter hpath, hsame.metadata_eq hbefore hafter hpath⟩

namespace Job

section SameAt

variable {job : Job} {before after : World} {path base : Path}

theorem stateOf_of_node? (hnode : after.tree.node? path = before.tree.node? path)
    (metadata : Option Metadata) :
    job.stateOf after path metadata = job.stateOf before path metadata := by
  rw [stateOf, stateOf]
  cases hfound : before.tree.node? path with
  | none => rw [hnode, hfound]
  | some node =>
    cases node with
    | directory => rw [hnode, hfound]
    | file content =>
      have hcount : job.countRows after path metadata = job.countRows before path metadata := by
        rw [countRows, countRows]
        simp only [Medium.countRows_congr hfound (hnode.trans hfound)]
      rw [hnode, hfound]
      simp only [hcount]

theorem observe_of_same (hsame : World.SameAt before after path) (rolledOver : Bool) :
    job.observe after path rolledOver = job.observe before path rolledOver := by
  simp only [observe, hsame.metadata_eq, stateOf_of_node? hsame.node?_eq]

theorem layoutFor_of_node? {file : Located}
    (hnode : after.tree.node? file.path = before.tree.node? file.path)
    (hpresent : file.state.present = true →
      ∃ content, before.tree.node? file.path = some (.file content)) (candidates : Batch) :
    job.layoutFor after file candidates = job.layoutFor before file candidates := by
  rw [layoutFor, layoutFor]
  split
  · rename_i hfile
    obtain ⟨content, hcontent⟩ := hpresent hfile
    rw [Medium.check_congr hcontent (hnode.trans hcontent)]
  · rfl

theorem readAll_of_same {files : List Path}
    (hfiles : ∀ file ∈ files, before.tree.isFile file = true ∧ World.SameAt before after file) :
    job.readAll after files = job.readAll before files := by
  induction files with
  | nil => rfl
  | cons file rest ih =>
    obtain ⟨hisFile, hsame⟩ := hfiles file List.mem_cons_self
    obtain ⟨content, hnode⟩ := FileTree.isFile_iff.mp hisFile
    have hrest := ih fun other hother => hfiles other (List.mem_cons_of_mem _ hother)
    simp only [readAll, hsame.metadata_eq, Medium.readRows_congr hnode (hsame.node?_eq.trans hnode),
      hrest]

/-- The same baseline of files that are read alike leaves the same rows. -/
theorem survivors_of_same
    (hbaseline : job.baselineFiles after base = job.baselineFiles before base)
    (hfiles : ∀ files, job.baselineFiles before base = .ok files → ∀ file ∈ files,
      before.tree.isFile file = true ∧ World.SameAt before after file) (candidates : Batch) :
    job.survivors after base candidates = job.survivors before base candidates := by
  rw [survivors, survivors, hbaseline]
  dsimp only
  split
  · cases job.options.antiJoin.effectiveKeys candidates.columns with
    | error failure => rfl
    | ok keys =>
      cases hfound : job.baselineFiles before base with
      | error failure => rfl
      | ok files => simp only [Outcome.ok_bind, readAll_of_same (hfiles files hfound)]
  · rfl

end SameAt

section Agreement

variable {job : Job} {base : Path} {place : Location} {before after : World}
  (hsame : World.SameBelow place before after) (hbefore : before.tree.WellFormed)
  (hafter : after.tree.WellFormed)

include hsame hbefore hafter

theorem locate_congr (hbase : base.LiesIn place) {file : Located} {remarks : Remarks}
    (hlocate : job.locate before base = .ok (file, remarks)) :
    job.locate after base = .ok (file, remarks) := by
  obtain ⟨path, found, seen, hpath, hfound, hcases⟩ := locate_eq_ok_iff.mp hlocate
  have hobserve : ∀ {path}, path.LiesIn place → ∀ rolledOver,
      job.observe after path rolledOver = job.observe before path rolledOver :=
    fun hpath => observe_of_same (hsame.sameAt hbefore hafter hpath)
  have hliesIn := firstChoice_liesIn hbefore hbase hpath
  refine locate_eq_ok_iff.mpr ⟨path, found, seen, ?_, ?_, ?_⟩
  · rw [firstChoice, Family.active_congr hsame hbefore hafter hbase]
    exact hpath
  · rw [hobserve hliesIn, hfound]
  · rcases hcases with h | h | h | ⟨limit, next, more, hpresent, hcheck, hnext, hfresh, hremarks⟩
    · exact .inl h
    · exact .inr (.inl h)
    · exact .inr (.inr (.inl h))
    · refine .inr (.inr (.inr ⟨limit, next, more, hpresent, hcheck, ?_, ?_, hremarks⟩))
      · rw [Family.target_congr hsame hbefore hafter hbase, hnext]
      · rw [hobserve (Family.target_liesIn hbase hnext), hfresh]

theorem baselineFiles_congr (hbase : base.LiesIn place) :
    job.baselineFiles after base = job.baselineFiles before base := by
  rw [baselineFiles, baselineFiles, hsame.isFile_eq hbefore hafter hbase,
    Family.members_congr hsame hbefore hafter hbase]

omit hsame hafter in
theorem baselineFiles_spec (hbase : base.LiesIn place) {files : List Path}
    (hfiles : job.baselineFiles before base = .ok files) :
    ∀ file ∈ files, file.LiesIn place ∧ before.tree.isFile file = true := by
  rw [baselineFiles] at hfiles
  intro file hfile
  split at hfiles
  · rw [Except.ok.injEq] at hfiles
    subst hfiles
    split at hfile
    · rename_i hisFile
      rw [List.mem_singleton] at hfile
      exact hfile ▸ ⟨hbase, hisFile⟩
    · contradiction
  · exact Family.mem_members hbefore hbase hfiles hfile

/-- Worlds that agree in the directory of a partition lead to the same decisions about it. -/
theorem prepare_congr {bucket : Bucket} (hbase : (job.options.basePath bucket.key).LiesIn place)
    {prepared : Prepared} (hprepared : job.prepare before bucket = .ok prepared) :
    job.prepare after bucket = .ok prepared := by
  obtain ⟨file, found, layout, checked, survivors, antiJoined, compared, hlocate, hlayout,
    hsurvivors, rfl⟩ := prepare_eq_ok_iff.mp hprepared
  obtain ⟨hpath, hpresent⟩ := locate_spec hbefore hbase hlocate
  refine prepare_eq_ok_iff.mpr ⟨file, found, layout, checked, survivors, antiJoined, compared,
    locate_congr hsame hbefore hafter hbase hlocate, ?_, ?_, rfl⟩
  · rw [layoutFor_of_node? (hsame.sameAt hbefore hafter hpath).node?_eq hpresent, hlayout]
  · rw [survivors_of_same (baselineFiles_congr hsame hbefore hafter hbase) fun files hfiles file hfile =>
      ?_, hsurvivors]
    obtain ⟨hliesIn, hisFile⟩ := baselineFiles_spec hbefore hbase hfiles file hfile
    exact ⟨hisFile, hsame.sameAt hbefore hafter hliesIn⟩

end Agreement

end Job

end TableAppend
