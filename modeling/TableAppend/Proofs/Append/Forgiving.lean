import TableAppend.Append.Report
import TableAppend.Proofs.Append.Layouts
import TableAppend.Proofs.Append.Simulation
import TableAppend.Proofs.Delimited.Rows
import TableAppend.Proofs.Family.Missing

/-!
# Decisions with other metadata

Two worlds may hold the same files and know different metadata of them.  As long as the metadata that
differ are read in the same way and accepted alike, a real preparation takes the same decisions in
both.
-/

namespace TableAppend

open Outcome (bind_eq_ok_iff)

/-! ## Other metadata of one file -/

namespace Medium

/-- Metadata do not keep a medium from taking a file for one of its own. -/
def Accepts (medium : Medium) (tree : FileTree) (path : Path) (known : Option Metadata) : Prop :=
  match medium with
  | .delimited dialect => Delimited.checkMarks tree dialect path known = .ok ()
  | .columnar _ => Columnar.rejectDelimited path known = .ok ()

/-- A file has the same rows under both metadata, and whatever accepts the first accepts the
second. -/
def Forgives (medium : Medium) (tree : FileTree) (path : Path) (known other : Option Metadata) :
    Prop :=
  match medium with
  | .delimited dialect =>
    Delimited.storedDialect dialect known = Delimited.storedDialect dialect other ∧
      (medium.Accepts tree path known → medium.Accepts tree path other)
  | .columnar _ => medium.Accepts tree path known ∧ medium.Accepts tree path other

variable {medium : Medium} {tree : FileTree} {path : Path} {known other : Option Metadata}

theorem accepts_of_check {rows : Batch} {layout : Layout}
    (hcheck : medium.check tree path known rows = .ok layout) : medium.Accepts tree path known := by
  cases medium with
  | delimited dialect => exact (Delimited.check_eq_ok_iff.mp hcheck).1
  | columnar codec => exact (Columnar.check_eq_ok_iff.mp hcheck).1

variable (hforgives : medium.Forgives tree path known other)

include hforgives

theorem readRows_of_forgives : medium.readRows tree path other = medium.readRows tree path known := by
  cases medium with
  | delimited dialect =>
    simp only [readRows, Delimited.readRows]
    rw [hforgives.1]
  | columnar codec =>
    obtain ⟨hknown, hother⟩ := hforgives
    rw [Accepts] at hknown hother
    simp only [readRows, Columnar.readRows, hknown, hother]

theorem countRows_of_forgives (hcodec : ∀ codec, medium ≠ .columnar codec) :
    medium.countRows tree path other = medium.countRows tree path known := by
  cases medium with
  | delimited dialect =>
    simp only [countRows, Delimited.countRows]
    rw [hforgives.1]
  | columnar codec => exact absurd rfl (hcodec codec)

theorem check_of_forgives {rows : Batch} {layout : Layout}
    (hcheck : medium.check tree path known rows = .ok layout) :
    medium.check tree path other rows = .ok layout := by
  cases medium with
  | delimited dialect =>
    obtain ⟨hmarks, hheader⟩ := Delimited.check_eq_ok_iff.mp hcheck
    exact Delimited.check_eq_ok_iff.mpr ⟨hforgives.2 hmarks, hheader⟩
  | columnar codec =>
    obtain ⟨-, hrest⟩ := Columnar.check_eq_ok_iff.mp hcheck
    exact Columnar.check_eq_ok_iff.mpr ⟨hforgives.2, hrest⟩

end Medium

/-! ## Other metadata of the files that decisions look at -/

namespace Job

/-- Other metadata make no difference.  A number of rows that is asked for must not come from
metadata that differ. -/
def Forgives (job : Job) (tree : FileTree) (path : Path) (known other : Option Metadata) : Prop :=
  other = known ∨ (job.medium.Forgives tree path known other ∧
    (job.options.limits.maxRows.isSome = true → ∀ codec, job.medium ≠ .columnar codec))

/-- The second world has the same file at a path as the first one, and its metadata make no
difference. -/
structure Condones (job : Job) (first second : World) (path : Path) : Prop where
  node : second.tree.node? path = first.tree.node? path
  metadata : ∀ known, first.metadata path = .ok known → ∃ other, second.metadata path = .ok other ∧
    (first.tree.isFile path = true → job.Forgives first.tree path known other)

/-- The second world has the same family as the first one, and metadata make no difference. -/
structure CondonesFamily (job : Job) (first second : World) (base : Path) : Prop where
  firstChoice : job.firstChoice second.tree base = job.firstChoice first.tree base
  chosen : ∀ path, job.firstChoice first.tree base = .ok path → job.Condones first second path
  target : job.options.limits.isEnabled = true →
    Family.target second.tree base true = Family.target first.tree base true
  fresh : job.options.limits.isEnabled = true → ∀ path, Family.target first.tree base true = .ok path →
    job.Condones first second path
  baseline : job.baselineFiles second base = job.baselineFiles first base
  stored : ∀ files, job.baselineFiles first base = .ok files →
    ∀ file ∈ files, first.tree.isFile file = true ∧ job.Condones first second file

variable {job : Job} {first second : World} {path base : Path}

/-- Of a family only the metadata of the base file may differ. -/
theorem condonesFamily_of_base {name : String} (hname : base.fileName? = some name)
    {lost : Set Location}
    (hlost : ∀ location ∈ lost, location.getLast? = some (name ++ Metadata.ending))
    (hactive : Family.active second.tree base = Family.active first.tree base)
    (htarget : job.options.limits.isEnabled = true →
      Family.target second.tree base true = Family.target first.tree base true)
    (hmembers : Family.members second.tree base = Family.members first.tree base)
    (hbase : job.Condones first second base)
    (hothers : ∀ path, FileTree.destination path ∉ lost →
      second.tree.node? path = first.tree.node? path ∧
        (FileTree.destination (Metadata.path path) ∉ lost →
          second.metadata path = first.metadata path)) :
    job.CondonesFamily first second base := by
  obtain ⟨parts, hparts, -⟩ := Family.exists_parts hname
  have hcondones : ∀ {path}, FileTree.destination path ∉ lost →
      FileTree.destination (Metadata.path path) ∉ lost → job.Condones first second path := by
    intro path hpath hmetadata
    obtain ⟨hnode, hknown⟩ := hothers path hpath
    exact ⟨hnode, fun known hfirst => ⟨known, (hknown hmetadata).trans hfirst, fun _ => .inl rfl⟩⟩
  have hisFile : second.tree.isFile base = first.tree.isFile base := by
    rw [FileTree.isFile, FileTree.isFile, (hothers base (Family.base_notMem hname hlost)).1]
  refine ⟨?_, fun path hpath => ?_, htarget, fun _ path hpath => ?_, ?_, fun files hfiles file hfile => ?_⟩
  · rw [firstChoice, firstChoice, hactive]
  · rcases firstChoice_cases hpath with rfl | ⟨-, hchosen⟩
    · exact hbase
    · rcases Family.active_eq_base_or_sibling hchosen with
        rfl | ⟨numbered, hnumbered, member, hmem, rfl⟩
      · exact hbase
      · obtain ⟨hplace, hmetadata, -⟩ := Family.sibling_notMem hname hlost hnumbered hmem
        exact hcondones hplace hmetadata
  · rcases Family.target_eq_base_or_numbered hparts hpath with rfl | ⟨number, rfl⟩
    · exact hbase
    · obtain ⟨hplace, hmetadata⟩ := Family.numbered_notMem hname hlost hparts (number + 1)
      exact hcondones hplace hmetadata
  · rw [baselineFiles, baselineFiles, hisFile, hmembers]
  · rw [baselineFiles] at hfiles
    split at hfiles
    · obtain rfl := Except.ok.inj hfiles
      split at hfile
      · rename_i hthere
        obtain rfl := List.mem_singleton.mp hfile
        exact ⟨hthere, hbase⟩
      · exact absurd hfile List.not_mem_nil
    · obtain ⟨hthere, hplace, hmetadata⟩ := Family.member_notMem hname hlost hfiles hfile
      refine ⟨hthere, ?_⟩
      rcases hmetadata with rfl | hmetadata
      · exact hbase
      · exact hcondones hplace hmetadata

namespace Forgives

variable {tree : FileTree} {known other : Option Metadata}
  (hforgives : job.Forgives tree path known other)

include hforgives

theorem readRows_eq : job.medium.readRows tree path other = job.medium.readRows tree path known := by
  rcases hforgives with rfl | ⟨hmedium, -⟩
  · rfl
  · exact Medium.readRows_of_forgives hmedium

theorem countRows_eq (hmax : job.options.limits.maxRows.isSome = true) :
    job.medium.countRows tree path other = job.medium.countRows tree path known := by
  rcases hforgives with rfl | ⟨hmedium, hcodec⟩
  · rfl
  · exact Medium.countRows_of_forgives hmedium (hcodec hmax)

theorem check_eq_ok {rows : Batch} {layout : Layout}
    (hcheck : job.medium.check tree path known rows = .ok layout) :
    job.medium.check tree path other rows = .ok layout := by
  rcases hforgives with rfl | ⟨hmedium, -⟩
  · exact hcheck
  · exact Medium.check_of_forgives hmedium hcheck

end Forgives

variable (hmode : job.mode = .real)

include hmode

theorem countRows_of_forgives {known other : Option Metadata} {content : Content}
    (hnode : first.tree.node? path = some (.file content))
    (hsecond : second.tree.node? path = some (.file content))
    (hforgives : job.Forgives first.tree path known other) :
    job.countRows second path other = job.countRows first path known := by
  rw [countRows, countRows]
  by_cases hmax : job.options.limits.maxRows.isSome = true
  · simp only [if_pos hmax, Medium.countRows_congr hnode hsecond, hforgives.countRows_eq hmax]
  · simp only [if_neg hmax, hmode]

/-- A file is seen in the same state, whatever is remarked about it. -/
theorem observe_of_condones (hcondones : job.Condones first second path) {rolledOver : Bool}
    {file : Located} {remarks : Remarks}
    (hobserve : job.observe first path rolledOver = .ok (file, remarks)) :
    ∃ other told, job.observe second path rolledOver = .ok ({ file with metadata := other }, told) ∧
      (first.tree.isFile path = true → job.Forgives first.tree path file.metadata other) := by
  obtain ⟨known, state, hknown, hstate, rfl⟩ := observe_eq_ok_iff.mp hobserve
  obtain ⟨other, hother, hforgives⟩ := hcondones.metadata known hknown
  suffices hsame : ∃ told, job.stateOf second path other = .ok (state, told) by
    obtain ⟨told, htold⟩ := hsame
    exact ⟨other, told, observe_eq_ok_iff.mpr ⟨other, state, hother, htold, rfl⟩, hforgives⟩
  rw [stateOf] at hstate ⊢
  rw [hcondones.node]
  split at hstate
  · rename_i content hnode
    have hfile := FileTree.isFile_iff.mpr ⟨content, hnode⟩
    obtain ⟨⟨rows, notes⟩, hcount, hresult⟩ := bind_eq_ok_iff.mp hstate
    obtain ⟨rfl, -⟩ := Prod.mk.inj (Except.ok.inj hresult)
    rw [← countRows_of_forgives hmode hnode (hcondones.node.trans hnode) (hforgives hfile)] at hcount
    exact ⟨_, bind_eq_ok_iff.mpr ⟨(rows, notes), hcount, rfl⟩⟩
  · exact ⟨remarks, hstate⟩

/-- A family's rows go to the same file. -/
theorem locate_of_condones (hcondones : job.CondonesFamily first second base) {file : Located}
    {remarks : Remarks} (hlocate : job.locate first base = .ok (file, remarks)) :
    ∃ other told, job.locate second base = .ok ({ file with metadata := other }, told) ∧
      second.tree.node? file.path = first.tree.node? file.path ∧
        (file.state.present = true → ∃ content,
          first.tree.node? file.path = some (.file content)) ∧
        (first.tree.isFile file.path = true →
          job.Forgives first.tree file.path file.metadata other) := by
  have hobserve : ∀ {path : Path} {rolledOver : Bool} {file : Located} {seen : Remarks},
      job.Condones first second path → job.observe first path rolledOver = .ok (file, seen) →
        ∃ found told, job.observe second path rolledOver = .ok (found, told) ∧
          ∃ other, found = { file with metadata := other } ∧
            second.tree.node? file.path = first.tree.node? file.path ∧
              (file.state.present = true → ∃ content,
                first.tree.node? file.path = some (.file content)) ∧
                (first.tree.isFile file.path = true →
                  job.Forgives first.tree file.path file.metadata other) := by
    intro path rolledOver file seen hpath hfound
    obtain ⟨other, told, hother, hforgives⟩ := observe_of_condones hmode hpath hfound
    obtain ⟨rfl, -, hnode⟩ := observe_spec hfound
    exact ⟨_, told, hother, other, rfl, hpath.node, hnode, hforgives⟩
  obtain ⟨_, told, hlocated, other, rfl, hrest⟩ := exists_locate_of_alike
    (fun found file ⟨other, hfound, _⟩ => by rw [hfound]; exact ⟨rfl, rfl⟩)
    (fun path hpath => ⟨hcondones.firstChoice.trans hpath,
      fun _ _ => hobserve (hcondones.chosen path hpath)⟩)
    (fun _ _ hlimits path hnext => ⟨(hcondones.target hlimits).trans hnext,
      fun _ _ => hobserve (hcondones.fresh hlimits path hnext)⟩) hlocate
  exact ⟨other, told, hlocated, hrest⟩

theorem readAll_of_condones {files : List Path} (hfiles : ∀ file ∈ files,
      first.tree.isFile file = true ∧ job.Condones first second file)
    {result : Option (List Batch) × List Note} (hread : job.readAll first files = .ok result) :
    job.readAll second files = .ok result := by
  induction files generalizing result with
  | nil => exact hread
  | cons file rest ih =>
    obtain ⟨hfile, hcondones⟩ := hfiles file List.mem_cons_self
    obtain ⟨content, hnode⟩ := FileTree.isFile_iff.mp hfile
    rw [readAll] at hread ⊢
    obtain ⟨known, hknown, hread⟩ := bind_eq_ok_iff.mp hread
    obtain ⟨read, hattempt, hread⟩ := bind_eq_ok_iff.mp hread
    obtain ⟨other, hother, hforgives⟩ := hcondones.metadata known hknown
    obtain ⟨rows, -, rfl⟩ := (attempt_real_eq_ok_iff hmode).mp hattempt
    obtain ⟨others, hothers, hresult⟩ := bind_eq_ok_iff.mp hread
    rw [← (hforgives hfile).readRows_eq,
      ← Medium.readRows_congr hnode (hcondones.node.trans hnode)] at hattempt
    refine bind_eq_ok_iff.mpr ⟨other, hother, bind_eq_ok_iff.mpr ⟨_, hattempt,
      bind_eq_ok_iff.mpr ⟨others, ih (fun file hfile => ?_) hothers, hresult⟩⟩⟩
    exact hfiles file (List.mem_cons_of_mem _ hfile)

theorem survivors_of_condones (hcondones : job.CondonesFamily first second base) {candidates : Batch}
    {result : (Batch × Bool) × List Note}
    (hsurvivors : job.survivors first base candidates = .ok result) :
    job.survivors second base candidates = .ok result := by
  rw [survivors] at hsurvivors ⊢
  split at hsurvivors
  · rename_i henabled
    rw [if_pos henabled]
    obtain ⟨keys, hkeys, hsurvivors⟩ := bind_eq_ok_iff.mp hsurvivors
    obtain ⟨files, hfiles, hsurvivors⟩ := bind_eq_ok_iff.mp hsurvivors
    obtain ⟨read, hread, hresult⟩ := bind_eq_ok_iff.mp hsurvivors
    exact bind_eq_ok_iff.mpr ⟨keys, hkeys, bind_eq_ok_iff.mpr ⟨files,
      hcondones.baseline.trans hfiles, bind_eq_ok_iff.mpr ⟨read,
        readAll_of_condones hmode (hcondones.stored files hfiles) hread, hresult⟩⟩⟩
  · rename_i henabled
    rw [if_neg henabled]
    exact hsurvivors

/-- Metadata that make no difference do not change a decision. -/
theorem prepare_of_condones {bucket : Bucket}
    (hcondones : job.CondonesFamily first second (job.options.basePath bucket.key))
    {prepared : Prepared} (hprepared : job.prepare first bucket = .ok prepared) :
    ∃ again, job.prepare second bucket = .ok again ∧ again.Alike prepared := by
  obtain ⟨file, found, layout, checked, survivors, antiJoined, compared, hlocate, hlayout,
    hsurvivors, rfl⟩ := prepare_eq_ok_iff.mp hprepared
  obtain ⟨other, told, hother, hnode, hpresentNode, hforgives⟩ :=
    locate_of_condones hmode hcondones hlocate
  have hlayoutSecond : job.layoutFor second { file with metadata := other }
      (job.medium.storedForm bucket.rows) = .ok (layout, checked) := by
    obtain ⟨hnotes, hcases⟩ := (layoutFor_real_eq_ok_iff hmode).mp hlayout
    refine (layoutFor_real_eq_ok_iff hmode).mpr ⟨hnotes, hcases.imp_right fun hchecked => ?_⟩
    obtain ⟨hpresent, hcheck⟩ := hchecked
    obtain ⟨content, hcontent⟩ := hpresentNode hpresent
    have hfile := FileTree.isFile_iff.mpr ⟨content, hcontent⟩
    refine ⟨hpresent, ?_⟩
    rw [Medium.check_congr hcontent (hnode.trans hcontent)]
    exact (hforgives hfile).check_eq_ok hcheck
  exact ⟨_, prepare_eq_ok_iff.mpr ⟨_, told, layout, checked, survivors, antiJoined, compared, hother,
    hlayoutSecond, survivors_of_condones hmode hcondones hsurvivors, rfl⟩,
    rfl, rfl, rfl, rfl, rfl, rfl, rfl, rfl⟩

end Job

/-- The same is then written. -/
theorem Prepared.commit_eq_of_alike {prepared other : Prepared} (halike : other.Alike prepared)
    (job : Job) : other.commit job = prepared.commit job := by
  have haction : other.action = prepared.action := by
    rw [action, action, creates, creates, halike.path, halike.key, halike.survivors,
      halike.candidateRows, halike.present, halike.rolledOver, halike.antiJoined]
  rw [commit, commit, haction, halike.survivors, halike.key, halike.path, halike.layout]

end TableAppend
