import TableAppend.Proofs.Append.Failing
import TableAppend.Proofs.Append.Growth
import TableAppend.Proofs.Family.Active
import TableAppend.Proofs.World.InFiles

/-!
# The files of a family and their places

The file that receives rows is the base file, a sibling with metadata, or a new file.  Each has four
places to itself: its own, that of its metadata, and those of the temporary forms of both.  What is
written for one file is therefore not seen at the places of another, be it of the same family or of
that of another partition.
-/

namespace TableAppend

open Change (run)
open Family (Base)
open FileTree (Admits KeptBut Reachable)
open TableAppend.Path (IsName LiesIn)

/-! ## Names of one family -/

namespace Family.Base

variable {base other : Base} {file name : String}

/-- A name with as many dots as the base file's.  All data files of a family have such names, and their
metadata files and temporary files do not. -/
def Kin (base : Base) (file : String) : Prop :=
  file.toList.count '.' = base.name.toList.count '.'

theorem kin_name (base : Base) : base.Kin base.name :=
  rfl

/-- A place belongs to one file only. -/
theorem eq_of_place_eq (hname : base.name = other.name) (hfile : base.Kin file)
    (hother : other.Kin name) {left right : String} (hleft : left ∈ endings)
    (hright : right ∈ endings)
    (hsame : base.place ++ [file ++ left] = other.place ++ [name ++ right]) :
    base.place = other.place ∧ file = name ∧ left = right := by
  obtain ⟨hplace, hlast⟩ := List.append_inj' hsame rfl
  rw [Kin, hname, ← hother] at hfile
  exact ⟨hplace, (eq_of_append_ending hleft hright hfile (List.cons.inj hlast).1).symm⟩

/-- A sibling that is found has a name of the family, which is not that of the base file, and has
metadata. -/
theorem exists_file_of_sibling {tree : FileTree} {numbered : List Member}
    (hsiblings : siblings tree base.path = .ok numbered) {member : Member}
    (hmember : member ∈ numbered) :
    ∃ file, base.Kin file ∧ file ≠ base.name ∧ member.2.LiesIn base.place ∧
      member.2.location = base.place ++ [file] ∧
        tree.isFile (Metadata.path member.2) = true := by
  obtain ⟨listed, hlisted, file, -, hsibling⟩ :=
    (mem_iff_of_siblings base.ofPath_eq hsiblings).mp hmember
  obtain ⟨-, -, hmetadata, hnumber, hpath⟩ := sibling?_eq_some_iff.mp hsibling
  obtain ⟨hisName, hdots⟩ :=
    base.divide.of_number? (Path.isName_of_fileName? base.fileName?_eq) hnumber
  obtain ⟨hlies, hlocation, -⟩ := base.location_entry hlisted hisName
  rw [hpath] at hlies hlocation hmetadata
  refine ⟨file, hdots, ?_, hlies, hlocation, hmetadata⟩
  rintro rfl
  rw [base.divide.number?_eq_none] at hnumber
  cases hnumber

end Family.Base

/-! ## The file that receives rows -/

/-- What is known of the file of a family that receives rows, from the name it has there. -/
inductive Job.Finds (tree : FileTree) (base : Base) (path : Path) (present : Bool) : String → Prop
  | base (hpath : path = base.path) : Finds tree base path present base.name
  | sibling {file : String} (hother : file ≠ base.name)
      (hmetadata : tree.isFile (Metadata.path path) = true) : Finds tree base path present file
  | fresh {file : String} (hother : file ≠ base.name) (habsent : present = false) :
      Finds tree base path present file

namespace Job

variable {job : Job} {world : World} {base : Base}

theorem exists_finds_of_locate {file : Located} {remarks : Remarks}
    (hlocate : job.locate world base.path = .ok (file, remarks)) :
    ∃ name, base.Kin name ∧ file.path.location = base.place ++ [name] ∧
      Finds world.tree base file.path file.state.present name := by
  rcases observe_of_locate hlocate with ⟨path, seen, hchoice, hobserve⟩ |
    ⟨next, seen, -, hnext, hobserveNext⟩
  · rw [(observe_spec hobserve).1]
    have hbase : ∃ name, base.Kin name ∧ base.path.location = base.place ++ [name] ∧
        Finds world.tree base base.path file.state.present name :=
      ⟨base.name, base.kin_name, base.location_eq, .base rfl⟩
    rcases firstChoice_cases hchoice with rfl | ⟨-, hactive⟩
    · exact hbase
    · rcases Family.active_eq_base_or_sibling hactive with
        rfl | ⟨numbered, hsiblings, member, hmember, rfl⟩
      · exact hbase
      · obtain ⟨name, hkin, hother, -, hlocation, hmetadata⟩ :=
          Base.exists_file_of_sibling hsiblings hmember
        exact ⟨name, hkin, hlocation, .sibling hother hmetadata⟩
  · obtain ⟨hpath, -, hnode⟩ := observe_spec hobserveNext
    rw [Family.target] at hnext
    split at hnext
    · rw [hpath, ← Except.ok.inj hnext]
      exact ⟨base.name, base.kin_name, base.location_eq, .base rfl⟩
    · obtain ⟨number, hnumbered, habsent, -⟩ :=
        (Family.next_eq_ok_iff base.ofPath_eq).mp hnext
      obtain ⟨-, hlocation⟩ :=
        Family.withFileName_numbered_liesIn base.liesIn base.ofPath_eq (number + 1)
      refine ⟨_, base.dots_memberName (number + 1), ?_,
        .fresh (base.divide.numbered_ne (number + 1)) ?_⟩
      · rw [hpath, hnumbered]
        exact hlocation
      · rw [← Bool.not_eq_true]
        intro hpresent
        obtain ⟨content, hcontent⟩ := hnode hpresent
        rw [hpath] at hcontent
        rw [FileTree.isPresent, hcontent] at habsent
        cases habsent

/-- The file for which a partition is prepared. -/
theorem exists_finds_of_prepare {name : String}
    (hname : job.options.target.fileName? = some name) (htarget : job.options.target.Descends)
    {bucket : Bucket} {prepared : Prepared} (hprepared : job.prepare world bucket = .ok prepared) :
    ∃ file, (job.options.family hname htarget bucket.key).Kin file ∧
      prepared.path.location = job.options.place bucket.key ++ [file] ∧
        Finds world.tree (job.options.family hname htarget bucket.key) prepared.path
          prepared.present file := by
  obtain ⟨file, found, layout, checked, survivors, antiJoined, compared, hlocate, -, -, rfl⟩ :=
    prepare_eq_ok_iff.mp hprepared
  exact @exists_finds_of_locate job world (job.options.family hname htarget bucket.key) file
    found hlocate

end Job

/-- The family of a partition, which the target alone decides. -/
def Path.family (target : Path) {name : String} (hname : target.fileName? = some name)
    (htarget : target.Descends) (key : PartitionKey) : Base :=
  (Options.ofTarget target).family hname htarget key

/-! ## Places -/

namespace Options

variable {options : Options}

theorem place_injective : Function.Injective options.place := by
  have hnone : ∀ segment : Segment, options.place (some segment) ≠ options.place none := by
    intro segment hsame
    have hlonger : options.place (some segment) = options.place none ++ [segment.text] :=
      Path.location_join _ segment.isName
    have hlength := congrArg List.length (hsame.symm.trans hlonger)
    simp at hlength
  intro first second hsame
  cases first with
  | none =>
    cases second with
    | none => rfl
    | some segment => exact absurd hsame.symm (hnone segment)
  | some left =>
    cases second with
    | none => exact absurd hsame (hnone left)
    | some right =>
      by_contra hne
      have hother : left ≠ right := fun h => hne (congrArg some h)
      exact @not_prefix_place options _ _ hother (by rw [hsame])

end Options

/-- The places of a file of a family. -/
theorem Path.LiesIn.mem_places_iff {path : Path} {place : Location} (hpath : path.LiesIn place)
    {file : String} (hfile : path.location = place ++ [file]) {other : Location} :
    other ∈ path.places ↔ ∃ ending ∈ Family.endings, other = place ++ [file ++ ending] := by
  simp only [Path.places, Path.auxiliaries, Family.endings, List.mem_cons, List.not_mem_nil, or_false,
    exists_eq_or_imp, exists_eq_left]
  rw [hpath.temporary_location hfile, hpath.metadata_location hfile,
    hpath.metadata_temporary_location hfile, hfile, String.append_empty]
  exact or_congr_right or_left_comm

/-- Away from some places files stay what they are, and a directory stays one. -/
theorem FileTree.KeptBut.file_iff {places : List Location} {before after : FileTree}
    (hkept : KeptBut places before after) {other : Location} (hother : other ∉ places)
    {content : Content} :
    after.get? other = some (.file content) ↔ before.get? other = some (.file content) := by
  rcases hkept.get?_eq other hother with hsame | ⟨hbefore, hafter⟩
  · rw [hsame]
  · rw [hbefore, hafter]
    simp

theorem FileTree.KeptBut.admits_of_after {places : List Location} {before after : FileTree}
    (hkept : KeptBut places before after) {path : Path} (hother : path.location ∉ places)
    (hadmits : after.Admits path) : before.Admits path := by
  refine ⟨hadmits.usable, hadmits.endsInName, ?_⟩
  rcases hkept.get?_eq _ hother with hsame | ⟨hbefore, -⟩
  · exact hsame ▸ hadmits.notDirectory
  · rw [hbefore]
    simp

/-- The places of another file are not among those of a file that is written. -/
theorem Options.notMem_places {options : Options} {name : String}
    (hname : options.target.fileName? = some name) (htarget : options.target.Descends)
    {key other : PartitionKey} {path : Path} (hpath : path.LiesIn (options.place key))
    {file : String} (hfile : path.location = options.place key ++ [file])
    (hkin : (options.family hname htarget key).Kin file) {found : String}
    (hfound : (options.family hname htarget other).Kin found)
    (hapart : ¬ (other = key ∧ found = file)) {ending : String} (hending : ending ∈ Family.endings) :
    options.place other ++ [found ++ ending] ∉ path.places := by
  rw [hpath.mem_places_iff hfile]
  rintro ⟨last, hlast, hsame⟩
  obtain ⟨hplace, hname, -⟩ := @Base.eq_of_place_eq (options.family hname htarget other)
    (options.family hname htarget key) found file rfl hfound hkin ending last hending hlast hsame
  exact hapart ⟨options.place_injective hplace, hname⟩

end TableAppend
