import TableAppend.Proofs.Append.Buckets
import TableAppend.Proofs.Append.Sparing
import TableAppend.Proofs.FileTree.Spelling

/-!
# Directories of partitions

Whatever a row holds, the directory of its partition lies one step below the directory of the target:
`PartitionKey.one_below`.  The step is one plain name, and no two partitions have the same one.  The
families of different partitions therefore have no path in common.
-/

namespace TableAppend

open FileTree (destination)
open TableAppend.Path (IsName)

/-! ## Components of joined paths -/

namespace Path

theorem componentOfPiece?_name {name : String} (hname : IsName name) :
    componentOfPiece? name = some (.name name) := by
  obtain ⟨hempty, hdot, hup, -⟩ := hname
  simp [componentOfPiece?, hempty, hdot, hup]

/-- A joined path begins at the working directory if the outer one does. -/
theorem head?_pieces_join (outer : Path) {name : String} (hname : IsName name) :
    (outer.join name).pieces.head? = some "." ↔ outer.pieces.head? = some "." := by
  rw [pieces_join outer hname.2.2.2]
  rcases outer.front_cases with hall | hempty
  · rw [hall, List.head?_append_of_ne_nil _ (pieces_ne_nil _)]
  · rw [hempty]
    cases outer.front with
    | nil => simp [hname.2.1]
    | cons first rest => simp

/-- A name that is joined to a path is its next component. -/
theorem components_join (outer : Path) {name : String} (hname : IsName name) :
    (outer.join name).components = outer.components ++ [.name name] := by
  have hrest : (outer.join name).pieces.filterMap componentOfPiece? =
      outer.pieces.filterMap componentOfPiece? ++ [.name name] := by
    rw [pieces_join outer hname.2.2.2, List.filterMap_append, filterMap_front outer _ rfl]
    simp [componentOfPiece?_name hname]
  rw [components, components, hrest, isRooted_join outer hname.2.2.2]
  simp only [head?_pieces_join outer hname]
  split
  · rfl
  · split <;> rfl

/-- A path goes on after another one by one plain name: it is not empty, leads neither back nor to where
it stands, and holds no separator and no null character. -/
structure OneBelow (outer : Path) (name : String) (inner : Path) : Prop where
  isName : IsName name
  backslash : '\\' ∉ name.toList
  null : Char.ofNat 0 ∉ name.toList
  components_eq : inner.components = outer.components ++ [.name name]
  /-- Also where the outer path leads up, the inner one leads just below the place it comes to. -/
  destination_eq : destination inner = destination outer ++ [name]

theorem same_eq_false {left right : Path} (hne : destination left ≠ destination right) :
    left.same right = false := by
  rw [Bool.eq_false_iff]
  exact fun hsame => hne (FileTree.destination_eq_of_same hsame)

end Path

/-! ## Directories -/

theorem Segment.text_of_ofToken {token : String} {segment : Segment}
    (hsegment : Segment.ofToken token = .ok segment) : segment.text = token := by
  rw [ofToken] at hsegment
  split at hsegment
  · exact congrArg text (Except.ok.inj hsegment).symm
  · contradiction

/-- What is accepted as a segment is one plain step. -/
theorem Segment.oneBelow (segment : Segment) (base : Path) :
    base.OneBelow segment.text (PartitionKey.directory (some segment) base) := by
  obtain ⟨-, -, hbackslash, hnull, -, -⟩ := segmentFault?_eq_none_iff.mp segment.accepted
  exact ⟨segment.isName, hbackslash, hnull, Path.components_join base segment.isName,
    FileTree.destination_join base segment.isName⟩

/-- Different partitions have their directories at different places. -/
theorem PartitionKey.destination_directory_injective (base : Path) :
    Function.Injective fun key : PartitionKey => destination (key.directory base) := by
  have hstep (segment : Segment) : destination (directory (some segment) base) =
      destination base ++ [segment.text] := (segment.oneBelow base).destination_eq
  intro first second hsame
  cases first with
  | none =>
    cases second with
    | none => rfl
    | some segment =>
      have hlength := congrArg List.length (hsame.trans (hstep segment))
      simp [directory] at hlength
  | some segment =>
    cases second with
    | none =>
      have hlength := congrArg List.length ((hstep segment).symm.trans hsame)
      simp [directory] at hlength
    | some another =>
      have htext := (List.append_inj' ((hstep segment).symm.trans (hsame.trans (hstep another))) rfl).2
      cases segment
      cases another
      simpa using htext

/-! ## Families -/

namespace Family

variable {tree : FileTree} {base path : Path} {name : String}

/-- The paths of a family: its members, among them the active one, and the paths to which rows may go. -/
def Has (tree : FileTree) (base path : Path) : Prop :=
  (∃ files, members tree base = .ok files ∧ path ∈ files) ∨ active tree base = .ok path ∨
    ∃ needsNew, target tree base needsNew = .ok path

/-- A family lies in the directory of its base file. -/
theorem Has.destination_eq (hhas : Has tree base path) (hname : base.fileName? = some name) :
    ∃ last, destination path = destination base.directory ++ [last] := by
  rcases hhas with ⟨files, hfiles, hpath⟩ | hactive | ⟨needsNew, htarget⟩
  · rcases (mem_iff_of_members hfiles).mp hpath with ⟨-, rfl⟩ |
      ⟨numbered, hsiblings, member, hsibling, rfl⟩
    · exact ⟨name, Path.destination_directory hname⟩
    · obtain ⟨last, -, hlast⟩ := destination_of_sibling hname hsiblings hsibling
      exact ⟨last, hlast⟩
  · obtain ⟨last, -, hlast⟩ := destination_of_active hname hactive
    exact ⟨last, hlast⟩
  · obtain ⟨last, -, hlast⟩ := destination_of_target hname htarget
    exact ⟨last, hlast⟩

end Family

/-- The directory of a base file is that of its partition. -/
theorem Options.destination_directory_basePath {options : Options} {name : String}
    (hname : options.target.fileName? = some name) (segment : Segment) :
    destination (options.basePath (some segment)).directory =
      destination (PartitionKey.directory (some segment) options.baseDirectory) := by
  have hbase := Path.destination_directory (fileName?_basePath hname (some segment))
  rw [basePath, hname, Option.getD_some,
    FileTree.destination_join _ (Path.isName_of_fileName? hname)] at hbase
  rw [basePath, hname, Option.getD_some]
  exact (List.append_inj' hbase rfl).1.symm

/-- The partitions of a batch lie apart. -/
theorem Routing.apart_of_ne {routing : Routing} {batch : Batch} {buckets : List Bucket}
    (hbuckets : routing.buckets batch = .ok buckets) {first second : Bucket}
    (hfirst : first ∈ buckets) (hsecond : second ∈ buckets) (hne : first.key ≠ second.key) :
    Job.Apart first.key second.key := by
  have hroute : ∀ bucket ∈ buckets, ∃ row, routing.route batch.columns row = .ok bucket.key := by
    intro bucket hbucket
    obtain ⟨-, hrows, hmem⟩ := mem_bucket hbuckets hbucket
    obtain ⟨row, hrow⟩ := List.exists_mem_of_ne_nil _ hrows
    exact ⟨row, (hmem row hrow).2⟩
  obtain ⟨row, hrow⟩ := hroute first hfirst
  obtain ⟨other, hother⟩ := hroute second hsecond
  exact (eq_or_apart_of_route hrow hother).resolve_left hne

/-- The families of two partitions lie at different places, whatever files there are. -/
theorem Family.Has.destination_ne {options : Options} {name : String}
    (hname : options.target.fileName? = some name) {key other : PartitionKey}
    (hapart : Job.Apart key other) {tree later : FileTree} {path another : Path}
    (hpath : Has tree (options.basePath key) path)
    (hanother : Has later (options.basePath other) another) :
    destination path ≠ destination another := by
  obtain ⟨left, right, rfl, rfl, hne⟩ := hapart
  obtain ⟨last, hlast⟩ := hpath.destination_eq (Options.fileName?_basePath hname _)
  obtain ⟨final, hfinal⟩ := hanother.destination_eq (Options.fileName?_basePath hname _)
  rw [hlast, hfinal, Options.destination_directory_basePath hname,
    Options.destination_directory_basePath hname]
  intro hsame
  have hdirectory := (List.append_inj' hsame rfl).1
  exact hne (Option.some.inj (PartitionKey.destination_directory_injective _ hdirectory))

/-- Every accepted token and every row that is routed to a partition of its own lead one plain step below
any directory.  Different partitions have different directories, and the families of the partitions of
one batch have no path in common. -/
theorem PartitionKey.one_below :
    (∀ (token : String) (segment : Segment), Segment.ofToken token = .ok segment →
      ∀ base : Path, base.OneBelow token (directory (some segment) base)) ∧
    (∀ (routing : Routing) (columns : List String) (row : List Cell) (segment : Segment),
      routing.route columns row = .ok (some segment) →
        ∀ base : Path, base.OneBelow segment.text (directory (some segment) base)) ∧
    (∀ (base : Path) (first second : PartitionKey), first ≠ second →
      (first.directory base).same (second.directory base) = false) ∧
    ∀ (options : Options) (name : String) (batch : Batch) (buckets : List Bucket),
      options.target.fileName? = some name → options.routing.buckets batch = .ok buckets →
        ∀ first ∈ buckets, ∀ second ∈ buckets, first.key ≠ second.key →
          ∀ (tree later : FileTree) (path another : Path),
            Family.Has tree (options.basePath first.key) path →
            Family.Has later (options.basePath second.key) another →
              path.same another = false ∧ destination path ≠ destination another := by
  refine ⟨fun token segment hsegment base => ?_, fun _ _ _ segment _ base => segment.oneBelow base,
    fun base first second hne => ?_, ?_⟩
  · rw [← Segment.text_of_ofToken hsegment]
    exact segment.oneBelow base
  · exact Path.same_eq_false fun hsame => hne (destination_directory_injective base hsame)
  · intro options name batch buckets hname hbuckets first hfirst second hsecond hne tree later path
      another hpath hanother
    have hplaces := Family.Has.destination_ne hname
      (Routing.apart_of_ne hbuckets hfirst hsecond hne) hpath hanother
    exact ⟨Path.same_eq_false hplaces, hplaces⟩

/-- Two regions have their directories `d/region=us` and `d/region=eu`, and their files lie apart. -/
theorem PartitionKey.one_below_of_two_regions :
    let options : Options := ⟨⟨"d/p.csv"⟩, none, .off, .byColumn "region", .none⟩
    ∃ us eu : Segment, Segment.ofToken "region=us" = .ok us ∧
      options.routing.route ["region"] [.text "eu"] = .ok (some eu) ∧
      (Path.mk "d").OneBelow "region=us" ⟨"d/region=us"⟩ ∧
      (Path.mk "d").OneBelow "region=eu" ⟨"d/region=eu"⟩ ∧
      (Path.mk "d/region=us").same ⟨"d/region=eu"⟩ = false ∧
      Family.Has .empty (options.basePath (some us)) ⟨"d/region=us/p.csv"⟩ ∧
      Family.Has .empty (options.basePath (some eu)) ⟨"d/region=eu/p.csv"⟩ ∧
      destination ⟨"d/region=us/p.csv"⟩ ≠ destination ⟨"d/region=eu/p.csv"⟩ := by
  intro options
  let us : Segment := ⟨"region=us", by decide⟩
  let eu : Segment := ⟨"region=eu", by decide⟩
  have hne : (some us : PartitionKey) ≠ some eu := by decide
  have hus : Segment.ofToken "region=us" = .ok us := by decide
  have heu : options.routing.route ["region"] [.text "eu"] = .ok (some eu) := by decide
  have husDirectory : directory (some us) ⟨"d"⟩ = ⟨"d/region=us"⟩ := by decide
  have heuDirectory : directory (some eu) ⟨"d"⟩ = ⟨"d/region=eu"⟩ := by decide
  have hfirst : Family.Has .empty (options.basePath (some us)) ⟨"d/region=us/p.csv"⟩ :=
    .inr (.inl (by decide))
  have hsecond : Family.Has .empty (options.basePath (some eu)) ⟨"d/region=eu/p.csv"⟩ :=
    .inr (.inl (by decide))
  have hbuckets : options.routing.buckets ⟨["region"], [[.text "us"], [.text "eu"]]⟩ =
      .ok [⟨some us, ["region"], [[.text "us"]]⟩, ⟨some eu, ["region"], [[.text "eu"]]⟩] := by
    decide
  obtain ⟨htoken, hroute, hdirectories, hfamilies⟩ := PartitionKey.one_below
  refine ⟨us, eu, hus, heu, husDirectory ▸ htoken "region=us" us hus ⟨"d"⟩,
    heuDirectory ▸ hroute _ _ _ eu heu ⟨"d"⟩,
    husDirectory ▸ heuDirectory ▸ hdirectories ⟨"d"⟩ _ _ hne, hfirst, hsecond, ?_⟩
  exact (hfamilies options "p.csv" _ _ (by decide) hbuckets _ (.head _) _ (.tail _ (.head _)) hne
    .empty .empty _ _ hfirst hsecond).2

end TableAppend
