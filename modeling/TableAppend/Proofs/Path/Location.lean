import TableAppend.Metadata
import TableAppend.FileTree
import TableAppend.Proofs.Path.Names

/-!
# Locations of paths

A path without a piece that leads up has one location, the list of the names in it, whatever files
there are.  Joining a name, taking the parent and writing a directory in its listed form all act on
the location in the way that one expects, and a listed form is never longer than the other one.
-/

namespace TableAppend

/-- The name that a step leads down to, if it leads down. -/
def FileTree.Step.name? : FileTree.Step → Option String
  | .down name => some name
  | _ => none

namespace Path

open FileTree (steps endsInSeparator)

/-- No piece of the path leads up. -/
def Descends (path : Path) : Prop :=
  ".." ∉ path.pieces

instance (path : Path) : Decidable (Descends path) :=
  inferInstanceAs (Decidable (¬ _))

/-- The name that a piece stands for. -/
def pieceName? (piece : String) : Option String :=
  FileTree.Step.ofPiece? piece >>= FileTree.Step.name?

/-- The names in a path, from the outermost to the innermost. -/
def location (path : Path) : Location :=
  path.pieces.filterMap pieceName?

theorem pieceName?_name {name : String} (hname : IsName name) : pieceName? name = some name := by
  obtain ⟨hempty, hdot, hup, -⟩ := hname
  simp [pieceName?, FileTree.Step.ofPiece?, FileTree.Step.name?, hempty, hdot, hup]

theorem ofPiece?_name {name : String} (hname : IsName name) :
    FileTree.Step.ofPiece? name = some (.down name) := by
  obtain ⟨hempty, hdot, hup, -⟩ := hname
  simp [FileTree.Step.ofPiece?, hempty, hdot, hup]

theorem isName_of_pieceName? {piece name : String} (hpiece : pieceName? piece = some name)
    (hplain : '/' ∉ piece.toList) : IsName name := by
  rw [pieceName?, FileTree.Step.ofPiece?] at hpiece
  split at hpiece
  · simp at hpiece
  split at hpiece
  · simp [FileTree.Step.name?] at hpiece
  split at hpiece
  · simp [FileTree.Step.name?] at hpiece
  · rename_i hempty hdot hup
    obtain rfl : piece = name := by simpa [FileTree.Step.name?] using hpiece
    exact ⟨hempty, hdot, hup, hplain⟩

theorem isName_of_mem_location {path : Path} {name : String} (hmem : name ∈ path.location) :
    IsName name := by
  obtain ⟨piece, hpiece, hname⟩ := List.mem_filterMap.mp hmem
  exact isName_of_pieceName? hname (separator_notMem_of_mem_pieces hpiece)

theorem filterMap_pieceName?_idle {junk : List String}
    (hjunk : ∀ piece ∈ junk, piece = "" ∨ piece = ".") : junk.filterMap pieceName? = [] := by
  rw [List.filterMap_eq_nil_iff]
  intro piece hpiece
  rcases hjunk piece hpiece with rfl | rfl <;> rfl

/-- The name that a component stands for. -/
def Component.name? : Component → Option String
  | .name text => some text
  | _ => none

/-- Paths that are read alike have one location. -/
theorem location_eq_of_same {left right : Path} (hsame : left.same right = true) :
    left.location = right.location := by
  have hlocation : ∀ path : Path, path.location = path.components.filterMap Component.name? := by
    intro path
    have hpieces : path.location =
        (path.pieces.filterMap componentOfPiece?).filterMap Component.name? := by
      rw [location, List.filterMap_filterMap]
      congr 1
      funext piece
      simp only [pieceName?, FileTree.Step.ofPiece?, componentOfPiece?]
      by_cases hempty : piece = ""
      · simp [hempty]
      by_cases hdot : piece = "."
      · simp [hdot, FileTree.Step.name?]
      by_cases hup : piece = ".." <;> simp [hempty, hdot, hup, FileTree.Step.name?, Component.name?]
    rw [hpieces, components]
    split
    · rfl
    · split <;> rfl
  have hcomponents : left.components = right.components := by simpa [same] using hsame
  rw [hlocation, hlocation, hcomponents]

/-! ## Joining -/

theorem location_join_piece (outer : Path) {piece : String} (hpiece : '/' ∉ piece.toList) :
    (outer.join piece).location = outer.location ++ (pieceName? piece).toList := by
  rw [location, pieces_join outer hpiece, List.filterMap_append, filterMap_front outer _ rfl]
  cases hname : pieceName? piece <;> simp [location, hname]

theorem location_join (outer : Path) {name : String} (hname : IsName name) :
    (outer.join name).location = outer.location ++ [name] := by
  rw [location_join_piece outer hname.2.2.2, pieceName?_name hname]
  rfl

theorem steps_join (outer : Path) {name : String} (hname : IsName name) :
    steps (outer.join name) = steps outer ++ [.down name] := by
  rw [steps, pieces_join outer hname.2.2.2, List.filterMap_append, filterMap_front outer _ rfl]
  simp [steps, ofPiece?_name hname]

theorem mem_front_iff (outer : Path) {piece : String} (hpiece : piece ≠ "") :
    piece ∈ outer.front ↔ piece ∈ outer.pieces := by
  have hfilter := filterMap_front outer (fun other => if other = piece then some () else none)
    (if_neg fun h => hpiece h.symm)
  have hmem : ∀ pieces : List String,
      piece ∈ pieces ↔ pieces.filterMap
        (fun other => if other = piece then some () else none) ≠ [] := by
    intro pieces
    simp
  rw [hmem, hmem, hfilter]

theorem descends_join_piece (outer : Path) {piece : String} (hpiece : '/' ∉ piece.toList)
    (hup : piece ≠ "..") : (outer.join piece).Descends ↔ outer.Descends := by
  have hne : ".." ≠ piece := fun h => hup h.symm
  rw [Descends, Descends, pieces_join outer hpiece, List.mem_append,
    mem_front_iff outer (by decide)]
  simp [hne]

theorem descends_join (outer : Path) {name : String} (hname : IsName name) :
    (outer.join name).Descends ↔ outer.Descends :=
  descends_join_piece outer hname.2.2.2 hname.2.2.1

theorem text_join (outer : Path) {name : String} (hname : '/' ∉ name.toList) :
    ∃ between : String, (outer.join name).text = outer.text ++ between ++ name ∧
      (between = "" ∨ between = "/") := by
  have hhead : name.toList.head? ≠ some '/' := fun h => hname (List.mem_of_head? h)
  rw [join, if_neg hhead]
  split
  · exact ⟨"", by rw [String.append_empty], .inl rfl⟩
  · exact ⟨"/", rfl, .inr rfl⟩

theorem endsInSeparator_join (outer : Path) {name : String} (hname : IsName name) :
    endsInSeparator (outer.join name) = false := by
  obtain ⟨between, htext, -⟩ := text_join outer hname.2.2.2
  have hne : name.toList ≠ [] := by simpa using hname.1
  obtain ⟨chars, last, hchars⟩ := List.eq_nil_or_concat name.toList |>.resolve_left hne
  rw [List.concat_eq_append] at hchars
  have hlast : last ≠ '/' := by
    rintro rfl
    exact hname.2.2.2 (by simp [hchars])
  simp [endsInSeparator, htext, hchars, hlast]

/-- A trimmed path that leads anywhere ends in a name. -/
theorem pieces_of_trimmed {path : Path} (hpath : path.Descends) (htrimmed : path.trimmed = path)
    (hlocation : path.location ≠ []) :
    ∃ before name, path.pieces = before ++ [name] ∧ IsName name := by
  rcases trimmed_cases htrimmed with htext | htext | ⟨before, last, hpieces, hlast⟩
  · have hpath : path = ⟨""⟩ := congrArg Path.mk htext
    exact absurd (hpath ▸ (by decide)) hlocation
  · have hpath : path = ⟨"/"⟩ := congrArg Path.mk htext
    exact absurd (hpath ▸ (by decide)) hlocation
  · have hmem : last ∈ path.pieces := by simp [hpieces]
    refine ⟨before, last, hpieces, ?_, ?_, ?_, separator_notMem_of_mem_pieces hmem⟩
    · rintro rfl
      simp [isSignificant] at hlast
    · rintro rfl
      have hfirst : before = [] := by
        simp [isSignificant] at hlast
        exact hlast.1
      apply hlocation
      rw [location, hpieces, hfirst]
      decide
    · rintro rfl
      exact hpath hmem

/-- A trimmed path that leads nowhere is empty or names the working directory or the root. -/
theorem text_of_trimmed {path : Path} (hpath : path.Descends) (htrimmed : path.trimmed = path)
    (hlocation : path.location = []) : path.text = "" ∨ path.text = "/" ∨ path.text = "." := by
  rcases trimmed_cases htrimmed with htext | htext | ⟨before, last, hpieces, hlast⟩
  · exact .inl htext
  · exact .inr (.inl htext)
  · right; right
    have hmem : last ∈ path.pieces := by simp [hpieces]
    have hne : last ≠ "" := by
      rintro rfl
      simp [isSignificant] at hlast
    have hdot : last = "." := by
      by_contra hdot
      have hname : IsName last := by
        refine ⟨hne, hdot, ?_, separator_notMem_of_mem_pieces hmem⟩
        rintro rfl
        exact hpath hmem
      have hin : last ∈ path.location :=
        List.mem_filterMap.mpr ⟨last, hmem, pieceName?_name hname⟩
      rw [hlocation] at hin
      contradiction
    have hfirst : before = [] := by
      simp [hdot, isSignificant] at hlast
      exact hlast.1
    rw [← intercalate_pieces path, hpieces, hfirst, hdot]
    rfl

/-! ## Parents and directories -/

/-- Writing pieces as a path loses none that stands for something. -/
theorem filterMap_ofPieces {β : Type} {rooted : Bool} {pieces : List String}
    (hplain : ∀ piece ∈ pieces, '/' ∉ piece.toList) {read : String → Option β}
    (hread : read "" = none) :
    (ofPieces rooted pieces).pieces.filterMap read = pieces.filterMap read := by
  rw [ofPieces]
  split
  · rename_i hall
    have hroot : (Path.mk "/").pieces = ["", ""] := by decide
    have hnone : pieces.filterMap read = [] := by
      refine List.filterMap_eq_nil_iff.mpr fun piece hpiece => ?_
      have hempty : piece = "" := by simpa using List.all_eq_true.mp hall.2 piece hpiece
      rw [hempty, hread]
    simp [hroot, hnone, hread]
  · by_cases hnil : pieces = []
    · subst hnil
      have hempty : (Path.mk ("/".intercalate [])).pieces = [""] := by decide
      rw [hempty, List.filterMap_cons_none hread]
    · rw [pieces_intercalate hnil hplain]

theorem location_ofPieces {rooted : Bool} {pieces : List String}
    (hplain : ∀ piece ∈ pieces, '/' ∉ piece.toList) :
    (ofPieces rooted pieces).location = pieces.filterMap pieceName? :=
  filterMap_ofPieces hplain rfl

theorem steps_ofPieces {rooted : Bool} {pieces : List String}
    (hplain : ∀ piece ∈ pieces, '/' ∉ piece.toList) :
    steps (ofPieces rooted pieces) = pieces.filterMap FileTree.Step.ofPiece? :=
  filterMap_ofPieces hplain rfl

theorem descends_ofPieces {rooted : Bool} {pieces : List String}
    (hplain : ∀ piece ∈ pieces, '/' ∉ piece.toList) :
    (ofPieces rooted pieces).Descends ↔ ".." ∉ pieces := by
  rw [ofPieces]
  split
  · rename_i hall
    have hnot : ".." ∉ pieces := by
      intro hmem
      have := List.all_eq_true.mp hall.2 ".." hmem
      simp at this
    simp only [hnot, not_false_eq_true, iff_true]
    decide
  · by_cases hnil : pieces = []
    · subst hnil
      decide
    · rw [Descends, pieces_intercalate hnil hplain]

/-- The parent of a path, the last name, and what follows it without meaning anything. -/
theorem pieces_of_parent {path parent : Path} {name : String}
    (hname : path.fileName? = some name) (hparent : path.parent? = some parent) :
    ∃ before idle junk, path.pieces = before ++ idle ++ name :: junk ∧
      (∀ piece ∈ before, '/' ∉ piece.toList) ∧
      (∀ piece ∈ idle ++ junk, piece = "" ∨ piece = ".") ∧ parent = ofPieces path.isRooted before := by
  obtain ⟨front, hsplit, -, -⟩ := fileName?_eq_some hname
  obtain ⟨junk, hpieces, hjunk, -⟩ := splitLast?_eq_some hsplit
  obtain ⟨idle, hfront, hidle, -⟩ := trimPieces_spec path.isRooted front
  have hall : path.pieces = trimPieces path.isRooted front ++ idle ++ name :: junk := by
    rw [hpieces, ← hfront]
  refine ⟨trimPieces path.isRooted front, idle, junk, hall, ?_, ?_, ?_⟩
  · intro piece hpiece
    refine @separator_notMem_of_mem_pieces path _ ?_
    rw [hall, List.append_assoc]
    exact List.mem_append_left _ hpiece
  · intro piece hpiece
    rcases List.mem_append.mp hpiece with h | h
    · exact hidle piece h
    · exact hjunk piece h
  · rw [parent?, hsplit, Option.map_some, Option.some.injEq] at hparent
    exact hparent.symm

theorem location_parent {path parent : Path} {name : String}
    (hname : path.fileName? = some name) (hparent : path.parent? = some parent) :
    path.location = parent.location ++ [name] := by
  obtain ⟨before, idle, junk, hpieces, hbefore, hidle, rfl⟩ := pieces_of_parent hname hparent
  have hnames : idle.filterMap pieceName? = [] ∧ junk.filterMap pieceName? = [] := by
    rw [← List.append_eq_nil_iff, ← List.filterMap_append]
    exact filterMap_pieceName?_idle hidle
  rw [location, hpieces, location_ofPieces hbefore]
  simp [hnames.1, hnames.2, pieceName?_name (isName_of_fileName? hname)]

theorem descends_parent {path parent : Path} {name : String}
    (hname : path.fileName? = some name) (hparent : path.parent? = some parent) :
    parent.Descends ↔ path.Descends := by
  obtain ⟨before, idle, junk, hpieces, hbefore, hidle, rfl⟩ := pieces_of_parent hname hparent
  have hnot : ".." ∉ idle ++ junk := by
    intro hmem
    simpa using hidle _ hmem
  have hne : ".." ≠ name := fun h => (isName_of_fileName? hname).2.2.1 h.symm
  rw [descends_ofPieces hbefore, Descends, hpieces]
  simp only [List.mem_append, List.mem_cons, not_or] at hnot ⊢
  tauto

/-- What a parent is written with comes first in the path, also where the path ends in no name. -/
theorem pieces_above {path parent : Path} (hparent : path.parent? = some parent) :
    ∃ before rest, path.pieces = before ++ rest ∧ parent = ofPieces path.isRooted before ∧
      ∀ piece ∈ before, '/' ∉ piece.toList := by
  obtain ⟨⟨front, last⟩, hsplit, rfl⟩ := Option.map_eq_some_iff.mp hparent
  obtain ⟨junk, hpieces, -, -⟩ := splitLast?_eq_some hsplit
  obtain ⟨idle, hfront, -, -⟩ := trimPieces_spec path.isRooted front
  dsimp only
  generalize trimPieces path.isRooted front = before at hfront ⊢
  refine ⟨before, idle ++ last :: junk, ?_, rfl, fun piece hpiece => ?_⟩
  · rw [hpieces, hfront, List.append_assoc]
  · refine @separator_notMem_of_mem_pieces path _ ?_
    simp [hpieces, hfront, hpiece]

/-- The parent lies on the way. -/
theorem parent_above {path parent : Path} (hparent : path.parent? = some parent) :
    parent.location <+: path.location ∧ (path.Descends → parent.Descends) := by
  obtain ⟨before, rest, hpieces, rfl, hbefore⟩ := pieces_above hparent
  constructor
  · rw [location_ofPieces hbefore, location, hpieces, List.filterMap_append]
    exact List.prefix_append _ _
  · rw [descends_ofPieces hbefore]
    intro hpath hmem
    apply hpath
    rw [hpieces]
    exact List.mem_append_left _ hmem

theorem steps_parent_above {path parent : Path} (hparent : path.parent? = some parent) :
    steps parent <+: steps path := by
  obtain ⟨before, rest, hpieces, rfl, hbefore⟩ := pieces_above hparent
  rw [steps_ofPieces hbefore, steps, hpieces, List.filterMap_append]
  exact List.prefix_append _ _

/-- A path that does not lead up has a last name if it has any. -/
theorem exists_fileName?_of_location {path : Path} (hpath : path.Descends)
    (hlocation : path.location ≠ []) : ∃ name, path.fileName? = some name := by
  obtain ⟨junk, hpieces, hjunk, hlast⟩ := trimPieces_spec path.isRooted path.pieces
  have hkeptLocation : (trimPieces path.isRooted path.pieces).filterMap pieceName? ≠ [] := by
    intro hnil
    apply hlocation
    rw [location, hpieces, List.filterMap_append, hnil, filterMap_pieceName?_idle hjunk]
    rfl
  rcases List.eq_nil_or_concat (trimPieces path.isRooted path.pieces) with
    hnil | ⟨kept, last, hkept⟩
  · simp [hnil] at hkeptLocation
  rw [List.concat_eq_append] at hkept
  have hup : last ≠ ".." := by
    rintro rfl
    apply hpath
    rw [hpieces, hkept]
    simp
  have hdot : last ≠ "." := by
    rintro rfl
    have hsignificant := hlast kept "." hkept
    have hkeptNil : kept = [] := by
      rw [isSignificant] at hsignificant
      simp at hsignificant
      exact hsignificant.1
    rw [hkept, hkeptNil] at hkeptLocation
    exact hkeptLocation rfl
  refine ⟨last, ?_⟩
  rw [fileName?, splitLast?, hkept]
  simp [hdot, hup]

/-- The text of a path goes on after that of its parent. -/
theorem exists_text_parent {path parent : Path} {name : String}
    (hname : path.fileName? = some name) (hparent : path.parent? = some parent) :
    ∃ tail, tail ≠ "" ∧ path.text = parent.text ++ tail := by
  obtain ⟨before, idle, junk, hpieces, -, -, rfl⟩ := pieces_of_parent hname hparent
  have htext := intercalate_pieces path
  rw [ofPieces]
  split
  · rename_i hall
    have hrooted : path.text.toList.head? = some '/' := by simpa [isRooted] using hall.1
    obtain ⟨rest, hrest⟩ := List.head?_eq_some_iff.mp hrooted
    have htail : path.text = "/" ++ String.ofList rest := by
      apply String.toList_inj.mp
      simp [hrest]
    refine ⟨String.ofList rest, ?_, htail⟩
    intro hempty
    rw [hempty, String.append_empty] at htail
    have hslash : path.pieces = ["", ""] := by
      have : path = ⟨"/"⟩ := by
        obtain ⟨text⟩ := path
        exact congrArg Path.mk htail
      rw [this]
      decide
    have hmem : name ∈ path.pieces := by simp [hpieces]
    rw [hslash] at hmem
    exact (isName_of_fileName? hname).1 (by simpa using hmem)
  · obtain ⟨piece, rest, hrest⟩ :=
      List.exists_cons_of_ne_nil (show idle ++ name :: junk ≠ [] by simp)
    have hpath : path.text = "/".intercalate (before ++ piece :: rest) := by
      rw [← htext, hpieces, List.append_assoc, hrest]
    have hname' : (Path.mk ("/".intercalate (piece :: rest))).pieces = piece :: rest := by
      apply pieces_intercalate (by simp)
      intro other hother
      refine @separator_notMem_of_mem_pieces path _ ?_
      rw [hpieces, List.append_assoc, hrest]
      exact List.mem_append_right _ hother
    have htailNe : "/".intercalate (piece :: rest) ≠ "" := by
      intro hempty
      have hmem : name ∈ piece :: rest := by simp [← hrest]
      rw [← hname', hempty] at hmem
      have hemptyPieces : (Path.mk "").pieces = [""] := pieces_of_plain (by simp)
      rw [hemptyPieces] at hmem
      exact (isName_of_fileName? hname).1 (by simpa using hmem)
    by_cases hnil : before = []
    · subst hnil
      refine ⟨"/".intercalate (piece :: rest), htailNe, ?_⟩
      rw [hpath]
      rfl
    · refine ⟨"/" ++ "/".intercalate (piece :: rest), by simp, ?_⟩
      rw [hpath]
      rw [intercalate_append hnil (by simp), String.append_assoc]

/-- The directory of a file is its parent, written as a dot where that is empty. -/
theorem directory_cases {path parent : Path} (hparent : path.parent? = some parent) :
    parent.text ≠ "" ∧ path.directory = parent ∨ parent = ⟨""⟩ ∧ path.directory = ⟨"."⟩ := by
  rw [directory, hparent]
  dsimp only
  split
  · rename_i hempty
    exact .inr ⟨congrArg mk hempty, rfl⟩
  · rename_i htext
    exact .inl ⟨htext, rfl⟩

theorem location_directory {path parent : Path} (hparent : path.parent? = some parent) :
    path.directory.location = parent.location := by
  rcases directory_cases hparent with ⟨-, heq⟩ | ⟨rfl, heq⟩ <;> rw [heq]
  decide

theorem descends_directory {path parent : Path} (hparent : path.parent? = some parent) :
    path.directory.Descends ↔ parent.Descends := by
  rcases directory_cases hparent with ⟨-, heq⟩ | ⟨rfl, heq⟩ <;> rw [heq]
  decide

theorem text_directory_ne (path : Path) : path.directory.text ≠ "" := by
  rw [directory]
  split
  · split
    · decide
    · assumption
  · decide

/-! ## Files beside a path -/

theorem withFileName_of_parent {path parent : Path} {name : String}
    (hname : path.fileName? = some name) (hparent : path.parent? = some parent) (other : String) :
    path.withFileName other = parent.join other := by
  rw [withFileName, hname, hparent]

theorem besides_of_parent {path parent : Path} {name : String}
    (hname : path.fileName? = some name) (hparent : path.parent? = some parent) (ending : String) :
    path.besides ending = parent.join (name ++ ending) := by
  rw [besides, withFileName_of_parent hname hparent, hname]
  rfl

theorem besides_join {outer : Path} (houter : outer.trimmed = outer) {name : String}
    (hname : IsName name) (ending : String) :
    (outer.join name).besides ending = outer.join (name ++ ending) := by
  apply besides_of_parent (fileName?_join outer hname)
  rw [parent?_join outer hname, houter]

/-- A name with a plain ending that is longer than two dots is a name. -/
theorem isName_append {name ending : String} (hname : IsName name)
    (hending : '/' ∉ ending.toList) (hlong : 2 ≤ ending.toList.length) :
    IsName (name ++ ending) := by
  have hnameLength : 0 < name.toList.length :=
    List.length_pos_iff.mpr (by simpa using hname.1)
  have hlength : 3 ≤ (name ++ ending).toList.length := by
    rw [String.toList_append, List.length_append]
    omega
  refine ⟨?_, ?_, ?_, ?_⟩
  · intro h
    rw [h] at hlength
    exact absurd hlength (by decide)
  · intro h
    rw [h] at hlength
    exact absurd hlength (by decide)
  · intro h
    rw [h] at hlength
    exact absurd hlength (by decide)
  · rw [String.toList_append, List.mem_append]
    exact not_or_intro hname.2.2.2 hending

/-- What stands beside a path has its location but for the last name. -/
theorem location_besides {path : Path} {name : String} (hname : path.fileName? = some name)
    {ending : String} (hfull : IsName (name ++ ending)) :
    (path.besides ending).location = path.location.dropLast ++ [name ++ ending] := by
  obtain ⟨parent, hparent⟩ := exists_parent?_of_fileName? hname
  rw [besides_of_parent hname hparent, location_join parent hfull, location_parent hname hparent,
    List.dropLast_concat]

theorem descends_besides {path : Path} {name : String} (hname : path.fileName? = some name)
    {ending : String} (hfull : IsName (name ++ ending)) :
    (path.besides ending).Descends ↔ path.Descends := by
  obtain ⟨parent, hparent⟩ := exists_parent?_of_fileName? hname
  rw [besides_of_parent hname hparent, descends_join parent hfull, descends_parent hname hparent]

end Path

end TableAppend
