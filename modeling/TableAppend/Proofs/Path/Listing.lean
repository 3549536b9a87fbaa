import TableAppend.Proofs.World.Region

/-!
# Directories that are searched

A search writes a directory in its own way: pieces `.` at the start and repeated separators are gone.
The written form leads to the same place, and no path of an entry is longer than it was, so what could
be used before can be used still.
-/

namespace TableAppend.Path

open FileTree (IsUsable)

/-! ## What an entry is written after -/

/-- What the entries of a listed directory are joined to; the working directory is left out. -/
def entryBase (listed : Path) : Path :=
  if listed.text = "." then ⟨""⟩ else listed

theorem entryBase_cases (listed : Path) :
    listed.entryBase = listed ∨ listed = ⟨"."⟩ ∧ listed.entryBase = ⟨""⟩ := by
  rw [entryBase]
  split
  · rename_i htext
    exact .inr ⟨congrArg mk htext, rfl⟩
  · exact .inl rfl

theorem entry_eq_join (listed : Path) (name : String) :
    listed.entry name = listed.entryBase.join name := by
  rw [entry, entryBase]
  split
  · rw [join]
    split <;> simp
  · rfl

theorem fileName?_entry (listed : Path) {name : String} (hname : IsName name) :
    (listed.entry name).fileName? = some name := by
  rw [entry_eq_join, fileName?_join _ hname]

theorem location_entryBase (listed : Path) : listed.entryBase.location = listed.location := by
  rcases listed.entryBase_cases with heq | ⟨rfl, heq⟩ <;> rw [heq]
  decide

theorem descends_entryBase (listed : Path) : listed.entryBase.Descends ↔ listed.Descends := by
  rcases listed.entryBase_cases with heq | ⟨rfl, heq⟩ <;> rw [heq]
  decide

theorem mem_text_of_entryBase {listed : Path} {c : Char}
    (hmem : c ∈ listed.entryBase.text.toList) : c ∈ listed.text.toList := by
  rcases listed.entryBase_cases with heq | ⟨-, heq⟩ <;> rw [heq] at hmem
  · exact hmem
  · simp at hmem

/-- The number of bytes before a name that is joined to a path. -/
def lead (outer : Path) : ℕ :=
  if outer.text = "" ∨ outer.text.toList.getLast? = some '/' then outer.text.utf8ByteSize
  else outer.text.utf8ByteSize + 1

theorem utf8ByteSize_join (outer : Path) {name : String} (hname : '/' ∉ name.toList) :
    (outer.join name).text.utf8ByteSize = outer.lead + name.utf8ByteSize := by
  have hhead : name.toList.head? ≠ some '/' := fun h => hname (List.mem_of_head? h)
  rw [join, if_neg hhead, lead]
  split
  · rw [String.utf8ByteSize_append]
  · rw [String.utf8ByteSize_append, String.utf8ByteSize_append]
    rfl

theorem lead_le (outer : Path) : outer.lead ≤ outer.text.utf8ByteSize + 1 := by
  rw [lead]
  split <;> omega

theorem lead_entryBase_le (outer : Path) : outer.entryBase.lead ≤ outer.lead := by
  rw [entryBase]
  split
  · exact Nat.zero_le _
  · exact Nat.le_refl _

theorem lead_join_empty (outer : Path) : (outer.join "").lead = outer.lead := by
  have hhead : "".toList.head? ≠ some '/' := by simp
  rw [join, if_neg hhead]
  by_cases hends : outer.text = "" ∨ outer.text.toList.getLast? = some '/'
  · rw [if_pos hends, String.append_empty]
  · rw [if_neg hends, String.append_empty, lead, lead, if_neg hends, if_pos (.inr (by simp)),
      String.utf8ByteSize_append]
    rfl

/-! ## One search -/

/-- The bytes that a piece takes in a written form.  Empty pieces need none. -/
def pieceBytes (piece : String) : ℕ :=
  if piece = "" then 0 else piece.utf8ByteSize + 1

/-- How the written form at the end of a search differs from that at its start. -/
structure Searched (start : Path) (pieces : List String) (last : Path) : Prop where
  location_eq : last.location = start.location ++ pieces.filterMap pieceName?
  descends : start.Descends → ".." ∉ pieces → last.Descends
  lead_le : last.entryBase.lead ≤ start.entryBase.lead + (pieces.map pieceBytes).sum
  mem_text : ∀ c, c ≠ '/' → c ∈ last.entryBase.text.toList →
    c ∈ start.entryBase.text.toList ∨ ∃ piece ∈ pieces, c ∈ piece.toList

theorem descend?_eq_some {here there : Path} {piece : String}
    (hthere : here.descend? piece = some there) : there = here.entryBase.join piece := by
  rw [descend?] at hthere
  split at hthere
  · contradiction
  · rw [Option.some.injEq, entry_eq_join] at hthere
    exact hthere.symm

theorem mem_text_join {outer : Path} {name : String} (hname : '/' ∉ name.toList) {c : Char}
    (hc : c ≠ '/') (hmem : c ∈ (outer.join name).text.toList) :
    c ∈ outer.text.toList ∨ c ∈ name.toList := by
  obtain ⟨between, htext, hbetween⟩ := text_join outer hname
  rw [htext, String.toList_append, String.toList_append, List.mem_append, List.mem_append] at hmem
  rcases hmem with (hmem | hmem) | hmem
  · exact .inl hmem
  · rcases hbetween with rfl | rfl
    · simp at hmem
    · exact absurd (by simpa using hmem) hc
  · exact .inr hmem

theorem searched_nil (start : Path) : Searched start [] start :=
  ⟨by simp, fun h _ => h, by simp, fun _ _ h => .inl h⟩

theorem Searched.cons {here there last : Path} {piece : String} {pieces : List String}
    (hpiece : '/' ∉ piece.toList) (hthere : here.descend? piece = some there)
    (hsearched : Searched there pieces last) : Searched here (piece :: pieces) last := by
  obtain rfl := descend?_eq_some hthere
  constructor
  · rw [hsearched.location_eq, location_join_piece _ hpiece, location_entryBase, List.append_assoc]
    congr 1
    cases hname : pieceName? piece <;> simp [hname]
  · intro hstart hup
    rw [List.mem_cons, not_or] at hup
    apply hsearched.descends _ hup.2
    rwa [descends_join_piece _ hpiece (Ne.symm hup.1), descends_entryBase]
  · have hstep : (here.entryBase.join piece).lead ≤ here.entryBase.lead + pieceBytes piece := by
      by_cases hempty : piece = ""
      · rw [hempty, lead_join_empty]
        exact Nat.le_add_right _ _
      · have hlead := Path.lead_le (here.entryBase.join piece)
        rw [utf8ByteSize_join _ hpiece] at hlead
        rw [pieceBytes, if_neg hempty]
        omega
    have hbase := lead_entryBase_le (here.entryBase.join piece)
    have hrest := hsearched.lead_le
    rw [List.map_cons, List.sum_cons]
    omega
  · intro c hc hmem
    rcases hsearched.mem_text c hc hmem with hmem | ⟨other, hother, hmem⟩
    · rcases mem_text_join hpiece hc (mem_text_of_entryBase hmem) with hmem | hmem
      · exact .inl hmem
      · exact .inr ⟨piece, List.mem_cons_self, hmem⟩
    · exact .inr ⟨other, List.mem_cons_of_mem _ hother, hmem⟩

theorem searched_of_foldlM {start last : Path} {pieces : List String}
    (hplain : ∀ piece ∈ pieces, '/' ∉ piece.toList)
    (hlast : pieces.foldlM descend? start = some last) : Searched start pieces last := by
  induction pieces generalizing start with
  | nil =>
    rw [List.foldlM_nil, Option.pure_def, Option.some.injEq] at hlast
    exact hlast ▸ searched_nil start
  | cons piece rest ih =>
    rw [List.foldlM_cons, Option.bind_eq_bind, Option.bind_eq_some_iff] at hlast
    obtain ⟨there, hthere, hrest⟩ := hlast
    have hpiece := hplain piece List.mem_cons_self
    exact (ih (fun other hother => hplain other (List.mem_cons_of_mem _ hother)) hrest).cons hpiece
      hthere

/-! ## The bytes of a text by pieces -/

theorem sum_bytes_intercalate {pieces : List String} (hne : pieces ≠ []) :
    (pieces.map fun piece => piece.utf8ByteSize + 1).sum =
      ("/".intercalate pieces).utf8ByteSize + 1 := by
  induction pieces with
  | nil => contradiction
  | cons piece rest ih =>
    by_cases hrest : rest = []
    · subst hrest
      simp
    · have hsplit := intercalate_append (List.cons_ne_nil piece []) hrest
      rw [List.singleton_append] at hsplit
      rw [List.map_cons, List.sum_cons, ih hrest, hsplit, String.utf8ByteSize_append,
        String.utf8ByteSize_append]
      have hseparator : "/".utf8ByteSize = 1 := rfl
      have hsingle : "/".intercalate [piece] = piece := rfl
      rw [hseparator, hsingle]
      omega

theorem sum_pieceBytes_le (pieces : List String) :
    (pieces.map pieceBytes).sum ≤ (pieces.map fun piece => piece.utf8ByteSize + 1).sum := by
  induction pieces with
  | nil => exact Nat.le_refl _
  | cons piece rest ih =>
    have hpiece : pieceBytes piece ≤ piece.utf8ByteSize + 1 := by
      rw [pieceBytes]
      split <;> omega
    rw [List.map_cons, List.map_cons, List.sum_cons, List.sum_cons]
    omega

theorem mem_text_of_piece {path : Path} {piece : String} (hpiece : piece ∈ path.pieces) {c : Char}
    (hc : c ∈ piece.toList) : c ∈ path.text.toList := by
  obtain ⟨before, after, hpieces⟩ := List.append_of_mem hpiece
  have hafter : c ∈ ("/".intercalate (piece :: after)).toList := by
    by_cases hnil : after = []
    · subst hnil
      simpa using hc
    · have hsplit := intercalate_append (List.cons_ne_nil piece []) hnil
      rw [List.singleton_append] at hsplit
      rw [hsplit, String.toList_append, String.toList_append]
      simp [hc]
  rw [← intercalate_pieces path, hpieces]
  by_cases hnil : before = []
  · subst hnil
    exact hafter
  · rw [intercalate_append hnil (List.cons_ne_nil _ _), String.toList_append]
    exact List.mem_append_right _ hafter

/-- A text does not end in a separator if its last piece is not empty. -/
theorem not_ends_of_pieces {path : Path} {before : List String} {last : String}
    (hpieces : path.pieces = before ++ [last]) (hlast : last ≠ "") :
    ¬ (path.text = "" ∨ path.text.toList.getLast? = some '/') := by
  have hempty : (Path.mk "").pieces = [""] := by decide
  rintro (htext | hends)
  · have hpath : path = ⟨""⟩ := congrArg mk htext
    rw [hpath, hempty] at hpieces
    have hsame := congrArg List.getLast? hpieces
    exact hlast (by simpa using hsame.symm)
  · obtain ⟨front, htext⟩ := text_of_endsInSeparator hends
    have hpath : path = ⟨front ++ "/" ++ ""⟩ := congrArg mk (by simpa using htext)
    rw [hpath, pieces_append_separator, hempty] at hpieces
    have hsame := congrArg List.getLast? hpieces
    exact hlast (by simpa using hsame.symm)

theorem lead_of_pieces {path : Path} {before : List String} {last : String}
    (hpieces : path.pieces = before ++ [last]) (hlast : last ≠ "") :
    path.lead = path.text.utf8ByteSize + 1 := by
  rw [lead, if_neg (not_ends_of_pieces hpieces hlast)]

/-! ## A listed directory -/

/-- What is known of the written form of a trimmed directory. -/
structure ListedAs (directory listed : Path) : Prop where
  location_eq : listed.location = directory.location
  descends : listed.Descends
  trimmed_eq : listed.entryBase.trimmed = listed.entryBase
  lead_le : listed.entryBase.lead ≤ directory.lead
  mem_text : ∀ c, c ≠ '/' → c ∈ listed.entryBase.text.toList → c ∈ directory.text.toList

theorem listedAs_root : ListedAs ⟨"/"⟩ ⟨"/"⟩ :=
  ⟨rfl, by decide, by decide, Nat.le_refl _, fun _ _ h => h⟩

theorem listedAs_here : ListedAs ⟨"."⟩ ⟨"."⟩ :=
  ⟨rfl, by decide, by decide, Nat.zero_le _, fun c _ h => by simp [entryBase] at h⟩

/-- A search that ends with a name ends in a trimmed path. -/
theorem trimmed_of_foldlM {start last : Path} {before : List String} {name : String}
    (hname : IsName name) (hlast : (before ++ [name]).foldlM descend? start = some last) :
    last.entryBase = last ∧ last.trimmed = last := by
  rw [List.foldlM_append, Option.bind_eq_bind, Option.bind_eq_some_iff] at hlast
  obtain ⟨here, -, hlast⟩ := hlast
  rw [List.foldlM_cons, Option.bind_eq_bind, Option.bind_eq_some_iff] at hlast
  obtain ⟨there, hthere, hlast⟩ := hlast
  rw [List.foldlM_nil, Option.pure_def, Option.some.injEq] at hlast
  subst hlast
  obtain rfl := descend?_eq_some hthere
  have htrimmed := trimmed_join here.entryBase hname
  refine ⟨?_, htrimmed⟩
  rw [entryBase, if_neg]
  intro htext
  have hpath : here.entryBase.join name = ⟨"."⟩ := congrArg mk htext
  have hnames := congrArg fileName? hpath
  rw [fileName?_join _ hname] at hnames
  have hdot : (Path.mk ".").fileName? = none := by decide
  rw [hdot] at hnames
  contradiction

/-- What is known of the search for a directory: it starts at the root or at the working directory,
neither of which leads anywhere, and follows pieces of the directory down to its name. -/
structure SearchedFrom (directory listed : Path) (name : String) (start : Path)
    (pieces : List String) : Prop where
  start_eq : start = ⟨"/"⟩ ∨ start = ⟨"."⟩
  leads : pieces.foldlM descend? start = some listed
  ends : ∃ more, pieces = more ++ [name]
  subset : ∀ piece ∈ pieces, piece ∈ directory.pieces
  names : pieces.filterMap pieceName? = directory.location
  bytes_le : start.entryBase.lead + (pieces.map pieceBytes).sum ≤ directory.lead

theorem exists_searchedFrom {directory listed : Path} {before : List String} {name : String}
    (hpieces : directory.pieces = before ++ [name]) (hname : name ≠ "")
    (hlisted : directory.listed? = some listed) :
    ∃ start pieces, SearchedFrom directory listed name start pieces := by
  have hlead := lead_of_pieces hpieces hname
  have hbytes := sum_bytes_intercalate (pieces_ne_nil directory)
  rw [intercalate_pieces] at hbytes
  rw [listed?] at hlisted
  by_cases hrooted : directory.isRooted = true
  · obtain ⟨rest, hrest, hcons⟩ := (isRooted_iff directory).mp hrooted
    rw [if_pos hrooted, hcons, List.tail_cons] at hlisted
    have hmore : ∃ more, rest = more ++ [name] := by
      obtain ⟨more, last, hmore⟩ := (List.eq_nil_or_concat rest).resolve_left hrest
      rw [List.concat_eq_append] at hmore
      refine ⟨more, ?_⟩
      have hlast := congrArg List.getLast? (hcons.symm.trans hpieces)
      rw [hmore, ← List.cons_append, List.getLast?_concat, List.getLast?_concat,
        Option.some.injEq] at hlast
      rw [hmore, hlast]
    refine ⟨⟨"/"⟩, rest, .inl rfl, hlisted, hmore, fun piece h => ?_, ?_, ?_⟩
    · rw [hcons]
      exact List.mem_cons_of_mem _ h
    · rw [location, hcons]
      rfl
    · have hsum := sum_pieceBytes_le rest
      have hslash : (Path.mk "/").entryBase.lead = 1 := by decide
      rw [hcons, List.map_cons, List.sum_cons] at hbytes
      have hempty : "".utf8ByteSize = 0 := rfl
      omega
  · rw [if_neg hrooted] at hlisted
    refine ⟨⟨"."⟩, directory.pieces, .inr rfl, hlisted, ⟨before, hpieces⟩, fun _ h => h, rfl, ?_⟩
    have hsum := sum_pieceBytes_le directory.pieces
    have hdot : (Path.mk ".").entryBase.lead = 0 := by decide
    omega

theorem SearchedFrom.listedAs {directory listed start : Path} {name : String}
    {pieces : List String} (hfrom : SearchedFrom directory listed name start pieces)
    (hdirectory : directory.Descends) (hname : IsName name) : ListedAs directory listed := by
  obtain ⟨more, hmore⟩ := hfrom.ends
  have hsearched := searched_of_foldlM
    (fun piece h => separator_notMem_of_mem_pieces (hfrom.subset piece h)) hfrom.leads
  obtain ⟨hbase, htrimmed⟩ := trimmed_of_foldlM hname (hmore ▸ hfrom.leads)
  have hlocation : start.location = [] := by
    rcases hfrom.start_eq with rfl | rfl <;> decide
  have hdescends : start.Descends := by
    rcases hfrom.start_eq with rfl | rfl <;> decide
  constructor
  · rw [hsearched.location_eq, hlocation, hfrom.names, List.nil_append]
  · exact hsearched.descends hdescends fun h => hdirectory (hfrom.subset _ h)
  · rw [hbase, htrimmed]
  · exact hsearched.lead_le.trans hfrom.bytes_le
  · intro c hc hmem
    rcases hsearched.mem_text c hc hmem with hmem | ⟨piece, hpiece, hmem⟩
    · rcases hfrom.start_eq with rfl | rfl
      · exact absurd (by simpa [entryBase] using hmem) hc
      · simp [entryBase] at hmem
    · exact mem_text_of_piece (hfrom.subset piece hpiece) hmem

theorem listedAs_of_listed? {directory listed : Path} (hdirectory : directory.Descends)
    (htrimmed : directory.trimmed = directory) (htext : directory.text ≠ "")
    (hlisted : directory.listed? = some listed) : ListedAs directory listed := by
  by_cases hlocation : directory.location = []
  · rcases text_of_trimmed hdirectory htrimmed hlocation with h | h | h
    · exact absurd h htext
    · obtain rfl : directory = ⟨"/"⟩ := congrArg mk h
      have hroot : (Path.mk "/").listed? = some ⟨"/"⟩ := by decide
      rw [hroot, Option.some.injEq] at hlisted
      exact hlisted ▸ listedAs_root
    · obtain rfl : directory = ⟨"."⟩ := congrArg mk h
      have hhere : (Path.mk ".").listed? = some ⟨"."⟩ := by decide
      rw [hhere, Option.some.injEq] at hlisted
      exact hlisted ▸ listedAs_here
  · obtain ⟨before, name, hpieces, hname⟩ := pieces_of_trimmed hdirectory htrimmed hlocation
    obtain ⟨start, pieces, hfrom⟩ := exists_searchedFrom hpieces hname.1 hlisted
    exact hfrom.listedAs hdirectory hname

theorem listedAs_parent {base parent listed : Path} (hbase : base.Descends)
    (hparent : base.parent? = some parent) (hlisted : base.directory.listed? = some listed) :
    ListedAs parent listed := by
  rcases directory_cases hparent with ⟨htext, heq⟩ | ⟨rfl, heq⟩ <;> rw [heq] at hlisted
  · exact listedAs_of_listed? ((parent_above hparent).2 hbase) (trimmed_parent hparent) htext hlisted
  · have hhere : (Path.mk ".").listed? = some ⟨"."⟩ := by decide
    rw [hhere, Option.some.injEq] at hlisted
    subst hlisted
    exact ⟨rfl, by decide, by decide, Nat.le_refl _, fun c _ h => by simp [entryBase] at h⟩

theorem checkPath_eq_ok_iff (path : Path) :
    FileTree.checkPath path = .ok () ↔ Char.ofNat 0 ∉ path.text.toList ∧ path.text ≠ "" ∧
      path.text.utf8ByteSize ≤ FileTree.longestPath := by
  rw [FileTree.checkPath]
  constructor
  · intro h
    split at h
    · contradiction
    split at h
    · contradiction
    split at h
    · contradiction
    rename_i hnull htext hlong
    exact ⟨hnull, htext, Nat.le_of_not_lt hlong⟩
  · rintro ⟨hnull, htext, hlong⟩
    rw [if_neg hnull, if_neg htext, if_neg (Nat.not_lt.mpr hlong)]

namespace ListedAs

variable {outer listed : Path} (hlisted : ListedAs outer listed) {name : String}
  (hname : IsName name)

include hlisted hname

/-- An entry is found wherever its name can be joined to the directory. -/
theorem isUsable_entry (husable : IsUsable (outer.join name)) : IsUsable (listed.entry name) := by
  obtain ⟨hcheck, hshort⟩ := husable
  obtain ⟨hnull, -, hlong⟩ := (checkPath_eq_ok_iff _).mp hcheck
  rw [entry_eq_join]
  constructor
  · rw [checkPath_eq_ok_iff]
    refine ⟨?_, ?_, ?_⟩
    · intro hmem
      have hplain : Char.ofNat 0 ≠ '/' := by decide
      obtain ⟨between, htext, -⟩ := text_join outer hname.2.2.2
      apply hnull
      rw [htext, String.toList_append, String.toList_append, List.mem_append, List.mem_append]
      rcases mem_text_join hname.2.2.2 hplain hmem with hmem | hmem
      · exact .inl (.inl (hlisted.mem_text _ hplain hmem))
      · exact .inr hmem
    · intro htext
      have hpath : listed.entryBase.join name = ⟨""⟩ := congrArg Path.mk htext
      have hnames := congrArg fileName? hpath
      rw [fileName?_join _ hname] at hnames
      have hempty : (Path.mk "").fileName? = none := by decide
      rw [hempty] at hnames
      contradiction
    · rw [utf8ByteSize_join _ hname.2.2.2] at hlong ⊢
      have := hlisted.lead_le
      omega
  · rw [location_join _ hname, location_entryBase, hlisted.location_eq, ← location_join _ hname]
    exact hshort

theorem liesIn_entry : (listed.entry name).LiesIn outer.location := by
  rw [entry_eq_join, ← hlisted.location_eq, ← location_entryBase]
  exact liesIn_join ((descends_entryBase listed).mpr hlisted.descends) hname

theorem besides_entry (ending : String) :
    (listed.entry name).besides ending = listed.entry (name ++ ending) := by
  rw [entry_eq_join, entry_eq_join, besides_join hlisted.trimmed_eq hname]

end ListedAs

/-! ## Directories that can be searched -/

/-- A search goes on from a directory to those in it. -/
theorem isSome_listed?_join {outer : Path} (htrimmed : outer.trimmed = outer)
    (htext : outer.text ≠ "") {name : String} (hname : IsName name) :
    (outer.join name).listed?.isSome = outer.listed?.isSome := by
  have hdescend : ∀ here : Path, here.descend? name = some (here.entry name) := by
    intro here
    rw [descend?, if_neg]
    exact fun h => hname.1 h.2
  rcases trimmed_cases htrimmed with h | h | ⟨before, last, hpieces, hlast⟩
  · exact absurd h htext
  · obtain rfl : outer = ⟨"/"⟩ := congrArg mk h
    have hrooted : ((Path.mk "/").join name).isRooted = true := by
      rw [isRooted_join _ hname.2.2.2]
      decide
    have hfront : (Path.mk "/").front = [""] := by decide
    have hroot : (Path.mk "/").listed?.isSome = true := by decide
    rw [hroot, listed?, if_pos hrooted, pieces_join _ hname.2.2.2, hfront, List.singleton_append,
      List.tail_cons, List.foldlM_cons, hdescend]
    rfl
  · have hne : last ≠ "" := by
      rintro rfl
      simp [isSignificant] at hlast
    have hfront : outer.front = outer.pieces := by
      rw [front, if_neg (not_ends_of_pieces hpieces hne)]
    have hfold : ∀ (start : Path) (pieces : List String),
        ((pieces ++ [name]).foldlM descend? start).isSome =
          (pieces.foldlM descend? start).isSome := by
      intro start pieces
      rw [List.foldlM_append]
      cases pieces.foldlM descend? start with
      | none => rfl
      | some here => simp [hdescend]
    rw [listed?, listed?, isRooted_join _ hname.2.2.2, pieces_join _ hname.2.2.2, hfront]
    split
    · rw [List.tail_append_of_ne_nil (pieces_ne_nil outer), hfold]
    · rw [hfold]

end TableAppend.Path
