import TableAppend.Proofs.World.Region

/-!
# Names of a family

A base file's name is a stem and a suffix, and a sibling's name has its number between them.  All names
of a family have equally many dots, which keeps them apart from the names of their metadata files and
of temporary files.
-/

namespace TableAppend

open TableAppend.Path (IsName splitExtension)

/-! ## The extension of a name -/

namespace Path

theorem takeWhile_reverse {before after : List Char} (hafter : '.' ∉ after) :
    (before ++ after).reverse.takeWhile (· ≠ '.') =
      after.reverse ++ before.reverse.takeWhile (· ≠ '.') := by
  rw [List.reverse_append, List.takeWhile_append_of_pos]
  intro c hc
  have hmem : c ∈ after := by simpa using hc
  have hne : c ≠ '.' := by
    rintro rfl
    exact hafter hmem
  simpa using hne

theorem splitExtension_of_dot {stem extension : String} (hstem : stem ≠ "")
    (hextension : '.' ∉ extension.toList) :
    splitExtension (stem ++ "." ++ extension) = (stem, some extension) := by
  have hchars : (stem ++ "." ++ extension).toList =
      (stem.toList ++ ['.']) ++ extension.toList := by
    simp
  have htake : (stem ++ "." ++ extension).toList.reverse.takeWhile (· ≠ '.') =
      extension.toList.reverse := by
    rw [hchars, takeWhile_reverse hextension]
    simp
  have hdrop : (stem ++ "." ++ extension).toList.reverse.drop extension.toList.reverse.length =
      '.' :: stem.toList.reverse := by
    rw [hchars, List.reverse_append, List.drop_left]
    simp
  have hne : stem.toList.reverse ≠ [] := by simpa using hstem
  obtain ⟨last, rest, hrest⟩ := List.exists_cons_of_ne_nil hne
  rw [splitExtension, htake, hdrop, hrest]
  dsimp only
  rw [← hrest]
  simp

theorem splitExtension_of_plain {name : String} (hname : '.' ∉ name.toList.tail) :
    splitExtension name = (name, none) := by
  cases hchars : name.toList with
  | nil => simp [splitExtension, hchars]
  | cons first rest =>
    rw [hchars, List.tail_cons] at hname
    have htake := @takeWhile_reverse [first] _ hname
    have hdrop : (first :: rest).reverse.drop
        ((first :: rest).reverse.takeWhile (· ≠ '.')).length = [first] ∨
        (first :: rest).reverse.drop
          ((first :: rest).reverse.takeWhile (· ≠ '.')).length = [] := by
      rw [List.singleton_append] at htake
      rw [htake, List.reverse_cons]
      by_cases hdot : first = '.'
      · left
        simp [hdot]
      · right
        simp [hdot]
    rw [splitExtension, hchars]
    rcases hdrop with hdrop | hdrop <;> rw [hdrop]

/-- The name of a metadata file has the extension of these. -/
theorem splitExtension_metadata {name : String} (hname : name ≠ "") :
    splitExtension (name ++ Metadata.ending) = (name, some Metadata.extension) := by
  have hending : name ++ Metadata.ending = name ++ "." ++ Metadata.extension := by
    rw [String.append_assoc]
    rfl
  rw [hending]
  exact splitExtension_of_dot hname (by decide)

/-- A name has an extension, or no dot but for its first character. -/
theorem name_cases (name : String) :
    (∃ stem extension, stem ≠ "" ∧ '.' ∉ extension.toList ∧ name = stem ++ "." ++ extension) ∨
      '.' ∉ name.toList.tail := by
  by_cases hname : '.' ∈ name.toList.tail
  · left
    obtain ⟨first, rest, hcons⟩ : ∃ first rest, name.toList = first :: rest := by
      apply List.exists_cons_of_ne_nil
      intro hnil
      simp [hnil] at hname
    rw [hcons, List.tail_cons, ← List.mem_reverse] at hname
    obtain ⟨after, before, hrest, hafter⟩ := List.eq_append_cons_of_mem hname
    rw [List.reverse_eq_iff] at hrest
    refine ⟨String.ofList (first :: before.reverse), String.ofList after.reverse, by simp,
      by simpa using hafter, ?_⟩
    apply String.toList_injective
    simp [hcons, hrest]
  · exact .inr hname

end Path

/-! ## The parts of a base file's name -/

namespace Family

/-- Two parts divide a name.  Without an extension the whole name is the stem. -/
def NameParts.Divide (parts : NameParts) (name : String) : Prop :=
  name = parts.stem ++ parts.suffix ∧ parts.stem ≠ "" ∧
    ((∃ extension, parts.suffix = "." ++ extension ∧ '.' ∉ extension.toList) ∨
      (parts.suffix = "" ∧ '.' ∉ parts.stem.toList.tail))

theorem exists_parts {base : Path} {name : String} (hname : base.fileName? = some name) :
    ∃ parts, NameParts.ofPath base = .ok parts ∧ parts.Divide name := by
  have hstem : base.stem? = some (splitExtension name).1 := by rw [Path.stem?, hname]; rfl
  have hextension : base.extension? = (splitExtension name).2 := by
    rw [Path.extension?, hname]; rfl
  rw [NameParts.ofPath]
  simp only [hstem, hextension]
  rcases Path.name_cases name with ⟨stem, extension, hne, hplain, rfl⟩ | hplain
  · rw [Path.splitExtension_of_dot hne hplain]
    refine ⟨_, rfl, ?_, hne, .inl ⟨extension, rfl, hplain⟩⟩
    rw [String.append_assoc]
  · rw [Path.splitExtension_of_plain hplain]
    exact ⟨_, rfl, by simp, (Path.isName_of_fileName? hname).1, .inr ⟨rfl, hplain⟩⟩

variable {parts : NameParts} {name : String}

theorem parts_of_ofPath {base : Path} (hparts : NameParts.ofPath base = .ok parts)
    (hname : base.fileName? = some name) : parts.Divide name := by
  obtain ⟨other, hother, hdivide⟩ := exists_parts hname
  rw [hparts, Except.ok.injEq] at hother
  rwa [hother]

/-! ## Numbered names -/

theorem NameParts.toList_numbered (parts : NameParts) (number : ℕ) :
    (parts.numbered number).toList =
      parts.stem.toList ++ '_' :: Nat.toDigits 10 number ++ parts.suffix.toList := by
  simp [numbered, Nat.toString_eq_repr, Nat.toList_repr]

theorem notMem_toDigits {c : Char} (hc : c.isDigit = false) (number : ℕ) :
    c ∉ Nat.toDigits 10 number := by
  intro hmem
  have hdigit := Nat.isDigit_of_mem_toDigits (by decide) (by decide) hmem
  rw [hc] at hdigit
  contradiction

theorem numbered_injective (parts : NameParts) : Function.Injective parts.numbered := by
  intro first second hsame
  have hchars := congrArg String.toList hsame
  rw [parts.toList_numbered, parts.toList_numbered] at hchars
  have hdigits : Nat.toDigits 10 first = Nat.toDigits 10 second := by simpa using hchars
  have hread := congrArg (fun digits => Nat.ofDigitChars 10 digits 0) hdigits
  simpa using hread

theorem NameParts.Divide.isName_numbered (hdivide : parts.Divide name) (hname : IsName name)
    (number : ℕ) : IsName (parts.numbered number) := by
  have hmem : '_' ∈ (parts.numbered number).toList := by
    rw [parts.toList_numbered]
    simp
  obtain ⟨-, -, -, hplain⟩ := hname
  rw [hdivide.1, String.toList_append, List.mem_append, not_or] at hplain
  refine ⟨?_, ?_, ?_, ?_⟩
  · intro h
    simp [h] at hmem
  · intro h
    simp [h] at hmem
  · intro h
    simp [h] at hmem
  · rw [parts.toList_numbered, List.mem_append, List.mem_append, List.mem_cons]
    rintro ((h | h | h) | h)
    · exact hplain.1 h
    · exact absurd h (by decide)
    · exact notMem_toDigits (by decide) number h
    · exact hplain.2 h

theorem NameParts.Divide.numbered_ne (hdivide : parts.Divide name) (number : ℕ) :
    parts.numbered number ≠ name := by
  intro hsame
  have hlength := congrArg (fun text => text.toList.length) hsame
  rw [parts.toList_numbered, hdivide.1, String.toList_append] at hlength
  simp at hlength
  omega

/-- Text without a dot between the parts of a name leaves its extension. -/
theorem NameParts.Divide.splitExtension_between (hdivide : parts.Divide name) {middle : String}
    (hmiddle : '.' ∉ middle.toList) :
    (splitExtension (parts.stem ++ middle ++ parts.suffix)).2 = (splitExtension name).2 := by
  obtain ⟨hname, hne, ⟨extension, hsuffix, hplain⟩ | ⟨hsuffix, hplain⟩⟩ := hdivide
  · have hlong : parts.stem ++ middle ≠ "" := fun hempty =>
      hne (String.append_eq_empty_iff.mp hempty).1
    rw [hname, hsuffix, ← String.append_assoc, ← String.append_assoc,
      Path.splitExtension_of_dot hlong hplain, Path.splitExtension_of_dot hne hplain]
  · have hchars : parts.stem.toList ≠ [] := by simpa using hne
    have htail : '.' ∉ (parts.stem ++ middle).toList.tail := by
      rw [String.toList_append, List.tail_append_of_ne_nil hchars, List.mem_append, not_or]
      exact ⟨hplain, hmiddle⟩
    rw [hname, hsuffix, String.append_empty, String.append_empty, Path.splitExtension_of_plain htail,
      Path.splitExtension_of_plain hplain]

/-- A sibling has the extension of the base file. -/
theorem NameParts.Divide.splitExtension_numbered (hdivide : parts.Divide name) (number : ℕ) :
    (splitExtension (parts.numbered number)).2 = (splitExtension name).2 := by
  have hnumbered : parts.numbered number = parts.stem ++ ("_" ++ toString number) ++ parts.suffix := by
    rw [NameParts.numbered]
    simp only [String.append_assoc]
  have hmiddle : '.' ∉ ("_" ++ toString number).toList := by
    simpa using notMem_toDigits (c := '.') (by decide) number
  rw [hnumbered, hdivide.splitExtension_between hmiddle]

theorem NameParts.Divide.dots_numbered (hdivide : parts.Divide name) (number : ℕ) :
    (parts.numbered number).toList.count '.' = name.toList.count '.' := by
  have hdigits : (Nat.toDigits 10 number).count '.' = 0 :=
    List.count_eq_zero.mpr (notMem_toDigits (by decide) number)
  rw [parts.toList_numbered, hdivide.1, String.toList_append, List.count_append, List.count_append,
    List.count_append, List.count_cons, hdigits]
  simp

/-! ## Reading the number of a name -/

theorem between?_eq_some_iff {beginning ending text inner : List Char} :
    between? beginning ending text = some inner ↔ text = beginning ++ inner ++ ending := by
  rw [between?]
  constructor
  · intro h
    split at h
    · rename_i hbeginning
      obtain ⟨rest, rfl⟩ := List.isPrefixOf_iff_prefix.mp hbeginning
      rw [List.drop_left] at h
      dsimp only at h
      split at h
      · rename_i hending
        obtain ⟨front, rfl⟩ := List.isSuffixOf_iff_suffix.mp hending
        simp only [List.length_append, Nat.add_sub_cancel, List.take_left, Option.some.injEq] at h
        rw [h, List.append_assoc]
      · contradiction
    · contradiction
  · rintro rfl
    rw [List.append_assoc]
    simp [List.isPrefixOf_iff_prefix, List.isSuffixOf_iff_suffix]

theorem ofDigits?_eq_some_iff {digits : List Char} {number : ℕ} :
    ofDigits? digits = some number ↔ digits ≠ [] ∧ (∀ c ∈ digits, c.isDigit = true) ∧
      Nat.ofDigitChars 10 digits 0 = number ∧ number < UInt64.size := by
  rw [ofDigits?, ← List.all_eq_true]
  split
  · rename_i hdigits
    dsimp only
    rw [Option.ite_none_right_eq_some, Option.some.injEq]
    constructor
    · rintro ⟨hsmall, rfl⟩
      exact ⟨hdigits.1, hdigits.2, rfl, hsmall⟩
    · rintro ⟨-, -, rfl, hsmall⟩
      exact ⟨hsmall, rfl⟩
  · rename_i hdigits
    constructor
    · intro h
      contradiction
    · rintro ⟨hne, hall, -⟩
      exact absurd ⟨hne, hall⟩ hdigits

/-- A number is read where there are digits between the stem with a dash and the suffix. -/
theorem number?_eq_some_iff {number : ℕ} :
    parts.number? name = some number ↔ ∃ digits,
      name.toList = parts.stem.toList ++ '_' :: digits ++ parts.suffix.toList ∧ digits ≠ [] ∧
        (∀ c ∈ digits, c.isDigit = true) ∧ Nat.ofDigitChars 10 digits 0 = number ∧
          number < UInt64.size := by
  have hstem : (parts.stem ++ "_").toList = parts.stem.toList ++ ['_'] := by
    rw [String.toList_append]
    rfl
  have hwhole : ∀ digits, (parts.stem ++ "_").toList ++ digits ++ parts.suffix.toList =
      parts.stem.toList ++ '_' :: digits ++ parts.suffix.toList := by
    intro digits
    rw [hstem, List.append_assoc parts.stem.toList, List.singleton_append]
  rw [NameParts.number?, Option.bind_eq_bind, Option.bind_eq_some_iff]
  simp only [between?_eq_some_iff, ofDigits?_eq_some_iff, hwhole]

/-- A sibling's name is read as its number, as far as that is counted. -/
theorem number?_numbered (parts : NameParts) {number : ℕ} (hnumber : number < UInt64.size) :
    parts.number? (parts.numbered number) = some number :=
  number?_eq_some_iff.mpr ⟨Nat.toDigits 10 number, parts.toList_numbered number,
    Nat.toDigits_ne_nil, fun _ hc => Nat.isDigit_of_mem_toDigits (by decide) (by decide) hc,
    Nat.ofDigitChars_ten_toDigits, hnumber⟩

/-- The base file is no sibling of its own. -/
theorem NameParts.Divide.number?_eq_none (hdivide : parts.Divide name) :
    parts.number? name = none := by
  rw [Option.eq_none_iff_forall_ne_some]
  intro number hnumber
  obtain ⟨digits, hname, -⟩ := number?_eq_some_iff.mp hnumber
  have hlength := congrArg List.length hname
  rw [hdivide.1] at hlength
  simp at hlength
  omega

/-! ## Names of metadata files and of temporary files -/

/-- What the names of a family's files end in: data files, metadata files, and the temporary forms of
both. -/
def endings : List String :=
  ["", Metadata.ending, Metadata.temporaryEnding, Metadata.ending ++ Metadata.temporaryEnding]

/-- Names of one family do not get mixed up by their endings. -/
theorem eq_of_append_ending {left right first second : String} (hfirst : first ∈ endings)
    (hsecond : second ∈ endings) (hdots : left.toList.count '.' = right.toList.count '.')
    (hsame : left ++ first = right ++ second) : first = second ∧ left = right := by
  have hchars := congrArg String.toList hsame
  rw [String.toList_append, String.toList_append] at hchars
  have hcount := congrArg (List.count '.') hchars
  rw [List.count_append, List.count_append, hdots, Nat.add_left_cancel_iff] at hcount
  have hlast := congrArg List.getLast? hchars
  have hending : first = second := by
    simp only [endings, List.mem_cons, List.not_mem_nil, or_false] at hfirst hsecond
    rcases hfirst with rfl | rfl | rfl | rfl <;> rcases hsecond with rfl | rfl | rfl | rfl <;>
      first
      | rfl
      | (exfalso; revert hcount; decide)
      | (exfalso; revert hlast; simp [Metadata.ending, Metadata.temporaryEnding])
  refine ⟨hending, ?_⟩
  rw [hending] at hchars
  exact String.toList_injective (List.append_inj_left' hchars rfl)

end Family

end TableAppend
