import Mathlib.Data.Nat.Notation
import Mathlib.Tactic.SplitIfs
import TableAppend.Metadata

/-!
# Reading written strings

The characters of a string come back as they are read from its written form, whichever of them are
escaped.  A string and a mark between values end by themselves; a word or a number is ended by the mark
after it.
-/

namespace TableAppend

namespace Json

namespace Token

theorem scan?_cons {scan next : Scan} {c : Char} {tokens : List Token}
    (hstep : step? scan c = some (tokens, next)) (rest : List Char) :
    scan? scan (c :: rest) = (scan? next rest).map (tokens ++ ·) := by
  rw [scan?, hstep]
  cases hrest : scan? next rest <;> simp [hrest]

theorem scan?_cons_inside {scan next : Scan} {c : Char} (hstep : step? scan c = some ([], next))
    (rest : List Char) : scan? scan (c :: rest) = scan? next rest := by
  rw [scan?_cons hstep]
  simp

/-- Inside a string whose characters so far are these, newest first. -/
def reading (read : List Char) : Scan :=
  .string ⟨.plain, some read, none⟩

theorem step?_reading {read : List Char} {c : Char} (hquote : c ≠ '"') (hbackslash : c ≠ '\\')
    (hcontrol : ¬ c.toNat < 0x20) : step? (reading read) c = some ([], reading (c :: read)) := by
  simp [step?, reading, StringScan.next, StringScan.push, hquote, hbackslash, hcontrol]

theorem step?_reading_quote (read : List Char) :
    step? (reading read) '"' =
      some ([.string (some (String.ofList read.reverse))], .between) := by
  simp [step?, reading, StringScan.next, StringScan.value]

theorem scan?_backslash (read : List Char) {letter c : Char} (hletter : letter ≠ 'u')
    (hescaped : escaped? letter = some c) (rest : List Char) :
    scan? (reading read) ('\\' :: letter :: rest) = scan? (reading (c :: read)) rest := by
  have hfirst : step? (reading read) '\\' =
      some ([], .string ⟨.escape, some read, none⟩) := by
    simp [step?, reading, StringScan.next]
  have hsecond : step? (.string ⟨.escape, some read, none⟩) letter =
      some ([], reading (c :: read)) := by
    simp [step?, reading, StringScan.next, StringScan.push, hletter, hescaped]
  rw [scan?_cons_inside hfirst, scan?_cons_inside hsecond]

theorem hexValue?_hexDigit (n : ℕ) : hexValue? (hexDigit n) = some (n % 16) := by
  have hall : ∀ digit < 16, hexValue? (Nat.digitChar digit) = some digit := by decide
  exact hall _ (Nat.mod_lt n (by decide))

/-- A control character without a letter of its own is written by its number. -/
theorem scan?_unicode (read : List Char) {c : Char} (hcontrol : c.toNat < 0x20) (rest : List Char) :
    scan? (reading read)
        ('\\' :: 'u' :: '0' :: '0' :: hexDigit (c.toNat / 16) :: hexDigit c.toNat :: rest) =
      scan? (reading (c :: read)) rest := by
  have hfirst : step? (reading read) '\\' =
      some ([], .string ⟨.escape, some read, none⟩) := by
    simp [step?, reading, StringScan.next]
  have hmark : step? (.string ⟨.escape, some read, none⟩) 'u' =
      some ([], .string ⟨.unicode 4 0, some read, none⟩) := by
    simp [step?, StringScan.next]
  have hzero : ∀ count, count ≠ 1 → step? (.string ⟨.unicode count 0, some read, none⟩) '0' =
      some ([], .string ⟨.unicode (count - 1) 0, some read, none⟩) := by
    intro count hcount
    have hvalue : hexValue? '0' = some 0 := by decide
    simp [step?, StringScan.next, hvalue, hcount]
  have hhigh : step? (.string ⟨.unicode 2 0, some read, none⟩) (hexDigit (c.toNat / 16)) =
      some ([], .string ⟨.unicode 1 (c.toNat / 16 % 16), some read, none⟩) := by
    simp [step?, StringScan.next, hexValue?_hexDigit]
  have hlow : step? (.string ⟨.unicode 1 (c.toNat / 16 % 16), some read, none⟩)
      (hexDigit c.toNat) = some ([], reading (c :: read)) := by
    have hcode : 16 * (c.toNat / 16 % 16) + c.toNat % 16 = c.toNat := by omega
    have hhighSurrogate : isHighSurrogate c.toNat = false := by
      simp only [isHighSurrogate, Bool.and_eq_false_iff, decide_eq_false_iff_not]
      omega
    have hlowSurrogate : isLowSurrogate c.toNat = false := by
      simp only [isLowSurrogate, Bool.and_eq_false_iff, decide_eq_false_iff_not]
      omega
    simp [step?, StringScan.next, hexValue?_hexDigit, hcode, StringScan.pushCode, hhighSurrogate,
      hlowSurrogate, StringScan.push, reading]
  rw [scan?_cons_inside hfirst, scan?_cons_inside hmark, scan?_cons_inside (hzero 4 (by decide)),
    scan?_cons_inside (hzero 3 (by decide)), scan?_cons_inside hhigh, scan?_cons_inside hlow]

/-- A character is read from its written form. -/
theorem scan?_escape (read : List Char) (c : Char) (rest : List Char) :
    scan? (reading read) (escape c ++ rest) = scan? (reading (c :: read)) rest := by
  unfold escape
  split_ifs with hquote hbackslash hfeed hreturn htab hback hform hcontrol
  · rw [hquote]
    exact scan?_backslash read (by decide) (by decide) rest
  · rw [hbackslash]
    exact scan?_backslash read (by decide) (by decide) rest
  · rw [hfeed]
    exact scan?_backslash read (by decide) (by decide) rest
  · rw [hreturn]
    exact scan?_backslash read (by decide) (by decide) rest
  · rw [htab]
    exact scan?_backslash read (by decide) (by decide) rest
  · rw [hback]
    exact scan?_backslash read (by decide) (by decide) rest
  · rw [hform]
    exact scan?_backslash read (by decide) (by decide) rest
  · exact scan?_unicode read hcontrol rest
  · exact scan?_cons_inside (step?_reading hquote hbackslash hcontrol) rest

theorem scan?_escapes (chars read rest : List Char) :
    scan? (reading read) (chars.flatMap escape ++ rest) =
      scan? (reading (chars.reverse ++ read)) rest := by
  induction chars generalizing read with
  | nil => rfl
  | cons c chars ih =>
    rw [List.flatMap_cons, List.append_assoc, scan?_escape, ih]
    simp

/-- A written string is one token. -/
theorem scan?_renderString (value : String) (rest : List Char) :
    scan? .between (renderString (some value) ++ rest) =
      (scan? .between rest).map (.string (some value) :: ·) := by
  have hopen : step? .between '"' = some ([], reading []) := by
    rw [step?.eq_1, start?, if_neg (by decide), if_pos rfl]
    rfl
  have hrender : renderString (some value) = '"' :: (value.toList.flatMap escape ++ ['"']) := rfl
  rw [hrender, List.cons_append, List.append_assoc, List.singleton_append,
    scan?_cons_inside hopen, scan?_escapes, scan?_cons (step?_reading_quote _)]
  simp

/-- A mark between values is one token. -/
theorem scan?_punctuation {c : Char} {token : Token} (htoken : punctuation? c = some token)
    (rest : List Char) : scan? .between (c :: rest) = (scan? .between rest).map (token :: ·) := by
  have hother : isSpace c = false ∧ c ≠ '"' ∧ c.isLower = false := by
    unfold punctuation? at htoken
    split_ifs at htoken with h h h h h h <;> subst h <;> decide
  obtain ⟨hspace, hquote, hlower⟩ := hother
  have hstep : step? .between c = some ([token], .between) := by
    rw [step?.eq_1, start?, if_neg (by rw [hspace]; decide), if_neg hquote,
      if_neg (by rw [hlower]; decide), htoken]
  exact scan?_cons hstep rest

/-! ## Ends of tokens -/

/-- Nothing more, or a mark that ends a word or a number. -/
def Ends (rest : List Char) : Prop :=
  ∀ c, rest.head? = some c → c = ',' ∨ c = ']' ∨ c = '\x7d'

/-- A token that the end of the text or a mark completes. -/
theorem scan?_ended {scan : Scan} {token : Token} (hfinish : finish? scan = some [token])
    (hstep : ∀ c, c = ',' ∨ c = ']' ∨ c = '\x7d' → step? scan c =
      (start? c).map fun (tokens, next) => (token :: tokens, next))
    {rest : List Char} (hends : Ends rest) :
    scan? scan rest = (scan? .between rest).map (token :: ·) := by
  cases rest with
  | nil =>
    rw [scan?, scan?, hfinish]
    rfl
  | cons c rest =>
    have hmark := hends c rfl
    have hbetween : step? .between c = start? c := rfl
    rw [scan?, scan?, hstep c hmark, hbetween]
    cases start? c with
    | none => rfl
    | some found => cases hrest : scan? found.2 rest <;> simp [hrest]

end Token

end Json

end TableAppend
