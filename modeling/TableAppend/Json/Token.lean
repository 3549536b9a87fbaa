import TableAppend.Json.Basic

/-!
# JSON tokens

The tokens of a JSON text, found by an automaton that takes one character at a time.  A token ends
where the next character cannot continue it.
-/

namespace TableAppend.Json

inductive Token where
  | openBracket
  | closeBracket
  | openBrace
  | closeBrace
  | colon
  | comma
  | null
  | bool (value : Bool)
  | number (value : Numeral)
  | string (value : Option String)
  deriving DecidableEq

namespace Token

/-! ## Numbers -/

inductive NumberStage where
  | sign
  | zero
  | whole
  | point
  | fraction
  | mark
  | markSign
  | exponent
  deriving DecidableEq

/-- The stages after which a number may end. -/
def NumberStage.isComplete : NumberStage → Bool
  | .zero | .whole | .fraction | .exponent => true
  | .sign | .point | .mark | .markSign => false

structure NumberScan where
  stage : NumberStage
  value : Numeral
  deriving DecidableEq

def digitValue (c : Char) : Nat :=
  c.toNat - '0'.toNat

def beginNumber? (c : Char) : Option NumberScan :=
  if c = '-' then some ⟨.sign, ⟨true, 0, [], none⟩⟩
  else if c = '0' then some ⟨.zero, ⟨false, 0, [], none⟩⟩
  else if c.isDigit then some ⟨.whole, ⟨false, digitValue c, [], none⟩⟩
  else none

def withExponentDigit (value : Numeral) (c : Char) : Numeral :=
  { value with
    exponent := value.exponent.map fun (negative, e) => (negative, 10 * e + digitValue c) }

/-- The number one character further, or `none` where the character is not part of it. -/
def NumberScan.next? (scan : NumberScan) (c : Char) : Option NumberScan :=
  let value := scan.value
  match scan.stage with
  | .sign =>
    if c = '0' then some ⟨.zero, value⟩
    else if c.isDigit then some ⟨.whole, { value with whole := digitValue c }⟩
    else none
  | .zero =>
    if c = '.' then some ⟨.point, value⟩
    else if c = 'e' ∨ c = 'E' then some ⟨.mark, { value with exponent := some (false, 0) }⟩
    else none
  | .whole =>
    if c.isDigit then some ⟨.whole, { value with whole := 10 * value.whole + digitValue c }⟩
    else if c = '.' then some ⟨.point, value⟩
    else if c = 'e' ∨ c = 'E' then some ⟨.mark, { value with exponent := some (false, 0) }⟩
    else none
  | .point =>
    if c.isDigit then some ⟨.fraction, { value with fraction := [c] }⟩ else none
  | .fraction =>
    if c.isDigit then some ⟨.fraction, { value with fraction := value.fraction ++ [c] }⟩
    else if c = 'e' ∨ c = 'E' then some ⟨.mark, { value with exponent := some (false, 0) }⟩
    else none
  | .mark =>
    if c = '+' then some ⟨.markSign, value⟩
    else if c = '-' then some ⟨.markSign, { value with exponent := some (true, 0) }⟩
    else if c.isDigit then some ⟨.exponent, withExponentDigit value c⟩
    else none
  | .markSign | .exponent =>
    if c.isDigit then some ⟨.exponent, withExponentDigit value c⟩ else none

/-! ## Strings -/

inductive StringStage where
  | plain
  | escape
  /-- `count` hexadecimal digits are missing after a value of `code`. -/
  | unicode (count code : Nat)
  deriving DecidableEq

/-- `read` holds the characters newest first, or `none` once a surrogate was left unpaired; `high` is
a high surrogate that waits for its other half. -/
structure StringScan where
  stage : StringStage
  read : Option (List Char)
  high : Option Nat
  deriving DecidableEq

def beginString : StringScan := ⟨.plain, some [], none⟩

def StringScan.push (scan : StringScan) (c : Char) : StringScan :=
  { stage := .plain
    read := if scan.high.isSome then none else scan.read.map (c :: ·)
    high := none }

def isHighSurrogate (code : Nat) : Bool := 0xD800 ≤ code && code < 0xDC00

def isLowSurrogate (code : Nat) : Bool := 0xDC00 ≤ code && code < 0xE000

def StringScan.pushCode (scan : StringScan) (code : Nat) : StringScan :=
  match scan.high with
  | some high =>
    if isLowSurrogate code then
      let c := Char.ofNat (0x10000 + (high - 0xD800) * 0x400 + (code - 0xDC00))
      { stage := .plain, read := scan.read.map (c :: ·), high := none }
    else { stage := .plain, read := none, high := none }
  | none =>
    if isHighSurrogate code then { scan with stage := .plain, high := some code }
    else if isLowSurrogate code then { stage := .plain, read := none, high := none }
    else scan.push (Char.ofNat code)

def hexValue? (c : Char) : Option Nat :=
  if c.isDigit then some (digitValue c)
  else if 'a' ≤ c ∧ c ≤ 'f' then some (c.toNat - 'a'.toNat + 10)
  else if 'A' ≤ c ∧ c ≤ 'F' then some (c.toNat - 'A'.toNat + 10)
  else none

def escaped? (c : Char) : Option Char :=
  if c = '"' ∨ c = '\\' ∨ c = '/' then some c
  else if c = 'b' then some '\x08'
  else if c = 'f' then some '\x0c'
  else if c = 'n' then some '\n'
  else if c = 'r' then some '\r'
  else if c = 't' then some '\t'
  else none

def StringScan.value (scan : StringScan) : Option String :=
  if scan.high.isSome then none else scan.read.map fun chars => String.ofList chars.reverse

inductive StringStep where
  | inside (scan : StringScan)
  | finished (value : Option String)
  | fault

/-- A raw control character is a fault. -/
def StringScan.next (scan : StringScan) (c : Char) : StringStep :=
  match scan.stage with
  | .plain =>
    if c = '"' then .finished scan.value
    else if c = '\\' then .inside { scan with stage := .escape }
    else if c.toNat < 0x20 then .fault
    else .inside (scan.push c)
  | .escape =>
    if c = 'u' then .inside { scan with stage := .unicode 4 0 }
    else match escaped? c with
      | some e => .inside (scan.push e)
      | none => .fault
  | .unicode count code =>
    match hexValue? c with
    | none => .fault
    | some digit =>
      let code := 16 * code + digit
      if count = 1 then .inside (scan.pushCode code)
      else .inside { scan with stage := .unicode (count - 1) code }

/-! ## The automaton -/

inductive Scan where
  | between
  /-- A word, newest letter first. -/
  | word (letters : List Char)
  | number (scan : NumberScan)
  | string (scan : StringScan)
  deriving DecidableEq

def ofWord? (letters : List Char) : Option Token :=
  match String.ofList letters.reverse with
  | "null" => some .null
  | "true" => some (.bool true)
  | "false" => some (.bool false)
  | _ => none

def isSpace (c : Char) : Bool :=
  c = ' ' || c = '\n' || c = '\t' || c = '\r'

def punctuation? (c : Char) : Option Token :=
  if c = '[' then some .openBracket
  else if c = ']' then some .closeBracket
  else if c = '\x7b' then some .openBrace
  else if c = '\x7d' then some .closeBrace
  else if c = ':' then some .colon
  else if c = ',' then some .comma
  else none

/-- A character that no token under way wants: the tokens it completes and what it begins. -/
def start? (c : Char) : Option (List Token × Scan) :=
  if isSpace c then some ([], .between)
  else if c = '"' then some ([], .string beginString)
  else if c.isLower then some ([], .word [c])
  else match punctuation? c with
    | some token => some ([token], .between)
    | none => (beginNumber? c).map fun scan => ([], .number scan)

/-- The tokens that a character completes and what is under way after it. -/
def step? : Scan → Char → Option (List Token × Scan)
  | .between, c => start? c
  | .word letters, c =>
    if c.isLower then some ([], .word (c :: letters))
    else do
      let token ← ofWord? letters
      let (tokens, scan) ← start? c
      return (token :: tokens, scan)
  | .number scan, c =>
    match scan.next? c with
    | some next => some ([], .number next)
    | none =>
      if scan.stage.isComplete then
        (start? c).map fun (tokens, next) => (.number scan.value :: tokens, next)
      else none
  | .string scan, c =>
    match scan.next c with
    | .inside next => some ([], .string next)
    | .finished value => some ([.string value], .between)
    | .fault => none

/-- The token that the end of the text completes. -/
def finish? : Scan → Option (List Token)
  | .between => some []
  | .word letters => (ofWord? letters).map ([·])
  | .number scan => if scan.stage.isComplete then some [.number scan.value] else none
  | .string _ => none

def scan? : Scan → List Char → Option (List Token)
  | scan, [] => finish? scan
  | scan, c :: rest => do
    let (tokens, next) ← step? scan c
    return tokens ++ (← scan? next rest)

/-- The tokens of a text, or `none` where it cannot be cut into tokens. -/
def ofText? (chars : List Char) : Option (List Token) :=
  scan? .between chars

end Token

end TableAppend.Json
