/-!
# Text as bytes

Files hold bytes and cells hold text.  `encode` and `decode?` are the two directions between them.
A byte string that is no text is faulted at the end of its longest well-formed beginning
(`wellFormedLength`), and a reader that must not fail sees the replacement character for each
longest ill-formed stretch (`decodeLossy`).
-/

namespace TableAppend

abbrev Bytes := List UInt8

namespace Utf8

def encode (text : String) : Bytes :=
  text.toByteArray.data.toList

def decode? (bytes : Bytes) : Option String :=
  String.fromUTF8? ⟨bytes.toArray⟩

@[simp]
theorem decode?_encode (text : String) : decode? (encode text) = some text := by
  have hvalid : (ByteArray.mk (encode text).toArray).IsValidUTF8 := text.isValidUTF8
  simp only [decode?, String.fromUTF8?]
  rw [dif_pos hvalid]
  rfl

theorem encode_injective {left right : String} (h : encode left = encode right) : left = right := by
  have hdecoded := congrArg decode? h
  simpa using hdecoded

/-- A character of several bytes that has begun: its value so far, the number of bytes after the
next one, and the bounds of the next one. -/
structure Unfinished where
  value : Nat
  more : Nat
  low : UInt8
  high : UInt8

/-- The bytes that may begin a character of several bytes.  The bounds leave out overlong forms,
surrogates and values past the last code point. -/
def lead? (byte : UInt8) : Option Unfinished :=
  if 0xC2 ≤ byte ∧ byte ≤ 0xDF then some ⟨byte.toNat % 32, 0, 0x80, 0xBF⟩
  else if byte = 0xE0 then some ⟨0, 1, 0xA0, 0xBF⟩
  else if byte = 0xED then some ⟨13, 1, 0x80, 0x9F⟩
  else if 0xE1 ≤ byte ∧ byte ≤ 0xEF then some ⟨byte.toNat % 16, 1, 0x80, 0xBF⟩
  else if byte = 0xF0 then some ⟨0, 2, 0x90, 0xBF⟩
  else if 0xF1 ≤ byte ∧ byte ≤ 0xF3 then some ⟨byte.toNat % 8, 2, 0x80, 0xBF⟩
  else if byte = 0xF4 then some ⟨4, 2, 0x80, 0x8F⟩
  else none

/-- What one byte makes of the character under way, if any. -/
inductive Step
  | finished (c : Char)
  | unfinished (u : Unfinished)
  | fault

def begin (byte : UInt8) : Step :=
  if byte < 0x80 then .finished (Char.ofNat byte.toNat)
  else match lead? byte with
    | some u => .unfinished u
    | none => .fault

def Unfinished.take (u : Unfinished) (byte : UInt8) : Step :=
  if u.low ≤ byte ∧ byte ≤ u.high then
    let value := u.value * 64 + byte.toNat % 64
    match u.more with
    | 0 => .finished (Char.ofNat value)
    | more + 1 => .unfinished ⟨value, more, 0x80, 0xBF⟩
  else .fault

/-- `boundary` bytes are whole characters, and `seen` bytes have been taken. -/
def scan (under : Option Unfinished) (boundary seen : Nat) : Bytes → Nat
  | [] => boundary
  | byte :: rest =>
    match (match under with | none => begin byte | some u => u.take byte) with
    | .finished _ => scan none (seen + 1) (seen + 1) rest
    | .unfinished u => scan (some u) boundary (seen + 1) rest
    | .fault => boundary

/-- The number of bytes before the first one at which the bytes stop being text. -/
def wellFormedLength (bytes : Bytes) : Nat :=
  scan none 0 0 bytes

def replacement : Char := '\ufffd'

def decodeLossyFrom : Option Unfinished → Bytes → List Char
  | none, [] => []
  | some _, [] => [replacement]
  | none, byte :: rest =>
    match begin byte with
    | .finished c => c :: decodeLossyFrom none rest
    | .unfinished u => decodeLossyFrom (some u) rest
    | .fault => replacement :: decodeLossyFrom none rest
  | some u, byte :: rest =>
    match u.take byte with
    | .finished c => c :: decodeLossyFrom none rest
    | .unfinished v => decodeLossyFrom (some v) rest
    | .fault =>
      replacement :: match begin byte with
        | .finished c => c :: decodeLossyFrom none rest
        | .unfinished v => decodeLossyFrom (some v) rest
        | .fault => replacement :: decodeLossyFrom none rest

def decodeLossy (bytes : Bytes) : List Char :=
  decodeLossyFrom none bytes

end Utf8

end TableAppend
