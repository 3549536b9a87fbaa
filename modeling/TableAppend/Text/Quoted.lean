import TableAppend.Text.Unprintable

/-!
# Quoted text in messages

A message shows a text, a character or a list of texts in quotes.  The quote in use, the backslash,
and the characters that do not print are escaped, so that the message shows what the text holds.
-/

namespace TableAppend.Quoted

def hexDigits (n : Nat) : List Char :=
  Nat.toDigits 16 n

/-- One character of a text that stands between two `quote`s. -/
def escape (quote c : Char) : List Char :=
  if c = '\t' then ['\\', 't']
  else if c = '\r' then ['\\', 'r']
  else if c = '\n' then ['\\', 'n']
  else if c = '\\' then ['\\', '\\']
  else if c = Char.ofNat 0 then ['\\', '0']
  else if c = quote then ['\\', quote]
  else if isUnprintable c then ['\\', 'u', '\x7b'] ++ hexDigits c.toNat ++ ['\x7d']
  else [c]

def between (quote : Char) (chars : List Char) : String :=
  String.ofList (quote :: chars.flatMap (escape quote) ++ [quote])

def text (value : String) : String :=
  between '"' value.toList

def char (value : Char) : String :=
  between '\'' [value]

def list (values : List String) : String :=
  "[" ++ ", ".intercalate (values.map text) ++ "]"

end TableAppend.Quoted
