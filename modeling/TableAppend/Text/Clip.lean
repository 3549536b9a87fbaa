/-!
# Clipped text

Long texts are cut to a limit of bytes before they go into a remark.  The cut never splits a
character.
-/

namespace TableAppend

/-- The longest beginning of at most `limit` bytes. -/
def clipChars (limit : Nat) : List Char → List Char
  | [] => []
  | c :: rest => if c.utf8Size ≤ limit then c :: clipChars (limit - c.utf8Size) rest else []

def clip (limit : Nat) (text : String) : String :=
  if text.utf8ByteSize ≤ limit then text
  else String.ofList (clipChars limit text.toList) ++ "...(truncated)"

end TableAppend
