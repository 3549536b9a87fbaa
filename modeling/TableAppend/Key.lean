import TableAppend.Cell

/-!
# Keys

A key is the list of canonical texts of some cells of a row.  Null equals only null.  Keys are ordered
part by part, null before every text and texts by code point; a key comes before every longer key that
it begins.
-/

namespace TableAppend

abbrev KeyPart := Option String

abbrev Key := List KeyPart

namespace Key

def ofCells (cells : List Cell) : Key :=
  cells.map Cell.canonical?

/-- The key of a row at some positions. -/
def ofRow (positions : List Nat) (row : List Cell) : Key :=
  ofCells (positions.map fun position => row[position]?.getD .null)

def compareParts : KeyPart → KeyPart → Ordering
  | none, none => .eq
  | none, some _ => .lt
  | some _, none => .gt
  | some left, some right => compare left right

def compare : Key → Key → Ordering
  | [], [] => .eq
  | [], _ :: _ => .lt
  | _ :: _, [] => .gt
  | left :: lefts, right :: rights => (compareParts left right).then (compare lefts rights)

end Key

end TableAppend
