/-!
# Paths

A path is the text that names a file.  Two texts may name the same file; `components` reads a path,
and `Path.same` compares what is read.  Empty pieces and inner pieces `.` mean nothing, and the text of
a path keeps them until an operation drops them.
-/

namespace TableAppend

structure Path where
  text : String
  deriving DecidableEq

namespace Path

inductive Component where
  | root
  | here
  | up
  | name (name : String)
  deriving DecidableEq

/-- The pieces of a text between separators. -/
def splitPieces : List Char → List (List Char)
  | [] => [[]]
  | c :: rest =>
    match c, splitPieces rest with
    | '/', pieces => [] :: pieces
    | _, [] => [[c]]
    | _, piece :: pieces => (c :: piece) :: pieces

def pieces (path : Path) : List String :=
  (splitPieces path.text.toList).map String.ofList

def isRooted (path : Path) : Bool :=
  path.text.toList.head? = some '/'

def componentOfPiece? (piece : String) : Option Component :=
  if piece = "" ∨ piece = "." then none
  else if piece = ".." then some .up
  else some (.name piece)

def components (path : Path) : List Component :=
  let rest := path.pieces.filterMap componentOfPiece?
  if path.isRooted then .root :: rest
  else if path.pieces.head? = some "." then .here :: rest
  else rest

def same (left right : Path) : Bool :=
  left.components = right.components

def Component.rank : Component → Nat
  | .root => 0
  | .here => 1
  | .up => 2
  | .name _ => 3

def Component.before (left right : Component) : Bool :=
  match left, right with
  | .name l, .name r => l < r
  | l, r => l.rank < r.rank

/-- Paths in the order of their components. -/
def componentsBefore : List Component → List Component → Bool
  | _, [] => false
  | [], _ :: _ => true
  | l :: ls, r :: rs => l.before r || (!r.before l && componentsBefore ls rs)

def before (left right : Path) : Bool :=
  componentsBefore left.components right.components

/-! ## Parents and names -/

/-- A piece that stands for a component.  The piece `.` does so only at the start. -/
def isSignificant (rooted : Bool) (index : Nat) (piece : String) : Bool :=
  piece ≠ "" && (piece ≠ "." || (index = 0 && !rooted))

/-- The pieces up to the last one that stands for a component. -/
def trimPieces (rooted : Bool) (pieces : List String) : List String :=
  let indexed := pieces.zipIdx.reverse.dropWhile fun (piece, index) =>
    !isSignificant rooted index piece
  indexed.reverse.map Prod.fst

def ofPieces (rooted : Bool) (pieces : List String) : Path :=
  if rooted ∧ pieces.all (· = "") then ⟨"/"⟩ else ⟨"/".intercalate pieces⟩

/-- The last component and the pieces before it. -/
def splitLast? (path : Path) : Option (List String × String) :=
  let kept := trimPieces path.isRooted path.pieces
  kept.getLast?.map fun last => (kept.dropLast, last)

/-- The path without its last component, if it has one. -/
def parent? (path : Path) : Option Path :=
  path.splitLast?.map fun (before, _) =>
    ofPieces path.isRooted (trimPieces path.isRooted before)

/-- The last component, if it is a name. -/
def fileName? (path : Path) : Option String :=
  match path.splitLast? with
  | some (_, last) => if last = "." ∨ last = ".." then none else some last
  | none => none

/-- The parts of a name before and after its last dot, unless that dot is its first character or
there is none. -/
def splitExtension (name : String) : String × Option String :=
  let reversed := name.toList.reverse
  let extension := reversed.takeWhile (· ≠ '.')
  match reversed.drop extension.length with
  | _ :: stem@(_ :: _) => (String.ofList stem.reverse, some (String.ofList extension.reverse))
  | _ => (name, none)

def stem? (path : Path) : Option String :=
  path.fileName?.map fun name => (splitExtension name).1

def extension? (path : Path) : Option String :=
  path.fileName?.bind fun name => (splitExtension name).2

/-! ## Building paths -/

/-- The path of `inner` seen from `outer`. -/
def join (outer : Path) (inner : String) : Path :=
  if inner.toList.head? = some '/' then ⟨inner⟩
  else if outer.text = "" ∨ outer.text.toList.getLast? = some '/' then ⟨outer.text ++ inner⟩
  else ⟨outer.text ++ "/" ++ inner⟩

/-- The path with another last name; a path that has no last name is extended. -/
def withFileName (path : Path) (name : String) : Path :=
  match path.fileName?, path.parent? with
  | some _, some parent => parent.join name
  | _, _ => path.join name

/-- The directory that a path lies in: its parent, or the working directory. -/
def directory (path : Path) : Path :=
  match path.parent? with
  | some parent => if parent.text = "" then ⟨"."⟩ else parent
  | none => ⟨"."⟩

/-- The path whose last name is that of `path` with `ending` added. -/
def besides (path : Path) (ending : String) : Path :=
  path.withFileName (path.fileName?.getD "" ++ ending)

/-! ## Listings -/

/-- The written form of a directory's entry.  Directly in the working directory it is the bare name. -/
def entry (directory : Path) (name : String) : Path :=
  if directory.text = "." then ⟨name⟩ else directory.join name

/-- One step of a search.  An empty piece leads nowhere from the working directory and stays where it
is from any other place. -/
def descend? (here : Path) (piece : String) : Option Path :=
  if here.text = "." ∧ piece = "" then none else some (here.entry piece)

/-- The written form of a directory that is searched piece by piece.  Pieces `.` at the start leave
nothing behind, those further inside stay, and separators in a row become one. -/
def listed? (directory : Path) : Option Path :=
  if directory.isRooted then directory.pieces.tail.foldlM descend? ⟨"/"⟩
  else directory.pieces.foldlM descend? ⟨"."⟩

end Path

end TableAppend
