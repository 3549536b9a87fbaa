import TableAppend.Columnar.Table

/-!
# The tree of files

A tree maps locations, lists of names from the working directory down, to directories and files.  A
path leads to a location step by step.  Each operation either yields the changed tree or says why it
cannot; only `makeDirectories` may do part of its work before it fails.

The main facts are how `get?` sees a change: `get?_set_same`, `get?_set_other` and their companions.
-/

namespace TableAppend

/-- The bytes that every columnar file begins and ends with. -/
def columnarMark : Bytes := Utf8.encode "PAR1"

/-- A table with the bytes that it has been saved in. -/
structure SavedTable extends Table where
  encoded : Bytes := columnarMark ++ columnarMark
  deriving DecidableEq

/-- Where only the table matters, its bytes are the marks. -/
instance : Coe Table SavedTable where
  coe table := { table with }

/-- A columnar file is known by its table, in whatever bytes; any other file by its bytes. -/
inductive Content where
  | bytes (bytes : Bytes)
  | table (table : SavedTable)
  deriving DecidableEq

def Content.toBytes : Content → Bytes
  | .bytes stored => stored
  | .table saved => saved.encoded

abbrev Location := List String

inductive Node where
  | directory
  | file (content : Content)
  deriving DecidableEq

structure FileTree where
  nodes : List (Location × Node)
  deriving DecidableEq

namespace FileTree

def empty : FileTree := ⟨[]⟩

/-- The working directory always exists. -/
def get? (tree : FileTree) (location : Location) : Option Node :=
  if location = [] then some .directory else tree.nodes.lookup location

def insertNode (location : Location) (node : Node) :
    List (Location × Node) → List (Location × Node)
  | [] => [(location, node)]
  | (other, old) :: rest =>
    if location = other then (location, node) :: rest
    else (other, old) :: insertNode location node rest

def set (tree : FileTree) (location : Location) (node : Node) : FileTree :=
  ⟨insertNode location node tree.nodes⟩

/-- The tree without a location and all that lies below it. -/
def erase (tree : FileTree) (location : Location) : FileTree :=
  ⟨tree.nodes.filter fun (other, _) => !location.isPrefixOf other⟩

/-- The tree without the node at one location. -/
def eraseNode (tree : FileTree) (location : Location) : FileTree :=
  ⟨tree.nodes.filter fun (other, _) => other ≠ location⟩

/-! ## What a change does to the nodes -/

theorem lookup_cons_eq_ite (location other : Location) (node : Node)
    (nodes : List (Location × Node)) :
    ((location, node) :: nodes).lookup other =
      if other = location then some node else nodes.lookup other := by
  by_cases h : other = location
  · simp [h]
  · have hbeq : (other == location) = false := beq_false_of_ne h
    simp [List.lookup_cons, hbeq, h]

theorem lookup_insertNode (location other : Location) (node : Node)
    (nodes : List (Location × Node)) :
    (insertNode location node nodes).lookup other =
      if other = location then some node else nodes.lookup other := by
  induction nodes with
  | nil => simp only [insertNode, lookup_cons_eq_ite]
  | cons entry rest ih =>
    obtain ⟨name, old⟩ := entry
    by_cases hname : location = name
    · subst hname
      by_cases h : other = location <;> simp [insertNode, lookup_cons_eq_ite, h]
    · by_cases h : other = name
      · subst h
        simp [insertNode, hname, Ne.symm hname]
      · simp [insertNode, lookup_cons_eq_ite, hname, h, ih]

theorem get?_set (tree : FileTree) (location other : Location) (node : Node)
    (hlocation : location ≠ []) :
    (tree.set location node).get? other =
      if other = location then some node else tree.get? other := by
  by_cases h : other = []
  · subst h
    simp [get?, Ne.symm hlocation]
  · simp [get?, set, lookup_insertNode, h]

@[simp]
theorem get?_set_same (tree : FileTree) (location : Location) (node : Node)
    (hlocation : location ≠ []) : (tree.set location node).get? location = some node := by
  simp [get?_set, hlocation]

theorem get?_set_other (tree : FileTree) (location other : Location) (node : Node)
    (hother : other ≠ location) : (tree.set location node).get? other = tree.get? other := by
  simp only [get?, set, lookup_insertNode, hother, ↓reduceIte]

theorem lookup_filter_fst (keep : Location → Bool) (other : Location)
    (nodes : List (Location × Node)) :
    (nodes.filter fun entry => keep entry.1).lookup other =
      if keep other then nodes.lookup other else none := by
  induction nodes with
  | nil => simp
  | cons entry rest ih =>
    obtain ⟨name, node⟩ := entry
    by_cases h : other = name
    · subst h
      by_cases hkeep : keep other = true
      · simp [hkeep]
      · simp [hkeep, ih]
    · by_cases hkeep : keep name = true <;> simp [hkeep, lookup_cons_eq_ite, h, ih]

theorem get?_eraseNode (tree : FileTree) (location other : Location) (hother : other ≠ []) :
    (tree.eraseNode location).get? other = if other = location then none else tree.get? other := by
  simp only [get?, eraseNode, hother, ↓reduceIte]
  rw [lookup_filter_fst (fun name => decide (name ≠ location)) other tree.nodes]
  by_cases hsame : other = location <;> simp [hsame]

/-! ## Paths in the tree -/

/-- One step of a path. -/
inductive Step where
  | stay
  | up
  | down (name : String)
  deriving DecidableEq

def Step.ofPiece? (piece : String) : Option Step :=
  if piece = "" then none
  else if piece = "." then some .stay
  else if piece = ".." then some .up
  else some (.down piece)

def steps (path : Path) : List Step :=
  path.pieces.filterMap Step.ofPiece?

/-- A path that ends in a separator leads to directories only. -/
def endsInSeparator (path : Path) : Bool :=
  path.text.toList.getLast? = some '/'

def longestName : Nat := 255

def longestPath : Nat := 4095

/-- Whether a text can be used as a path at all. -/
def checkPath (path : Path) : Except IoFault Unit :=
  if Char.ofNat 0 ∈ path.text.toList then .error .nullByte
  else if path.text = "" then .error .notFound
  else if longestPath < path.text.utf8ByteSize then .error .nameTooLong
  else .ok ()

def isDirectoryAt (tree : FileTree) (location : Location) : Bool :=
  tree.get? location = some .directory

/-- The location one step away, whether or not there is anything.  A step up from the working
directory stays there. -/
def step (tree : FileTree) (here : Location) (next : Step) : Except IoFault Location :=
  if tree.isDirectoryAt here then
    match next with
    | .stay => .ok here
    | .up => .ok here.dropLast
    | .down name => if longestName < name.utf8ByteSize then .error .nameTooLong else .ok (here ++ [name])
  else .error .notDirectory

/-- The location at the end of a walk over existing nodes. -/
def walk (tree : FileTree) (here : Location) : List Step → Except IoFault Location
  | [] => .ok here
  | next :: rest => do
    let there ← tree.step here next
    if (tree.get? there).isSome then tree.walk there rest else .error .notFound

/-- The existing node that a path leads to. -/
def find (tree : FileTree) (path : Path) : Except IoFault (Location × Node) := do
  checkPath path
  let location ← tree.walk [] (steps path)
  match tree.get? location with
  | none => .error .notFound
  | some (.file content) =>
    if endsInSeparator path then .error .notDirectory else .ok (location, .file content)
  | some .directory => .ok (location, .directory)

def node? (tree : FileTree) (path : Path) : Option Node :=
  match tree.find path with
  | .ok (_, node) => some node
  | .error _ => none

def isPresent (tree : FileTree) (path : Path) : Bool :=
  (tree.node? path).isSome

def isDirectory (tree : FileTree) (path : Path) : Bool :=
  tree.node? path = some .directory

def isFile (tree : FileTree) (path : Path) : Bool :=
  match tree.node? path with
  | some (.file _) => true
  | _ => false

/-- Where a path that ends in a name leads, whether or not there is anything.  `otherwise` is the
fault of a path that ends in no name. -/
def place (tree : FileTree) (path : Path) (otherwise : IoFault) : Except IoFault Location := do
  checkPath path
  let here ← tree.walk [] (steps path).dropLast
  match (steps path).getLast? with
  | some (.down name) => tree.step here (.down name)
  | some _ => if tree.isDirectoryAt here then .error otherwise else .error .notDirectory
  | none => .error otherwise

/-! ## Reading -/

def read (tree : FileTree) (path : Path) : Except IoFault Content := do
  match ← tree.find path with
  | (_, .file content) => .ok content
  | (_, .directory) => .error .isDirectory

def readBytes (tree : FileTree) (path : Path) : Except IoFault Bytes :=
  Content.toBytes <$> tree.read path

def readText (tree : FileTree) (path : Path) : Except IoFault String := do
  match Utf8.decode? (← tree.readBytes path) with
  | some text => .ok text
  | none => .error .notText

/-- The names in a directory. -/
def namesIn (tree : FileTree) (location : Location) : List String :=
  tree.nodes.filterMap fun (other, _) =>
    if other.dropLast = location then other.getLast? else none

/-- The names in the directory that a path leads to, in the order of their bytes; none if there is no
directory. -/
def list (tree : FileTree) (path : Path) : List String :=
  match tree.find path with
  | .ok (location, .directory) => (tree.namesIn location).mergeSort fun left right => !(right < left)
  | _ => []

/-! ## Changing -/

/-- Gives a file a content and creates it if need be. -/
def write (tree : FileTree) (path : Path) (content : Content) : Except IoFault FileTree := do
  let location ← tree.place path .isDirectory
  if endsInSeparator path ∨ tree.isDirectoryAt location then .error .isDirectory
  else .ok (tree.set location (.file content))

/-- Adds bytes to the end of an existing file. -/
def append (tree : FileTree) (path : Path) (bytes : Bytes) : Except IoFault FileTree := do
  match ← tree.find path with
  | (location, .file content) => .ok (tree.set location (.file (.bytes (content.toBytes ++ bytes))))
  | (_, .directory) => .error .isDirectory

def makeDirectory (tree : FileTree) (path : Path) : Except IoFault FileTree := do
  let location ← tree.place path .alreadyExists
  if (tree.get? location).isSome then .error .alreadyExists
  else .ok (tree.set location .directory)

/-- Creates the first of the directories, and if its parent is missing first those after it. -/
def makeEach (tree : FileTree) : List Path → Except IoFault Unit × FileTree
  | [] => (.ok (), tree)
  | path :: parents =>
    if path.text = "" then (.ok (), tree)
    else match tree.makeDirectory path with
      | .ok changed => (.ok (), changed)
      | .error .notFound =>
        match tree.makeEach parents with
        | (.error fault, changed) => (.error fault, changed)
        | (.ok (), changed) =>
          match changed.makeDirectory path with
          | .ok last => (.ok (), last)
          | .error fault =>
            if changed.isDirectory path then (.ok (), changed) else (.error fault, changed)
      | .error fault => if tree.isDirectory path then (.ok (), tree) else (.error fault, tree)

/-- A path, its parent, the parent of that, and so on, at most `count` of them. -/
def ancestors : Nat → Path → List Path
  | 0, _ => []
  | count + 1, path =>
    path :: match path.parent? with
      | some parent => ancestors count parent
      | none => []

/-- Creates a directory and the missing ones above it. -/
def makeDirectories (tree : FileTree) (path : Path) : Except IoFault Unit × FileTree :=
  tree.makeEach (ancestors (path.text.length + 1) path)

/-- Moves a file to another path, in place of the file that is there. -/
def rename (tree : FileTree) (source target : Path) : Except IoFault FileTree := do
  let _ ← tree.place source .busy
  let (origin, node) ← tree.find source
  let location ← tree.place target .busy
  if endsInSeparator target then .error .notDirectory
  else if tree.isDirectoryAt location then .error .isDirectory
  else if location = origin then .ok tree
  else .ok ((tree.eraseNode origin).set location node)

def removeFile (tree : FileTree) (path : Path) : Except IoFault FileTree := do
  match ← tree.find path with
  | (location, .file _) => .ok (tree.eraseNode location)
  | (_, .directory) => .error .isDirectory

end FileTree

end TableAppend
