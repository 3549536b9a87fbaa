import TableAppend.World
import TableAppend.Failure

/-!
# Families of files

The rows of one base file may go on in numbered siblings: after `part.csv` come `part_1.csv`,
`part_2.csv` and so on.  A sibling belongs to the family only if it has a metadata file, so that files
which merely look like siblings are left alone.  The member with the highest number is active.
-/

namespace TableAppend.Family

/-- The two parts of a base file's name between which siblings have their number. -/
structure NameParts where
  stem : String
  suffix : String
  deriving DecidableEq

def NameParts.ofPath (base : Path) : Outcome NameParts :=
  match base.stem? with
  | some stem => .ok ⟨stem, match base.extension? with | some e => "." ++ e | none => ""⟩
  | none => .error (.setting (.unusableName base))

def NameParts.numbered (parts : NameParts) (number : Nat) : String :=
  parts.stem ++ "_" ++ toString number ++ parts.suffix

/-- The text between a beginning and an ending that do not overlap. -/
def between? (beginning ending text : List Char) : Option (List Char) :=
  if beginning.isPrefixOf text then
    let rest := text.drop beginning.length
    if ending.isSuffixOf rest then some (rest.take (rest.length - ending.length)) else none
  else none

/-- Numbers are decimal, with any number of leading zeros, and fit in 64 bits. -/
def ofDigits? (digits : List Char) : Option Nat :=
  if digits ≠ [] ∧ digits.all Char.isDigit then
    let number := Nat.ofDigitChars 10 digits 0
    if number < UInt64.size then some number else none
  else none

/-- The number in a sibling's name. -/
def NameParts.number? (parts : NameParts) (name : String) : Option Nat :=
  between? (parts.stem ++ "_").toList parts.suffix.toList name.toList >>= ofDigits?

/-- A member of a family with its number; the base file has the number zero. -/
abbrev Member := Nat × Path

/-- The sibling of this name in a directory that is listed, if there is one. -/
def sibling? (tree : FileTree) (listed : Path) (parts : NameParts) (name : String) :
    Option Member :=
  let path := listed.entry name
  if tree.isFile path ∧ path.extension? ≠ some Metadata.extension ∧ tree.isFile (Metadata.path path)
  then (parts.number? name).map fun number => (number, path)
  else none

/-- The numbered members, in the order of their names.  There are none where the search for the base
file's directory leads nowhere. -/
def siblings (tree : FileTree) (base : Path) : Outcome (List Member) := do
  let parts ← NameParts.ofPath base
  return match base.directory.listed? with
    | some listed => (tree.list base.directory).filterMap (sibling? tree listed parts)
    | none => []

/-- All members by number, the base file first. -/
def members (tree : FileTree) (base : Path) : Outcome (List Path) := do
  let numbered ← siblings tree base
  let all := (if tree.isFile base then [(0, base)] else []) ++ numbered
  return (all.mergeSort fun left right => left.1 ≤ right.1).map Prod.snd

/-- The member with the highest number so far; of several the last one. -/
def higher (best : Option Member) (next : Member) : Option Member :=
  match best with
  | some (number, path) => if number ≤ next.1 then some next else some (number, path)
  | none => some next

/-- The member that receives rows: the sibling with the highest number, or the base file. -/
def active (tree : FileTree) (base : Path) : Outcome Path := do
  let numbered ← siblings tree base
  return match numbered.foldl higher none with
    | some (_, path) => path
    | none => base

/-- The paths of new members, as many as needed to find a free one: one more than the tree has
nodes. -/
def candidates (tree : FileTree) (base : Path) (parts : NameParts) : List Path :=
  (List.range (tree.nodes.length + 1)).map fun index =>
    base.withFileName (parts.numbered (index + 1))

/-- The path of a new member: the first one at which there is nothing. -/
def next (tree : FileTree) (base : Path) : Outcome Path := do
  let parts ← NameParts.ofPath base
  let free := (candidates tree base parts).find? fun path => !tree.isPresent path
  return free.getD base

/-- The file that rows are written to.  A new one is needed only where a file stands in the way. -/
def target (tree : FileTree) (base : Path) (needsNew : Bool) : Outcome Path :=
  if tree.isDirectory base || !tree.isPresent base || !needsNew then .ok base
  else next tree base

end TableAppend.Family
