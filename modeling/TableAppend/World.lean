import TableAppend.FileTree
import TableAppend.Metadata

/-!
# Files together with their metadata

The world is a tree of files and a place for metadata: files beside the data files, or a ledger apart
from the tree.  A `Change` alters the world and may fail after it has done part of its work, so its
result is an outcome and the world that is left.
-/

namespace TableAppend

/-- Metadata by data path.  Two texts of the same path have one entry. -/
abbrev Ledger := List (Path × Metadata)

def Ledger.lookup (ledger : Ledger) (path : Path) : Option Metadata :=
  (ledger.find? fun (other, _) => other.same path).map Prod.snd

/-- An entry that is replaced keeps the text of its path. -/
def Ledger.record (path : Path) (metadata : Metadata) : Ledger → Ledger
  | [] => [(path, metadata)]
  | (other, old) :: rest =>
    if other.same path then (other, metadata) :: rest
    else (other, old) :: Ledger.record path metadata rest

structure World where
  tree : FileTree
  /-- Metadata stands in this ledger if there is one, and else in files. -/
  ledger : Option Ledger
  deriving DecidableEq

abbrev Change (α : Type) := ExceptT Failure (StateM World) α

namespace Change

/-- The outcome of a change and the world it leaves. -/
def run (change : Change α) (world : World) : Outcome α × World :=
  (ExceptT.run change : StateM World (Outcome α)).run world

/-- An outcome that has nothing to do with the world. -/
def ofOutcome (outcome : Outcome α) : Change α :=
  ExceptT.mk (pure outcome)

/-- A change that only looks at the world. -/
def inspect (question : World → Outcome α) : Change α :=
  ExceptT.mk (question <$> get)

/-- A change of the tree that is done in full or not at all. -/
def onTree (change : FileTree → Except IoFault FileTree) : Change Unit :=
  ExceptT.mk fun world =>
    match change world.tree with
    | .ok tree => (.ok (), { world with tree })
    | .error fault => (.error (.io fault), world)

def makeDirectories (path : Path) : Change Unit :=
  ExceptT.mk fun world =>
    match world.tree.makeDirectories path with
    | (.ok (), tree) => (.ok (), { world with tree })
    | (.error fault, tree) => (.error (.io fault), { world with tree })

/-! ### What is left after a change -/

@[simp]
theorem run_pure (value : α) (world : World) : run (pure value) world = (.ok value, world) :=
  rfl

@[simp]
theorem run_throw (failure : Failure) (world : World) :
    run (throw failure : Change α) world = (.error failure, world) :=
  rfl

@[simp]
theorem run_ofOutcome (outcome : Outcome α) (world : World) :
    run (ofOutcome outcome) world = (outcome, world) :=
  rfl

@[simp]
theorem run_inspect (question : World → Outcome α) (world : World) :
    run (inspect question) world = (question world, world) :=
  rfl

theorem run_onTree (change : FileTree → Except IoFault FileTree) (world : World) :
    run (onTree change) world =
      match change world.tree with
      | .ok tree => (.ok (), { world with tree })
      | .error fault => (.error (.io fault), world) :=
  rfl

/-- A failure stops what follows and keeps the world as it is then. -/
theorem run_bind (change : Change α) (next : α → Change β) (world : World) :
    run (change >>= next) world =
      match run change world with
      | (.ok value, after) => run (next value) after
      | (.error failure, after) => (.error failure, after) := by
  simp only [run, ExceptT.run_bind, StateT.run_bind]
  change (match (ExceptT.run change : StateM World (Outcome α)).run world with
    | (result, after) => _) = _
  rcases (ExceptT.run change : StateM World (Outcome α)).run world with ⟨_ | _, after⟩ <;> rfl

/-- Writes a file under a temporary name and moves it to its place. -/
def replace (path : Path) (content : Content) : Change Unit := do
  let temporary := path.besides Metadata.temporaryEnding
  onTree fun tree => tree.write temporary content
  onTree fun tree => tree.rename temporary path

end Change

namespace World

/-- The metadata file of a data file is read as none if it is missing or not in the stored form. -/
def storedMetadata (tree : FileTree) (path : Path) : Outcome (Option Metadata) :=
  let file := Metadata.path path
  if tree.isFile file then
    match tree.readText file with
    | .ok text => .ok (Metadata.ofText? text)
    | .error fault => .error (.io fault)
  else .ok none

def metadata (world : World) (path : Path) : Outcome (Option Metadata) :=
  match world.ledger with
  | some ledger => .ok (ledger.lookup path)
  | none => storedMetadata world.tree path

def recordMetadata (path : Path) (metadata : Metadata) : Change Unit := do
  let world ← get
  match world.ledger with
  | some ledger => set { world with ledger := some (ledger.record path metadata) }
  | none => Change.replace (Metadata.path path) (.bytes (Utf8.encode metadata.toText))

end World

end TableAppend
