import TableAppend.AntiJoin
import TableAppend.Dialect
import TableAppend.FileTree
import TableAppend.Limits
import TableAppend.Routing

/-!
# Options of an append

The target names the file of rows that are not partitioned; partitions lie in directories beside it
and have files of the same name.
-/

namespace TableAppend

structure Options where
  target : Path
  /-- The format; that of the target's extension where none is given. -/
  format : Option Format
  antiJoin : AntiJoin
  routing : Routing
  limits : Limits
  deriving DecidableEq

namespace Options

def ofTarget (target : Path) : Options :=
  ⟨target, none, .off, .off, .none⟩

def effectiveFormat (options : Options) : Outcome Format :=
  match options.format.or (Format.ofPath? options.target) with
  | some format => .ok format
  | none => .error (.setting (.unknownFormat options.target))

/-- The directory in which partitions have their directories. -/
def baseDirectory (options : Options) : Path :=
  options.target.directory

def validateFormat : Format → Outcome Unit
  | .delimited dialect => dialect.validate
  | .columnar => .ok ()

/-- The keys of the anti-join are checked with each batch instead. -/
def validate (options : Options) (tree : FileTree) : Outcome Unit := do
  if options.target.fileName?.isNone || tree.isDirectory options.target then
    throw (.setting (.noFileNamed options.target))
  validateFormat (← options.effectiveFormat)
  options.routing.validate
  options.limits.validate

/-- The file of a partition before its family has other members. -/
def basePath (options : Options) (key : PartitionKey) : Path :=
  match key with
  | none => options.target
  | some _ =>
    (PartitionKey.directory key options.baseDirectory).join (options.target.fileName?.getD "")

end Options

end TableAppend
