import TableAppend.Json.Fields
import TableAppend.Json.Reader
import TableAppend.Path

/-!
# Metadata of data files

What is recorded about a data file beside it: the marks of a delimited file, or the number of rows of
a columnar one.  `Metadata.ofJson?` reads the first form that fits, and `Metadata.toJson` writes the
form in which it is stored.
-/

namespace TableAppend

inductive Metadata where
  | delimited (delimiter quote : String)
  | columnar (rowCount : UInt64)
  deriving DecidableEq

namespace Metadata

def rowCount? : Metadata → Option UInt64
  | .columnar count => some count
  | .delimited _ _ => none

def delimitedOfJson? (json : Json) : Option Metadata := do
  let members ← json.members? ["delimiter", "quote"]
  return .delimited (← Json.field? members "delimiter" Json.string?)
    (← Json.field? members "quote" Json.string?)

def columnarOfJson? (json : Json) : Option Metadata := do
  let members ← json.members? ["row_count"]
  return .columnar (UInt64.ofNat (← Json.field? members "row_count" (Json.natural? UInt64.size)))

def ofJson? (json : Json) : Option Metadata :=
  if json.isLoadable Json.maxDepth then (delimitedOfJson? json).or (columnarOfJson? json) else none

def ofText? (text : String) : Option Metadata :=
  Json.parse? text >>= ofJson?

def toJson : Metadata → Json
  | .delimited delimiter quote =>
    .record [("delimiter", .text delimiter), ("quote", .text quote)]
  | .columnar count => .record [("row_count", .nat count.toNat)]

def toText (metadata : Metadata) : String :=
  metadata.toJson.compact

/-- The name of a metadata file is that of its data file with this ending. -/
def ending : String := ".meta"

/-- The extension of metadata files. -/
def extension : String := "meta"

/-- The metadata file of a data file. -/
def path (data : Path) : Path :=
  data.besides ending

/-- Files are written under a name with this ending before they take their place. -/
def temporaryEnding : String := ".tmp"

end Metadata

end TableAppend
