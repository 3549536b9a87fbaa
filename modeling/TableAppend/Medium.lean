import TableAppend.Columnar.File
import TableAppend.Delimited.File

/-!
# Media

A medium is a format together with what is needed to read and write it.  Both kinds answer the same
questions: how many rows a file has, which ones, and whether and how rows can be added.
-/

namespace TableAppend

inductive Medium where
  | delimited (dialect : Dialect)
  | columnar (codec : Option Codec)

namespace Medium

def ofFormat (format : Format) (codec : Option Codec) : Medium :=
  match format with
  | .delimited dialect => .delimited dialect
  | .columnar => .columnar codec

def name : Medium → String
  | .delimited _ => "delimited"
  | .columnar _ => "columnar"

/-- Why nothing can be written, if that is so. -/
def unwritable? : Medium → Option String
  | .columnar none => some "no columnar codec registered; a real append will fail"
  | _ => none

def countRows (medium : Medium) (tree : FileTree) (path : Path) (metadata : Option Metadata) :
    Outcome Nat :=
  match medium with
  | .delimited dialect => Delimited.countRows tree dialect path metadata
  | .columnar codec => Columnar.countRows tree codec path metadata

def readRows (medium : Medium) (tree : FileTree) (path : Path) (metadata : Option Metadata) :
    Outcome Batch :=
  match medium with
  | .delimited dialect => Delimited.readRows tree dialect path metadata
  | .columnar codec => Columnar.readRows tree codec path metadata

/-- Rows as a later reading returns them, as far as keys can tell. -/
def storedForm (medium : Medium) (rows : Batch) : Batch :=
  match medium with
  | .delimited _ => Delimited.storedForm rows
  | .columnar _ => rows

def check (medium : Medium) (tree : FileTree) (path : Path) (metadata : Option Metadata)
    (rows : Batch) : Outcome Layout :=
  match medium with
  | .delimited dialect => Delimited.check tree dialect path metadata rows.columns
  | .columnar codec => Columnar.check tree codec path metadata rows

def write (medium : Medium) (path : Path) (rows : Batch) (layout : Layout) : Change Metadata :=
  match medium with
  | .delimited dialect => Delimited.write dialect path rows layout
  | .columnar codec => Columnar.write codec path rows layout

end Medium

end TableAppend
