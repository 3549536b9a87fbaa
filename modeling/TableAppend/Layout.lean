import TableAppend.Columnar.Table

/-!
# Layouts of existing files

What a check of an existing file has found out and a write to it goes by.  A file without stored
columns is new or empty, and is written from its beginning.
-/

namespace TableAppend

structure Layout where
  columns : Option (List String)
  /-- The stored rows, if they were read. -/
  rows : Option Batch
  /-- The stored types of a columnar file, if they were read. -/
  schema : Option Schema
  deriving DecidableEq

namespace Layout

def new : Layout := ⟨none, none, none⟩

def ofColumns (columns : List String) : Layout := ⟨some columns, none, none⟩

def isNew (layout : Layout) : Bool :=
  layout.columns.isNone

end Layout

end TableAppend
