import TableAppend.Failure
import TableAppend.Text.Utf8

/-!
# Dialects of delimited text

A dialect has a character between fields and one around quoted fields.  Files are written in bytes, so
each mark stands for its low eight bits; `validate` rejects the marks for which this matters.
-/

namespace TableAppend

structure Dialect where
  delimiter : Char
  quote : Char
  deriving DecidableEq

namespace Dialect

def commaSeparated : Dialect := ⟨',', '"'⟩

def tabSeparated : Dialect := ⟨'\t', '"'⟩

def isUsableMark (mark : Char) : Bool :=
  mark.val < 128 && mark ≠ '\n' && mark ≠ '\r'

def validate (dialect : Dialect) : Outcome Unit :=
  if !isUsableMark dialect.delimiter then
    .error (.setting (.unusableMark "delimiter" dialect.delimiter))
  else if !isUsableMark dialect.quote then
    .error (.setting (.unusableMark "quote" dialect.quote))
  else if dialect.delimiter = dialect.quote then .error (.setting .equalMarks)
  else .ok ()

def delimiterByte (dialect : Dialect) : UInt8 :=
  dialect.delimiter.toUInt8

def quoteByte (dialect : Dialect) : UInt8 :=
  dialect.quote.toUInt8

end Dialect

/-- The form in which rows are stored. -/
inductive Format where
  | delimited (dialect : Dialect)
  | columnar
  deriving DecidableEq

namespace Format

def name : Format → String
  | .delimited _ => "delimited"
  | .columnar => "columnar"

def ofExtension? (extension : String) : Option Format :=
  let lower := extension.toLower
  if lower = "csv" ∨ lower = "txt" then some (.delimited .commaSeparated)
  else if lower = "tsv" then some (.delimited .tabSeparated)
  else if lower = "parquet" ∨ lower = "pq" then some .columnar
  else none

/-- The format that the extension of a path stands for. -/
def ofPath? (path : Path) : Option Format :=
  path.extension? >>= ofExtension?

end Format

end TableAppend
