import TableAppend.Dialect

/-!
# Written records

A record is its fields with delimiters between them and a line feed at the end.  A field is quoted
exactly if it holds a byte that would otherwise mean something, and a quote inside it is written twice.
A record without any byte would read as an empty line and is written as a quoted empty field.
-/

namespace TableAppend.Delimited

def lineFeed : UInt8 := 10

def carriageReturn : UInt8 := 13

/-- The marks of a dialect as bytes. -/
structure Marks where
  delimiter : UInt8
  quote : UInt8
  deriving DecidableEq

def Marks.ofDialect (dialect : Dialect) : Marks :=
  ⟨dialect.delimiterByte, dialect.quoteByte⟩

def Marks.isSpecial (marks : Marks) (byte : UInt8) : Bool :=
  byte = marks.delimiter || byte = marks.quote || byte = carriageReturn || byte = lineFeed

def quoteField (marks : Marks) (field : Bytes) : Bytes :=
  marks.quote :: field.flatMap (fun byte => if byte = marks.quote then [byte, byte] else [byte])
    ++ [marks.quote]

def writeField (marks : Marks) (field : Bytes) : Bytes :=
  if field.any marks.isSpecial then quoteField marks field else field

def joinFields (delimiter : UInt8) : List Bytes → Bytes
  | [] => []
  | [field] => field
  | field :: rest => field ++ delimiter :: joinFields delimiter rest

def writeRecord (marks : Marks) (fields : List Bytes) : Bytes :=
  let body := joinFields marks.delimiter (fields.map (writeField marks))
  (if body = [] then [marks.quote, marks.quote] else body) ++ [lineFeed]

def writeRecords (marks : Marks) (records : List (List Bytes)) : Bytes :=
  records.flatMap (writeRecord marks)

end TableAppend.Delimited
