import TableAppend.Columnar.Compact
import TableAppend.FileTree
import TableAppend.Failure

/-!
# The end of a columnar file

The last bytes of a columnar file are its metadata, the length of these in four bytes, and a mark.
They are read before anything else, so what they lack decides how a file that is none is reported.
-/

namespace TableAppend.Footer

open TableAppend.Compact

/-! ## Metadata

Each reader is one record of the format, with its required fields first.  The format gives numbers to
fields, so that a reader passes over those of later versions. -/

def keyValue : Reader Unit :=
  record [1] [(1, text), (2, text)]

def noFields : Reader Unit :=
  record [] []

def timeUnit : Reader Unit :=
  choice [(1, noFields), (2, noFields), (3, noFields)]

def timeType : Reader Unit :=
  record [1, 2] [(1, flag), (2, timeUnit)]

def logicalType : Reader Unit :=
  choice
    [(1, noFields), (2, noFields), (3, noFields), (4, noFields),
      (5, record [1, 2] [(1, number), (2, number)]),
      (6, noFields), (7, timeType), (8, timeType), (10, record [1, 2] [(1, small), (2, flag)]),
      (11, noFields), (12, noFields), (13, noFields), (14, noFields), (15, noFields),
      (16, record [] [(1, small)]), (17, record [] [(1, text)]),
      (18, record [] [(1, text), (2, number)])]

def schemaElement : Reader Unit :=
  record [4]
    [(1, number), (2, number), (3, number), (4, text), (5, number), (6, number), (7, number),
      (8, number), (9, number), (10, logicalType)]

def statistics : Reader Unit :=
  record []
    [(1, binary), (2, binary), (3, number), (4, number), (5, binary), (6, binary), (7, flag),
      (8, flag)]

def pageEncoding : Reader Unit :=
  record [1, 2, 3] [(1, number), (2, number), (3, number)]

def sizeStatistics : Reader Unit :=
  record [] [(1, number), (2, list number), (3, list number)]

def boundingBox : Reader Unit :=
  record [1, 2, 3, 4]
    [(1, double), (2, double), (3, double), (4, double), (5, double), (6, double), (7, double),
      (8, double)]

def geospatialStatistics : Reader Unit :=
  record [] [(1, boundingBox), (2, list number)]

def columnMetadata : Reader Unit :=
  record [1, 2, 3, 4, 5, 6, 7, 9]
    [(1, number), (2, list number), (3, list text), (4, number), (5, number), (6, number),
      (7, number), (8, list keyValue), (9, number), (10, number), (11, number), (12, statistics),
      (13, list pageEncoding), (14, number), (15, number), (16, sizeStatistics),
      (17, geospatialStatistics)]

def columnEncryption : Reader Unit :=
  choice [(1, noFields), (2, record [1] [(1, list text), (2, binary)])]

def columnChunk : Reader Unit :=
  record [2]
    [(1, text), (2, number), (3, columnMetadata), (4, number), (5, number), (6, number), (7, number),
      (8, columnEncryption), (9, binary)]

def sortingColumn : Reader Unit :=
  record [1, 2, 3] [(1, number), (2, flag), (3, flag)]

def rowGroup : Reader Unit :=
  record [1, 2, 3]
    [(1, list columnChunk), (2, number), (3, number), (4, list sortingColumn), (5, number),
      (6, number), (7, number)]

def encryptionScheme : Reader Unit :=
  record [] [(1, binary), (2, binary), (3, flag)]

def encryptionAlgorithm : Reader Unit :=
  choice [(1, encryptionScheme), (2, encryptionScheme)]

def metadata : Reader Unit :=
  record [1, 2, 3, 4]
    [(1, number), (2, list schemaElement), (3, number), (4, list rowGroup), (5, list keyValue),
      (6, text), (7, list (choice [(1, noFields)])), (8, encryptionAlgorithm), (9, binary)]

/-! ## Length and mark -/

/-- The mark of a file whose metadata are encrypted. -/
def encryptedMark : Bytes := Utf8.encode "PARE"

def lengthBytes : Nat := 4

def size : Nat := lengthBytes + columnarMark.length

/-- The natural number in bytes of which the first is the lowest. -/
def littleEndian (bytes : Bytes) : Nat :=
  bytes.foldr (fun byte higher => byte.toNat + 256 * higher) 0

/-- Why bytes are not a columnar file.  All files that are ones are known by their tables, so a fault
remains even where the metadata can be read. -/
def fault (bytes : Bytes) : TableFileFault :=
  let footer := bytes.drop (bytes.length - size)
  let mark := footer.drop lengthBytes
  let needed := littleEndian (footer.take lengthBytes) + size
  if bytes.length < size then .tooSmall bytes.length size
  else if mark ≠ columnarMark ∧ mark ≠ encryptedMark then .corruptFooter
  else if bytes.length < needed then .tooSmall bytes.length needed
  else if mark = encryptedMark then .encrypted
  else match fault? metadata ((bytes.drop (bytes.length - needed)).take (needed - size)) with
    | some fault => .metadata fault
    | none => .noTable

end TableAppend.Footer
