import TableAppend.Columnar.Compact
import TableAppend.Path
import TableAppend.Text.Quoted

/-!
# Failures

Every operation that can fail does so with a `Failure`, which holds the cause.  The wording is in the
`message` functions only.  An append that stops after it has written files reports them with the cause
(`Failure.afterWriting`).
-/

namespace TableAppend

/-- Settings that cannot be used, alone or with the rows at hand. -/
inductive SettingFault where
  | stated (message : String)
  | duplicateColumn (column : String)
  | raggedRow (row values columns : Nat)
  | unequalRecords
  | unexpectedColumn (column : String)
  | noKeys
  | keyNotInBatch (key : String)
  | keyNotFound (key place : String)
  | columnRequired (scheme : String)
  | noBuckets
  | bucketCountMissing
  | partitionColumnMissing (column : String)
  | zeroRowLimit
  | zeroSizeLimit
  | unusableMark (role : String) (mark : Char)
  | equalMarks
  | unknownFormat (target : Path)
  | noFileNamed (target : Path)
  | unusableName (target : Path)
  deriving DecidableEq

def SettingFault.message : SettingFault → String
  | .stated message => message
  | .duplicateColumn column => s!"duplicate column '{column}' in batch"
  | .raggedRow row values columns =>
    s!"row {row} has {values} values but the batch has {columns} columns"
  | .unequalRecords => "all records must share the same columns"
  | .unexpectedColumn column => s!"record has unexpected column '{column}'"
  | .noKeys => "anti_join deduplication resolved to an empty key list"
  | .keyNotInBatch key => s!"dedup key '{key}' is not a column of the batch"
  | .keyNotFound key place => s!"dedup key '{key}' not found in {place}"
  | .columnRequired scheme => s!"partition scheme '{scheme}' requires a column"
  | .noBuckets => "hash partitioning requires at least one bucket"
  | .bucketCountMissing => "hash partitioning requires a bucket count"
  | .partitionColumnMissing column => s!"partition column '{column}' not found in batch"
  | .zeroRowLimit => "max_rows must be greater than zero"
  | .zeroSizeLimit => "max_size_bytes must be greater than zero"
  | .unusableMark role mark =>
    s!"{role} {Quoted.char mark} must be a single ASCII character other than a line break"
  | .equalMarks => "delimiter and quote must differ"
  | .unknownFormat target =>
    s!"cannot infer sink format for '{target.text}'; set it explicitly"
  | .noFileNamed target => s!"target '{target.text}' must name a file"
  | .unusableName target => s!"target '{target.text}' has no usable file name"

/-- Why a text cannot be the name of a partition's directory. -/
inductive SegmentFault where
  | stated (reason : String)
  | empty
  | separator
  | nullByte
  | relative
  | nullColumn (column : String)
  deriving DecidableEq

def SegmentFault.message : SegmentFault → String
  | .stated reason => reason
  | .empty => "value is empty after normalization"
  | .separator => "value contains a path separator"
  | .nullByte => "value contains a null byte"
  | .relative => "value is a relative path component"
  | .nullColumn column => s!"column '{column}' is null"

/-- Why an existing file is in another format than the one asked for. -/
inductive FormatFault where
  | stated (message : String)
  | otherMarks (delimiter quote : String) (wantedDelimiter wantedQuote : Char)
  | otherDelimiter (found wanted : Char)
  | recordedAsColumnar
  | recordedAsDelimited
  deriving DecidableEq

def FormatFault.message : FormatFault → String
  | .stated message => message
  | .otherMarks delimiter quote wantedDelimiter wantedQuote =>
    s!"file uses delimiter {Quoted.text delimiter} and quote {Quoted.text quote}, "
      ++ s!"requested delimiter {Quoted.text wantedDelimiter.toString} "
      ++ s!"and quote {Quoted.text wantedQuote.toString}"
  | .otherDelimiter found wanted =>
    s!"header line is delimited by {Quoted.char found}, requested delimiter {Quoted.char wanted}"
  | .recordedAsColumnar => "sidecar describes a columnar file"
  | .recordedAsDelimited => "sidecar describes a delimited-text file"

/-- Faults of the file system, and of reading a file as text. -/
inductive IoFault where
  | notFound
  | alreadyExists
  | notDirectory
  | isDirectory
  | nameTooLong
  | busy
  | nullByte
  | notText
  deriving DecidableEq

def IoFault.message : IoFault → String
  | .notFound => "No such file or directory (os error 2)"
  | .alreadyExists => "File exists (os error 17)"
  | .notDirectory => "Not a directory (os error 20)"
  | .isDirectory => "Is a directory (os error 21)"
  | .nameTooLong => "File name too long (os error 36)"
  | .busy => "Device or resource busy (os error 16)"
  | .nullByte => "file name contained an unexpected NUL byte"
  | .notText => "stream did not contain valid UTF-8"

/-- Faults of reading records. -/
inductive RecordFault where
  | io (fault : IoFault)
  /-- A field is no text after `wellFormed` bytes.  The record is the one with number `record`, which
  begins at a line and byte of the file. -/
  | notText (record line byte field wellFormed : Nat)
  deriving DecidableEq

def RecordFault.message : RecordFault → String
  | .io fault => fault.message
  | .notText record line byte field wellFormed =>
    s!"CSV parse error: record {record} (line {line}, field: {field}, byte: {byte}): "
      ++ s!"invalid utf-8: invalid UTF-8 in field {field} near byte index {wellFormed}"

/-- Faults of turning columns of values into stored columns. -/
inductive EncodingFault where
  | outOfRange (value : Int) (type : String)
  | noDate (text : String)
  | noColumns
  deriving DecidableEq

def EncodingFault.message : EncodingFault → String
  | .outOfRange value type => s!"Cast error: Can't cast value {value} to type {type}"
  | .noDate text => s!"Cast error: Cannot cast string '{text}' to value of Date32 type"
  | .noColumns =>
    "Invalid argument error: must either specify a row count or at least one column"

/-- Faults of reading a columnar file. -/
inductive TableFileFault where
  | tooSmall (size needed : Nat)
  | corruptFooter
  | encrypted
  | metadata (fault : Compact.Fault)
  /-- The metadata describe nothing that has columns. -/
  | noTable
  | io (fault : IoFault)
  deriving DecidableEq

def TableFileFault.message : TableFileFault → String
  | .tooSmall size needed => s!"EOF: Parquet file too small. Size is {size} but need {needed}"
  | .corruptFooter => "Parquet error: Invalid Parquet file. Corrupt footer"
  | .encrypted =>
    "Parquet error: Parquet file has an encrypted footer but the encryption feature is disabled"
  | .metadata fault => s!"Parquet error: Could not parse metadata: {fault.message}"
  | .noTable => "Parquet error: Expected exactly one root node, but found 0"
  | .io fault => s!"External: {fault.message}"

/-- Faults that no setting explains. -/
inductive InternalFault where
  | stated (message : String)
  | projection (columns order : List String)
  | unstorable (value column type : String)
  deriving DecidableEq

def InternalFault.message : InternalFault → String
  | .stated message => message
  | .projection columns order =>
    s!"cannot project columns {Quoted.list columns} onto {Quoted.list order}"
  | .unstorable value column type =>
    s!"value {value} of column '{column}' cannot be stored as {type}"

inductive Failure where
  | setting (fault : SettingFault)
  | partitionKey (value : String) (fault : SegmentFault)
  | otherFormat (path : Path) (fault : FormatFault)
  | otherColumns (path : Path) (expected found : List String)
  | codecMissing (codec purpose : String)
  | afterWriting (written : List Path) (partition : String) (cause : Failure)
  | io (fault : IoFault)
  | records (fault : RecordFault)
  | encoding (fault : EncodingFault)
  | tableFile (fault : TableFileFault)
  | malformedDocument
  | internal (fault : InternalFault)
  deriving DecidableEq

namespace Failure

def message : Failure → String
  | .setting fault => s!"Configuration error: {fault.message}"
  | .partitionKey value fault => s!"Invalid partition key '{value}': {fault.message}"
  | .otherFormat path fault =>
    s!"Format incompatible with existing file {path.text}: {fault.message}"
  | .otherColumns path expected found =>
    s!"Schema mismatch for {path.text}: expected {Quoted.list expected}, found {Quoted.list found}"
  | .codecMissing codec purpose => s!"Codec unavailable: {codec} ({purpose})"
  | .afterWriting written partition cause =>
    s!"Append aborted at partition '{partition}' after writing {written.length} file(s): "
      ++ cause.message
  | .io fault => s!"IO error: {fault.message}"
  | .records fault => s!"CSV error: {fault.message}"
  | .encoding fault => s!"Arrow error: {fault.message}"
  | .tableFile fault => s!"Parquet error: {fault.message}"
  | .malformedDocument => "Serialization error: malformed document"
  | .internal fault => s!"Internal error: {fault.message}"

/-- A failure at a partition, together with the files written before it.  Without such files it is
just the cause. -/
def atPartition (written : List Path) (partition : String) (cause : Failure) : Failure :=
  if written.isEmpty then cause else .afterWriting written partition cause

def writtenPaths : Failure → List Path
  | .afterWriting written _ _ => written
  | _ => []

/-- The innermost cause. -/
def root : Failure → Failure
  | .afterWriting _ _ cause => cause.root
  | failure => failure

def isCodecMissing (failure : Failure) : Bool :=
  match failure.root with
  | .codecMissing _ _ => true
  | _ => false

end Failure

/-- An outcome that is a value or a failure. -/
abbrev Outcome (α : Type) := Except Failure α

end TableAppend
