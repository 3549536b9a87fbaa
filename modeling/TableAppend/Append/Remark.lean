import TableAppend.Limits

/-!
# Remarks

What is worth telling about a decision although nothing has failed.  Notes explain a decision, warnings
point at a state of the files that looks wrong.
-/

namespace TableAppend

inductive Note where
  | rolledOver (full : Path) (limit : ReachedLimit)
  /-- A step that needs a missing codec was left out. -/
  | skipped (step reason : String)
  | countUnavailable (file : Path) (cause : Failure)
  deriving DecidableEq

def Note.message : Note → String
  | .rolledOver full limit => s!"rolled over from {full.text}: {limit.message}"
  | .skipped step reason => s!"{step} skipped: {reason}"
  | .countUnavailable file cause => s!"row count of {file.text} unavailable: {cause.message}"

inductive Warning where
  | metadataMissing (file : Path)
  | countUnknown (file : Path)
  | unwritable (file : Path) (reason : String)
  deriving DecidableEq

def Warning.message : Warning → String
  | .metadataMissing file => s!"{file.text} has no sidecar; metadata re-derived from the file"
  | .countUnknown file => s!"row threshold not evaluated for {file.text}: row count unknown"
  | .unwritable file reason => s!"{file.text}: {reason}"

structure Remarks where
  notes : List Note
  warnings : List Warning
  deriving DecidableEq

namespace Remarks

def none : Remarks := ⟨[], []⟩

def ofNotes (notes : List Note) : Remarks := ⟨notes, []⟩

def ofWarnings (warnings : List Warning) : Remarks := ⟨[], warnings⟩

instance : Append Remarks where
  append first second := ⟨first.notes ++ second.notes, first.warnings ++ second.warnings⟩

end Remarks

end TableAppend
