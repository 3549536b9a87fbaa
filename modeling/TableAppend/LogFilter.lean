/-!
# Log filters and note limits

A filter says which events are logged: those of the application and those of the append engine from a
level on.  A text that is given as a whole takes the place of the levels.
-/

namespace TableAppend

inductive LogLevel where
  | error
  | warn
  | info
  | debug
  | trace
  deriving DecidableEq

namespace LogLevel

def name : LogLevel → String
  | error => "error"
  | warn => "warn"
  | info => "info"
  | debug => "debug"
  | trace => "trace"

def ofName? (name : String) : Option LogLevel :=
  [error, warn, info, debug, trace].find? fun level => level.name = name

end LogLevel

structure LogFilter where
  level : LogLevel
  engineLevel : LogLevel
  asJson : Bool
  override : Option String
  deriving DecidableEq

namespace LogFilter

def usual : LogFilter := ⟨.info, .debug, false, none⟩

def production : LogFilter := ⟨.warn, .info, true, none⟩

def development : LogFilter := ⟨.debug, .debug, false, none⟩

def text (filter : LogFilter) : String :=
  filter.override.getD s!"{filter.level.name},term_export={filter.engineLevel.name}"

end LogFilter

/-! ## Limits of the reasons in notes, in bytes -/

def usualNoteLimit : Nat := 256

def verboseNoteLimit : Nat := 1024

def productionNoteLimit : Nat := 128

end TableAppend
