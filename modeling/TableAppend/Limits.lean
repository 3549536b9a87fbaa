import TableAppend.Failure

/-!
# Limits of a file

A file that has reached one of its limits receives no more rows; the next ones go to a new file of the
family.  The size is checked before the number of rows.
-/

namespace TableAppend

structure Limits where
  maxRows : Option UInt64
  maxBytes : Option UInt64
  deriving DecidableEq

/-- What is known of a file.  An unknown number is `none`. -/
structure FileState where
  present : Bool
  rows : Option Nat
  bytes : Option Nat
  deriving DecidableEq

inductive ReachedLimit where
  | size (bytes limit : Nat)
  | count (rows limit : Nat)
  deriving DecidableEq

def ReachedLimit.message : ReachedLimit → String
  | .size bytes limit => s!"size {bytes} bytes reached limit {limit}"
  | .count rows limit => s!"{rows} rows reached limit {limit}"

inductive LimitCheck where
  | within
  | reached (limit : ReachedLimit)
  /-- The rows are limited and their number is unknown. -/
  | unknown
  deriving DecidableEq

namespace Limits

def none : Limits := ⟨Option.none, Option.none⟩

def isEnabled (limits : Limits) : Bool :=
  limits.maxRows.isSome || limits.maxBytes.isSome

def validate (limits : Limits) : Outcome Unit :=
  if limits.maxRows = some 0 then .error (.setting .zeroRowLimit)
  else if limits.maxBytes = some 0 then .error (.setting .zeroSizeLimit)
  else .ok ()

def checkBytes (limits : Limits) (state : FileState) : Option ReachedLimit :=
  match limits.maxBytes, state.bytes with
  | some limit, some bytes => if limit.toNat ≤ bytes then some (.size bytes limit.toNat) else .none
  | _, _ => .none

def checkRows (limits : Limits) (state : FileState) : LimitCheck :=
  match limits.maxRows, state.rows with
  | some limit, some rows => if limit.toNat ≤ rows then .reached (.count rows limit.toNat) else .within
  | some _, .none => .unknown
  | .none, _ => .within

def check (limits : Limits) (state : FileState) : LimitCheck :=
  match limits.checkBytes state with
  | some limit => .reached limit
  | .none => limits.checkRows state

end Limits

end TableAppend
