import Incremental.Revision

/-!
# Memos

What a database keeps for a query at an argument: a value that was assigned, or a value that was
computed together with what was read for it. The stamps of a memo say when its value changed and
until when it is known to stand.
-/

namespace Incremental

/-- Names a query at an argument inside one database: the table of the query and the row of the
argument. -/
structure Handle where
  table : Nat
  slot : Nat
  deriving DecidableEq, Repr

/-- What is kept for a query at an argument. -/
inductive Memo (V : Type)
  /-- A value assigned at revision `changedAt`. -/
  | input (value : V) (changedAt : Revision)
  /-- A computed value. Nothing it read has changed after `changedAt`, it was last known to stand at
  `verifiedAt`, and `reads` lists what was read, in the order of the first reads. -/
  | derived (value : V) (changedAt verifiedAt : Revision) (reads : List Handle)
  deriving DecidableEq, Repr

namespace Memo

variable {V : Type}

def value : Memo V → V
  | input value _ => value
  | derived value .. => value

def changedAt : Memo V → Revision
  | input _ changedAt => changedAt
  | derived _ changedAt .. => changedAt

/-- When the value was last known to stand. An assigned value stands by itself. -/
def verifiedAt? : Memo V → Option Revision
  | input .. => none
  | derived _ _ verifiedAt _ => some verifiedAt

def reads : Memo V → List Handle
  | input .. => []
  | derived _ _ _ reads => reads

def isInput : Memo V → Bool
  | input .. => true
  | derived .. => false

def verified (r : Revision) : Memo V → Memo V
  | derived value changedAt _ reads => derived value changedAt r reads
  | memo => memo

@[simp] theorem value_verified (r : Revision) (memo : Memo V) :
    (memo.verified r).value = memo.value := by
  cases memo <;> rfl

@[simp] theorem changedAt_verified (r : Revision) (memo : Memo V) :
    (memo.verified r).changedAt = memo.changedAt := by
  cases memo <;> rfl

@[simp] theorem reads_verified (r : Revision) (memo : Memo V) :
    (memo.verified r).reads = memo.reads := by
  cases memo <;> rfl

@[simp] theorem isInput_verified (r : Revision) (memo : Memo V) :
    (memo.verified r).isInput = memo.isInput := by
  cases memo <;> rfl

end Memo

/-- What the stamps of a memo tell about it without a look at what it read. -/
inductive Glance
  | settled (fresh : Bool)
  /-- It is as fresh as all of `reads` are as of revision `since`. -/
  | undecided (since : Revision) (reads : List Handle)
  deriving DecidableEq, Repr

/-- Whether the value has stood still since revision `asOf`, seen from revision `current`.
A missing memo was removed after it was read, so it has not. -/
def glance {V : Type} (current asOf : Revision) : Option (Memo V) → Glance
  | none => .settled false
  | some (.input _ changedAt) => .settled (decide (changedAt ≤ asOf))
  | some (.derived _ changedAt verifiedAt reads) =>
    if asOf < changedAt then .settled false
    else if verifiedAt = current then .settled true
    else .undecided verifiedAt reads

end Incremental
