import Incremental.Program
import Incremental.Store

/-!
# Events

What happens inside a database, step by step: changes, reads answered from memory or not,
verdicts on memos, evaluations begun and ended. Some events are written to a log; the others
only serve to tell what was done.
-/

namespace Incremental

inductive Event (Q K : Type)
  /-- A value was assigned, which made revision `r`. -/
  | assigned (q : Q) (k : K) (r : Revision)
  /-- An assignment was skipped because an equal value was there. -/
  | unchanged (q : Q) (k : K)
  /-- A value was removed, which made revision `r`. -/
  | removed (q : Q) (k : K) (r : Revision)
  /-- `count` computed values were dropped. -/
  | cleared (count : Nat)
  | reported (text : String)
  | refused (failure : Failure)
  | hit (q : Q) (k : K)
  | miss (q : Q) (k : K)
  /-- It was asked whether a memo had stood still since revision `asOf`. -/
  | verified (key : Handle) (asOf : Revision) (fresh : Bool)
  /-- To find that out, its reads had to be looked at. -/
  | walked (key : Handle)
  | started (q : Q) (k : K) (key : Handle)
  | computed (key : Handle)
  /-- `count` evaluations were given up because of a panic. -/
  | discarded (count : Nat)
  deriving DecidableEq, Repr

inductive Level
  | debug
  | trace
  deriving DecidableEq, Repr

variable {Q K V W : Type}

/-- The text of a handle: the query's name and the argument as it was first spelled. A handle
that names nothing is shown by its numbers. -/
def Store.label (P : Program Q K V W) (s : Store Q K V) (key : Handle) : String :=
  match s.named? key with
  | some (q, k) => P.label q k
  | none =>
    let name := (s.tables[key.table]?.map fun t ↦ P.name t.query).getD
      ("<query " ++ toString key.table ++ ">")
    name ++ "(<slot " ++ toString key.slot ++ ">)"

theorem Store.label_of_named? (P : Program Q K V W) {s : Store Q K V} {key : Handle} {q : Q} {k : K}
    (h : s.named? key = some (q, k)) : s.label P key = P.label q k := by
  simp [label, h]

namespace Event

/-- How important an event is, if it is logged. -/
def level? : Event Q K → Option Level
  | assigned .. | removed .. | cleared _ | reported _ | refused _ | discarded _ => some .debug
  | unchanged .. | hit .. | miss .. | verified .. => some .trace
  | walked _ | started .. | computed _ => none

def text (P : Program Q K V W) (s : Store Q K V) : Event Q K → String
  | assigned q k r => "Input set: " ++ P.label q k ++ " -> revision " ++ Revision.text r
  | unchanged q k => "Input unchanged: " ++ P.label q k
  | removed q k r => "Removed: " ++ P.label q k ++ " -> revision " ++ Revision.text r
  | cleared count => "Cleared " ++ toString count ++ " derived results"
  | reported text => text
  | refused failure => failure.message
  | hit q k => "Cache hit for " ++ P.name q ++ ": " ++ P.showArgument q k
  | miss q k => "Cache miss for " ++ P.name q ++ ": " ++ P.showArgument q k
  | verified key asOf fresh =>
    "Verified " ++ s.label P key ++ " as of " ++ Revision.text asOf ++ ": "
      ++ if fresh then "fresh" else "stale"
  | discarded count => "Discarded " ++ toString count ++ " frames of a query that did not finish"
  | walked _ | started .. | computed _ => ""

end Event

end Incremental
