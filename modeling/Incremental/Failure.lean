/-!
# Failures and outcomes

An evaluation gives a value, fails for a stated cause, or panics. A failure is handed to whoever
asked for the value and may be handled there; a panic ends every evaluation that does not catch
it. Keys inside a failure are text, so that it keeps its meaning when the database moves on.
-/

namespace Incremental

/-- Why an evaluation gave no value. -/
inductive Failure
  /-- `key` was asked for while it was being computed; `stack` lists what was being computed,
  outermost first. -/
  | cycle (key : String) (stack : List String)
  /-- `query` has no logic of its own and nothing was assigned to its argument `key`. -/
  | noInput (query key : String)
  /-- Computing `key` would have nested evaluations deeper than `limit`. -/
  | tooDeep (limit : Nat) (key : String)
  /-- The logic of a query failed with `message`, because of `causes`, the nearest first. -/
  | logic (message : String) (causes : List String)
  deriving DecidableEq, Repr

namespace Failure

def message : Failure → String
  | cycle key stack =>
    "cycle detected: " ++ key ++ " is already active in [" ++ String.intercalate " -> " stack ++ "]"
  | noInput query key => "no input set for " ++ query ++ "(" ++ key ++ ")"
  | tooDeep limit key =>
    "query depth limit of " ++ toString limit ++ " exceeded while entering " ++ key
  | logic message _ => message

/-- The messages of the failure and of its causes, the failure's own first. -/
def chain : Failure → List String
  | logic message causes => message :: causes
  | failure => [failure.message]

def ofMessage (message : String) : Failure := logic message []

def within (context : String) (failure : Failure) : Failure := logic context failure.chain

/-- Whether an evaluation was asked for again before it ended. -/
def isCycle : Failure → Bool
  | cycle .. => true
  | _ => false

/-- Whether an unassigned input was read. -/
def isNoInput : Failure → Bool
  | noInput .. => true
  | _ => false

end Failure

inductive Outcome (α : Type)
  | value (a : α)
  | failure (f : Failure)
  | panic (message : String)
  deriving DecidableEq, Repr

namespace Outcome

def map {α β : Type} (f : α → β) : Outcome α → Outcome β
  | value a => value (f a)
  | failure f => failure f
  | panic message => panic message

def value? {α : Type} : Outcome α → Option α
  | value a => some a
  | _ => none

end Outcome

end Incremental
