import Incremental.Script.QueryName

/-!
# Formulas

The language in which a script gives logic to its queries. A formula denotes a body: its parts
are evaluated from left to right, and the first failure or panic ends the evaluation unless a
part of the formula handles it.
-/

namespace Incremental.Script

inductive Formula
  | lit (v : Value)
  /-- The argument of the query that is evaluated. -/
  | key
  /-- The item under consideration in the innermost `map`. -/
  | item
  /-- Reads a query at the value of a formula. A number that no query bears is noticed at once,
  a name that no query bears only when the argument is there. -/
  | get (q : Reference) (k : Formula)
  | revision
  | cell (i : Formula)
  /-- All formulas in turn; the value is that of the last. -/
  | seq (es : List Formula)
  | list (es : List Formula)
  /-- The values of `e` for each item of `l`. -/
  | map (l e : Formula)
  | sum (l : Formula)
  | arith (operator : Arithmetic.Operator) (a b : Formula)
  | less (a b : Formula)
  | equal (a b : Formula)
  | cond (c a b : Formula)
  | len (e : Formula)
  /-- The texts of all values in a row. -/
  | concat (es : List Formula)
  | fail (m : Formula)
  | panic (m : Formula)
  | orElse (e other : Formula)
  | message (e : Formula)
  | within (e m : Formula)
  | onPanic (e other : Formula)

structure Scope where
  /-- How many queries the script defines. -/
  definitions : Nat
  key : Value
  item : Value := .null

namespace Logic

/-- The result of an operation of arithmetic, which fails if there is none. -/
def arith (operator : Arithmetic.Operator) (m n : Int) : Logic Int :=
  match Arithmetic.apply operator m n with
  | .ok result => pure result
  | .error .overflow => fail "overflow"
  | .error .zeroDivisor => fail "division by zero"

/-- The sum of a list of numbers and `total`. -/
def sumFrom (total : Int) : List Value → Logic Int
  | [] => pure total
  | v :: vs => do sumFrom (← arith .add total (← int v)) vs

def forEach (evaluate : Value → Logic Value) : List Value → Logic (List Value)
  | [] => pure []
  | v :: vs => do
    let w ← evaluate v
    return w :: (← forEach evaluate vs)

/-- The argument that a value makes, which has to be equal to itself. -/
def argument (v : Value) : Logic Argument :=
  match Argument.ofValue? v with
  | some k => pure k
  | none => fail "bad key"

/-- Reads a query at an argument, which has to be of the right kind. -/
def readAt (q : QueryName) (k : Argument) : Logic Value :=
  if q.argumentKind.accepts k.value then Body.get q k else fail "bad key"

def cell (i : Int) : Logic Value :=
  .outside id fun world ↦
    match world.cell? i with
    | some v => pure v
    | none => fail "bad cell"

/-- How long text is in bytes, or a list in items. -/
def lengthOf : Value → Logic Value
  | .str s => pure (.int s.utf8ByteSize)
  | .ci s => pure (.int s.utf8ByteSize)
  | v => do return .int (← items v).length

end Logic

namespace Formula

open Logic

mutual

def denote (scope : Scope) : Formula → Logic Value
  | lit v => pure v
  | key => pure scope.key
  | item => pure scope.item
  | get q k =>
    match q, q.resolve? scope.definitions with
    | .number _, none => Logic.fail "bad query"
    | _, found => do
      let k ← argument (← k.denote scope)
      match found with
      | none => Logic.fail "bad query"
      | some q => readAt q k
  | revision => .revision fun r ↦ pure (.int r)
  | cell i => do Logic.cell (← int (← i.denote scope))
  | seq es => do return (← denoteAll scope es).getLast?.getD .null
  | list es => do return .list (← denoteAll scope es)
  | map l e => do
    let vs ← items (← l.denote scope)
    return .list (← forEach (fun v ↦ e.denote { scope with item := v }) vs)
  | sum l => do return .int (← sumFrom 0 (← items (← l.denote scope)))
  | arith operator a b => do
    let m ← int (← a.denote scope)
    let n ← int (← b.denote scope)
    return .int (← Logic.arith operator m n)
  | less a b => do
    let m ← int (← a.denote scope)
    let n ← int (← b.denote scope)
    return .ofBool (m < n)
  | equal a b => do
    let v ← a.denote scope
    let w ← b.denote scope
    return .ofBool (v == w)
  | cond c a b => do
    let n ← int (← c.denote scope)
    if n = 0 then b.denote scope else a.denote scope
  | len e => do lengthOf (← e.denote scope)
  | concat es => do return .str (String.join ((← denoteAll scope es).map Value.text))
  | fail m => do Logic.fail (← m.denote scope).text
  | panic m => do Body.panic (← m.denote scope).text
  | orElse e other => (e.denote scope).orElse fun _ ↦ other.denote scope
  | message e => (e.denote scope).orElse fun failure ↦ pure (.str failure.message)
  | within e m =>
    (e.denote scope).orElse fun failure ↦ do
      Body.fail (failure.within (← m.denote scope).text)
  | onPanic e other => (e.denote scope).catchPanic fun _ ↦ other.denote scope

def denoteAll (scope : Scope) : List Formula → Logic (List Value)
  | [] => pure []
  | e :: es => do
    let v ← e.denote scope
    return v :: (← denoteAll scope es)

end

end Formula

end Incremental.Script
