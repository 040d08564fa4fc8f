import Incremental.Script.QueryName

/-!
# The logic of the sample queries

Small queries over one input number, keyed input texts and each other: arithmetic that panics
when it overflows, chains and circles of reads, failures and ways to handle them.
-/

namespace Incremental.Script

namespace Logic

/-- The result of an operation of arithmetic, which panics if there is none. -/
def compute (operator : Arithmetic.Operator) (m n : Int) : Logic Int :=
  match Arithmetic.apply operator m n with
  | .ok result => pure result
  | .error .zeroDivisor => Body.panic "attempt to divide by zero"
  | .error .overflow =>
    let activity := match operator with
      | .add => "add"
      | .sub => "subtract"
      | .mul => "multiply"
      | .div => "divide"
      | .mod => "calculate the remainder"
    Body.panic ("attempt to " ++ activity ++ " with overflow")

def readInt (sample : Sample) (k : Argument) : Logic Int := do
  int (← Body.get (.sample sample) k)

/-- The text of a value that is text, as the values of text queries are. -/
def textOf : Value → String
  | .str s => s
  | _ => ""

/-- The text that a sample query gives. -/
def readText (sample : Sample) (k : Argument) : Logic String := do
  return textOf (← Body.get (.sample sample) k)

/-- The first of `names` whose input text is strictly longer than all before it and than `best`. -/
def longestName (best : Option (Int × String)) : List String → Logic (Option String)
  | [] => pure (best.map Prod.snd)
  | name :: names => do
    let length ← readInt .length (Argument.text name)
    let longer := best.all fun (longest, _) ↦ longest < length
    longestName (if longer then some (length, name) else best) names

end Logic

namespace Sample

open Logic

/-- What a sample query computes. The queries missing here are inputs. -/
def rule? : Sample → Option (Argument → Logic Value)
  | someInput | inputString => none
  | twiceInput => some fun _ ↦ do
    return .int (← compute .mul (← readInt someInput Argument.unit) 2)
  | quadrupleInput => some fun _ ↦ do
    return .int (← compute .mul (← readInt twiceInput Argument.unit) 2)
  | doubleArgument => some fun k ↦ do
    let n ← int k.value
    return .int (← compute .add n n)
  | transitive => some fun k ↦ do
    let input ← readInt someInput Argument.unit
    let doubled ← readInt doubleArgument (Argument.int input)
    return .int (← compute .add doubled (textOf k.value).utf8ByteSize)
  | length => some fun k ↦ do
    return .int (← readText inputString k).utf8ByteSize
  | longest => some fun k ↦ do
    match ← longestName none ((← items k.value).map textOf) with
    | some name => return .str (← readText inputString (Argument.text name))
    | none => return .null
  | cyclic => some fun k ↦ do
    return .int (← compute .add (← int k.value) (← readInt cyclic k))
  | possiblyCyclic => some fun k ↦ do
    let n ← int k.value
    if n < 2 ∧ n.tmod 2 = 1 then return .int n
    else return .int (← readInt possiblyCyclic (Argument.int (n.tmod 2)))
  | ping => some fun k ↦ do return .int (← readInt pong k)
  | pong => some fun k ↦ do return .int (← readInt ping k)
  | nonNegative => some fun _ ↦ do
    let n ← readInt someInput Argument.unit
    if n < 0 then fail ("negative input " ++ toString n) else return .int n
  | successor => some fun _ ↦ do
    return .int (← compute .add (← readInt nonNegative Argument.unit) 1)
  | fallback => some fun _ ↦
    (Body.get (.sample nonNegative) Argument.unit).orElse fun _ ↦ pure (.int (-1))
  | hundredOver => some fun _ ↦ do
    return .int (← compute .div 100 (← readInt someInput Argument.unit))
  | chain => some fun k ↦ do
    let n ← int k.value
    if n = 0 then return .int (← readInt someInput Argument.unit)
    else return .int (← compute .add (← readInt chain (Argument.int (n - 1))) 1)

/-- The logic of a sample query, with the counting of its beginnings. -/
def logic? (sample : Sample) : Option (Argument → Logic Value) :=
  sample.rule?.map fun rule k ↦
    if sample.isCounted then .outside (·.increment sample.name) fun _ ↦ rule k else rule k

end Sample

end Incremental.Script
