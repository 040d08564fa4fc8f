import Incremental.Program
import Incremental.Script.Kind
import Incremental.Script.World

/-!
# The queries of scripts

A script has queries of its own, numbered in the order of their definition, and besides them a
fixed set of sample queries and one input that was given no name.
-/

namespace Incremental.Script

inductive Sample
  | someInput
  | twiceInput
  | quadrupleInput
  | doubleArgument
  | transitive
  | inputString
  | length
  | longest
  | cyclic
  | possiblyCyclic
  | ping
  | pong
  | nonNegative
  | successor
  | fallback
  | hundredOver
  | chain
  deriving DecidableEq, Repr

namespace Sample

def all : List Sample :=
  [someInput, twiceInput, quadrupleInput, doubleArgument, transitive, inputString, length, longest,
    cyclic, possiblyCyclic, ping, pong, nonNegative, successor, fallback, hundredOver, chain]

def name : Sample → String
  | someInput => "some_input"
  | twiceInput => "twice_input"
  | quadrupleInput => "quadruple_input"
  | doubleArgument => "double_argument"
  | transitive => "transitive"
  | inputString => "input_string"
  | length => "length"
  | longest => "longest"
  | cyclic => "cyclic"
  | possiblyCyclic => "possibly_cyclic"
  | ping => "ping"
  | pong => "pong"
  | nonNegative => "non_negative"
  | successor => "successor"
  | fallback => "fallback"
  | hundredOver => "hundred_over"
  | chain => "chain"

def argumentKind : Sample → Kind
  | doubleArgument | cyclic | possiblyCyclic => .int64
  | transitive | inputString | length => .text
  | longest => .texts
  | ping | pong | chain => .word32
  | _ => .unit

def valueKind : Sample → Kind
  | inputString => .text
  | length => .size
  | longest => .optionalText
  | ping | pong => .word32
  | _ => .int64

/-- Whether the beginnings of a logic are counted. -/
def isCounted : Sample → Bool
  | twiceInput | quadrupleInput | doubleArgument | transitive | length | longest | nonNegative
  | fallback | hundredOver => true
  | _ => false

def ofName? (name : String) : Option Sample := all.find? fun sample ↦ sample.name == name

end Sample

inductive QueryName
  /-- The query that the script defines under a number. -/
  | defined (number : Nat)
  | unnamed
  | sample (sample : Sample)
  deriving DecidableEq, Repr

/-- A query as a script refers to it. -/
inductive Reference
  | number (n : Int)
  | name (name : String)
  deriving DecidableEq, Repr

/-- The query that is meant, in a script with `count` definitions. -/
def Reference.resolve? (count : Nat) : Reference → Option QueryName
  | .number n => if 0 ≤ n ∧ n < count then some (.defined n.toNat) else none
  | .name "unnamed" => some .unnamed
  | .name s => (Sample.ofName? s).map .sample

namespace QueryName

def argumentKind : QueryName → Kind
  | sample s => s.argumentKind
  | _ => .any

def valueKind : QueryName → Kind
  | sample s => s.valueKind
  | _ => .any

end QueryName

abbrev Logic (α : Type) := Body QueryName Argument Value World α

namespace Logic

def fail {α : Type} (message : String) : Logic α := Body.fail (.ofMessage message)

/-- The whole number that a value is. -/
def int : Value → Logic Int
  | .int n => pure n
  | v => fail ("not an int: " ++ v.written)

/-- The items of the list that a value is. -/
def items : Value → Logic (List Value)
  | .list vs => pure vs
  | v => fail ("not a list: " ++ v.written)

end Logic

end Incremental.Script
