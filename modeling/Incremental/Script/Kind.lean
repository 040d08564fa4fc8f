import Incremental.Arithmetic
import Incremental.Value

/-!
# Kinds

The kinds of arguments and values that queries take, which values belong to them, and how these
are shown.
-/

namespace Incremental.Script

inductive Kind
  /-- Any value, with whole numbers of 64 bits. -/
  | any
  /-- The one value that says nothing. -/
  | unit
  | int64
  /-- A whole number of 32 bits that is not negative. -/
  | word32
  | size
  | text
  | texts
  | optionalText
  deriving DecidableEq, Repr

mutual

/-- Whether the numbers in a value fit 64 bits. -/
def fits : Value → Bool
  | .int n => Arithmetic.fits n
  | .list vs => allFit vs
  | _ => true

/-- Whether the numbers in all values of a list fit 64 bits. -/
def allFit : List Value → Bool
  | [] => true
  | v :: vs => fits v && allFit vs

end

def isText : Value → Bool
  | .str _ => true
  | _ => false

namespace Kind

def accepts : Kind → Value → Bool
  | any, v => fits v
  | unit, .null => true
  | int64, .int n => Arithmetic.fits n
  | word32, .int n => 0 ≤ n && n < 4294967296
  | size, .int n => Arithmetic.fitsUnsigned n
  | text, .str _ => true
  | texts, .list vs => vs.all isText
  | optionalText, .null => true
  | optionalText, .str _ => true
  | _, _ => false

def written : Kind → Value → String
  | unit, _ => "()"
  | optionalText, .null => "None"
  | optionalText, v => "Some(" ++ v.written ++ ")"
  | _, v => v.written

/-- The argument that a value of a kind makes. -/
def argument? (kind : Kind) (v : Value) : Option Argument :=
  if kind.accepts v then Argument.ofValue? v else none

end Kind

end Incremental.Script
