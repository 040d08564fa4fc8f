/-!
# Arithmetic in 64 bits

Whole numbers that fit a signed word of 64 bits, and operations that refuse a result that does not.
-/

namespace Incremental.Arithmetic

/-- Whether a number fits: the bounds are two to the power of 63 to either side, excluded above. -/
def fits (n : Int) : Bool := -9223372036854775808 ≤ n && n < 9223372036854775808

/-- Whether a number fits a word of 64 bits without a sign, as sizes, limits and revisions do. -/
def fitsUnsigned (n : Int) : Bool := 0 ≤ n && n < 18446744073709551616

inductive Operator
  | add
  | sub
  | mul
  /-- The quotient, rounded toward zero. -/
  | div
  /-- The remainder that is not negative. -/
  | mod
  deriving DecidableEq, Repr

inductive Fault
  | overflow
  | zeroDivisor
  deriving DecidableEq, Repr

def checked (n : Int) : Except Fault Int := if fits n then .ok n else .error .overflow

/-- Applies an operator to numbers that fit. A remainder whose quotient does not fit is refused
as well. -/
def apply : Operator → Int → Int → Except Fault Int
  | .add, m, n => checked (m + n)
  | .sub, m, n => checked (m - n)
  | .mul, m, n => checked (m * n)
  | .div, m, n => if n = 0 then .error .zeroDivisor else checked (m.tdiv n)
  | .mod, m, n =>
    if n = 0 then .error .zeroDivisor else (checked (m.tdiv n)).map fun _ ↦ m.emod n

end Incremental.Arithmetic
