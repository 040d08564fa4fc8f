import Incremental.Body

/-!
# Programs

A program gives every query its name, its logic if it has any, and the way its arguments and
values are shown.
-/

namespace Incremental

structure Program (Q K V W : Type) where
  /-- The name under which a query is reported. Two queries may bear the same name. -/
  name : Q → String
  /-- The logic of a query. A query without logic is an input. -/
  logic : Q → Option (K → Body Q K V W V)
  showArgument : Q → K → String
  showValue : Q → V → String

namespace Program

variable {Q K V W : Type} (P : Program Q K V W)

def label (q : Q) (k : K) : String := P.name q ++ "(" ++ P.showArgument q k ++ ")"

/-- What computes query `q` at `k`. An input has to be assigned, so computing it fails. -/
def body (q : Q) (k : K) : Body Q K V W V :=
  match P.logic q with
  | some logic => logic k
  | none => .fail (.noInput (P.name q) (P.showArgument q k))

end Program

end Incremental
