import Incremental.Failure
import Incremental.Revision

/-!
# Bodies

The logic of a query as a tree: what it reads next, and for every answer how it goes on. A body
sees the world in three ways, by reading another query, by asking for the current revision, and
by touching state outside the database, which leaves no trace among its reads.

On every path the tree ends: whatever it is answered, a body comes to an outcome after finitely many
steps of its own. Logic that goes on forever by itself, such as a loop that never stops reading, is
no body. Of such logic each finite run is a run of the tree that is cut off where the run ends.
-/

namespace Incremental

variable {Q K V W : Type} {α β : Type}

/-- The logic of a query, with queries `Q`, arguments `K`, values `V` and outside state `W`. -/
inductive Body (Q K V W α : Type)
  | done (outcome : Outcome α)
  /-- Reads query `q` at argument `k`. The answer may be a failure or a panic, which the body
  may handle. -/
  | read (q : Q) (k : K) (next : Outcome V → Body Q K V W α)
  | revision (next : Revision → Body Q K V W α)
  | outside (change : W → W) (next : W → Body Q K V W α)

namespace Body

/-- Goes on with `next`, however the first body ends. -/
def handle : Body Q K V W α → (Outcome α → Body Q K V W β) → Body Q K V W β
  | done outcome, next => next outcome
  | read q k rest, next => read q k fun answer ↦ (rest answer).handle next
  | revision rest, next => revision fun r ↦ (rest r).handle next
  | outside change rest, next => outside change fun w ↦ (rest w).handle next

def value (a : α) : Body Q K V W α := done (.value a)

def fail (failure : Failure) : Body Q K V W α := done (.failure failure)

def panic (message : String) : Body Q K V W α := done (.panic message)

/-- Goes on with the value of the first body. A failure or a panic is passed on. -/
def bind (body : Body Q K V W α) (next : α → Body Q K V W β) : Body Q K V W β :=
  body.handle fun
    | .value a => next a
    | .failure f => fail f
    | .panic message => panic message

instance : Monad (Body Q K V W) where
  pure := value
  bind := bind

/-- The value of query `q` at argument `k`; a failure or a panic is passed on. -/
def get (q : Q) (k : K) : Body Q K V W V := read q k done

/-- Goes on with `recover` where the body fails. A panic is passed on. -/
def orElse (body : Body Q K V W α) (recover : Failure → Body Q K V W α) : Body Q K V W α :=
  body.handle fun
    | .failure f => recover f
    | outcome => done outcome

/-- Goes on with `recover` where the body panics. A failure is passed on. -/
def catchPanic (body : Body Q K V W α) (recover : String → Body Q K V W α) : Body Q K V W α :=
  body.handle fun
    | .panic message => recover message
    | outcome => done outcome

end Body

end Incremental
