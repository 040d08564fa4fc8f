import Incremental.Change
import Incremental.Evaluation

/-!
# Histories

The operations that are performed on a database one after the other. A batch performs several in
a row; a failure does not end it, a panic does, and what was done before stays done.
-/

namespace Incremental

inductive Inquiry (Q K : Type)
  | query (q : Q) (k : K)
  | revision
  | raise (message : String)
  deriving DecidableEq, Repr

inductive Edit (Q K V : Type)
  | set (q : Q) (k : K) (v : V)
  | setIfChanged (q : Q) (k : K) (v : V)
  | remove (q : Q) (k : K)
  deriving DecidableEq, Repr

/-- What may be done by itself or as a step of a batch. -/
inductive Action (Q K V : Type)
  | inquire (inquiry : Inquiry Q K)
  | edit (edit : Edit Q K V)
  | read (inquiries : List (Inquiry Q K))
  deriving DecidableEq, Repr

inductive Operation (Q K V : Type)
  | act (action : Action Q K V)
  | clearCache
  | report
  | run (actions : List (Action Q K V))
  deriving DecidableEq, Repr

inductive Reply (V : Type)
  | done
  | flag (b : Bool)
  | revision (r : Revision)
  | value (v : V)
  | failure (failure : Failure)
  | batch (replies : List (Reply V))

variable {Q K V W : Type} {α β : Type}

/-- The result of an operation that may panic, and the database after it. No result is given
when evaluation meets its bound. -/
abbrev Performed (Q K V W α : Type) : Type := Option (Except String α × Database Q K V W)

namespace Database

/-- Performs steps in turn and collects what they answer, up to the first panic. -/
def inTurn (step : β → Database Q K V W → Performed Q K V W α) :
    List β → Database Q K V W → Performed Q K V W (List α)
  | [], db => some (.ok [], db)
  | b :: bs, db =>
    match step b db with
    | none => none
    | some (.error message, db) => some (.error message, db)
    | some (.ok a, db) => (inTurn step bs db).map fun (rest, db) ↦ (rest.map (a :: ·), db)

/-- Performs a batch and gives its answers as one. -/
def inBatch (step : β → Database Q K V W → Performed Q K V W (Reply V)) (steps : List β)
    (db : Database Q K V W) : Performed Q K V W (Reply V) :=
  (inTurn step steps db).map fun (replies, db) ↦ (replies.map .batch, db)

def inquire [DecidableEq Q] [BEq K] (P : Program Q K V W) (fuel : Nat) :
    Inquiry Q K → Database Q K V W → Performed Q K V W (Reply V)
  | .query q k, db => (query P fuel q k db).map fun
    | (.value v, db) => (.ok (.value v), db)
    | (.failure failure, db) => (.ok (.failure failure), db)
    | (.panic message, db) => (.error message, db)
  | .revision, db => some (.ok (.revision db.revision), db)
  | .raise message, db => some (.error message, db)

def edit [DecidableEq Q] [BEq K] [BEq V] :
    Edit Q K V → Database Q K V W → Reply V × Database Q K V W
  | .set q k v, db => (.done, db.set q k v)
  | .setIfChanged q k v, db =>
    let (changed, db) := db.setIfChanged q k v
    (.flag changed, db)
  | .remove q k, db =>
    let (removed, db) := db.remove q k
    (.flag removed, db)

def act [DecidableEq Q] [BEq K] [BEq V] (P : Program Q K V W) (fuel : Nat) :
    Action Q K V → Database Q K V W → Performed Q K V W (Reply V)
  | .inquire inquiry, db => inquire P fuel inquiry db
  | .edit e, db =>
    let (reply, db) := edit e db
    some (.ok reply, db)
  | .read inquiries, db => inBatch (inquire P fuel) inquiries db

def perform [DecidableEq Q] [BEq K] [BEq V] (P : Program Q K V W) (fuel : Nat) :
    Operation Q K V → Database Q K V W → Performed Q K V W (Reply V)
  | .act action, db => act P fuel action db
  | .clearCache, db => some (.ok .done, db.clearCache)
  | .report, db => some (.ok .done, db.report P)
  | .run actions, db => inBatch (act P fuel) actions db

/-- Performs the operations of a history in turn. A panic ends its operation but not the history. -/
def performAll [DecidableEq Q] [BEq K] [BEq V] (P : Program Q K V W) (fuel : Nat) :
    List (Operation Q K V) → Database Q K V W →
      Option (List (Except String (Reply V)) × Database Q K V W)
  | [], db => some ([], db)
  | operation :: rest, db =>
    (perform P fuel operation db).bind fun (reply, db) ↦
      (performAll P fuel rest db).map fun (replies, db) ↦ (reply :: replies, db)

end Database

end Incremental
