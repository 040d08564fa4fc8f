import Incremental.Database

/-!
# Verification

Whether a remembered value still stands is found out from revision stamps alone: nothing is
computed again. A computed value stands if everything that was read for it has stood still since
it was last known to stand. What is found to stand is stamped, so that it need not be asked
again before the next change.

The walk over what was read need not end in a store that reads in circles, so it is bounded by
`fuel`; there is no answer if the bound is met.
-/

namespace Incremental

variable {Q K V W : Type}

namespace Database

/-- Asks `test` of each handle in turn, and stops at the first that fails it. -/
def allReads (test : Handle → Database Q K V W → Option (Bool × Database Q K V W)) :
    List Handle → Database Q K V W → Option (Bool × Database Q K V W)
  | [], db => some (true, db)
  | key :: keys, db =>
    match test key db with
    | none => none
    | some (false, db) => some (false, db)
    | some (true, db) => allReads test keys db

def settle (db : Database Q K V W) (key : Handle) (asOf : Revision) (fresh : Bool) :
    Bool × Database Q K V W :=
  (fresh, db.note (.verified key asOf fresh))

/-- Stamps a memo that was found to stand, and notes the verdict. -/
def conclude (key : Handle) (asOf : Revision) : Bool × Database Q K V W → Bool × Database Q K V W
  | (true, db) => (db.markVerified key).settle key asOf true
  | (false, db) => db.settle key asOf false

/-- Whether what is kept under `key` has stood still since revision `asOf`. -/
def verify : Nat → Handle → Revision → Database Q K V W → Option (Bool × Database Q K V W)
  | 0, _, _, _ => none
  | fuel + 1, key, asOf, db =>
    match glance db.revision asOf (db.store.memo? key) with
    | .settled fresh => some (db.settle key asOf fresh)
    | .undecided since reads =>
      (allReads (fun read ↦ verify fuel read since) reads (db.note (.walked key))).map
        (conclude key asOf)

/-- What is kept under `key` and when it changed, if it still stands. An assigned value always
does; a computed one is verified as of the revision at which it was last known to stand. -/
def retrieve (fuel : Nat) (key : Handle) (db : Database Q K V W) :
    Option (Option (V × Revision) × Database Q K V W) :=
  match db.store.memo? key with
  | none => some (none, db)
  | some (.input value changedAt) => some (some (value, changedAt), db)
  | some (.derived value changedAt verifiedAt _) =>
    (verify fuel key verifiedAt db).map fun (fresh, db) ↦
      (if fresh then some (value, changedAt) else none, db)

end Database

end Incremental
