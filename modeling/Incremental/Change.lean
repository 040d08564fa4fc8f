import Incremental.Database

/-!
# Changes

Assigning and removing values. Each effective change makes a new revision; what was computed
from an old value is left where it is and found out of date when it is read next. Dropping
computed values makes no new revision, since nothing is left that could notice.
-/

namespace Incremental

variable {Q K V W : Type} [DecidableEq Q] [BEq K]

namespace Database

/-- Assigns a value to query `q` at `k`. If the query has logic of its own, the value stands in
for it until it is removed. -/
def set (db : Database Q K V W) (q : Q) (k : K) (v : V) : Database Q K V W :=
  let revision := db.revision.next
  let (key, db) := db.intern q k
  { db with revision, store := db.store.insert key (.input v revision) }.note
    (.assigned q k revision)

def memo? (db : Database Q K V W) (q : Q) (k : K) : Option (Memo V) :=
  (db.store.lookup? q k).bind db.store.memo?

def input? (db : Database Q K V W) (q : Q) (k : K) : Option V :=
  ((db.memo? q k).filter Memo.isInput).map Memo.value

/-- Assigns a value unless an equal one is already assigned. Says whether it did. -/
def setIfChanged [BEq V] (db : Database Q K V W) (q : Q) (k : K) (v : V) :
    Bool × Database Q K V W :=
  if (db.input? q k).any (· == v) then (false, db.note (.unchanged q k))
  else (true, db.set q k v)

/-- Removes what is kept for query `q` at `k`, be it assigned or computed. Says whether there
was anything. -/
def remove (db : Database Q K V W) (q : Q) (k : K) : Bool × Database Q K V W :=
  match db.store.lookup? q k with
  | none => (false, db)
  | some key =>
    match db.store.memo? key with
    | none => (false, db)
    | some _ =>
      let revision := db.revision.next
      (true,
        { db with revision, store := db.store.erase key revision }.note (.removed q k revision))

omit [DecidableEq Q] [BEq K] in
/-- Drops all computed values, and notes how many were dropped. -/
def clearCache (db : Database Q K V W) : Database Q K V W :=
  let cleared := db.store.clearDerived
  { db with store := cleared.2 }.note (.cleared cleared.1)

omit [DecidableEq Q] [BEq K] in
theorem clearCache_eq (db : Database Q K V W) : db.clearCache =
    { db with store := db.store.dropDerived }.note (.cleared db.store.derivedCount) := by
  simp [clearCache, db.store.clearDerived_eq]

end Database

end Incremental
