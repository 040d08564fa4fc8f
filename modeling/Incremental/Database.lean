import Incremental.Configuration
import Incremental.CallStack
import Incremental.Event
import Incremental.Snapshot

/-!
# Databases

The state of a database, and the small changes of which every operation on it is made.
-/

namespace Incremental

/-- A database for queries `Q` with arguments `K` and values `V`. -/
structure Database (Q K V W : Type) where
  configuration : Configuration := {}
  revision : Revision := Revision.initial
  store : Store Q K V := {}
  stack : CallStack := {}
  /-- State outside the database that bodies can touch. -/
  outside : W
  /-- What happened so far, the latest first. -/
  events : List (Event Q K) := []

variable {Q K V W : Type}

namespace Database

def note (db : Database Q K V W) (event : Event Q K) : Database Q K V W :=
  { db with events := event :: db.events }

def intern [DecidableEq Q] [BEq K] (db : Database Q K V W) (q : Q) (k : K) :
    Handle × Database Q K V W :=
  let (key, store) := db.store.intern q k
  (key, { db with store })

def label (P : Program Q K V W) (db : Database Q K V W) (key : Handle) : String :=
  db.store.label P key

def recordRead (db : Database Q K V W) (key : Handle) : Database Q K V W :=
  { db with stack := db.stack.recordRead key }

/-- Tells the innermost evaluation, if there is one, that what it read has changed at revision
`r`. -/
def observe (db : Database Q K V W) (r : Revision) : Database Q K V W :=
  { db with stack := db.stack.observe r }

def markVerified (db : Database Q K V W) (key : Handle) : Database Q K V W :=
  { db with store := db.store.markVerified key db.revision }

/-- The failure of a read of `key`, which is being computed. -/
def circle (P : Program Q K V W) (db : Database Q K V W) (key : Handle) : Failure :=
  .cycle (db.label P key) (db.stack.keys.map (db.label P))

def entry? (P : Program Q K V W) (db : Database Q K V W) (q : Q) (row : Row K V) : Option Entry :=
  row.memo.map fun memo ↦
    { key := P.showArgument q row.argument
      value := P.showValue q memo.value
      kind := if memo.isInput then .input else .derived
      changedAt := memo.changedAt
      verifiedAt := memo.verifiedAt?
      dependencies := memo.reads.map (db.label P) }

def snapshot (P : Program Q K V W) (db : Database Q K V W) : Snapshot where
  revision := db.revision
  queries := db.store.tables.map fun t ↦
    { name := P.name t.query, entries := t.rows.toList.filterMap (db.entry? P t.query) }

def statistics (db : Database Q K V W) : Statistics where
  queries := db.store.tables.length
  inputs := db.store.inputCount
  derived := db.store.derivedCount
  revision := db.revision

def report (P : Program Q K V W) (db : Database Q K V W) : Database Q K V W :=
  db.note (.reported (db.snapshot P).text)

end Database

end Incremental
