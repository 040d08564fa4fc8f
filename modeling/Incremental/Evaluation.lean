import Incremental.Verification

/-!
# Evaluation

Reading a query answers from memory what still stands and computes everything else. While a body
runs, its frame collects what it reads; the memo that is left behind lists these reads and bears
the newest revision among them. A body that fails leaves no memo, but its reader takes over what
it had read. A body that panics leaves nothing at all.

A body takes finitely many steps of its own, but what it reads may read something new in its turn,
and so on without end. So evaluation is bounded by `fuel`, the depth to which reads may nest; there
is no answer if the bound is met.
-/

namespace Incremental

variable {Q K V W : Type} {α : Type}

/-- Runs a body, with `read` to answer its reads. -/
def Body.run
    (read : Q → K → Database Q K V W → Option (Outcome V × Database Q K V W)) :
    Body Q K V W α → Database Q K V W → Option (Outcome α × Database Q K V W)
  | done outcome, db => some (outcome, db)
  | Body.read q k next, db => (read q k db).bind fun (answer, db) ↦ (next answer).run read db
  | revision next, db => (next db.revision).run read db
  | outside change next, db => (next db.outside).run read { db with outside := change db.outside }

namespace Database

def enter (db : Database Q K V W) (q : Q) (k : K) (key : Handle) : Database Q K V W :=
  { db with stack := db.stack.push key }.note (.started q k key)

/-- Gives up the evaluations inside the outermost `depth`. -/
def discard (db : Database Q K V W) (depth : Nat) : Database Q K V W :=
  let count := db.stack.depth - depth
  if count = 0 then db else { db with stack := db.stack.unwindTo depth }.note (.discarded count)

/-- What an evaluation that finds its frame gone panics with. -/
def lostFrame : String := "Execution stack lost the frame of a running query"

/-- Ends the evaluation of `key`, which was begun inside `depth` others. A value is kept, as of
the newest change among its reads and no earlier than the last removal from its row, which its
readers may not have seen. -/
def leave (key : Handle) (depth : Nat) :
    Outcome V × Database Q K V W → Outcome V × Database Q K V W
  | (.panic message, db) => (.panic message, db.discard depth)
  | (.failure failure, db) =>
    match db.stack.pop? with
    | none => (.panic lostFrame, db)
    | some (frame, stack) =>
      (.failure failure, { db with stack := stack.absorb frame.reads frame.newest })
  | (.value value, db) =>
    match db.stack.pop? with
    | none => (.panic lostFrame, db)
    | some (frame, stack) =>
      let changedAt := max frame.newest (db.store.removedAt key)
      let memo := .derived value changedAt db.revision frame.reads
      (.value value,
        { db with
          store := db.store.insert key memo
          stack := stack.absorb frame.reads changedAt }.note (.computed key))

/-- Computes query `q` at `k`, whose handle is `key`, unless that would be nested too deep. -/
def execute (P : Program Q K V W)
    (read : Q → K → Database Q K V W → Option (Outcome V × Database Q K V W))
    (q : Q) (k : K) (key : Handle) (db : Database Q K V W) :
    Option (Outcome V × Database Q K V W) :=
  match db.configuration.brokenAt db.stack.depth with
  | some limit => some (.failure (.tooDeep limit (db.label P key)), db)
  | none => ((P.body q k).run read (db.enter q k key)).map (leave key db.stack.depth)

/-- Reads query `q` at `k` on behalf of the innermost evaluation, if there is one. A read of
what is being computed is refused and leaves no trace in the reader. -/
def query [DecidableEq Q] [BEq K] (P : Program Q K V W) :
    Nat → Q → K → Database Q K V W → Option (Outcome V × Database Q K V W)
  | 0, _, _, _ => none
  | fuel + 1, q, k, db =>
    let (key, db) := db.intern q k
    if db.stack.isActive key then
      let failure := db.circle P key
      some (.failure failure, db.note (.refused failure))
    else
      match (db.recordRead key).retrieve fuel key with
      | none => none
      | some (some (value, changedAt), db) =>
        some (.value value, (db.note (.hit q k)).observe changedAt)
      | some (none, db) => execute P (query P fuel) q k key (db.note (.miss q k))

end Database

end Incremental
