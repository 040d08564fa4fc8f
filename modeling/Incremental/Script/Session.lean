import Incremental.Script.Catalog
import Incremental.Script.Step

/-!
# Sessions

A session performs the steps of a script one after the other. It holds the databases, the
numbers under which steps refer to them, and the world that all of them share. For each step it
tells the answer, the revision reached, which queries of the script were evaluated and what was
logged.
-/

namespace Incremental.Script

abbrev Db := Database QueryName Argument Value World

/-- A number by which steps refer to a database. -/
structure Connection where
  database : Nat
  /-- A shared database offers less, but can be referred to by several numbers. -/
  isShared : Bool
  deriving DecidableEq, Repr

inductive Verbosity
  | off
  | debug
  | trace
  deriving DecidableEq, Repr

def Verbosity.keeps : Verbosity → Level → Bool
  | off, _ => false
  | debug, level => level == .debug
  | trace, _ => true

def levelWord : Level → String
  | .debug => "DEBUG"
  | .trace => "TRACE"

/-- What there is while a script runs. -/
structure Session where
  catalog : Catalog := []
  verbosity : Verbosity := .off
  databases : List Db := []
  connections : List Connection := []
  world : World := {}

structure Report where
  answer : Answer
  /-- The revision of the step's database after the step. -/
  revision : Revision
  /-- The evaluations of the script's own queries, in the order in which they began. -/
  ran : List String := []
  log : List String := []

namespace Session

/-- The bound on nested reads. It is out of reach of any script that can be run to its end. -/
def fuel : Nat := 1000000000

/-- Adds a database, with the next free number. -/
def add (session : Session) (maxDepth : Option Nat) (isShared : Bool) : Session :=
  { session with
    databases := session.databases ++ [{ configuration := ⟨maxDepth⟩, outside := session.world }]
    connections := session.connections ++ [⟨session.databases.length, isShared⟩] }

/-- A session at the beginning of a script, with one database. -/
def start (catalog : Catalog) (verbosity : Verbosity) (maxDepth : Option Nat) (isShared : Bool) :
    Session :=
  { catalog, verbosity : Session }.add maxDepth isShared

/-- What is kept of the log of the events of a database. -/
def logOf (session : Session) (db : Db) : List String :=
  db.events.reverse.filterMap fun event ↦
    (event.level?.filter session.verbosity.keeps).map fun level ↦
      levelWord level ++ " " ++ event.text session.catalog.program db.store

/-- The report on a step that led to an answer and, on its database, to `db`. -/
def reportOn (session : Session) (answer : Answer) (db : Db) : Report where
  answer
  revision := db.revision
  ran := db.events.reverse.filterMap session.catalog.begun?
  log := session.logOf db

def store (session : Session) (i : Nat) (db : Db) : Session :=
  { session with
    databases := session.databases.set i { db with events := [] }
    world := db.outside }

def perform (session : Session) (i : Nat) (db : Db)
    (plan : Plan (Operation QueryName Argument Value)) : Option (Report × Session) :=
  (db.perform session.catalog.program fuel plan.task).map fun (reply, db) ↦
    let answer := match reply with
      | .ok reply => plan.understand reply
      | .error message => .panic message
    (session.reportOn answer db, session.store i db)

/-- Performs a step that changes no database. -/
def arrange (session : Session) (number : Nat) (connection : Connection) (db : Db) :
    Step → Answer × Session
  | .statistics =>
    (if connection.isShared then .refused .op else .statistics db.statistics, session)
  | .configuration =>
    (if connection.isShared then .refused .op else .configuration db.configuration, session)
  | .inspect inspection =>
    (.finding ((db.snapshot session.catalog.program).inspect inspection), session)
  | .new maxDepth isShared =>
    (.number session.connections.length, session.add maxDepth isShared)
  | .share =>
    (.done, { session with
      connections := session.connections.set number { connection with isShared := true } })
  | .clone =>
    if connection.isShared then
      (.number session.connections.length,
        { session with connections := session.connections ++ [connection] })
    else (.refused .op, session)
  | .setCell i (some v) => (.done, { session with world := session.world.setCell i v })
  | .setCell _ none => (.refused .value, session)
  | .count name => (.number (session.world.count name), session)
  | _ => (.refused .op, session)

/-- Performs a step on the database of a number. There is no report only if evaluation meets its
bound. -/
def step (session : Session) (number : Nat) (step : Step) : Option (Report × Session) :=
  match session.connections[number]? with
  | none => some (⟨.refused .op, Revision.initial, [], []⟩, session)
  | some connection =>
    match session.databases[connection.database]? with
    | none => some (⟨.refused .op, Revision.initial, [], []⟩, session)
    | some db =>
      let db := { db with outside := session.world }
      match step.operation? session.catalog.length connection.isShared with
      | some (.ok plan) => session.perform connection.database db plan
      | some (.error refusal) => some (session.reportOn (.refused refusal) db, session)
      | none =>
        let (answer, session) := session.arrange number connection db step
        some (session.reportOn answer db, session)

/-- Performs steps one after the other, each on the database of its number. -/
def run (session : Session) : List (Nat × Step) → Option (List Report)
  | [] => some []
  | (number, step) :: steps =>
    (session.step number step).bind fun (report, session) ↦
      (session.run steps).map (report :: ·)

end Session

end Incremental.Script
