import Incremental.Revision

/-!
# Snapshots

A picture of what a database keeps, with arguments, values and dependencies as text, for people
to read and for tests to ask.
-/

namespace Incremental

/-- Whether a value was assigned or computed. -/
inductive EntryKind
  | input
  | derived
  deriving DecidableEq, Repr

structure Entry where
  key : String
  value : String
  kind : EntryKind
  changedAt : Revision
  /-- Nothing for an assigned value. -/
  verifiedAt : Option Revision
  dependencies : List String
  deriving DecidableEq, Repr

structure QuerySnapshot where
  name : String
  entries : List Entry
  deriving DecidableEq, Repr

/-- What is kept for all queries, in the order in which they were first used. -/
structure Snapshot where
  revision : Revision
  queries : List QuerySnapshot
  deriving DecidableEq, Repr

structure Statistics where
  queries : Nat
  inputs : Nat
  derived : Nat
  revision : Revision
  deriving DecidableEq, Repr

namespace Entry

/-- What is said about an entry beside its value. -/
def remark (entry : Entry) : String :=
  match entry.kind with
  | .input => "input changed=" ++ Revision.text entry.changedAt
  | .derived =>
    "derived changed=" ++ Revision.text entry.changedAt
      ++ " verified=" ++ (entry.verifiedAt.map Revision.text).getD "-"
      ++ " deps=[" ++ String.intercalate ", " entry.dependencies ++ "]"

def line (entry : Entry) : String :=
  "  " ++ entry.key ++ " = " ++ entry.value ++ " [" ++ entry.remark ++ "]\n"

end Entry

namespace QuerySnapshot

def entry? (query : QuerySnapshot) (key : String) : Option Entry :=
  query.entries.find? fun entry ↦ entry.key == key

def text (query : QuerySnapshot) : String :=
  "query " ++ query.name ++ "\n" ++ String.join (query.entries.map Entry.line)

end QuerySnapshot

namespace Snapshot

def query? (snapshot : Snapshot) (name : String) : Option QuerySnapshot :=
  snapshot.queries.find? fun query ↦ query.name == name

/-- The first entry with a given key, looked for in the first query with a given name only. -/
def entry? (snapshot : Snapshot) (name key : String) : Option Entry :=
  (snapshot.query? name).bind fun query ↦ query.entry? key

def size (snapshot : Snapshot) : Nat := (snapshot.queries.flatMap QuerySnapshot.entries).length

def isEmpty (snapshot : Snapshot) : Bool := snapshot.size == 0

def text (snapshot : Snapshot) : String :=
  "current revision = " ++ Revision.text snapshot.revision ++ "\n"
    ++ String.join (snapshot.queries.map QuerySnapshot.text)

end Snapshot

/-- What can be asked of a snapshot. -/
inductive Inspection
  | whole
  | text
  | size
  | entry (name key : String)
  | query (name : String)
  deriving DecidableEq, Repr

inductive Finding
  | whole (snapshot : Snapshot)
  | text (text : String)
  | size (size : Nat) (isEmpty : Bool)
  | entry (entry : Option Entry)
  | query (query : Option QuerySnapshot)
  deriving DecidableEq, Repr

def Snapshot.inspect (snapshot : Snapshot) : Inspection → Finding
  | .whole => .whole snapshot
  | .text => .text snapshot.text
  | .size => .size snapshot.size snapshot.isEmpty
  | .entry name key => .entry (snapshot.entry? name key)
  | .query name => .query (snapshot.query? name)

end Incremental
