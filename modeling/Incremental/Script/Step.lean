import Incremental.History
import Incremental.Script.QueryName

/-!
# Steps

What a script asks for, as it is written: queries, arguments and values that may turn out not to
be there or not to fit. What does not make sense is refused and touches no database.
-/

namespace Incremental.Script

/-- A query and an argument as they are written. Each may be missing or make no sense. -/
structure Target where
  query : Option Reference
  argument : Option Value

/-- What may be asked for by itself or in a batch. -/
inductive Request
  | query (target : Target)
  | set (target : Target) (value : Option Value)
  | setIfChanged (target : Target) (value : Option Value)
  | remove (target : Target)
  | revision
  | raise (message : String)
  | read (requests : List Request)
  | unknown

inductive Step
  | request (request : Request)
  | run (requests : List Request)
  | clearCache
  | report
  | statistics
  | configuration
  | inspect (inspection : Inspection)
  | new (maxDepth : Option Nat) (isShared : Bool)
  | share
  /-- Adds a number for the same shared database. -/
  | clone
  | setCell (i : Nat) (value : Option Value)
  /-- How often a logic was begun. -/
  | count (name : String)
  | unknown

inductive Refusal
  | query
  /-- The argument is not of the kind that the query takes. -/
  | key
  /-- The argument or the value is not of the kind that the query takes. -/
  | value
  /-- The step is unknown or cannot be asked for there. -/
  | op
  deriving DecidableEq, Repr

def Refusal.word : Refusal → String
  | query => "query"
  | key => "key"
  | value => "value"
  | op => "op"

inductive Answer
  | done
  | flag (b : Bool)
  | number (n : Nat)
  | revision (r : Revision)
  | value (v : Value)
  | failure (failure : Failure)
  | batch (answers : List Answer)
  | statistics (statistics : Statistics)
  | configuration (configuration : Configuration)
  | finding (finding : Finding)
  | refused (refusal : Refusal)
  | panic (message : String)

mutual

def Answer.ofReply : Reply Value → Answer
  | .done => .done
  | .flag b => .flag b
  | .revision r => .revision r
  | .value v => .value v
  | .failure f => .failure f
  | .batch replies => .batch (Answer.ofReplies replies)

def Answer.ofReplies : List (Reply Value) → List Answer
  | [] => []
  | reply :: replies => Answer.ofReply reply :: Answer.ofReplies replies

end

/-- Something to do, and how its reply is to be understood. -/
structure Plan (α : Type) where
  task : α
  understand : Reply Value → Answer := Answer.ofReply

namespace Plan

/-- What is to be done of a batch in which steps may be refused. -/
def tasks {α : Type} (plans : List (Except Refusal (Plan α))) : List α :=
  plans.filterMap fun plan ↦ plan.toOption.map Plan.task

/-- Puts the replies to the steps of a batch and the refusals together, in the order of the
steps. -/
def answers {α : Type} : List (Except Refusal (Plan α)) → List (Reply Value) → List Answer
  | [], _ => []
  | .error refusal :: plans, replies => .refused refusal :: answers plans replies
  | .ok plan :: plans, reply :: replies => plan.understand reply :: answers plans replies
  | .ok _ :: _, [] => []

def understandBatch {α : Type} (plans : List (Except Refusal (Plan α))) : Reply Value → Answer
  | .batch replies => .batch (answers plans replies)
  | reply => .ofReply reply

end Plan

namespace Target

variable {α : Type}

def query? (definitions : Nat) (target : Target) : Except Refusal QueryName :=
  match target.query.bind (Reference.resolve? definitions) with
  | some q => .ok q
  | none => .error .query

def resolve (definitions : Nat) (target : Target) (otherwise : Refusal) :
    Except Refusal (QueryName × Argument) := do
  let q ← target.query? definitions
  match target.argument.bind q.argumentKind.argument? with
  | some k => return (q, k)
  | none => .error otherwise

def resolveWith (definitions : Nat) (target : Target) (value : Option Value) :
    Except Refusal (QueryName × Argument × Value) := do
  let (q, k) ← target.resolve definitions .value
  match value.filter q.valueKind.accepts with
  | some v => return (q, k, v)
  | none => .error .value

end Target

namespace Request

/-- The question that a request asks, if it is one. -/
def inquiry (definitions : Nat) : Request → Except Refusal (Plan (Inquiry QueryName Argument))
  | query target => do
    let (q, k) ← target.resolve definitions .key
    return { task := .query q k }
  | revision => return { task := .revision }
  | raise message => return { task := .raise message }
  | _ => .error .op

def action (definitions : Nat) : Request → Except Refusal (Plan (Action QueryName Argument Value))
  | set target value => do
    let (q, k, v) ← target.resolveWith definitions value
    return { task := .edit (.set q k v) }
  | setIfChanged target value => do
    let (q, k, v) ← target.resolveWith definitions value
    return { task := .edit (.setIfChanged q k v) }
  | remove target => do
    let (q, k) ← target.resolve definitions .key
    return { task := .edit (.remove q k) }
  | read requests =>
    let plans := requests.map (inquiry definitions)
    return { task := .read (Plan.tasks plans), understand := Plan.understandBatch plans }
  | request => do
    let plan ← request.inquiry definitions
    return { task := .inquire plan.task, understand := plan.understand }

/-- Whether a request can be asked for outside a batch. On a shared database values are always
assigned. -/
def isAvailable (isShared : Bool) : Request → Bool
  | raise _ | unknown => false
  | setIfChanged .. => !isShared
  | _ => true

end Request

namespace Step

/-- The operation on a database that a step asks for. Nothing is said of steps that are no such
operation. -/
def operation? (definitions : Nat) (isShared : Bool) :
    Step → Option (Except Refusal (Plan (Operation QueryName Argument Value)))
  | request r => some <|
    if r.isAvailable isShared then do
      let plan ← r.action definitions
      return { task := .act plan.task, understand := plan.understand }
    else .error .op
  | run requests => some <|
    let plans := requests.map (Request.action definitions)
    .ok { task := .run (Plan.tasks plans), understand := Plan.understandBatch plans }
  | clearCache => some (if isShared then .error .op else .ok { task := .clearCache })
  | report => some (if isShared then .error .op else .ok { task := .report })
  | _ => none

end Step

end Incremental.Script
