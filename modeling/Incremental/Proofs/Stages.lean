import Incremental.Proofs.Acyclicity
import Mathlib.Logic.Relation

/-!
# Stages of a run

A run in small steps. A stage is a database together with what is left of the body that runs and
the calls that wait for its outcome; a body is begun, goes on and is left in separate steps, and
between two operations anything may be asked for or changed. So what can be reached includes the
states inside queries that panic, or do not end. A query that ends is made of such steps, and
whatever the steps of a body come to is what running it gives.
-/

namespace Incremental

variable {Q K V W : Type}

/-- A read that waits for the evaluation of `key`, which was begun inside `depth` others. -/
structure Call (Q K V W : Type) where
  key : Handle
  depth : Nat
  /-- How the reader goes on. -/
  next : Outcome V → Body Q K V W V

structure Stage (Q K V W : Type) where
  db : Database Q K V W
  body : Body Q K V W V
  /-- The calls that wait, the innermost first. -/
  calls : List (Call Q K V W) := []

namespace Database

variable [DecidableEq Q] [BEq K]

/-- A read is answered without its body being begun. -/
inductive AnswersAtOnce (P : Program Q K V W) (q : Q) (k : K) (db : Database Q K V W) :
    Outcome V → Database Q K V W → Prop
  | refused {key : Handle} {db₁ : Database Q K V W} (hkey : db.intern q k = (key, db₁))
      (hactive : db₁.stack.isActive key = true) :
      AnswersAtOnce P q k db (.failure (db₁.circle P key)) (db₁.note (.refused (db₁.circle P key)))
  | hit {fuel : Nat} {key : Handle} {db₁ db₂ : Database Q K V W} {v : V} {c : Revision}
      (hkey : db.intern q k = (key, db₁)) (hactive : db₁.stack.isActive key = false)
      (hretrieve : (db₁.recordRead key).retrieve fuel key = some (some (v, c), db₂)) :
      AnswersAtOnce P q k db (.value v) ((db₂.note (.hit q k)).observe c)
  | tooDeep {fuel : Nat} {key : Handle} {db₁ db₂ : Database Q K V W} {limit : Nat}
      (hkey : db.intern q k = (key, db₁)) (hactive : db₁.stack.isActive key = false)
      (hretrieve : (db₁.recordRead key).retrieve fuel key = some (none, db₂))
      (hbroken : db₂.configuration.brokenAt db₂.stack.depth = some limit) :
      AnswersAtOnce P q k db (.failure (.tooDeep limit (db₂.label P key))) (db₂.note (.miss q k))

theorem AnswersAtOnce.exists_query {P : Program Q K V W} {q : Q} {k : K} {db db' : Database Q K V W}
    {a : Outcome V} (h : AnswersAtOnce P q k db a db') :
    ∃ fuel, query P fuel q k db = some (a, db') := by
  cases h with
  | refused hkey hactive => exact ⟨1, query_of_active hkey hactive 0⟩
  | hit hkey hactive hretrieve => exact ⟨_, query_of_hit hkey hactive hretrieve⟩
  | tooDeep hkey hactive hretrieve hbroken =>
      exact ⟨_, query_of_tooDeep hkey hactive hretrieve hbroken⟩

end Database

namespace Stage

open Database Relation

variable [DecidableEq Q] [BEq K]

/-- One step of an evaluation. -/
inductive Evaluates (P : Program Q K V W) : Stage Q K V W → Stage Q K V W → Prop
  | answers {q : Q} {k : K} {next : Outcome V → Body Q K V W V} {calls : List (Call Q K V W)}
      {db db' : Database Q K V W} {a : Outcome V} (h : AnswersAtOnce P q k db a db') :
      Evaluates P ⟨db, .read q k next, calls⟩ ⟨db', next a, calls⟩
  | enters {q : Q} {k : K} {next : Outcome V → Body Q K V W V} {calls : List (Call Q K V W)}
      {fuel : Nat} {db db₁ db₂ : Database Q K V W} {key : Handle}
      (hkey : db.intern q k = (key, db₁)) (hactive : db₁.stack.isActive key = false)
      (hretrieve : (db₁.recordRead key).retrieve fuel key = some (none, db₂))
      (hbroken : db₂.configuration.brokenAt db₂.stack.depth = none) :
      Evaluates P ⟨db, .read q k next, calls⟩
        ⟨(db₂.note (.miss q k)).enter q k key, P.body q k, ⟨key, db₂.stack.depth, next⟩ :: calls⟩
  | leaves {o : Outcome V} {call : Call Q K V W} {calls : List (Call Q K V W)}
      {db : Database Q K V W} :
      Evaluates P ⟨db, .done o, call :: calls⟩
        ⟨(leave call.key call.depth (o, db)).2, call.next (leave call.key call.depth (o, db)).1,
          calls⟩
  | revision {next : Revision → Body Q K V W V} {calls : List (Call Q K V W)}
      {db : Database Q K V W} :
      Evaluates P ⟨db, .revision next, calls⟩ ⟨db, next db.revision, calls⟩
  | outside {change : W → W} {next : W → Body Q K V W V} {calls : List (Call Q K V W)}
      {db : Database Q K V W} :
      Evaluates P ⟨db, .outside change next, calls⟩
        ⟨{ db with outside := change db.outside }, next db.outside, calls⟩

/-- One step of a run: of an evaluation, or between two operations. -/
inductive Step [BEq V] (P : Program Q K V W) : Stage Q K V W → Stage Q K V W → Prop
  | evaluates {t t' : Stage Q K V W} (h : Evaluates P t t') : Step P t t'
  | asks {db : Database Q K V W} {o : Outcome V} (q : Q) (k : K) :
      Step P ⟨db, .done o, []⟩ ⟨db, .get q k, []⟩
  | edits {db : Database Q K V W} {o : Outcome V} (e : Edit Q K V) :
      Step P ⟨db, .done o, []⟩ ⟨(edit e db).2, .done o, []⟩
  | clears {db : Database Q K V W} {o : Outcome V} :
      Step P ⟨db, .done o, []⟩ ⟨db.clearCache, .done o, []⟩
  | reports {db : Database Q K V W} {o : Outcome V} :
      Step P ⟨db, .done o, []⟩ ⟨db.report P, .done o, []⟩

/-- The second stage may follow the first, at once or at any time later. -/
def Later [BEq V] (P : Program Q K V W) : Stage Q K V W → Stage Q K V W → Prop :=
  ReflTransGen (Step P)

/-- Some run on a new database comes to the stage. -/
def Reached [BEq V] (P : Program Q K V W) (t : Stage Q K V W) : Prop :=
  ∃ configuration w o, Later P ⟨{ configuration, outside := w }, .done o, []⟩ t

/-- The databases at a stage: its own, and those that the verification of a memo passes through
which is read next. -/
inductive Shows : Stage Q K V W → Database Q K V W → Prop
  | here {t : Stage Q K V W} : Shows t t.db
  | looks {q : Q} {k : K} {next : Outcome V → Body Q K V W V} {calls : List (Call Q K V W)}
      {db db₁ s : Database Q K V W} {key : Handle} {v : V} {c w : Revision} {reads : List Handle}
      (hkey : db.intern q k = (key, db₁)) (hactive : db₁.stack.isActive key = false)
      (hm : (db₁.recordRead key).store.memo? key = some (.derived v c w reads))
      (h : Walks w [key] (db₁.recordRead key) s) : Shows ⟨db, .read q k next, calls⟩ s

/-- The next step of an evaluation, with `fuel` for the verification of a memo. -/
def step? (P : Program Q K V W) (fuel : Nat) : Stage Q K V W → Option (Stage Q K V W)
  | ⟨db, .read q k next, calls⟩ =>
    let (key, db) := db.intern q k
    if db.stack.isActive key then
      some ⟨db.note (.refused (db.circle P key)), next (.failure (db.circle P key)), calls⟩
    else
      ((db.recordRead key).retrieve fuel key).map fun
        | (some (v, c), db) => ⟨(db.note (.hit q k)).observe c, next (.value v), calls⟩
        | (none, db) =>
          match db.configuration.brokenAt db.stack.depth with
          | some limit =>
            ⟨db.note (.miss q k), next (.failure (.tooDeep limit (db.label P key))), calls⟩
          | none =>
            ⟨(db.note (.miss q k)).enter q k key, P.body q k, ⟨key, db.stack.depth, next⟩ :: calls⟩
  | ⟨_, .done _, []⟩ => none
  | ⟨db, .done o, call :: calls⟩ =>
    let (a, db) := leave call.key call.depth (o, db)
    some ⟨db, call.next a, calls⟩
  | ⟨db, .revision next, calls⟩ => some ⟨db, next db.revision, calls⟩
  | ⟨db, .outside change next, calls⟩ =>
    some ⟨{ db with outside := change db.outside }, next db.outside, calls⟩

/-- The outcome of the body, if it has ended. -/
def outcome? (t : Stage Q K V W) : Option (Outcome V) :=
  match t.body with
  | .done o => some o
  | _ => none

omit [DecidableEq Q] [BEq K] in
theorem body_of_outcome? {t : Stage Q K V W} {o : Outcome V} (h : t.outcome? = some o) :
    t.body = .done o := by
  rcases t with ⟨db, _ | _ | _ | _, calls⟩ <;> cases h
  rfl

/-- The next read of the body, if that is what it does next. -/
def reading? (t : Stage Q K V W) : Option (Q × K) :=
  match t.body with
  | .read q k _ => some (q, k)
  | _ => none

/-- The answer to the next read of the body, and the stage after it. -/
def answer? (P : Program Q K V W) (fuel : Nat) :
    Stage Q K V W → Option (Outcome V × Stage Q K V W)
  | ⟨db, .read q k next, calls⟩ =>
    (query P fuel q k db).map fun (a, db) ↦ (a, ⟨db, next a, calls⟩)
  | _ => none

/-- The stage after `count` steps of an evaluation. -/
def steps? (P : Program Q K V W) (fuel : Nat) : Nat → Stage Q K V W → Option (Stage Q K V W)
  | 0, t => some t
  | count + 1, t => (t.step? P fuel).bind (steps? P fuel count)

theorem evaluates_of_step? {P : Program Q K V W} {fuel : Nat} {t t' : Stage Q K V W}
    (h : t.step? P fuel = some t') : Evaluates P t t' := by
  rcases t with ⟨db, _ | ⟨q, k, next⟩ | next | ⟨change, next⟩, calls⟩
  · cases calls with
    | nil => cases h
    | cons call calls =>
        cases h
        exact .leaves
  · obtain ⟨key, db₁, hkey⟩ : ∃ key db₁, db.intern q k = (key, db₁) := ⟨_, _, rfl⟩
    simp only [step?, hkey] at h
    split at h
    · next hactive =>
        cases h
        exact .answers (.refused hkey hactive)
    · next hactive =>
        have hactive : db₁.stack.isActive key = false := by simpa using hactive
        obtain ⟨⟨_ | ⟨v, c⟩, db₂⟩, hretrieve, hend⟩ := Option.map_eq_some_iff.mp h
        · dsimp only at hend
          split at hend <;> cases hend
          · next hbroken => exact .answers (.tooDeep hkey hactive hretrieve hbroken)
          · next hbroken => exact .enters hkey hactive hretrieve hbroken
        · cases hend
          exact .answers (.hit hkey hactive hretrieve)
  · cases h
    exact .revision
  · cases h
    exact .outside

theorem evaluates_of_steps? {P : Program Q K V W} {fuel count : Nat} {t t' : Stage Q K V W}
    (h : t.steps? P fuel count = some t') : ReflTransGen (Evaluates P) t t' := by
  induction count generalizing t with
  | zero =>
      cases h
      exact .refl
  | succ count ih =>
      obtain ⟨t₁, hstep, hsteps⟩ := Option.bind_eq_some_iff.mp h
      exact .head (evaluates_of_step? hstep) (ih hsteps)

section

variable {P : Program Q K V W} {fuel : Nat} {q : Q} {k : K} {b : Body Q K V W V}
  {db db' s : Database Q K V W} {a o : Outcome V}

/-- What ends is made of small steps. -/
theorem evaluates_course : Course P
    (fun q k db a db' ↦ ∀ next calls,
      ReflTransGen (Evaluates P) ⟨db, .read q k next, calls⟩ ⟨db', next a, calls⟩)
    (fun b db o db' ↦ ∀ calls,
      ReflTransGen (Evaluates P) ⟨db, b, calls⟩ ⟨db', .done o, calls⟩) where
  refused := fun _ q k db key db₁ hkey hactive _ next calls ↦
    .single (.answers (.refused hkey hactive))
  hit := fun _ n q k db key db₁ v c db₂ hkey hactive hretrieve _ next calls ↦
    .single (.answers (.hit hkey hactive hretrieve))
  tooDeep := fun _ n q k db key db₁ db₂ limit hkey hactive hretrieve hbroken _ next calls ↦
    .single (.answers (.tooDeep hkey hactive hretrieve hbroken))
  computed := by
    intro fuel n q k db key db₁ db₂ o db₃ hkey hactive hretrieve hbroken _ _ hruns next calls
    exact .head (.enters hkey hactive hretrieve hbroken) (.tail (hruns _) .leaves)
  done := fun _ _ _ ↦ .refl
  read := fun _ q k next db a db₁ o db₂ _ _ hread hruns calls ↦
    (hread next calls).trans (hruns calls)
  revision := fun next db o db₁ hruns calls ↦ .head .revision (hruns calls)
  outside := fun change next db o db₁ hruns calls ↦ .head .outside (hruns calls)

theorem evaluates_query (h : query P fuel q k db = some (a, db'))
    (next : Outcome V → Body Q K V W V) (calls : List (Call Q K V W)) :
    ReflTransGen (Evaluates P) ⟨db, .read q k next, calls⟩ ⟨db', next a, calls⟩ :=
  evaluates_course.query h next calls

theorem evaluates_run (h : b.run (query P fuel) db = some (o, db')) (calls : List (Call Q K V W)) :
    ReflTransGen (Evaluates P) ⟨db, b, calls⟩ ⟨db', .done o, calls⟩ :=
  evaluates_course.run h calls

/-- Every database that a body passes through is shown at some stage of its evaluation. -/
theorem exists_shows_of_passes (h : Passes P b db s) (calls : List (Call Q K V W)) :
    ∃ t, ReflTransGen (Evaluates P) ⟨db, b, calls⟩ t ∧ t.Shows s := by
  induction h generalizing calls with
  | here => exact ⟨_, .refl, .here⟩
  | looks hkey hactive hm h => exact ⟨_, .refl, .looks hkey hactive hm h⟩
  | inside hkey hactive hretrieve hbroken _ ih =>
      obtain ⟨t, ht, hs⟩ := ih _
      exact ⟨t, .head (.enters hkey hactive hretrieve hbroken) ht, hs⟩
  | later hread _ ih =>
      obtain ⟨t, ht, hs⟩ := ih calls
      exact ⟨t, (evaluates_query hread _ calls).trans ht, hs⟩
  | revision _ ih =>
      obtain ⟨t, ht, hs⟩ := ih calls
      exact ⟨t, .head .revision ht, hs⟩
  | outside _ ih =>
      obtain ⟨t, ht, hs⟩ := ih calls
      exact ⟨t, .head .outside ht, hs⟩

/-- Ends the calls that wait, one after the other. -/
def unwind (P : Program Q K V W) (fuel : Nat) :
    List (Call Q K V W) → Outcome V × Database Q K V W → Option (Outcome V × Database Q K V W)
  | [], r => some r
  | call :: calls, r =>
    ((call.next (leave call.key call.depth r).1).run (query P fuel)
      (leave call.key call.depth r).2).bind (unwind P fuel calls)

/-- What running the body, and then the calls that wait, comes to. -/
def result (P : Program Q K V W) (fuel : Nat) (t : Stage Q K V W) :
    Option (Outcome V × Database Q K V W) :=
  (t.body.run (query P fuel) t.db).bind (unwind P fuel t.calls)

variable {fuel' : Nat} {r : Outcome V × Database Q K V W}

theorem unwind_mono (hle : fuel ≤ fuel') {calls : List (Call Q K V W)}
    {p : Outcome V × Database Q K V W} (h : unwind P fuel calls p = some r) :
    unwind P fuel' calls p = some r := by
  induction calls generalizing p with
  | nil => exact h
  | cons call calls ih =>
      obtain ⟨p', hrun, hunwind⟩ := Option.bind_eq_some_iff.mp h
      rw [unwind, run_mono hle hrun]
      exact ih hunwind

theorem result_mono (hle : fuel ≤ fuel') {t : Stage Q K V W} (h : t.result P fuel = some r) :
    t.result P fuel' = some r := by
  obtain ⟨p, hrun, hunwind⟩ := Option.bind_eq_some_iff.mp h
  rw [result, run_mono hle hrun]
  exact unwind_mono hle hunwind

/-- What an evaluation comes to after a step, it came to before. -/
theorem Evaluates.exists_result {t t' : Stage Q K V W} (h : Evaluates P t t')
    (hr : ∃ fuel, t'.result P fuel = some r) : ∃ fuel, t.result P fuel = some r := by
  obtain ⟨fuel, hr⟩ := hr
  cases h with
  | answers h =>
      obtain ⟨fuel', hquery⟩ := h.exists_query
      refine ⟨max fuel fuel', ?_⟩
      have hr := result_mono (Nat.le_max_left fuel fuel') hr
      simp only [result, Body.run, query_mono (Nat.le_max_right fuel fuel') hquery,
        Option.bind_some]
      exact hr
  | @enters q k next calls fuel' db db₁ db₂ key hkey hactive hretrieve hbroken =>
      obtain ⟨⟨o, db₃⟩, hrun, hunwind⟩ := Option.bind_eq_some_iff.mp hr
      have hquery := query_of_run hkey hactive hretrieve hbroken hrun
      refine ⟨max fuel' fuel + 1, ?_⟩
      have hunwind := unwind_mono (Nat.le_succ_of_le (Nat.le_max_right fuel' fuel)) hunwind
      simp only [result, Body.run, hquery, Option.bind_some]
      exact hunwind
  | leaves => exact ⟨fuel, hr⟩
  | revision => exact ⟨fuel, hr⟩
  | outside => exact ⟨fuel, hr⟩

theorem exists_result {t : Stage Q K V W}
    (h : ReflTransGen (Evaluates P) t ⟨db', .done o, []⟩) :
    ∃ fuel, t.result P fuel = some (o, db') := by
  induction h using ReflTransGen.head_induction_on with
  | refl => exact ⟨0, rfl⟩
  | head h _ ih => exact h.exists_result ih

/-- The small steps of a body come to what running it gives, and to nothing else. -/
theorem evaluates_iff_run : ReflTransGen (Evaluates P) ⟨db, b, []⟩ ⟨db', .done o, []⟩ ↔
    ∃ fuel, b.run (query P fuel) db = some (o, db') := by
  constructor
  · intro h
    obtain ⟨fuel, hresult⟩ := exists_result h
    obtain ⟨p, hrun, hunwind⟩ := Option.bind_eq_some_iff.mp hresult
    exact ⟨fuel, hrun.trans hunwind⟩
  · rintro ⟨fuel, h⟩
    exact evaluates_run h []

/-- The body passes through `s`, or a call that waits does once what it waits for has ended. -/
inductive PassesThrough (P : Program Q K V W) : Stage Q K V W → Database Q K V W → Prop
  | here {b : Body Q K V W V} {db s : Database Q K V W} {calls : List (Call Q K V W)}
      (h : Passes P b db s) : PassesThrough P ⟨db, b, calls⟩ s
  | after {fuel : Nat} {b : Body Q K V W V} {db db' s : Database Q K V W} {o : Outcome V}
      {call : Call Q K V W} {calls : List (Call Q K V W)}
      (hrun : b.run (query P fuel) db = some (o, db'))
      (h : PassesThrough P ⟨(leave call.key call.depth (o, db')).2,
        call.next (leave call.key call.depth (o, db')).1, calls⟩ s) :
      PassesThrough P ⟨db, b, call :: calls⟩ s

theorem PassesThrough.read {next : Outcome V → Body Q K V W V} {calls : List (Call Q K V W)}
    (h : PassesThrough P ⟨db', next a, calls⟩ s) (hquery : query P fuel q k db = some (a, db')) :
    PassesThrough P ⟨db, .read q k next, calls⟩ s := by
  cases h with
  | here h => exact .here (.later hquery h)
  | after hrun h => exact .after (run_read hquery hrun) h

theorem Evaluates.passesThrough {t t' : Stage Q K V W} (h : Evaluates P t t')
    (ht' : PassesThrough P t' s) : PassesThrough P t s := by
  cases h with
  | answers h =>
      obtain ⟨fuel, hquery⟩ := h.exists_query
      exact ht'.read hquery
  | enters hkey hactive hretrieve hbroken =>
      cases ht' with
      | here h => exact .here (.inside hkey hactive hretrieve hbroken h)
      | after hrun h => exact h.read (query_of_run hkey hactive hretrieve hbroken hrun)
  | @leaves o _ _ db =>
      have hrun : (Body.done o).run (query P 0) db = some (o, db) := rfl
      exact .after hrun ht'
  | revision =>
      cases ht' with
      | here h => exact .here (.revision h)
      | after hrun h => exact .after hrun h
  | outside =>
      cases ht' with
      | here h => exact .here (.outside h)
      | after hrun h => exact .after hrun h

theorem passesThrough_of_shows {t t' : Stage Q K V W} (h : ReflTransGen (Evaluates P) t t')
    (hs : t'.Shows s) : PassesThrough P t s := by
  induction h using ReflTransGen.head_induction_on with
  | refl =>
      cases hs with
      | here => exact .here .here
      | looks hkey hactive hm h => exact .here (.looks hkey hactive hm h)
  | head h _ ih => exact h.passesThrough ih

/-- What a body passes through is what is shown at the stages of its evaluation. -/
theorem passes_iff_shows :
    Passes P b db s ↔ ∃ t, ReflTransGen (Evaluates P) ⟨db, b, []⟩ t ∧ t.Shows s := by
  refine ⟨fun h ↦ exists_shows_of_passes h [], ?_⟩
  rintro ⟨t, ht, hs⟩
  cases passesThrough_of_shows ht hs with
  | here h => exact h

end

variable [BEq V] {P : Program Q K V W} {t t' t'' : Stage Q K V W} {fuel : Nat}
  {db db' : Database Q K V W}

theorem Later.of_evaluates (h : ReflTransGen (Evaluates P) t t') : Later P t t' :=
  ReflTransGen.mono (fun _ _ h ↦ .evaluates h) _ _ h

theorem Later.trans (h : Later P t t') (h' : Later P t' t'') : Later P t t'' :=
  ReflTransGen.trans h h'

theorem Reached.later (h : Reached P t) (h' : Later P t t') : Reached P t' := by
  obtain ⟨configuration, w, o, h⟩ := h
  exact ⟨configuration, w, o, h.trans h'⟩

/-- What holds of a new database and is kept by every step holds at every stage. -/
theorem Reached.keeps (kept : Stage Q K V W → Prop)
    (hinitial : ∀ configuration w o, kept ⟨{ configuration, outside := w }, .done o, []⟩)
    (hstep : ∀ t t', kept t → Step P t t' → kept t') (h : Reached P t) : kept t := by
  obtain ⟨configuration, w, o, h⟩ := h
  induction h with
  | refl => exact hinitial configuration w o
  | tail _ hlast ih => exact hstep _ _ ih hlast

/-- A read that is answered is followed by what its reader goes on with. -/
theorem later_query {q : Q} {k : K} {a : Outcome V} (h : query P fuel q k db = some (a, db'))
    (next : Outcome V → Body Q K V W V) (calls : List (Call Q K V W)) :
    Later P ⟨db, .read q k next, calls⟩ ⟨db', next a, calls⟩ :=
  .of_evaluates (evaluates_query h next calls)

theorem later_of_answer? {a : Outcome V} (h : t.answer? P fuel = some (a, t')) {q : Q} {k : K}
    (hreading : t.reading? = some (q, k)) : query P fuel q k t.db = some (a, t'.db) ∧
      Later P t t' ∧ ∃ next, t = ⟨t.db, .read q k next, t.calls⟩ := by
  rcases t with ⟨db, _ | ⟨q, k, next⟩ | _ | _, calls⟩ <;> cases hreading
  obtain ⟨⟨a, db'⟩, hquery, hend⟩ := Option.map_eq_some_iff.mp h
  cases hend
  exact ⟨hquery, later_query hquery next calls, next, rfl⟩

/-- A history is made of steps, too. -/
theorem later_performAll {ops : List (Operation Q K V)} {replies : List (Except String (Reply V))}
    (h : performAll P fuel ops db = some (replies, db')) (o : Outcome V) :
    ∃ o', Later P ⟨db, .done o, []⟩ ⟨db', .done o', []⟩ := by
  refine performAll_keeps (fun db' ↦ ∃ o', Later P ⟨db, .done o, []⟩ ⟨db', .done o', []⟩)
    (fun op _ db₁ r db₂ ↦ ?_) ⟨o, .refl⟩ h
  refine perform_keeps (fun db' ↦ ∃ o', Later P ⟨db, .done o, []⟩ ⟨db', .done o', []⟩) ?_ ?_ ?_ ?_
  · rintro q k db₁ a db₂ ⟨o', hlater⟩ hquery
    exact ⟨a, (ReflTransGen.tail hlater (.asks q k)).trans (later_query hquery .done [])⟩
  · rintro e _ db₁ ⟨o', hlater⟩
    exact ⟨o', .tail hlater (.edits e)⟩
  · rintro _ db₁ ⟨o', hlater⟩
    exact ⟨o', .tail hlater .clears⟩
  · rintro db₁ ⟨o', hlater⟩
    exact ⟨o', .tail hlater .reports⟩

theorem reached_performAll {configuration : Configuration} {w : W} {ops : List (Operation Q K V)}
    {replies : List (Except String (Reply V))}
    (h : performAll P fuel ops { configuration, outside := w } = some (replies, db)) :
    ∃ o, Reached P ⟨db, .done o, []⟩ := by
  obtain ⟨o, hlater⟩ := later_performAll h (.panic "")
  exact ⟨o, configuration, w, _, hlater⟩

theorem reached_of_steps? {configuration : Configuration} {w : W} {ops : List (Operation Q K V)}
    {replies : List (Except String (Reply V))}
    (h : performAll P fuel ops { configuration, outside := w } = some (replies, db)) {q : Q} {k : K}
    {fuel' count : Nat} (hsteps : steps? P fuel' count ⟨db, .get q k, []⟩ = some t) :
    Reached P t := by
  obtain ⟨o, hrest⟩ := reached_performAll h
  exact hrest.later (.head (.asks q k) (Later.of_evaluates (evaluates_of_steps? hsteps)))

/-- Some history on a new database leads to `db`. -/
def Recalled (P : Program Q K V W) (db : Database Q K V W) : Prop :=
  ∃ configuration w fuel ops replies,
    performAll P fuel ops { configuration, outside := w } = some (replies, db)

theorem Recalled.perform (h : Recalled P db) (op : Operation Q K V)
    (hop : ∃ fuel r, perform P fuel op db = some (r, db')) : Recalled P db' := by
  obtain ⟨configuration, w, fuel, ops, replies, hops⟩ := h
  obtain ⟨fuel', r, hop⟩ := hop
  refine ⟨configuration, w, max fuel fuel', ops ++ [op], replies ++ [r], ?_⟩
  have hops := performAll_mono (Nat.le_max_left fuel fuel') hops
  exact performAll_snoc hops (perform_mono (Nat.le_max_right fuel fuel') hop)

/-- Whatever is reached is reached inside the query that is asked for after some history, or right
after it. -/
theorem Reached.exists_history (h : Reached P t) : ∃ db, Recalled P db ∧
    ((∃ o, t = ⟨db, .done o, []⟩) ∨
      ∃ q k, ReflTransGen (Evaluates P) ⟨db, .get q k, []⟩ t) := by
  refine h.keeps (fun t ↦ ∃ db, Recalled P db ∧ ((∃ o, t = ⟨db, .done o, []⟩) ∨
    ∃ q k, ReflTransGen (Evaluates P) ⟨db, .get q k, []⟩ t)) (fun configuration w o ↦ ?_) ?_
  · exact ⟨_, ⟨configuration, w, 0, [], [], rfl⟩, .inl ⟨o, rfl⟩⟩
  · rintro t t' ⟨db, hdb, ht⟩ hstep
    -- between two operations the last query has ended, so it belongs to the history
    have hrest : ∀ {db' : Database Q K V W} {o : Outcome V}, t = ⟨db', .done o, []⟩ →
        Recalled P db' := by
      rintro db' o rfl
      rcases ht with ⟨o', heq⟩ | ⟨q, k, hevaluates⟩
      · cases heq
        exact hdb
      · obtain ⟨fuel, hrun⟩ := evaluates_iff_run.1 hevaluates
        obtain ⟨⟨a, db₁⟩, hquery, hend⟩ := Option.bind_eq_some_iff.mp hrun
        cases hend
        refine hdb.perform (.act (.inquire (.query q k))) ⟨fuel, a.reply, ?_⟩
        rw [perform_query, hquery]
        rfl
    cases hstep with
    | evaluates h =>
        rcases ht with ⟨o, rfl⟩ | ⟨q, k, hevaluates⟩
        · cases h
        · exact ⟨db, hdb, .inr ⟨q, k, .tail hevaluates h⟩⟩
    | @asks db' o q k => exact ⟨db', hrest rfl, .inr ⟨q, k, .refl⟩⟩
    | @edits db' o e =>
        exact ⟨_, (hrest rfl).perform (.act (.edit e)) ⟨0, _, rfl⟩, .inl ⟨o, rfl⟩⟩
    | @clears db' o =>
        exact ⟨_, (hrest rfl).perform .clearCache ⟨0, _, rfl⟩, .inl ⟨o, rfl⟩⟩
    | @reports db' o =>
        exact ⟨_, (hrest rfl).perform .report ⟨0, _, rfl⟩, .inl ⟨o, rfl⟩⟩

/-- So what is shown at a stage that is reached is the database after some history, or one that the
query passes through that is asked for next. -/
theorem Reached.exists_passes {s : Database Q K V W} (h : Reached P t) (hs : t.Shows s) :
    ∃ db, Recalled P db ∧ (s = db ∨ ∃ q k, Passes P (.get q k) db s) := by
  obtain ⟨db, hdb, ⟨o, rfl⟩ | ⟨q, k, hevaluates⟩⟩ := h.exists_history
  · cases hs
    exact ⟨db, hdb, .inl rfl⟩
  · exact ⟨db, hdb, .inr ⟨q, k, passes_iff_shows.2 ⟨t, hevaluates, hs⟩⟩⟩

end Stage

end Incremental
