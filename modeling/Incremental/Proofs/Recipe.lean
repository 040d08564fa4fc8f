import Incremental.Program
import Mathlib.Data.List.Induction

/-!
# Recipes

A recipe is the logic of a query that sees nothing but the answers to its reads. A body may
touch the outside state or ask for the revision and still do what a recipe says, as long as
neither decides what it reads and how it ends. The trace of a recipe is the list of its reads
with their answers.
-/

namespace Incremental

variable {Q K V W : Type}

/-- What a body does that only the answers to its reads decide. -/
inductive Recipe (Q K V : Type)
  | done (outcome : Outcome V)
  | read (x : Q × K) (next : Outcome V → Recipe Q K V)

/-- The body reads and ends as the recipe says, whatever the revision and the outside state are. -/
inductive Body.Obeys : Body Q K V W V → Recipe Q K V → Prop
  | done (outcome : Outcome V) : Obeys (.done outcome) (.done outcome)
  | read {q : Q} {k : K} {next : Outcome V → Body Q K V W V} {rest : Outcome V → Recipe Q K V}
      (h : ∀ answer, (next answer).Obeys (rest answer)) : Obeys (.read q k next) (.read (q, k) rest)
  | revision {next : Revision → Body Q K V W V} {t : Recipe Q K V}
      (h : ∀ r, (next r).Obeys t) : Obeys (.revision next) t
  | outside {change : W → W} {next : W → Body Q K V W V} {t : Recipe Q K V}
      (h : ∀ w, (next w).Obeys t) : Obeys (.outside change next) t

/-- All bodies of the program are pure: they do what the recipes say. -/
def Program.Obeys (P : Program Q K V W) (R : Q × K → Recipe Q K V) : Prop :=
  ∀ q k, (P.body q k).Obeys (R (q, k))

namespace Outcome

def IsValue {α : Type} (o : Outcome α) : Prop := ∃ a, o = .value a

@[simp] theorem isValue_value {α : Type} (a : α) : (Outcome.value a).IsValue := ⟨a, rfl⟩

@[simp] theorem not_isValue_failure {α : Type} (f : Failure) :
    ¬ (Outcome.failure f : Outcome α).IsValue := by
  rintro ⟨a, h⟩
  cases h

@[simp] theorem not_isValue_panic {α : Type} (message : String) :
    ¬ (Outcome.panic message : Outcome α).IsValue := by
  rintro ⟨a, h⟩
  cases h

def IsPanic {α : Type} (o : Outcome α) : Prop := ∃ message, o = .panic message

@[simp] theorem isPanic_panic {α : Type} (message : String) :
    (Outcome.panic message : Outcome α).IsPanic := ⟨message, rfl⟩

@[simp] theorem not_isPanic_value {α : Type} (a : α) : ¬ (Outcome.value a).IsPanic := by
  rintro ⟨message, h⟩
  cases h

@[simp] theorem not_isPanic_failure {α : Type} (f : Failure) :
    ¬ (Outcome.failure f : Outcome α).IsPanic := by
  rintro ⟨message, h⟩
  cases h

instance {α : Type} : (o : Outcome α) → Decidable o.IsPanic
  | panic message => isTrue ⟨message, rfl⟩
  | value a => isFalse (not_isPanic_value a)
  | failure f => isFalse (not_isPanic_failure f)

end Outcome

namespace Recipe

/-- Every read of the recipe is one of `p`. -/
def ReadsOnly (p : Q × K → Prop) : Recipe Q K V → Prop
  | done _ => True
  | read x next => p x ∧ ∀ answer, (next answer).ReadsOnly p

/-- The recipe panics only if a read has. -/
def Calm : Recipe Q K V → Prop
  | done outcome => ¬ outcome.IsPanic
  | read _ next => ∀ answer, ¬ answer.IsPanic → (next answer).Calm

/-- Reads `x` and goes on with its value; a failure or a panic is handed on. -/
def get (x : Q × K) (next : V → Recipe Q K V) : Recipe Q K V :=
  read x fun
    | .value v => next v
    | answer => done answer

@[simp] theorem readsOnly_done (p : Q × K → Prop) (outcome : Outcome V) :
    (done outcome : Recipe Q K V).ReadsOnly p := trivial

@[simp] theorem readsOnly_get (p : Q × K → Prop) (x : Q × K) (next : V → Recipe Q K V) :
    (get x next).ReadsOnly p ↔ p x ∧ ∀ v, (next v).ReadsOnly p := by
  refine ⟨fun h ↦ ⟨h.1, fun v ↦ h.2 (.value v)⟩, fun h ↦ ⟨h.1, fun answer ↦ ?_⟩⟩
  cases answer with
  | value v => exact h.2 v
  | failure f => trivial
  | panic message => trivial

@[simp] theorem calm_get (x : Q × K) (next : V → Recipe Q K V) :
    (get x next).Calm ↔ ∀ v, (next v).Calm := by
  refine ⟨fun h v ↦ h (.value v) (by simp), fun h answer hanswer ↦ ?_⟩
  cases answer with
  | value v => exact h v
  | failure f => simp [Calm]
  | panic message => exact absurd ⟨message, rfl⟩ hanswer

/-- Reads `x` and ends with its value, or with `v` if it fails. -/
def getOr (x : Q × K) (v : V) : Recipe Q K V :=
  read x fun
    | .failure _ => done (.value v)
    | answer => done answer

@[simp] theorem readsOnly_getOr (p : Q × K → Prop) (x : Q × K) (v : V) :
    (getOr x v).ReadsOnly p ↔ p x := by
  refine ⟨fun h ↦ h.1, fun h ↦ ⟨h, fun answer ↦ ?_⟩⟩
  cases answer <;> trivial

@[simp] theorem calm_getOr (x : Q × K) (v : V) : (getOr x v).Calm := by
  intro answer hanswer
  cases answer with
  | value w => simp [Calm]
  | failure f => simp [Calm]
  | panic message => exact absurd ⟨message, rfl⟩ hanswer

/-- `t.Trace ys u`: the reads and answers `ys` lead from `t` to `u`. -/
inductive Trace : Recipe Q K V → List ((Q × K) × Outcome V) → Recipe Q K V → Prop
  | nil (t : Recipe Q K V) : Trace t [] t
  | cons {x : Q × K} {next : Outcome V → Recipe Q K V} {answer : Outcome V}
      {ys : List ((Q × K) × Outcome V)} {u : Recipe Q K V} (h : Trace (next answer) ys u) :
      Trace (read x next) ((x, answer) :: ys) u

namespace Trace

variable {t u m : Recipe Q K V} {ys zs : List ((Q × K) × Outcome V)}

theorem append (h : t.Trace ys m) (h' : m.Trace zs u) : t.Trace (ys ++ zs) u := by
  induction h with
  | nil => exact h'
  | cons _ ih => exact .cons (ih h')

theorem snoc {x : Q × K} {next : Outcome V → Recipe Q K V} (h : t.Trace ys (.read x next))
    (answer : Outcome V) : t.Trace (ys ++ [(x, answer)]) (next answer) :=
  h.append (.cons (.nil _))

theorem split (h : t.Trace (ys ++ zs) u) : ∃ m, t.Trace ys m ∧ m.Trace zs u := by
  induction ys generalizing t with
  | nil => exact ⟨t, .nil t, h⟩
  | cons p ys ih =>
      cases h with
      | cons h =>
          obtain ⟨m, hm, hu⟩ := ih h
          exact ⟨m, .cons hm, hu⟩

theorem split_cons {x : Q × K} {answer : Outcome V} (h : t.Trace (ys ++ (x, answer) :: zs) u) :
    ∃ next, t.Trace ys (.read x next) ∧ (next answer).Trace zs u := by
  obtain ⟨m, hm, hu⟩ := h.split
  cases hu with
  | cons hu => exact ⟨_, hm, hu⟩

theorem eq_done {outcome : Outcome V} (h : (done outcome).Trace ys u) :
    ys = [] ∧ u = done outcome := by
  cases h
  exact ⟨rfl, rfl⟩

/-- A trace that ends the recipe goes on from every other whose answers it agrees with. -/
theorem prefix_of_done {outcome : Outcome V} {ans : Q × K → Outcome V → Prop}
    (h : t.Trace ys (done outcome)) (h' : t.Trace zs u)
    (huniq : ∀ p ∈ ys, ∀ answer, ans p.1 answer → p.2 = answer) (hzs : ∀ p ∈ zs, ans p.1 p.2) :
    ∃ ws, ys = zs ++ ws ∧ u.Trace ws (done outcome) := by
  induction h' generalizing ys with
  | nil t => exact ⟨ys, rfl, h⟩
  | @cons x next answer zs u _ ih =>
      cases h with
      | @cons _ _ answer' ys _ h =>
          have hans : answer' = answer :=
            huniq (x, answer') List.mem_cons_self answer (hzs (x, answer) List.mem_cons_self)
          subst hans
          obtain ⟨ws, rfl, hu⟩ := ih h (fun p hp ↦ huniq p (List.mem_cons_of_mem _ hp))
            (fun p hp ↦ hzs p (List.mem_cons_of_mem _ hp))
          exact ⟨ws, rfl, hu⟩

/-- Answers are carried over along a trace, if each read's answer is as soon as all before it
are. -/
theorem forall_of_step {ans ans' : Q × K → Outcome V → Prop} (h : t.Trace ys u)
    (hys : ∀ p ∈ ys, ans p.1 p.2)
    (step : ∀ zs x next, t.Trace zs (.read x next) → (∀ p ∈ zs, ans p.1 p.2) →
      (∀ p ∈ zs, ans' p.1 p.2) → ∀ answer, ans x answer → ans' x answer) :
    ∀ p ∈ ys, ans' p.1 p.2 := by
  induction ys using List.reverseRecOn generalizing u with
  | nil => simp
  | append_singleton ys p ih =>
      obtain ⟨x, answer⟩ := p
      obtain ⟨next, hread, _⟩ := h.split_cons
      have hys' : ∀ p ∈ ys, ans p.1 p.2 := fun p hp ↦ hys p (List.mem_append_left _ hp)
      have hans' : ∀ p ∈ ys, ans' p.1 p.2 := ih hread hys'
      intro p hp
      rcases List.mem_append.mp hp with hp | hp
      · exact hans' p hp
      · obtain rfl := List.mem_singleton.mp hp
        exact step ys x next hread hys' hans' answer (hys (x, answer) (by simp))

theorem readsOnly {p : Q × K → Prop} (h : t.Trace ys u) (ht : t.ReadsOnly p) : u.ReadsOnly p := by
  induction h with
  | nil => exact ht
  | cons _ ih => exact ih (ht.2 _)

theorem calm (h : t.Trace ys u) (ht : t.Calm) (hys : ∀ p ∈ ys, ¬ p.2.IsPanic) : u.Calm := by
  induction h with
  | nil => exact ht
  | cons _ ih =>
      obtain ⟨hanswer, hys⟩ := List.forall_mem_cons.mp hys
      exact ih (ht _ hanswer) hys

end Trace

/-- The recipe ends with a value only if every read has given one. -/
def Strict (t : Recipe Q K V) : Prop :=
  ∀ ys v, t.Trace ys (done (.value v)) → ∀ p ∈ ys, p.2.IsValue

@[simp] theorem strict_done (outcome : Outcome V) : (done outcome : Recipe Q K V).Strict := by
  intro ys v htrace
  rw [htrace.eq_done.1]
  simp

@[simp] theorem strict_get (x : Q × K) (next : V → Recipe Q K V) :
    (get x next).Strict ↔ ∀ v, (next v).Strict := by
  constructor
  · intro h v ys w htrace p hp
    exact h ((x, .value v) :: ys) w (.cons htrace) p (List.mem_cons_of_mem _ hp)
  · intro h ys w htrace
    cases htrace with
    | @cons _ _ answer ys _ htrace =>
        cases answer with
        | value v => exact List.forall_mem_cons.mpr ⟨Outcome.isValue_value v, h v ys w htrace⟩
        | failure f => cases htrace
        | panic message => cases htrace

end Recipe

section

/-- The body that does what the recipe says and nothing else. -/
def Recipe.toBody : Recipe Q K V → Body Q K V W V
  | done outcome => .done outcome
  | read x next => .read x.1 x.2 fun answer ↦ (next answer).toBody

theorem Recipe.toBody_obeys (t : Recipe Q K V) : (t.toBody : Body Q K V W V).Obeys t := by
  induction t with
  | done outcome => exact .done outcome
  | read x next ih => exact .read ih

variable (name : Q → String) (logic : Q → Option (Recipe Q Unit V))

/-- A program of queries without arguments, each with its recipe, if it has any. -/
def Program.ofRecipes : Program Q Unit V W where
  name := name
  logic q := (logic q).map fun t _ ↦ t.toBody
  showArgument _ _ := ""
  showValue _ _ := ""

/-- What the bodies of the program do. An input that is not assigned fails. -/
def recipes (x : Q × Unit) : Recipe Q Unit V :=
  (logic x.1).getD (.done (.failure (.noInput (name x.1) "")))

theorem Program.ofRecipes_obeys :
    (Program.ofRecipes name logic : Program Q Unit V W).Obeys (recipes name logic) := by
  intro q k
  cases h : logic q with
  | none =>
      simp only [Program.body, Program.ofRecipes, recipes, h]
      exact .done _
  | some t =>
      simp only [Program.body, Program.ofRecipes, recipes, h]
      exact t.toBody_obeys

end

end Incremental
