import Incremental.Proofs.Settling
import Incremental.Proofs.Underway

/-!
# Asking for a query

A read is asked for in a scene: a program whose bodies obey recipes, what was assigned at each
revision and when it changed last, and the promise that changes show in the stamps of values.
This module says when a database is ready for a read while other queries are under evaluation,
what a right answer is, and why answers from memory and refusals are right.
-/

namespace Incremental

variable {Q K V W : Type}

namespace CallStack

@[simp] theorem observe_initial (stack : CallStack) : stack.observe Revision.initial = stack := by
  rcases stack with ⟨_ | _, _⟩ <;> simp [observe, modifyTop, Frame.observe, Revision.initial]

end CallStack

/-- Every change below a value is no newer than some change whose stamp reaches the value. -/
def ChangesShow (R : Q × K → Recipe Q K V) (I : Inputs Q K V) (σ : Q × K → Revision) : Prop :=
  ∀ x v, I x = none → Yields R I x (.value v) → ∀ z, Below R I z x →
    ∃ e, (e = x ∨ Shows R I e x) ∧ σ z ≤ σ e

/-- A read that comes to a circle leaves its reader without a value, unless it gives one after
all. -/
def PassesCircles (R : Q × K → Recipe Q K V) (I : Inputs Q K V) : Prop :=
  ∀ x ys y next, I x = none → (R x).Trace ys (.read y next) → (∀ p ∈ ys, Yields R I p.1 p.2) →
    Circles R I y → ∀ a, ¬ a.IsValue → ∀ zs v, ¬ (next a).Trace zs (.done (.value v))

/-- What stays the same while a read is answered. -/
structure Scene (Q K V W : Type) where
  program : Program Q K V W
  recipe : Q × K → Recipe Q K V
  /-- What was assigned at each revision, up to `now`. -/
  timeline : Timeline Q K V
  now : Revision
  /-- Since when each query has been assigned what it is assigned now. -/
  lastChange : Q × K → Revision
  /-- Whether every value kept so far is one that its query yielded. -/
  tame : Prop
  obeys : program.Obeys recipe
  shows : ChangesShow recipe (timeline now) lastChange

namespace Scene

variable (c : Scene Q K V W)

abbrev inputs : Inputs Q K V := c.timeline c.now

abbrev Yields : Q × K → Outcome V → Prop := Incremental.Yields c.recipe c.inputs

abbrev ReadBy : Q × K → Q × K → Prop := Incremental.ReadBy c.recipe c.inputs

abbrev Below : Q × K → Q × K → Prop := Incremental.Below c.recipe c.inputs

abbrev Shows : Q × K → Q × K → Prop := Incremental.Shows c.recipe c.inputs

abbrev Circles : Q × K → Prop := Incremental.Circles c.recipe c.inputs

def label (x : Q × K) : String := c.program.label x.1 x.2

abbrev Ends : List (Q × K) → Q × K → Outcome V → Prop :=
  Incremental.Ends c.recipe c.inputs c.label

abbrev Faithful [DecidableEq Q] [BEq K] (s : Store Q K V) : Prop :=
  Incremental.Faithful c.recipe c.timeline c.lastChange c.tame c.now s

/-- The stamp `r` covers the changes of `x` that reach a reader to which `x` gives `o`. -/
structure Stamped (r : Revision) (x : Q × K) (o : Outcome V) : Prop where
  self : o.IsValue → c.lastChange x ≤ r
  shown : ¬ o.IsPanic → ∀ e, c.Shows e x → c.lastChange e ≤ r

/-- Where every value kept was yielded, circles are passed on or no read was refused. Where not,
each value of a query that yields nothing lists what its evaluation came to read, if it is not under
evaluation again. -/
structure Allows (active : List Handle) (s : Store Q K V) (events : List (Event Q K)) : Prop where
  circles : c.tame → PassesCircles c.recipe c.inputs ∨ ∀ f, .refused f ∉ events
  lists : ¬ c.tame → ∀ key x v r reads, key ∉ active → s.named? key = some x →
    s.memo? key = some (.derived v r c.now reads) → (¬ ∃ o, c.Yields x o) →
    ∀ y, c.ReadBy y x → ∃ d ∈ reads, s.named? d = some y

/-- The database is in order while `active` is under evaluation, the outermost first. -/
structure Orderly [DecidableEq Q] [BEq K] (active : List (Q × K)) (db : Database Q K V W) :
    Prop where
  sound : db.Sound
  revision : db.revision = c.now
  faithful : c.Faithful db.store
  unlimited : db.configuration.maxDepth = none
  stacked : db.stack.keys.map db.store.named? = active.map some

/-- The database is ready for a read of `x` while `active` is under evaluation. -/
structure Ready [DecidableEq Q] [BEq K] (active : List (Q × K)) (x : Q × K)
    (db : Database Q K V W) : Prop extends c.Orderly active db where
  live : ∀ s ∈ active, (c.tame ∨ ∃ o, c.Yields s o) → c.Below x s ∨ c.Circles s

/-- `o` is a right answer to a read of `x`, and what it leaves behind is in order. -/
structure Answered [DecidableEq Q] [BEq K] (active : List (Q × K)) (x : Q × K)
    (db : Database Q K V W) (o : Outcome V) (db' : Database Q K V W) : Prop where
  faithful : c.Faithful db'.store
  agrees : ∀ o', c.Yields x o' → o = o' ∧ ∃ key reads r,
    db'.stack = (db.stack.recordRead key).absorb reads r ∧ db'.store.named? key = some x ∧
    c.Stamped r x o ∧ (c.tame → Leads c.recipe c.inputs db'.store x reads) ∧
    (c.inputs x ≠ none → reads = [])
  settles : c.tame → c.Yields x o ∨
    c.Circles x ∧ ¬ o.IsValue ∧ ∃ f, Event.refused f ∈ db'.events
  ends : c.tame → c.Ends active x o

variable {c : Scene Q K V W}

namespace Stamped

variable {r r' : Revision} {x : Q × K} {o : Outcome V}

theorem mono (h : c.Stamped r x o) (hle : r ≤ r') : c.Stamped r' x o :=
  ⟨fun ho ↦ Nat.le_trans (h.self ho) hle, fun ho e he ↦ Nat.le_trans (h.shown ho e he) hle⟩

theorem of_stands {v : V} (h : Stands c.recipe c.inputs c.lastChange r x v) :
    c.Stamped r x (.value v) :=
  ⟨fun _ ↦ h.self, fun _ e he ↦ h.below e he.isBelow⟩

theorem panic (r : Revision) (x : Q × K) (message : String) :
    c.Stamped r x (.panic message) :=
  ⟨fun ho ↦ absurd ho (by simp), fun ho ↦ absurd ⟨message, rfl⟩ ho⟩

end Stamped

section

variable [DecidableEq Q] [BEq K] {active : List (Q × K)} {x : Q × K} {db db' : Database Q K V W}
  {key : Handle}

namespace Orderly

theorem isActive_iff (h : c.Orderly active db) {y : Q × K} (hkey : db.store.named? key = some y) :
    db.stack.isActive key = true ↔ y ∈ active :=
  Database.Underway.isActive_iff h.stacked h.sound hkey

theorem follows (h : c.Orderly active db) (hf : db.Follows db') (hs : db'.Sound)
    (hfaithful : c.Faithful db'.store) : c.Orderly active db' :=
  ⟨hs, hf.revision.trans h.revision, hfaithful, hf.configuration ▸ h.unlimited,
    Database.Underway.follows h.stacked hf⟩

theorem verifies (h : c.Orderly active db) (hv : db.Verifies db')
    (hfaithful : c.Faithful db'.store) : c.Orderly active db' :=
  h.follows (.of_verifies hv) (h.sound.verifies hv) hfaithful

theorem circle (h : c.Orderly active db) (hkey : db.store.named? key = some x) :
    db.circle c.program key = .cycle (c.label x) (active.map c.label) :=
  Database.Underway.circle h.stacked c.program hkey

end Orderly

namespace Ready

/-- Nothing under evaluation is read again below what yields something. -/
theorem not_active (h : c.Ready active x db) {o : Outcome V} (hx : c.Yields x o) {s : Q × K}
    (hs : s ∈ active) : s ≠ x ∧ ¬ c.Below s x := by
  have hlive : ∀ {a}, c.Yields s a → c.Below x s := fun ha ↦
    (h.live s hs (.inr ⟨_, ha⟩)).resolve_right ha.not_circles
  constructor
  · rintro rfl
    exact hx.not_below_self (hlive hx)
  · intro hsx
    obtain ⟨a, ha⟩ := hx.of_below hsx
    exact hx.not_below_self ((hlive ha).trans hsx)

end Ready

end

section

variable [DecidableEq Q] [BEq K] [LawfulBEq K] {active : List (Q × K)} {q : Q} {k : K}
  {db db₁ db₂ : Database Q K V W} {key : Handle}

theorem Orderly.record (h : c.Orderly active db) (hkey : db.intern q k = (key, db₁)) :
    c.Orderly active (db₁.recordRead key) := by
  obtain ⟨hs, hf⟩ := h.sound.record hkey
  refine h.follows hf hs ?_
  obtain rfl := Database.eq_of_intern hkey
  exact h.faithful.intern q k

theorem Orderly.isActive_intern (h : c.Orderly active db) (hkey : db.intern q k = (key, db₁)) :
    db₁.stack.isActive key = true ↔ (q, k) ∈ active := by
  have hname : db₁.store.named? key = some (q, k) := Database.named?_of_intern hkey
  rw [← (h.record hkey).isActive_iff hname]
  simp [Database.recordRead, CallStack.isActive, CallStack.recordRead]

/-- A read of what is under evaluation is refused, and rightly so. -/
theorem Answered.refused (h : c.Ready active (q, k) db) (hkey : db.intern q k = (key, db₁))
    (hactive : db₁.stack.isActive key = true) :
    c.Answered active (q, k) db (.failure (db₁.circle c.program key))
      (db₁.note (.refused (db₁.circle c.program key))) := by
  have hready := h.record hkey
  have hname : db₁.store.named? key = some (q, k) := Database.named?_of_intern hkey
  have hmem : (q, k) ∈ active := (h.isActive_intern hkey).1 hactive
  have hcircle : db₁.circle c.program key = .cycle (c.label (q, k)) (active.map c.label) := by
    have hkeys : (db₁.recordRead key).circle c.program key = db₁.circle c.program key := by
      simp [Database.circle, Database.recordRead, (CallStack.Fills.recordRead _ _).keys_eq,
        Database.label]
    rw [← hkeys]
    exact hready.circle hname
  refine ⟨hready.faithful, fun o' ho' ↦ ?_, fun ht ↦ .inr ⟨?_, ?_, ?_⟩, fun _ ↦ ?_⟩
  · exact absurd rfl (h.not_active ho' hmem).1
  · exact (h.live _ hmem (.inl ht)).elim .of_below_self id
  · simp
  · exact ⟨_, List.mem_cons_self⟩
  · rw [hcircle]
    exact .refused hmem

/-- What is answered from memory stands. -/
theorem Answered.hit (h : c.Ready active (q, k) db) (hkey : db.intern q k = (key, db₁))
    {fuel : Nat} {v : V} {r : Revision}
    (hretrieve : (db₁.recordRead key).retrieve fuel key = some (some (v, r), db₂)) :
    c.Answered active (q, k) db (.value v) ((db₂.note (.hit q k)).observe r) := by
  have hready := h.record hkey
  have hname : db₁.store.named? key = some (q, k) := Database.named?_of_intern hkey
  have hv := Database.retrieve_verifies hretrieve
  obtain ⟨hfaithful, hstands⟩ :=
    Database.retrieve_faithful hretrieve hready.revision hready.faithful
  have hstands := hstands v r rfl (q, k) hname
  refine ⟨hfaithful, fun o' ho' ↦ ?_, fun ht ↦ .inl (hstands (.inl ht)).yields, fun ht ↦ ?_⟩
  · have hx := hstands (.inr ⟨o', ho'⟩)
    refine ⟨hx.yields.unique ho', key, [], r, ?_, hv.store.advances.named key _ hname,
      .of_stands hx, fun _ _ _ ↦ trivial, fun _ ↦ rfl⟩
    rw [CallStack.absorb_nil]
    obtain rfl := Database.eq_of_intern hkey
    exact congrArg (CallStack.observe · r) hv.stack_eq
  · have hx := (hstands (.inl ht)).yields
    exact hx.ends c.label fun s hs ↦ h.not_active hx hs

end

end Scene

end Incremental
