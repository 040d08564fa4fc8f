import Incremental.Proofs.Purity

/-!
# Ways to a value

A way of a query to a value is what its body reads, with the answers, until it ends with the value.
Which memos come to list each other depends on the reads alone. So much can be said of bodies that
are not pure: results and failures may depend on anything, as long as the answers decide what is
read on the way to a value. Pure programs take the ways of their recipes.
-/

namespace Incremental

variable {Q K V W : Type}

/-- `b.Trace r w ys o`: at revision `r`, and from the outside state `w`, the body may end with `o`
when its reads are answered as in `ys`. What is read may change the outside state in any way. -/
inductive Body.Trace (r : Revision) :
    Body Q K V W V → W → List ((Q × K) × Outcome V) → Outcome V → Prop
  | done (outcome : Outcome V) (w : W) : Trace r (.done outcome) w [] outcome
  | read {q : Q} {k : K} {next : Outcome V → Body Q K V W V} {answer : Outcome V} {w w' : W}
      {ys : List ((Q × K) × Outcome V)} {o : Outcome V} (h : Trace r (next answer) w' ys o) :
      Trace r (.read q k next) w (((q, k), answer) :: ys) o
  | revision {next : Revision → Body Q K V W V} {w : W} {ys : List ((Q × K) × Outcome V)}
      {o : Outcome V} (h : Trace r (next r) w ys o) : Trace r (.revision next) w ys o
  | outside {change : W → W} {next : W → Body Q K V W V} {w : W}
      {ys : List ((Q × K) × Outcome V)} {o : Outcome V} (h : Trace r (next w) (change w) ys o) :
      Trace r (.outside change next) w ys o

variable {r : Revision} {w : W} {q : Q} {k : K} {ys : List ((Q × K) × Outcome V)} {o : Outcome V}

theorem Body.Obeys.trace {b : Body Q K V W V} {t : Recipe Q K V} (h : b.Obeys t)
    (htrace : b.Trace r w ys o) : t.Trace ys (.done o) := by
  induction htrace generalizing t with
  | done =>
      cases h
      exact .nil _
  | read _ ih =>
      cases h with
      | read h => exact .cons (ih (h _))
  | revision _ ih =>
      cases h with
      | revision h => exact ih (h _)
  | outside _ ih =>
      cases h with
      | outside h => exact ih (h _)

theorem Body.trace_get : (Body.get q k).Trace r w ys o ↔ ys = [((q, k), o)] := by
  constructor
  · intro h
    cases h with
    | read h =>
        cases h
        rfl
  · rintro rfl
    exact .read (.done o w)

/-- A body that goes on with the value of a read gives a value only if the read does. -/
theorem Body.trace_get_bind {next : V → Body Q K V W V} {v : V} :
    ((Body.get q k).bind next).Trace r w ys (.value v) ↔
      ∃ u zs w', ys = ((q, k), .value u) :: zs ∧ (next u).Trace r w' zs (.value v) := by
  constructor
  · intro h
    cases h with
    | @read _ _ _ answer _ w' zs _ h =>
        cases answer with
        | value u => exact ⟨u, zs, w', rfl, h⟩
        | failure f => cases h
        | panic message => cases h
  · rintro ⟨u, zs, w', rfl, h⟩
    exact .read h

/-- In which ways queries come to values: the query, what it reads with the answers, the value. -/
def Ways (Q K V : Type) : Type := Q × K → List ((Q × K) × Outcome V) → V → Prop

namespace Ways

/-- The ways that lead through recipes. -/
def of (R : Q × K → Recipe Q K V) : Ways Q K V := fun x ys v ↦ (R x).Trace ys (.done (.value v))

/-- A query comes to a value only if all its reads do. -/
def Strict (T : Ways Q K V) : Prop := ∀ ⦃x ys v⦄, T x ys v → ∀ p ∈ ys, p.2.IsValue

/-- What is read on the way to a value is decided by the answers: on two ways of a query to values,
for equal arguments, the same is read if equal reads have the same answers. -/
def Guided [BEq K] (T : Ways Q K V) : Prop :=
  ∀ ⦃q k k' ys ys' v v'⦄, (k == k') = true → T (q, k) ys v → T (q, k') ys' v' →
    (∀ p ∈ ys, ∀ p' ∈ ys', p.1.1 = p'.1.1 → (p.1.2 == p'.1.2) = true → p.2 = p'.2) →
    ∀ p ∈ ys, ∃ p' ∈ ys', p.1.1 = p'.1.1 ∧ (p.1.2 == p'.1.2) = true

end Ways

namespace Program

/-- The ways in which the bodies of the program come to values. -/
def ways (P : Program Q K V W) : Ways Q K V :=
  fun x ys v ↦ ∃ r w, (P.body x.1 x.2).Trace r w ys (.value v)

variable [BEq K] {P : Program Q K V W} {R : Q × K → Recipe Q K V}

/-- All ways of the program are among `T`, which hands failures on and is guided by the answers. -/
structure Steady (P : Program Q K V W) (T : Ways Q K V) : Prop where
  takes : ∀ ⦃x ys v⦄, P.ways x ys v → T x ys v
  strict : T.Strict
  guided : T.Guided

theorem steady_ways (hstrict : P.ways.Strict) (hguided : P.ways.Guided) : P.Steady P.ways :=
  ⟨fun _ _ _ h ↦ h, hstrict, hguided⟩

theorem Pure.steady (hP : P.Pure R) : P.Steady (.of R) where
  takes := fun x _ _ ⟨_, _, h⟩ ↦ (hP.obeys x.1 x.2).trace h
  strict := fun x ys v h ↦ hP.strict x ys v h
  guided := fun q k k' _ _ _ _ hk h h' hagree ↦ (hP.alike q k k' hk).covers h h' hagree

end Program

end Incremental
