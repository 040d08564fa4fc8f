import Incremental.Proofs.Removal

/-!
# Panics that are caught

A body may catch the panic of a read. An evaluation that panics leaves nothing behind, so what
was read for it does not reach the body that catches. A change below a panic does reach every
dependent as long as each value that rests on the panic has seen some other change at that
revision or later.
-/

namespace Incremental

variable {Q K V W : Type} {R : Q × K → Recipe Q K V} {I : Inputs Q K V} {σ : Q × K → Revision}

/-- Where a value rests on a panic, nothing assigned below the panic has changed after all that
shows in the value. -/
def PanicsShow (R : Q × K → Recipe Q K V) (I : Inputs Q K V) (σ : Q × K → Revision) : Prop :=
  ∀ x v, I x = none → Yields R I x (.value v) →
    ∀ y message, Below R I y x → Yields R I y (.panic message) →
      ∀ z u, Below R I z y → I z = some u → ∃ e, (e = x ∨ Shows R I e x) ∧ σ z ≤ σ e

theorem PanicsShow.changesShow (h : PanicsShow R I σ)
    (hσ : ∀ z, I z = none → σ z = Revision.initial) : ChangesShow R I σ := by
  intro x v hx hv z hz
  cases hu : I z with
  | none =>
      refine ⟨x, .inl rfl, ?_⟩
      rw [hσ z hu]
      exact Nat.zero_le _
  | some u =>
      rcases hz.shows_or_panics hv (.input hu) with hshows | ⟨y, message, hzy, hyx, hy⟩
      · exact ⟨z, .inr hshows, Nat.le_refl _⟩
      · exact h x v hx hv y message hyx hy z u hzy hu

theorem NoPanics.panicsShow (h : NoPanics R I) : PanicsShow R I σ :=
  fun _ _ _ _ y message _ hy ↦ absurd ⟨message, rfl⟩ (h y _ hy)

namespace Database

variable [DecidableEq Q] [BEq K] [BEq V] [LawfulBEq K] {P : Program Q K V W} {fuel : Nat}

/-- A panic that is caught hides no change, where changes below panics show: after any history
of reads, assignments and clearings without circles, a query ends as it does on a fresh database
with the same assigned values. -/
theorem query_after_panics {w w' : W} {ops : List (Operation Q K V)}
    {replies : List (Except String (Reply V))} {db db₀ : Database Q K V W} {q : Q} {k : K}
    {o : Outcome V} {assigned : List ((Q × K) × V)} {fuel₀ : Nat} (hP : P.Obeys R)
    (hsingle : ∀ op ∈ ops, op.Single ∧ ¬ op.Removes)
    (hops : performAll P fuel ops { outside := w } = some (replies, db))
    (hacyclic : ∀ s ∈ asked P fuel ops { outside := w }, Acyclic R s.store.inputs)
    (hshow : ∀ s ∈ asked P fuel ops { outside := w },
      PanicsShow R s.store.inputs s.store.lastChange)
    (hassigned : db.Lists assigned)
    (hfresh : query P fuel₀ q k (fresh w' assigned) = some (o, db₀)) :
    ∃ n db', ∀ m ≥ n, query P m q k db = some (o, db') := by
  obtain ⟨⟨H, hdb⟩, hfavour⟩ : (∃ H, AtRest R H True db) ∧ db.Favourable R True :=
    AtRest.history_untouched hP hops (by simp) hsingle fun s hs huntouched ↦
      ⟨(hshow s hs).changesShow fun _ hz ↦ huntouched.lastChange_eq hz,
        fun _ ↦ (hacyclic s hs).passesCircles⟩
  exact hdb.query_eq_fresh hP hfavour.shows (hfavour.circles trivial) hassigned hfresh

end Database

/-- A number, a guard that panics where it is zero, a sum that counts the panic as zero, and a
reader of the sum. -/
inductive Guarded
  | number
  | other
  | guard
  | sum
  | reader
  deriving DecidableEq

namespace Guarded

open Database

def logic : Guarded → Option (Recipe Guarded Unit Nat)
  | guard => some (.get (number, ()) fun a ↦ .done (if a = 0 then .panic "zero" else .value a))
  | sum => some (.get (other, ()) fun b ↦ .read (guard, ()) fun
      | .panic _ => .done (.value b)
      | answer => .done (answer.map (b + ·)))
  | reader => some (.get (sum, ()) fun v ↦ .done (.value v))
  | _ => none

def program : Program Guarded Unit Nat Unit := .ofRecipes (fun _ ↦ "") logic

abbrev recipe : Guarded × Unit → Recipe Guarded Unit Nat := recipes (fun _ ↦ "") logic

def rank : Guarded × Unit → Nat
  | (number, _) | (other, _) => 0
  | (guard, _) => 1
  | (sum, _) => 2
  | (reader, _) => 3

theorem readsOnly_lower (x : Guarded × Unit) : (recipe x).ReadsOnly (rank · < rank x) := by
  rcases x with ⟨q, k⟩
  cases q with
  | sum =>
      refine (Recipe.readsOnly_get ..).2 ⟨by simp [rank], fun b ↦ ⟨by simp [rank], fun answer ↦ ?_⟩⟩
      cases answer <;> trivial
  | _ => simp [recipe, recipes, logic, rank]

theorem acyclic (I : Inputs Guarded Unit Nat) : Acyclic recipe I := .of_rank rank readsOnly_lower

/-- The change of the other number shows in every sum. -/
theorem panicsShow {I : Inputs Guarded Unit Nat} {σ : Guarded × Unit → Revision}
    (hsum : I (sum, ()) = none) (hσ : ∀ q, σ (q, ()) ≤ σ (other, ())) : PanicsShow recipe I σ := by
  have hshows : ∀ v, Yields recipe I (sum, ()) (.value v) →
      Shows recipe I (other, ()) (sum, ()) := by
    intro v hv
    obtain ⟨hread, w, hw⟩ := hv.value_of_get hsum rfl
    exact .value hread hw
  rintro ⟨q, ⟨⟩⟩ v hx hv y message hyx hy ⟨z, ⟨⟩⟩ u _ _
  refine ⟨(other, ()), .inr ?_, hσ z⟩
  cases q with
  | number | other =>
      obtain ⟨ys, htrace, _⟩ := hv.exists_trace hx
      cases htrace
  | guard =>
      -- only numbers are below the guard, and they do not panic
      have hrank := hyx.rank_lt rank readsOnly_lower
      rcases y with ⟨y, k⟩
      cases y with
      | number | other =>
          cases hy with
          | computed _ htrace _ => cases htrace
      | _ => simp [rank] at hrank
  | sum => exact hshows v hv
  | reader =>
      obtain ⟨hread, w, hw⟩ := hv.value_of_get hx rfl
      exact .through hread hw (by simp) (hshows w hw)

/-- The number turns to zero, and the other number changes after it. -/
def noticed : List (Operation Guarded Unit Nat) :=
  [.act (.edit (.set number () 5)), .act (.edit (.set other () 3)), .act (.inquire (.query sum ())),
    .act (.inquire (.query reader ())), .act (.edit (.set number () 0)),
    .act (.edit (.set other () 4)),
    .act (.inquire (.query sum ()))]

/-- The panic shows, as the other number has changed after it was caused: the reader is computed
again. -/
theorem query_reader_noticed :
    ∃ replies, ∃ db : Database Guarded Unit Nat Unit,
      performAll program 8 noticed { outside := () } = some (replies, db) ∧
      ∃ n db', ∀ m ≥ n, query program m .reader () db = some (.value 4, db') := by
  have hrun : (performAll program 8 noticed { outside := () }).map
      (fun p ↦ [number, other, guard, sum, reader].map (p.2.input? · ())) =
      some [some 0, some 4, none, none, none] := by
    decide +kernel
  have hnewest : ∀ s ∈ asked program 8 noticed { outside := () },
      s.store.inputs (sum, ()) = none ∧ ∀ q ∈ [number, other, guard, sum, reader],
        s.store.lastChange (q, ()) ≤ s.store.lastChange (other, ()) := by
    decide +kernel
  have hfresh : (query program 8 .reader () (fresh () [((number, ()), 0), ((other, ()), 4)])).map
      Prod.fst = some (.value 4) := by
    decide +kernel
  obtain ⟨⟨replies, db⟩, hops, hinputs⟩ := Option.map_eq_some_iff.mp hrun
  obtain ⟨⟨o, db₀⟩, hfresh, rfl⟩ := Option.map_eq_some_iff.mp hfresh
  simp only [List.map_cons, List.map_nil, List.cons.injEq, and_true] at hinputs
  refine ⟨replies, db, hops, query_after_panics (Program.ofRecipes_obeys _ _) ?_ hops
    (fun s _ ↦ acyclic s.store.inputs)
    (fun s hs ↦ panicsShow (hnewest s hs).1 fun q ↦ (hnewest s hs).2 q ?_) ?_ hfresh⟩
  · simp [noticed, Operation.Single, Operation.Removes]
  · cases q <;> simp
  · rintro q ⟨⟩ v
    cases q <;> simp [hinputs, eq_comm]

/-- The number turns to zero, and the sum is read again. -/
def caught : List (Operation Guarded Unit Nat) :=
  [.act (.edit (.set number () 5)), .act (.edit (.set other () 3)), .act (.inquire (.query sum ())),
    .act (.inquire (.query reader ())), .act (.edit (.set number () 0)),
    .act (.inquire (.query sum ()))]

/-- A caught panic hides the change that has caused it: the reader still gives what it has
computed before, where a fresh database gives the sum with a panic in it. -/
theorem query_reader_caught :
    (∀ op ∈ caught, op.Single ∧ ¬ op.Removes) ∧ (∀ I, Acyclic recipe I) ∧
      ∃ replies, ∃ db db' db₀ : Database Guarded Unit Nat Unit,
        performAll program 8 caught { outside := () } = some (replies, db) ∧
        db.Lists [((number, ()), 0), ((other, ()), 3)] ∧
        query program 8 .reader () (fresh () [((number, ()), 0), ((other, ()), 3)]) =
          some (.value 3, db₀) ∧
        query program 8 .reader () db = some (.value 8, db') := by
  have hrun : (performAll program 8 caught { outside := () }).map
      (fun p ↦ ([number, other, guard, sum, reader].map (p.2.input? · ()),
        (query program 8 .reader () p.2).map Prod.fst)) =
      some ([some 0, some 3, none, none, none], some (.value 8)) := by
    decide +kernel
  have hfresh : (query program 8 .reader () (fresh () [((number, ()), 0), ((other, ()), 3)])).map
      Prod.fst = some (.value 3) := by
    decide +kernel
  obtain ⟨⟨replies, db⟩, hops, hend⟩ := Option.map_eq_some_iff.mp hrun
  obtain ⟨hinputs, hquery⟩ := Prod.mk.inj hend
  obtain ⟨⟨o, db'⟩, hquery, rfl⟩ := Option.map_eq_some_iff.mp hquery
  obtain ⟨⟨o, db₀⟩, hfresh, rfl⟩ := Option.map_eq_some_iff.mp hfresh
  simp only [List.map_cons, List.map_nil, List.cons.injEq, and_true] at hinputs
  refine ⟨?_, acyclic, replies, db, db', db₀, hops, ?_, hfresh, hquery⟩
  · simp [caught, Operation.Single, Operation.Removes]
  · rintro q ⟨⟩ v
    cases q <;> simp [hinputs, eq_comm]

end Guarded

end Incremental
