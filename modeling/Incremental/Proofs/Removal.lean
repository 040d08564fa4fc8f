import Incremental.Proofs.Histories

/-!
# Removals and handled failures

A body may handle the failure of a read. When the row that fails had lost its value by a
removal, the revision of the removal does not reach the handler. A removal does reach every
dependent as long as each value that rests on a failure has seen some other change at that
revision or later.
-/

namespace Incremental

variable {Q K V W : Type} {R : Q × K → Recipe Q K V} {I : Inputs Q K V} {σ : Q × K → Revision}
  {x z : Q × K} {o : Outcome V}

/-- No evaluation from scratch reads in a circle. -/
def Acyclic (R : Q × K → Recipe Q K V) (I : Inputs Q K V) : Prop := ∀ x, ¬ Below R I x x

def NoPanics (R : Q × K → Recipe Q K V) (I : Inputs Q K V) : Prop :=
  ∀ x o, Yields R I x o → ¬ o.IsPanic

/-- Where a value rests on a failure, the row that fails has not changed after all that shows in
the value. -/
def RemovalsShow (R : Q × K → Recipe Q K V) (I : Inputs Q K V) (σ : Q × K → Revision) : Prop :=
  ∀ x v, I x = none → Yields R I x (.value v) →
    ∀ z f, Below R I z x → Yields R I z (.failure f) → ∃ e, (e = x ∨ Shows R I e x) ∧ σ z ≤ σ e

/-- Where every read is of lower rank than its reader, so is everything below it. -/
theorem Below.rank_lt {y : Q × K} (rank : Q × K → Nat) (h : ∀ x, (R x).ReadsOnly (rank · < rank x))
    (hy : Below R I y x) : rank y < rank x := by
  have hread : ∀ {y x : Q × K}, ReadBy R I y x → rank y < rank x := by
    rintro y x ⟨_, ys, next, htrace, _⟩
    exact (htrace.readsOnly (h x)).1
  induction hy with
  | single hy => exact hread hy
  | tail _ hz ih => exact Nat.lt_trans ih (hread hz)

theorem Acyclic.of_rank (rank : Q × K → Nat) (h : ∀ x, (R x).ReadsOnly (rank · < rank x)) :
    Acyclic R I :=
  fun _ hx ↦ Nat.lt_irrefl _ (hx.rank_lt rank h)

theorem NoPanics.of_calm (h : ∀ x, (R x).Calm) : NoPanics R I := by
  intro x o hx
  induction hx with
  | input _ => simp
  | computed _ htrace _ ih => exact htrace.calm (h _) ih

theorem Acyclic.passesCircles (h : Acyclic R I) : PassesCircles R I := by
  rintro _ _ _ _ _ _ _ ⟨z, _, hz⟩
  exact absurd hz (h z)

theorem RemovalsShow.changesShow (h : RemovalsShow R I σ) (hpanics : NoPanics R I) :
    ChangesShow R I σ := by
  intro x v hx hv z hz
  obtain ⟨o, ho⟩ := hv.of_below hz
  cases o with
  | value w =>
      rcases hz.shows_or_panics hv ho with hshows | ⟨y, message, _, _, hy⟩
      · exact ⟨z, .inr hshows, Nat.le_refl _⟩
      · exact absurd ⟨message, rfl⟩ (hpanics y _ hy)
  | failure f => exact h x v hx hv z f hz ho
  | panic message => exact absurd ⟨message, rfl⟩ (hpanics z _ ho)

namespace Database

variable [DecidableEq Q] [BEq K] [BEq V] [LawfulBEq K] {P : Program Q K V W} {fuel : Nat}

/-- A removal reaches every dependent, also through bodies that handle failures, where removals
show: after any history of reads, assignments, removals and clearings without circles and
panics, a query ends as it does on a fresh database with the same assigned values. -/
theorem query_after_removals {w w' : W} {ops : List (Operation Q K V)}
    {replies : List (Except String (Reply V))} {db db₀ : Database Q K V W} {q : Q} {k : K}
    {o : Outcome V} {assigned : List ((Q × K) × V)} {fuel₀ : Nat} (hP : P.Obeys R)
    (hsingle : ∀ op ∈ ops, op.Single)
    (hops : performAll P fuel ops { outside := w } = some (replies, db))
    (hclean : ∀ s ∈ asked P fuel ops { outside := w },
      Acyclic R s.store.inputs ∧ NoPanics R s.store.inputs)
    (hshow : ∀ s ∈ asked P fuel ops { outside := w },
      RemovalsShow R s.store.inputs s.store.lastChange)
    (hassigned : db.Lists assigned)
    (hfresh : query P fuel₀ q k (fresh w' assigned) = some (o, db₀)) :
    ∃ n db', ∀ m ≥ n, query P m q k db = some (o, db') := by
  obtain ⟨⟨H, hdb⟩, hfavour⟩ : (∃ H, AtRest R H True db) ∧ db.Favourable R True :=
    AtRest.history hP hops (by simp) hsingle fun s hs ↦
      ⟨(hshow s hs).changesShow (hclean s hs).2, fun _ ↦ (hclean s hs).1.passesCircles⟩
  exact hdb.query_eq_fresh hP hfavour.shows (hfavour.circles trivial) hassigned hfresh

end Database

/-- A source, a handler of its failure, and a reader of the handler. -/
inductive Chain
  | source
  | handler
  | reader
  deriving DecidableEq

open Database

namespace Chain

def logic : Chain → Option (Recipe Chain Unit Nat)
  | source => none
  | handler => some (.getOr (source, ()) 0)
  | reader => some (.get (handler, ()) fun v ↦ .done (.value v))

def program : Program Chain Unit Nat Unit := .ofRecipes (fun _ ↦ "") logic

abbrev recipe : Chain × Unit → Recipe Chain Unit Nat := recipes (fun _ ↦ "") logic

theorem clean (I : Inputs Chain Unit Nat) : Acyclic recipe I ∧ NoPanics recipe I := by
  constructor
  · refine .of_rank (fun x ↦ match x.1 with | source => 0 | handler => 1 | reader => 2) ?_
    rintro ⟨q, k⟩
    cases q <;> simp [recipe, recipes, logic]
  · refine .of_calm ?_
    rintro ⟨q, k⟩
    cases q <;> simp [recipe, recipes, logic, Recipe.Calm]

/-- The change of the handler shows in every value. -/
theorem removalsShow {I : Inputs Chain Unit Nat} {σ : Chain × Unit → Revision}
    (hσ : ∀ q, σ (q, ()) ≤ σ (handler, ())) : RemovalsShow recipe I σ := by
  rintro ⟨q, ⟨⟩⟩ v hx hv ⟨z, ⟨⟩⟩ f _ _
  refine ⟨(handler, ()), ?_, hσ z⟩
  cases q with
  | source =>
      obtain ⟨ys, htrace, _⟩ := hv.exists_trace hx
      cases htrace
  | handler => exact .inl rfl
  | reader =>
      obtain ⟨hread, w, hw⟩ := hv.value_of_get hx rfl
      exact .inr (.value hread hw)

/-- The handler loses a value that was assigned to it after the source has lost its own. -/
def unpinned : List (Operation Chain Unit Nat) :=
  [.act (.edit (.set source () 5)), .act (.edit (.set handler () 7)),
    .act (.inquire (.query reader ())),
    .act (.edit (.remove source ())), .act (.edit (.remove handler ())),
    .act (.inquire (.query handler ()))]

/-- The removal shows, as the handler has changed after it: its reader is computed again. -/
theorem query_reader_unpinned :
    ∃ replies, ∃ db : Database Chain Unit Nat Unit,
      performAll program 8 unpinned { outside := () } = some (replies, db) ∧
      ∃ n db', ∀ m ≥ n, query program m .reader () db = some (.value 0, db') := by
  have hrun : (performAll program 8 unpinned { outside := () }).map
      (fun p ↦ [Chain.source, .handler, .reader].map (p.2.input? · ())) =
      some [none, none, none] := by
    decide +kernel
  have hnewest : ∀ s ∈ asked program 8 unpinned { outside := () },
      ∀ q ∈ [Chain.source, .handler, .reader],
        s.store.lastChange (q, ()) ≤ s.store.lastChange (.handler, ()) := by
    decide +kernel
  have hfresh : (query program 8 .reader () (fresh () [])).map Prod.fst = some (.value 0) := by
    decide +kernel
  obtain ⟨⟨replies, db⟩, hops, hinputs⟩ := Option.map_eq_some_iff.mp hrun
  obtain ⟨⟨o, db₀⟩, hfresh, rfl⟩ := Option.map_eq_some_iff.mp hfresh
  simp only [List.map_cons, List.map_nil, List.cons.injEq, and_true] at hinputs
  refine ⟨replies, db, hops, query_after_removals (Program.ofRecipes_obeys _ _) ?_ hops
    (fun s _ ↦ clean s.store.inputs) (fun s hs ↦ removalsShow fun q ↦ ?_) ?_ hfresh⟩
  · simp [unpinned, Operation.Single]
  · exact hnewest s hs q (by cases q <;> simp)
  · rintro q ⟨⟩ v
    cases q <;> simp [hinputs]

/-- The handler is read again after its source was removed. -/
def handled : List (Operation Chain Unit Nat) :=
  [.act (.edit (.set source () 5)), .act (.inquire (.query handler ())),
    .act (.inquire (.query reader ())), .act (.edit (.remove source ())),
    .act (.inquire (.query handler ()))]

/-- A removal does not show by itself: the reader still gives what it has computed from the
removed value, where a fresh database gives what the handler falls back to. -/
theorem query_reader_handled :
    (∀ op ∈ handled, op.Single) ∧ (∀ I, Acyclic recipe I ∧ NoPanics recipe I) ∧
      ∃ replies, ∃ db db' db₀ : Database Chain Unit Nat Unit,
        performAll program 8 handled { outside := () } = some (replies, db) ∧
        db.Lists [] ∧ query program 8 .reader () (fresh () []) = some (.value 0, db₀) ∧
        query program 8 .reader () db = some (.value 5, db') := by
  have hrun : (performAll program 8 handled { outside := () }).map
      (fun p ↦ ([Chain.source, .handler, .reader].map (p.2.input? · ()),
        (query program 8 .reader () p.2).map Prod.fst)) =
      some ([none, none, none], some (.value 5)) := by
    decide +kernel
  have hfresh : (query program 8 .reader () (fresh () [])).map Prod.fst = some (.value 0) := by
    decide +kernel
  obtain ⟨⟨replies, db⟩, hops, hend⟩ := Option.map_eq_some_iff.mp hrun
  obtain ⟨hinputs, hquery⟩ := Prod.mk.inj hend
  obtain ⟨⟨o, db'⟩, hquery, rfl⟩ := Option.map_eq_some_iff.mp hquery
  obtain ⟨⟨o, db₀⟩, hfresh, rfl⟩ := Option.map_eq_some_iff.mp hfresh
  simp only [List.map_cons, List.map_nil, List.cons.injEq, and_true] at hinputs
  refine ⟨?_, clean, replies, db, db', db₀, hops, ?_, hfresh, hquery⟩
  · simp [handled, Operation.Single]
  · rintro q ⟨⟩ v
    cases q <;> simp [hinputs]

end Chain

end Incremental
