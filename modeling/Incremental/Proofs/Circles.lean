import Incremental.Proofs.Panics

/-!
# Circles and handled refusals

A read of what is being computed is refused, and a body may handle the refusal. Under other
inputs the same read may close no circle, but a refused read is not listed among what was read,
so the value may stand though the read would now be answered. A value that was computed beside a
refusal does no harm as long as everything its evaluation comes to read is listed for it.
-/

namespace Incremental

variable {Q K V W : Type} {R : Q × K → Recipe Q K V}

namespace Database

variable [DecidableEq Q] [BEq K] [BEq V] [LawfulBEq K] {P : Program Q K V W} {fuel : Nat}

/-- A handled refusal freezes no result, where what is kept for queries in a circle lists their
reads: after any history of reads, assignments and clearings without panics, a query whose
evaluation on a fresh database with the same assigned values meets no circle ends in the same
way. -/
theorem query_after_circles {w w' : W} {ops : List (Operation Q K V)}
    {replies : List (Except String (Reply V))} {db db₀ : Database Q K V W} {q : Q} {k : K}
    {o : Outcome V} {assigned : List ((Q × K) × V)} {fuel₀ : Nat} (hP : P.Obeys R)
    (hsingle : ∀ op ∈ ops, op.Single ∧ ¬ op.Removes)
    (hops : performAll P fuel ops { outside := w } = some (replies, db))
    (hpanics : ∀ s ∈ asked P fuel ops { outside := w }, NoPanics R s.store.inputs)
    (hlists : ∀ s ∈ states P fuel ops { outside := w }, s.ListsReads R)
    (hassigned : db.Lists assigned)
    (hfresh : query P fuel₀ q k (fresh w' assigned) = some (o, db₀))
    (hcircle : ∀ f, .refused f ∉ db₀.events) (hsettles : Settles P (.get q k) db) :
    ∃ n db', ∀ m ≥ n, query P m q k db = some (o, db') := by
  obtain ⟨⟨H, hdb⟩, hfavour⟩ : (∃ H, AtRest R H False db) ∧ db.Favourable R False :=
    AtRest.history_untouched hP hops (fun _ ↦ hlists) hsingle fun s hs huntouched ↦
      ⟨(hpanics s hs).panicsShow.changesShow fun _ hz ↦ huntouched.lastChange_eq hz, by simp⟩
  have hyields := ((bare_fresh R w' assigned).answered hP hfresh (.inr hcircle)).2 hcircle
  rw [inputs_fresh hassigned] at hyields
  exact hdb.query_eq_yields hP hfavour.shows hyields (.inr hsettles)

end Database

/-- A switch, a query that falls back where the next fails, and a query that reads it back as
long as the switch is on. -/
inductive Loop
  | switch
  | fallback
  | back
  deriving DecidableEq

namespace Loop

open Database

def logic : Loop → Option (Recipe Loop Unit Nat)
  | switch => none
  | fallback => some (.getOr (back, ()) 0)
  | back => some (.get (switch, ()) fun v ↦
      if v = 0 then .done (.value 5) else .get (fallback, ()) fun w ↦ .done (.value w))

def program : Program Loop Unit Nat Unit := .ofRecipes (fun _ ↦ "") logic

abbrev recipe : Loop × Unit → Recipe Loop Unit Nat := recipes (fun _ ↦ "") logic

theorem noPanics (I : Inputs Loop Unit Nat) : NoPanics recipe I := by
  refine .of_calm ?_
  rintro ⟨q, k⟩
  cases q with
  | back =>
      refine (Recipe.calm_get ..).2 fun v ↦ ?_
      split <;> simp [Recipe.Calm]
  | _ => simp [recipe, recipes, logic, Recipe.Calm]

/-- It is enough that the fallback lists the query that reads it back, and nothing is kept for
that one. -/
theorem listsReads {s : Database Loop Unit Nat Unit}
    (hback : (s.store.lookup? back ()).bind s.store.memo? = none)
    (hfallback : ∀ key, s.store.lookup? fallback () = some key → ∀ m, s.store.memo? key = some m →
      ∃ d ∈ m.reads, s.store.named? d = some (back, ())) : s.ListsReads recipe := by
  rintro ⟨q, ⟨⟩⟩ key v r reads _ hkey hm y ⟨_, ys, next, htrace, _⟩
  cases q with
  | switch => cases htrace
  | fallback =>
      obtain rfl : (back, ()) = y := (htrace.readsOnly ((Recipe.readsOnly_getOr ..).2 rfl)).1
      exact hfallback key hkey _ hm
  | back =>
      rw [hkey] at hback
      exact absurd (hm.symm.trans hback) (by simp)

/-- The fallback is read while the switch is on, and the switch is turned off. -/
def fallbackFirst : List (Operation Loop Unit Nat) :=
  [.act (.edit (.set switch () 1)), .act (.inquire (.query fallback ())),
    .act (.edit (.set switch () 0))]

/-- The fallback has handled the failure of a query that met the circle, and lists it. -/
theorem query_fallback_first :
    ∃ replies, ∃ db : Database Loop Unit Nat Unit,
      performAll program 8 fallbackFirst { outside := () } = some (replies, db) ∧
      ∃ n db', ∀ m ≥ n, query program m .fallback () db = some (.value 5, db') := by
  have hrun : (performAll program 8 fallbackFirst { outside := () }).map
      (fun p ↦ ([switch, fallback, back].map (p.2.input? · ()),
        (query program 8 .fallback () p.2).isSome)) = some ([some 0, none, none], true) := by
    decide +kernel
  have hlists : ∀ s ∈ states program 8 fallbackFirst { outside := () },
      (s.store.lookup? back ()).bind s.store.memo? = none ∧
        ∀ key ∈ s.store.lookup? fallback (), ∀ m ∈ s.store.memo? key,
          ∃ d ∈ m.reads, s.store.named? d = some (back, ()) := by
    decide +kernel
  have hfresh : (query program 8 .fallback () (fresh () [((switch, ()), 0)])).map
      (fun p ↦ (p.1, p.2.events.any (· matches .refused _))) = some (.value 5, false) := by
    decide +kernel
  obtain ⟨⟨replies, db⟩, hops, hend⟩ := Option.map_eq_some_iff.mp hrun
  obtain ⟨hinputs, hquery⟩ := Prod.mk.inj hend
  obtain ⟨⟨o', db'⟩, hquery⟩ := Option.isSome_iff_exists.mp hquery
  obtain ⟨⟨o, db₀⟩, hfresh, hnone⟩ := Option.map_eq_some_iff.mp hfresh
  obtain ⟨rfl, hnone⟩ := Prod.mk.inj hnone
  simp only [List.map_cons, List.map_nil, List.cons.injEq, and_true] at hinputs
  refine ⟨replies, db, hops, query_after_circles (Program.ofRecipes_obeys _ _) ?_ hops
    (fun s _ ↦ noPanics s.store.inputs) (fun s hs ↦ listsReads (hlists s hs).1 (hlists s hs).2) ?_
    hfresh ?_ (.of_query hquery)⟩
  · simp [fallbackFirst, Operation.Single, Operation.Removes]
  · rintro q ⟨⟩ v
    cases q <;> simp [hinputs, eq_comm]
  · exact fun f hf ↦ absurd rfl (List.any_eq_false.mp hnone _ hf)

/-- The fallback is read on behalf of the query that it reads back, and the switch is turned off. -/
def backFirst : List (Operation Loop Unit Nat) :=
  [.act (.edit (.set switch () 1)), .act (.inquire (.query back ())),
    .act (.edit (.set switch () 0))]

/-- A handled refusal freezes a result: the fallback lists nothing that it has read, so it still
gives what it fell back to, where a fresh database gives a value and meets no circle. -/
theorem query_back_first :
    (∀ op ∈ backFirst, op.Single ∧ ¬ op.Removes) ∧ (∀ I, NoPanics recipe I) ∧
      ∃ replies, ∃ db db' db₀ : Database Loop Unit Nat Unit,
        performAll program 8 backFirst { outside := () } = some (replies, db) ∧
        db.Lists [((switch, ()), 0)] ∧
        query program 8 .fallback () (fresh () [((switch, ()), 0)]) = some (.value 5, db₀) ∧
        (∀ f, Event.refused f ∉ db₀.events) ∧
        query program 8 .fallback () db = some (.value 0, db') := by
  have hrun : (performAll program 8 backFirst { outside := () }).map
      (fun p ↦ ([switch, fallback, back].map (p.2.input? · ()),
        (query program 8 .fallback () p.2).map Prod.fst)) =
      some ([some 0, none, none], some (.value 0)) := by
    decide +kernel
  have hfresh : (query program 8 .fallback () (fresh () [((switch, ()), 0)])).map
      (fun p ↦ (p.1, p.2.events.any (· matches .refused _))) = some (.value 5, false) := by
    decide +kernel
  obtain ⟨⟨replies, db⟩, hops, hend⟩ := Option.map_eq_some_iff.mp hrun
  obtain ⟨hinputs, hquery⟩ := Prod.mk.inj hend
  obtain ⟨⟨o, db'⟩, hquery, rfl⟩ := Option.map_eq_some_iff.mp hquery
  obtain ⟨⟨o, db₀⟩, hfresh, hnone⟩ := Option.map_eq_some_iff.mp hfresh
  obtain ⟨rfl, hnone⟩ := Prod.mk.inj hnone
  simp only [List.map_cons, List.map_nil, List.cons.injEq, and_true] at hinputs
  refine ⟨?_, noPanics, replies, db, db', db₀, hops, ?_, hfresh, ?_, hquery⟩
  · simp [backFirst, Operation.Single, Operation.Removes]
  · rintro q ⟨⟩ v
    cases q <;> simp [hinputs, eq_comm]
  · exact fun f hf ↦ absurd rfl (List.any_eq_false.mp hnone _ hf)

end Loop

end Incremental
