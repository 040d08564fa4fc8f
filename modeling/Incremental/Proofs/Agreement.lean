import Incremental.Proofs.Fresh
import Incremental.Proofs.Performing

/-!
# Agreement with evaluation from scratch

Where bodies give values only if all their reads do, every change below a value shows, and
circles are passed on. So after any history a query is answered as a fresh database answers it
on which the same values are assigned.
-/

namespace Incremental

variable {Q K V W : Type} {R : Q × K → Recipe Q K V}

theorem changesShow_of_strict (hR : ∀ x, (R x).Strict) (I : Inputs Q K V) (σ : Q × K → Revision) :
    ChangesShow R I σ :=
  fun _ _ _ hx z hz ↦ ⟨z, .inr (hz.shows hR hx), Nat.le_refl _⟩

theorem passesCircles_of_strict (hR : ∀ x, (R x).Strict) (I : Inputs Q K V) :
    PassesCircles R I := by
  intro x ys y next _ hread _ _ a ha zs v hrest
  have htrace : (R x).Trace (ys ++ (y, a) :: zs) (.done (.value v)) := hread.append (.cons hrest)
  exact ha (hR x _ v htrace (y, a) (by simp))

namespace Database

variable [DecidableEq Q] [BEq K] [BEq V] [LawfulBEq K] {P : Program Q K V W} {fuel : Nat}

theorem AtRest.perform (hP : P.Obeys R) (hR : ∀ x, (R x).Strict) {db db' : Database Q K V W}
    {r : Except String (Reply V)} (hdb : ∃ H, AtRest R H True db) {op : Operation Q K V}
    (h : perform P fuel op db = some (r, db')) : ∃ H, AtRest R H True db' := by
  refine perform_keeps (fun db ↦ ∃ H, AtRest R H True db) ?_ (fun e _ db ⟨H, hdb⟩ ↦ hdb.edit e)
    (fun _ db ⟨H, hdb⟩ ↦ ⟨H, hdb.clearCache⟩) (fun db ⟨H, hdb⟩ ↦ ⟨H, hdb.note _⟩) hdb h
  rintro q k db o db' ⟨H, hdb⟩ hquery
  exact ⟨H, (hdb.answered hP (changesShow_of_strict hR _ _) hquery
    (fun _ ↦ passesCircles_of_strict hR _) (by simp)).1⟩

/-- Incremental evaluation is evaluation from scratch: after any history of a program whose
bodies are pure and give values only if all their reads do, a query ends as it does on a fresh
database with the same assigned values, if it ends there. -/
theorem query_after_history {w w' : W} {ops : List (Operation Q K V)}
    {replies : List (Except String (Reply V))} {db db₀ : Database Q K V W} {q : Q} {k : K}
    {o : Outcome V} {assigned : List ((Q × K) × V)} {fuel₀ : Nat} (hP : P.Obeys R)
    (hR : ∀ x, (R x).Strict) (hops : performAll P fuel ops { outside := w } = some (replies, db))
    (hassigned : db.Lists assigned)
    (hfresh : query P fuel₀ q k (fresh w' assigned) = some (o, db₀)) :
    ∃ n db', ∀ m ≥ n, query P m q k db = some (o, db') := by
  obtain ⟨H, hdb⟩ := performAll_keeps (fun db ↦ ∃ H, AtRest R H True db)
    (fun _ _ _ _ _ hdb h ↦ AtRest.perform hP hR hdb h) ⟨_, .initial R True w⟩ hops
  exact hdb.query_eq_fresh hP (changesShow_of_strict hR _ _) (passesCircles_of_strict hR _)
    hassigned hfresh

end Database

/-- Two numbers and their sum. -/
inductive Ledger
  | left
  | right
  | total
  deriving DecidableEq

open Database

namespace Ledger

def logic : Ledger → Option (Recipe Ledger Unit Nat)
  | total => some (.get (left, ()) fun a ↦ .get (right, ()) fun b ↦ .done (.value (a + b)))
  | _ => none

def program : Program Ledger Unit Nat Unit := .ofRecipes (fun _ ↦ "") logic

/-- The total is read too early and in time, is assigned for a while, and an addend changes. -/
def history : List (Operation Ledger Unit Nat) :=
  [.act (.edit (.set left () 1)), .act (.inquire (.query total ())),
    .run [.edit (.set right () 2), .inquire (.query total ())], .act (.edit (.set total () 9)),
    .act (.edit (.remove total ())), .act (.inquire (.query total ())),
    .act (.edit (.set left () 5))]

/-- The total is computed again after an addend has changed. -/
theorem query_total_after_history :
    ∃ replies, ∃ db : Database Ledger Unit Nat Unit,
      performAll program 8 history { outside := () } = some (replies, db) ∧
      ∃ n db', ∀ m ≥ n, query program m .total () db = some (.value 7, db') := by
  have hrun : (performAll program 8 history { outside := () }).map
      (fun p ↦ [left, right, total].map (p.2.input? · ())) = some [some 5, some 2, none] := by
    decide +kernel
  have hfresh : (query program 8 .total () (fresh () [((left, ()), 5), ((right, ()), 2)])).map
      Prod.fst = some (.value 7) := by
    decide +kernel
  obtain ⟨⟨replies, db⟩, hops, hinputs⟩ := Option.map_eq_some_iff.mp hrun
  obtain ⟨⟨o, db₀⟩, hfresh, rfl⟩ := Option.map_eq_some_iff.mp hfresh
  simp only [List.map_cons, List.map_nil, List.cons.injEq, and_true] at hinputs
  refine ⟨replies, db, hops, query_after_history (Program.ofRecipes_obeys _ _) ?_ hops ?_ hfresh⟩
  · rintro ⟨q, k⟩
    cases q <;> simp [recipes, logic]
  · rintro q ⟨⟩ v
    cases q <;> simp [hinputs, eq_comm]

end Ledger

end Incremental
