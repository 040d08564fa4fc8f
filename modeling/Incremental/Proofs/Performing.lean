import Incremental.History
import Incremental.Proofs.Course

/-!
# The course of a history

What each operation keeps is kept by a whole history, whether its operations fail and panic or
not. More fuel changes no history that ends.
-/

namespace Incremental

variable {Q K V W : Type}

namespace Action

/-- The changes that an action makes. -/
def edits : Action Q K V → List (Edit Q K V)
  | edit e => [e]
  | _ => []

end Action

/-- What is replied to a read that ends so. -/
def Outcome.reply : Outcome V → Except String (Reply V)
  | value v => .ok (.value v)
  | failure f => .ok (.failure f)
  | panic message => .error message

namespace Operation

def edits : Operation Q K V → List (Edit Q K V)
  | act action => action.edits
  | run actions => actions.flatMap Action.edits
  | _ => []

def Clears : Operation Q K V → Prop
  | clearCache => True
  | _ => False

end Operation

namespace Database

section

variable {α β : Type} {bs : List β} {db db' : Database Q K V W}

theorem inTurn_keeps {step : β → Database Q K V W → Performed Q K V W α}
    (kept : Database Q K V W → Prop)
    (hstep : ∀ b ∈ bs, ∀ db r db', kept db → step b db = some (r, db') → kept db')
    {r : Except String (List α)} (hdb : kept db) (h : inTurn step bs db = some (r, db')) :
    kept db' := by
  induction bs generalizing db db' r with
  | nil =>
      cases h
      exact hdb
  | cons b bs ih =>
      rw [inTurn] at h
      split at h
      · cases h
      · next hb =>
          cases h
          exact hstep b List.mem_cons_self _ _ _ hdb hb
      · next a db₁ hb =>
          obtain ⟨⟨rest, db₂⟩, hrest, hend⟩ := Option.map_eq_some_iff.mp h
          cases hend
          have hdb₁ := hstep b List.mem_cons_self _ _ _ hdb hb
          exact ih (fun b hmem ↦ hstep b (List.mem_cons_of_mem _ hmem)) hdb₁ hrest

theorem inBatch_keeps {step : β → Database Q K V W → Performed Q K V W (Reply V)}
    (kept : Database Q K V W → Prop)
    (hstep : ∀ b ∈ bs, ∀ db r db', kept db → step b db = some (r, db') → kept db')
    {r : Except String (Reply V)} (hdb : kept db) (h : inBatch step bs db = some (r, db')) :
    kept db' := by
  obtain ⟨⟨replies, db₁⟩, hturn, hend⟩ := Option.map_eq_some_iff.mp h
  cases hend
  exact inTurn_keeps kept hstep hdb hturn

theorem inTurn_mono {step step' : β → Database Q K V W → Performed Q K V W α}
    (hstep : ∀ b db r, step b db = some r → step' b db = some r)
    {r : Except String (List α) × Database Q K V W} (h : inTurn step bs db = some r) :
    inTurn step' bs db = some r := by
  induction bs generalizing db r with
  | nil => exact h
  | cons b bs ih =>
      rw [inTurn] at h ⊢
      cases hb : step b db with
      | none => simp [hb] at h
      | some p =>
          rw [hstep b db p hb]
          rw [hb] at h
          rcases p with ⟨_ | a, db₁⟩
          · exact h
          · obtain ⟨p, hrest, hend⟩ := Option.map_eq_some_iff.mp h
            simp only [ih hrest, Option.map_some, hend]

theorem inBatch_mono {step step' : β → Database Q K V W → Performed Q K V W (Reply V)}
    (hstep : ∀ b db r, step b db = some r → step' b db = some r)
    {r : Except String (Reply V) × Database Q K V W} (h : inBatch step bs db = some r) :
    inBatch step' bs db = some r := by
  obtain ⟨p, hturn, hend⟩ := Option.map_eq_some_iff.mp h
  rw [inBatch, inTurn_mono hstep hturn, Option.map_some, hend]

end

section

variable [DecidableEq Q] [BEq K] [BEq V] {P : Program Q K V W} {fuel fuel' : Nat}
  {ops : List (Operation Q K V)} {db db' : Database Q K V W}

omit [BEq V] in
theorem query_of_inquire {q : Q} {k : K} {r : Except String (Reply V)}
    (h : inquire P fuel (.query q k) db = some (r, db')) :
    ∃ o, query P fuel q k db = some (o, db') := by
  obtain ⟨⟨o, db₁⟩, hquery, hend⟩ := Option.map_eq_some_iff.mp h
  refine ⟨o, ?_⟩
  cases o <;> cases hend <;> exact hquery

theorem perform_query (q : Q) (k : K) (db : Database Q K V W) :
    perform P fuel (.act (.inquire (.query q k))) db =
      (query P fuel q k db).map fun p ↦ (p.1.reply, p.2) := by
  refine congrArg (Option.map · (query P fuel q k db)) (funext fun p ↦ ?_)
  rcases p with ⟨_ | _ | _, _⟩ <;> rfl

section

variable (kept : Database Q K V W → Prop)
  (hquery : ∀ q k db o db', kept db → query P fuel q k db = some (o, db') → kept db')

include hquery

omit [BEq V] in
theorem inquire_keeps {inquiry : Inquiry Q K} {r : Except String (Reply V)} (hdb : kept db)
    (h : inquire P fuel inquiry db = some (r, db')) : kept db' := by
  cases inquiry with
  | query q k =>
      obtain ⟨o, h⟩ := query_of_inquire h
      exact hquery q k db o db' hdb h
  | revision =>
      cases h
      exact hdb
  | raise message =>
      cases h
      exact hdb

theorem act_keeps {action : Action Q K V}
    (hedit : ∀ e ∈ action.edits, ∀ db, kept db → kept (edit e db).2)
    {r : Except String (Reply V)} (hdb : kept db) (h : act P fuel action db = some (r, db')) :
    kept db' := by
  cases action with
  | inquire inquiry => exact inquire_keeps kept hquery hdb h
  | edit e =>
      cases h
      exact hedit e (by simp [Action.edits]) db hdb
  | read inquiries =>
      exact inBatch_keeps kept (fun _ _ _ _ _ hdb h ↦ inquire_keeps kept hquery hdb h) hdb h

/-- What queries, changes and clearings keep is kept by an operation that is made of them. -/
theorem perform_keeps {op : Operation Q K V}
    (hedit : ∀ e ∈ op.edits, ∀ db, kept db → kept (edit e db).2)
    (hclear : op.Clears → ∀ db, kept db → kept db.clearCache)
    (hreport : ∀ db, kept db → kept (db.report P)) {r : Except String (Reply V)} (hdb : kept db)
    (h : perform P fuel op db = some (r, db')) : kept db' := by
  cases op with
  | act action => exact act_keeps kept hquery hedit hdb h
  | clearCache =>
      cases h
      exact hclear trivial db hdb
  | report =>
      cases h
      exact hreport db hdb
  | run actions =>
      refine inBatch_keeps kept (fun action haction _ _ _ hdb h ↦ ?_) hdb h
      exact act_keeps kept hquery (fun e he ↦ hedit e (List.mem_flatMap.2 ⟨action, haction, he⟩))
        hdb h

end

/-- A history goes on after its first operation. -/
theorem performAll_cons {op : Operation Q K V} {replies : List (Except String (Reply V))} :
    performAll P fuel (op :: ops) db = some (replies, db') ↔
      ∃ r db₁ rest, perform P fuel op db = some (r, db₁) ∧
        performAll P fuel ops db₁ = some (rest, db') ∧ replies = r :: rest := by
  constructor
  · intro h
    obtain ⟨⟨r, db₁⟩, hop, hrest⟩ := Option.bind_eq_some_iff.mp h
    obtain ⟨⟨rest, db₂⟩, hops, hend⟩ := Option.map_eq_some_iff.mp hrest
    cases hend
    exact ⟨r, db₁, rest, hop, hops, rfl⟩
  · rintro ⟨r, db₁, rest, hop, hops, rfl⟩
    simp only [performAll, hop, Option.bind_some, hops, Option.map_some]

theorem performAll_snoc {op : Operation Q K V} {db₁ : Database Q K V W}
    {replies : List (Except String (Reply V))} {r : Except String (Reply V)}
    (hops : performAll P fuel ops db = some (replies, db₁))
    (hop : perform P fuel op db₁ = some (r, db')) :
    performAll P fuel (ops ++ [op]) db = some (replies ++ [r], db') := by
  induction ops generalizing db replies with
  | nil =>
      cases hops
      exact performAll_cons.mpr ⟨r, db', [], hop, rfl, rfl⟩
  | cons first ops ih =>
      obtain ⟨r₁, db₂, rest, hfirst, hrest, rfl⟩ := performAll_cons.mp hops
      exact performAll_cons.mpr ⟨r₁, db₂, _, hfirst, ih hrest, rfl⟩

theorem performAll_keeps (kept : Database Q K V W → Prop)
    (hstep : ∀ op ∈ ops, ∀ db r db', kept db → perform P fuel op db = some (r, db') → kept db')
    {replies : List (Except String (Reply V))} (hdb : kept db)
    (h : performAll P fuel ops db = some (replies, db')) : kept db' := by
  induction ops generalizing db replies with
  | nil =>
      cases h
      exact hdb
  | cons op ops ih =>
      obtain ⟨r, db₁, rest, hop, hops, _⟩ := performAll_cons.mp h
      have hdb₁ := hstep op List.mem_cons_self _ _ _ hdb hop
      exact ih (fun op hmem ↦ hstep op (List.mem_cons_of_mem _ hmem)) hdb₁ hops

omit [BEq V] in
theorem inquire_mono (hle : fuel ≤ fuel') {inquiry : Inquiry Q K}
    {r : Except String (Reply V) × Database Q K V W} (h : inquire P fuel inquiry db = some r) :
    inquire P fuel' inquiry db = some r := by
  cases inquiry with
  | query q k =>
      obtain ⟨p, hquery, hend⟩ := Option.map_eq_some_iff.mp h
      simp only [inquire, query_mono hle hquery, Option.map_some]
      exact congrArg some hend
  | revision => exact h
  | raise message => exact h

theorem act_mono (hle : fuel ≤ fuel') {action : Action Q K V}
    {r : Except String (Reply V) × Database Q K V W} (h : act P fuel action db = some r) :
    act P fuel' action db = some r := by
  cases action with
  | inquire inquiry => exact inquire_mono hle h
  | edit e => exact h
  | read inquiries => exact inBatch_mono (fun _ _ _ ↦ inquire_mono hle) h

theorem perform_mono (hle : fuel ≤ fuel') {op : Operation Q K V}
    {r : Except String (Reply V) × Database Q K V W} (h : perform P fuel op db = some r) :
    perform P fuel' op db = some r := by
  cases op with
  | act action => exact act_mono hle h
  | clearCache => exact h
  | report => exact h
  | run actions => exact inBatch_mono (fun _ _ _ ↦ act_mono hle) h

theorem perform_unique {op : Operation Q K V} {r r' : Except String (Reply V) × Database Q K V W}
    (h : perform P fuel op db = some r) (h' : perform P fuel' op db = some r') : r = r' := by
  have hle := perform_mono (Nat.le_max_left fuel fuel') h
  exact Option.some.inj (hle.symm.trans (perform_mono (Nat.le_max_right fuel fuel') h'))

theorem performAll_mono (hle : fuel ≤ fuel')
    {r : List (Except String (Reply V)) × Database Q K V W}
    (h : performAll P fuel ops db = some r) : performAll P fuel' ops db = some r := by
  induction ops generalizing db r with
  | nil => exact h
  | cons op ops ih =>
      obtain ⟨a, db₁, rest, hop, hops, hend⟩ := performAll_cons.mp h
      exact performAll_cons.mpr ⟨a, db₁, rest, perform_mono hle hop, ih hops, hend⟩

/-- A history ends if its first operation does and the others do after it. -/
theorem exists_performAll_cons {op : Operation Q K V} :
    (∃ fuel p, performAll P fuel (op :: ops) db = some p) ↔
      ∃ fuel r db₁, perform P fuel op db = some (r, db₁) ∧
        ∃ fuel p, performAll P fuel ops db₁ = some p := by
  constructor
  · rintro ⟨fuel, p, h⟩
    obtain ⟨r, db₁, rest, hop, hops, _⟩ := performAll_cons.mp h
    exact ⟨fuel, r, db₁, hop, fuel, _, hops⟩
  · rintro ⟨fuel, r, db₁, hop, fuel', p, hops⟩
    exact ⟨max fuel fuel', (r :: p.1, p.2), performAll_cons.mpr ⟨r, db₁, p.1,
      perform_mono (Nat.le_max_left fuel fuel') hop,
      performAll_mono (Nat.le_max_right fuel fuel') hops, rfl⟩⟩

theorem performAll_unique {r r' : List (Except String (Reply V)) × Database Q K V W}
    (h : performAll P fuel ops db = some r) (h' : performAll P fuel' ops db = some r') :
    r = r' := by
  have hle := performAll_mono (Nat.le_max_left fuel fuel') h
  exact Option.some.inj (hle.symm.trans (performAll_mono (Nat.le_max_right fuel fuel') h'))

end

end Database

end Incremental
