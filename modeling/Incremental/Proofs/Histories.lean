import Incremental.Proofs.Agreement

/-!
# Histories of single operations

A history of single reads, changes and clearings keeps a database at rest if changes show
wherever a query is asked for, and if circles are passed on or values list what was read for
them. Where nothing is ever removed, only assigned values have changed.
-/

namespace Incremental

variable {Q K V W : Type}

namespace Operation

/-- A single read, a single change, or the dropping of all computed values. -/
def Single : Operation Q K V → Prop
  | act (.inquire (.query ..)) | act (.edit _) | clearCache => True
  | _ => False

theorem Single.cases {op : Operation Q K V} (h : op.Single) :
    (∃ q k, op = act (.inquire (.query q k))) ∨ (∃ e, op = act (.edit e)) ∨ op = clearCache := by
  cases op with
  | act action =>
      cases action with
      | inquire inquiry =>
          cases inquiry with
          | query q k => exact .inl ⟨q, k, rfl⟩
          | revision | raise => cases h
      | edit e => exact .inr (.inl ⟨e, rfl⟩)
      | read => cases h
  | clearCache => exact .inr (.inr rfl)
  | report | run => cases h

def Removes : Operation Q K V → Prop
  | act (.edit (.remove ..)) => True
  | _ => False

def asks : Operation Q K V → Bool
  | act (.inquire (.query ..)) => true
  | _ => false

end Operation

namespace Database

/-- What is kept for queries that yield nothing lists the reads that their evaluation comes to,
as far as it was computed at the current revision. -/
def ListsReads [DecidableEq Q] [BEq K] (R : Q × K → Recipe Q K V) (db : Database Q K V W) : Prop :=
  ∀ x key v r reads, (¬ ∃ o, Yields R db.store.inputs x o) → db.store.lookup? x.1 x.2 = some key →
    db.store.memo? key = some (.derived v r db.revision reads) →
    ∀ y, ReadBy R db.store.inputs y x → ∃ d ∈ reads, db.store.named? d = some y

/-- In such a database a query may be asked for. -/
structure Favourable [DecidableEq Q] [BEq K] (R : Q × K → Recipe Q K V) (tame : Prop)
    (db : Database Q K V W) : Prop where
  shows : ChangesShow R db.store.inputs db.store.lastChange
  circles : tame → PassesCircles R db.store.inputs

/-- Nothing was ever removed. -/
def Untouched (db : Database Q K V W) : Prop :=
  ∀ key, db.store.removedAt key = Revision.initial

variable [DecidableEq Q] [BEq K]

/-- Where nothing was removed, only what is assigned has changed. -/
theorem Untouched.lastChange_eq {db : Database Q K V W} (hdb : db.Untouched) {x : Q × K}
    (hx : db.store.inputs x = none) :
    db.store.lastChange x = Revision.initial := by
  cases hkey : db.store.lookup? x.1 x.2 with
  | none => simp [Store.lastChange, hkey]
  | some key =>
      cases hm : db.store.memo? key with
      | none => simp [Store.lastChange, hkey, hm, hdb key]
      | some m => cases m with
          | input v c => simp [Store.inputs, hkey, hm, Memo.isInput, Option.filter] at hx
          | derived v c w reads => simp [Store.lastChange, hkey, hm, hdb key]

theorem Untouched.set [ReflBEq K] {db : Database Q K V W} (hdb : db.Untouched) (q : Q) (k : K)
    (v : V) : (db.set q k v).Untouched := by
  intro key
  obtain ⟨_, s, _, _, hadvances, hset⟩ := db.set_eq q k v
  rw [hset]
  exact (Store.removedAt_insert ..).trans ((hadvances.removedAt key).trans (hdb key))

variable [BEq V]

/-- The states that a history passes through, from the first on. -/
def states (P : Program Q K V W) (fuel : Nat) :
    List (Operation Q K V) → Database Q K V W → List (Database Q K V W)
  | [], db => [db]
  | op :: ops, db => db ::
    match perform P fuel op db with
    | none => []
    | some (_, db') => states P fuel ops db'

/-- The states in which a history asks for a query, and the state at its end. -/
def asked (P : Program Q K V W) (fuel : Nat) :
    List (Operation Q K V) → Database Q K V W → List (Database Q K V W)
  | [], db => [db]
  | op :: ops, db =>
    let rest := match perform P fuel op db with
      | none => []
      | some (_, db') => asked P fuel ops db'
    if op.asks then db :: rest else rest

variable {P : Program Q K V W} {fuel : Nat} {ops : List (Operation Q K V)}
  {db db' : Database Q K V W}
  {replies : List (Except String (Reply V))}

theorem mem_states_self : db ∈ states P fuel ops db := by
  cases ops <;> exact List.mem_cons_self

/-- What operations keep is kept by a history, where `C` is known wherever a query is asked for
and `D` after each operation. -/
theorem history_keeps (kept C D : Database Q K V W → Prop)
    (hstep : ∀ op ∈ ops, ∀ db r db', kept db → (op.asks = true → C db) → D db' →
      perform P fuel op db = some (r, db') → kept db')
    (hasked : ∀ s ∈ asked P fuel ops db, C s) (hstates : ∀ s ∈ states P fuel ops db, D s)
    (hdb : kept db) (hops : performAll P fuel ops db = some (replies, db')) : kept db' ∧ C db' := by
  induction ops generalizing db replies with
  | nil =>
      cases hops
      exact ⟨hdb, hasked _ List.mem_cons_self⟩
  | cons op ops ih =>
      obtain ⟨r, db₁, rest, hop, hops, _⟩ := performAll_cons.mp hops
      simp only [asked, hop] at hasked
      simp only [states, hop, List.mem_cons, forall_eq_or_imp] at hstates
      have hC : op.asks = true → C db := fun hasks ↦ hasked db (by simp [hasks])
      have hrest : ∀ s ∈ asked P fuel ops db₁, C s := by
        intro s hs
        refine hasked s ?_
        split
        · exact List.mem_cons_of_mem _ hs
        · exact hs
      have hdb₁ := hstep op List.mem_cons_self db r db₁ hdb hC (hstates.2 _ mem_states_self) hop
      exact ih (fun op hmem ↦ hstep op (List.mem_cons_of_mem _ hmem)) hrest hstates.2 hdb₁ hops

variable [LawfulBEq K] {R : Q × K → Recipe Q K V} {tame : Prop} {r : Except String (Reply V)}

/-- A single operation keeps a database at rest. -/
theorem AtRest.single (hP : P.Obeys R) (hdb : ∃ H, AtRest R H tame db) {op : Operation Q K V}
    (hop : op.Single) (hfavours : op.asks = true → db.Favourable R tame)
    (hlists : ¬ tame → db'.ListsReads R) (h : Database.perform P fuel op db = some (r, db')) :
    ∃ H, AtRest R H tame db' := by
  obtain ⟨H, hdb⟩ := hdb
  obtain ⟨q, k, rfl⟩ | ⟨e, rfl⟩ | rfl := hop.cases
  · obtain ⟨o, hquery⟩ := query_of_inquire h
    obtain ⟨hs, hf⟩ := hdb.sound.query hquery
    have hinputs := hf.store.keeps.inputs_eq hdb.sound.store.indexed hs.store.indexed
    obtain ⟨hshows, hcircles⟩ := hfavours rfl
    refine ⟨H, (hdb.answered hP hshows hquery hcircles
      fun ht key x v r reads hx hm hnone ↦ ?_).1⟩
    have hlookup := hs.store.indexed key x.1 x.2 hx
    have hlists := hlists ht x key v r reads
    rw [hinputs, hf.revision] at hlists
    exact hlists hnone hlookup hm
  · cases h
    exact hdb.edit e
  · cases h
    exact ⟨H, hdb.clearCache⟩

theorem Untouched.single (hdb : db.Untouched) (hs : db.Sound) {op : Operation Q K V}
    (hop : op.Single) (hremoves : ¬ op.Removes) (h : perform P fuel op db = some (r, db')) :
    db'.Untouched := by
  obtain ⟨q, k, rfl⟩ | ⟨e, rfl⟩ | rfl := hop.cases
  · obtain ⟨o, hquery⟩ := query_of_inquire h
    exact fun key ↦ ((hs.query hquery).2.store.removedAt key).trans (hdb key)
  · cases h
    cases e with
    | set q k v => exact hdb.set q k v
    | setIfChanged q k v =>
        change (db.setIfChanged q k v).2.Untouched
        unfold Database.setIfChanged
        split
        · exact hdb
        · exact hdb.set q k v
    | remove q k => exact absurd trivial hremoves
  · cases h
    exact fun key ↦ (db.keeps_clearCache.removedAt key).trans (hdb key)

section

variable {w : W} (hP : P.Obeys R)
  (hops : performAll P fuel ops { outside := w } = some (replies, db))
  (hlists : ¬ tame → ∀ s ∈ states P fuel ops { outside := w }, s.ListsReads R)

include hP hops hlists

theorem AtRest.history (hsingle : ∀ op ∈ ops, op.Single)
    (hfavours : ∀ s ∈ asked P fuel ops { outside := w }, s.Favourable R tame) :
    (∃ H, AtRest R H tame db) ∧ db.Favourable R tame := by
  refine history_keeps (fun s ↦ ∃ H, AtRest R H tame s) (fun s ↦ s.Favourable R tame)
    (fun s ↦ ¬ tame → s.ListsReads R) ?_ hfavours (fun s hs ht ↦ hlists ht s hs)
    ⟨_, .initial R tame w⟩ hops
  exact fun op hop s r s' hs hC hD h ↦ AtRest.single hP hs (hsingle op hop) hC hD h

/-- A history of single operations without a removal ends at rest, and untouched by removals. -/
theorem AtRest.history_untouched (hsingle : ∀ op ∈ ops, op.Single ∧ ¬ op.Removes)
    (hfavours : ∀ s ∈ asked P fuel ops { outside := w }, s.Untouched → s.Favourable R tame) :
    (∃ H, AtRest R H tame db) ∧ db.Favourable R tame := by
  have hinitial : ({ outside := w } : Database Q K V W).Untouched := fun key ↦ by
    simp [Store.removedAt, Store.row?, Store.find?]
  have hkeeps := history_keeps (fun s ↦ (∃ H, AtRest R H tame s) ∧ s.Untouched)
    (fun s ↦ s.Untouched → s.Favourable R tame) (fun s ↦ ¬ tame → s.ListsReads R) ?_ hfavours
    (fun s hs ht ↦ hlists ht s hs) ⟨⟨_, .initial R tame w⟩, hinitial⟩ hops
  · exact ⟨hkeeps.1.1, hkeeps.2 hkeeps.1.2⟩
  · rintro op hop s r s' ⟨⟨H, hrest⟩, huntouched⟩ hC hD h
    obtain ⟨hop, hremoves⟩ := hsingle op hop
    exact ⟨AtRest.single hP ⟨H, hrest⟩ hop (fun hasks ↦ hC hasks huntouched) hD h,
      huntouched.single hrest.sound hop hremoves h⟩

end

end Database

end Incremental
