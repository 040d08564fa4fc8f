import Incremental.Proofs.Changing

/-!
# Fresh databases

A fresh database holds some assigned values and has computed nothing. What it answers is how the
evaluation from scratch ends. A database at rest answers the same, in a scene where changes show
and circles are passed on.
-/

namespace Incremental

variable {Q K V W : Type} [DecidableEq Q] [BEq K]

/-- A database on which the listed values were assigned in turn, and nothing else was done. -/
def Database.fresh (w : W) (assigned : List ((Q × K) × V)) : Database Q K V W :=
  assigned.foldl (fun db p ↦ db.set p.1.1 p.1.2 p.2) { outside := w }

/-- The listed values are exactly those that are assigned in the database. -/
def Database.Lists (db : Database Q K V W) (assigned : List ((Q × K) × V)) : Prop :=
  ∀ q k v, ((q, k), v) ∈ assigned ↔ db.input? q k = some v

namespace Scene

variable {c : Scene Q K V W} {db : Database Q K V W}

theorem Ready.of_idle (hidle : db.stack = {}) (hunlimited : db.configuration.maxDepth = none)
    (hnow : db.revision = c.now) (hfaithful : c.Faithful db.store) (x : Q × K) : c.Ready [] x db :=
  ⟨⟨⟨hnow ▸ hfaithful.regular, by simp [hidle], by simp [hidle]⟩, hnow, hfaithful, hunlimited,
    by simp [hidle, CallStack.keys]⟩, by simp⟩

end Scene

namespace Database

variable [LawfulBEq K] {R : Q × K → Recipe Q K V} {H : Timeline Q K V} {tame : Prop}
  {db : Database Q K V W} {w : W}

theorem inputs_set (hs : db.store.Regular db.revision) (q : Q) (k : K) (v : V) (x : Q × K) :
    (x = (q, k) → (db.set q k v).store.inputs x = some v) ∧
      (x ≠ (q, k) → (db.set q k v).store.inputs x = db.store.inputs x) := by
  obtain ⟨key, s, hkey, hfound, hadvances, hset⟩ := db.set_eq q k v
  have hname : s.named? key = some (q, k) := Store.named?_of_lookup? hfound
  have hregular : s.Regular db.revision := by
    have hintern := hs.intern q k
    rwa [hkey] at hintern
  have hstore : (db.set q k v).store = s.insert key (.input v (db.revision + 1)) := by
    rw [hset]
    rfl
  rw [hstore]
  constructor
  · rintro rfl
    exact Store.inputs_of_input (hregular.indexed.insert key _)
      ((Store.named?_insert ..).trans hname)
      (Store.memo?_insert_self ⟨_, hname⟩ _)
  · intro hne
    have hsame := Store.modify_of_ne (f := (·.insert (.input v (db.revision + 1)))) (fun _ ↦ rfl)
      hname hne
    exact hsame.1.trans (congrFun (hadvances.keeps.inputs_eq hs.indexed hregular.indexed) x)

/-- At rest, with nothing computed. -/
structure Bare (R : Q × K → Recipe Q K V) (db : Database Q K V W) : Prop where
  atRest : ∃ H, AtRest R H True db
  bare : ∀ key v c w reads, db.store.memo? key ≠ some (.derived v c w reads)

namespace Bare

omit [LawfulBEq K] in
theorem initial (R : Q × K → Recipe Q K V) (w : W) :
    Bare R ({ outside := w } : Database Q K V W) := by
  refine ⟨⟨_, .initial R True w⟩, fun key v c w reads hm ↦ ?_⟩
  simp [Store.memo?, Store.row?, Store.find?] at hm

theorem set (h : Bare R db) (q : Q) (k : K) (v : V) : Bare R (db.set q k v) := by
  obtain ⟨H, hrest⟩ := h.atRest
  refine ⟨hrest.set q k v, fun key v' c w reads hm ↦ ?_⟩
  exact h.bare key v' c w reads (memo?_derived_of_set hm)

/-- After some assignments a query is assigned what it was assigned last. -/
theorem foldl (h : Bare R db) (assigned : List ((Q × K) × V)) :
    Bare R (assigned.foldl (fun db p ↦ db.set p.1.1 p.1.2 p.2) db) ∧ ∀ x,
      (∃ v, (x, v) ∈ assigned ∧
        (assigned.foldl (fun db p ↦ db.set p.1.1 p.1.2 p.2) db).store.inputs x = some v) ∨
      (∀ v, (x, v) ∉ assigned) ∧
        (assigned.foldl (fun db p ↦ db.set p.1.1 p.1.2 p.2) db).store.inputs x =
          db.store.inputs x := by
  induction assigned generalizing db with
  | nil => exact ⟨h, fun x ↦ .inr ⟨by simp, rfl⟩⟩
  | cons p assigned ih =>
      obtain ⟨hbare, hinputs⟩ := ih (h.set p.1.1 p.1.2 p.2)
      refine ⟨hbare, fun x ↦ ?_⟩
      obtain ⟨H, hrest⟩ := h.atRest
      obtain ⟨hself, hother⟩ := inputs_set hrest.faithful.regular p.1.1 p.1.2 p.2 x
      rcases hinputs x with ⟨v, hv, heq⟩ | ⟨hnone, heq⟩
      · exact .inl ⟨v, List.mem_cons_of_mem _ hv, heq⟩
      · by_cases hx : x = p.1
        · refine .inl ⟨p.2, ?_, heq.trans (hself hx)⟩
          rw [hx]
          exact List.mem_cons_self
        · refine .inr ⟨fun v hv ↦ ?_, heq.trans (hother hx)⟩
          rcases List.mem_cons.mp hv with rfl | hv
          · exact hx rfl
          · exact hnone v hv

end Bare

theorem bare_fresh (R : Q × K → Recipe Q K V) (w : W) (assigned : List ((Q × K) × V)) :
    Bare R (fresh w assigned) := ((Bare.initial R w).foldl assigned).1

omit [LawfulBEq K] in
theorem input?_eq (db : Database Q K V W) (q : Q) (k : K) :
    db.input? q k = db.store.inputs (q, k) :=
  rfl

theorem inputs_fresh {assigned : List ((Q × K) × V)} (h : db.Lists assigned) (w : W) :
    (fresh w assigned : Database Q K V W).store.inputs = db.store.inputs := by
  funext x
  -- any recipes will do: nothing is read
  obtain ⟨_, hinputs⟩ := (Bare.initial (fun _ ↦ .done (.panic "")) w :
    Bare _ ({ outside := w } : Database Q K V W)).foldl assigned
  rcases hinputs x with ⟨v, hv, heq⟩ | ⟨hnone, heq⟩
  · exact heq.trans ((h x.1 x.2 v).1 hv).symm
  · refine heq.trans ?_
    cases hx : db.store.inputs x with
    | none => rfl
    | some v => exact absurd ((h x.1 x.2 v).2 hx) (hnone v)

variable {P : Program Q K V W} {q : Q} {k : K} {o : Outcome V} {fuel : Nat}
  {db₀ db₀' : Database Q K V W}

/-- The scene of a database in which nothing has changed since it was made. -/
def Bare.scene (db : Database Q K V W) (hP : P.Obeys R) : Scene Q K V W where
  program := P
  recipe := R
  timeline _ := db.store.inputs
  now := db.revision
  lastChange _ := 0
  tame := True
  obeys := hP
  shows x _ _ _ _ _ := ⟨x, .inl rfl, Nat.le_refl _⟩

omit [LawfulBEq K] in
theorem Bare.ready (h : Bare R db₀) (hP : P.Obeys R) (x : Q × K) :
    (Bare.scene db₀ hP).Ready [] x db₀ := by
  obtain ⟨H, hrest⟩ := h.atRest
  have hfaithful : Faithful R (fun _ ↦ db₀.store.inputs) (fun _ ↦ 0) True db₀.revision db₀.store :=
    ⟨hrest.faithful.regular, rfl, fun _ ↦ Nat.zero_le _, fun _ _ _ _ ↦ rfl,
      fun key x v c w reads _ hm ↦ absurd hm (h.bare key v c w reads)⟩
  exact .of_idle hrest.idle hrest.unlimited rfl hfaithful x

/-- What a database answers on which nothing was computed is how the evaluation from scratch
ends. Where no read is refused, the query yields it. -/
theorem Bare.answered (h : Bare R db₀) (hP : P.Obeys R)
    (hquery : query P fuel q k db₀ = some (o, db₀')) (hcircles : PassesCircles R db₀.store.inputs ∨
      ∀ f, Event.refused f ∉ db₀'.events) :
    Ends R db₀.store.inputs (fun x ↦ P.label x.1 x.2) [] (q, k) o ∧
      ((∀ f, Event.refused f ∉ db₀'.events) → Yields R db₀.store.inputs (q, k) o) := by
  have hans := Scene.query_answered hquery (h.ready hP (q, k))
    (.inr ⟨fun _ ↦ hcircles, fun hn ↦ absurd trivial hn⟩)
  refine ⟨hans.ends trivial, fun hnone ↦ ?_⟩
  rcases hans.settles trivial with hyields | ⟨_, _, f, hf⟩
  · exact hyields
  · exact absurd hf (hnone f)

/-- A database on which nothing was computed answers what the query yields. -/
theorem Bare.query_eq_yields (h : Bare R db₀) (hP : P.Obeys R)
    (hyields : Yields R db₀.store.inputs (q, k) o) :
    ∃ n db', ∀ fuel ≥ n, query P fuel q k db₀ = some (o, db') := by
  have hyields : (Bare.scene db₀ hP).Yields (q, k) o := hyields
  obtain ⟨n, db', hquery⟩ := hyields.answers [] db₀ (h.ready hP (q, k)) (.inl trivial)
  exact ⟨n, db', fun fuel hfuel ↦ query_mono hfuel hquery⟩

namespace AtRest

variable {db' : Database Q K V W}

/-- A read leaves a database at rest, and its answer is what the query yields. Where every kept
value was yielded, it is how the evaluation from scratch ends. -/
theorem answered (h : AtRest R H tame db) (hP : P.Obeys R)
    (hshow : ChangesShow R db.store.inputs db.store.lastChange)
    (hquery : query P fuel q k db = some (o, db'))
    (hcircles : tame → PassesCircles R db.store.inputs)
    (hlists : ¬ tame → ∀ key x v r reads, db'.store.named? key = some x →
      db'.store.memo? key = some (.derived v r db.revision reads) →
      (¬ ∃ o, Yields R db.store.inputs x o) →
      ∀ y, ReadBy R db.store.inputs y x → ∃ d ∈ reads, db'.store.named? d = some y) :
    AtRest R H tame db' ∧ (∀ o', Yields R db.store.inputs (q, k) o' → o = o') ∧
      (tame → Ends R db.store.inputs (fun x ↦ P.label x.1 x.2) [] (q, k) o) := by
  rw [← h.inputs] at hshow hcircles hlists ⊢
  let c : Scene Q K V W := ⟨P, R, H, db.revision, db.store.lastChange, tame, hP, hshow⟩
  have hready : c.Ready [] (q, k) db := .of_idle h.idle h.unlimited rfl h.faithful _
  have hallows : c.Allows db.stack.active db'.store db'.events :=
    ⟨fun ht ↦ .inl (hcircles ht), fun ht key x v r reads _ ↦ hlists ht key x v r reads⟩
  have hans := Scene.query_answered hquery hready (.inr hallows)
  obtain ⟨hs, hf⟩ := h.sound.query hquery
  have hstamps := hf.store.keeps.lastChange_eq h.sound.store.indexed hs.store.indexed
  refine ⟨⟨?_, hf.configuration ▸ h.unlimited, ?_⟩, fun o' ho' ↦ (hans.agrees o' ho').1, hans.ends⟩
  · obtain ⟨g, _, hstack⟩ := hf.stack
    rw [hstack, h.idle]
    rfl
  · rw [hstamps, hf.revision]
    exact hans.faithful

/-- Where every kept value was yielded, a database at rest answers how the evaluation from scratch
ends. -/
theorem query_eq_ends (h : AtRest R H True db) (hP : P.Obeys R)
    (hshow : ChangesShow R db.store.inputs db.store.lastChange)
    (hcircles : PassesCircles R db.store.inputs)
    (hends : Ends R db.store.inputs (fun x ↦ P.label x.1 x.2) [] (q, k) o) :
    ∃ n db', ∀ fuel ≥ n, query P fuel q k db = some (o, db') := by
  rw [← h.inputs] at hshow hends hcircles
  let c : Scene Q K V W := ⟨P, R, H, db.revision, db.store.lastChange, True, hP, hshow⟩
  have hready : c.Ready [] (q, k) db := .of_idle h.idle h.unlimited rfl h.faithful _
  obtain ⟨n, db', hquery⟩ := Scene.Ends.answers hends trivial hcircles db hready (.inl trivial)
  exact ⟨n, db', fun fuel hfuel ↦ query_mono hfuel hquery⟩

/-- A database at rest answers what a fresh one does that holds the same assigned values. -/
theorem query_eq_fresh (h : AtRest R H True db) (hP : P.Obeys R)
    (hshow : ChangesShow R db.store.inputs db.store.lastChange)
    (hcircles : PassesCircles R db.store.inputs) {assigned : List ((Q × K) × V)}
    (hlists : db.Lists assigned) (hfresh : query P fuel q k (fresh w assigned) = some (o, db₀)) :
    ∃ n db', ∀ fuel ≥ n, query P fuel q k db = some (o, db') := by
  have hinputs := inputs_fresh hlists w
  obtain ⟨hends, _⟩ := (bare_fresh R w assigned).answered hP hfresh (.inl (hinputs ▸ hcircles))
  rw [hinputs] at hends
  exact h.query_eq_ends hP hshow hcircles hends

/-- A database at rest answers what the query yields, if every verification ends to which it
comes. -/
theorem query_eq_yields (h : AtRest R H tame db) (hP : P.Obeys R)
    (hshow : ChangesShow R db.store.inputs db.store.lastChange)
    (hyields : Yields R db.store.inputs (q, k) o) (hsettles : tame ∨ Settles P (.get q k) db) :
    ∃ n db', ∀ fuel ≥ n, query P fuel q k db = some (o, db') := by
  rw [← h.inputs] at hshow hyields
  let c : Scene Q K V W := ⟨P, R, H, db.revision, db.store.lastChange, tame, hP, hshow⟩
  have hready : c.Ready [] (q, k) db := .of_idle h.idle h.unlimited rfl h.faithful _
  obtain ⟨n, db', hquery⟩ := Scene.Yields.answers hyields [] db hready hsettles
  exact ⟨n, db', fun fuel hfuel ↦ query_mono hfuel hquery⟩

end AtRest

end Database

end Incremental
