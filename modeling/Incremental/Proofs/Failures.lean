import Incremental.Proofs.Removal
import Incremental.Proofs.Panics

/-!
# Handled failures where nothing is removed

A query that fails leaves nothing behind: no value is kept for it, or one from before it failed.
It is still listed for the body that has handled the failure. As long as nothing is removed, the
change that made it fail is one of an assigned value below it, and its revision is handed on with
the reads. So handled failures do no harm where no evaluation comes to a circle or a panic.
-/

namespace Incremental

variable {Q K V W : Type} {R : Q × K → Recipe Q K V}

/-- Whether a read was refused. -/
def Event.isRefused : Event Q K → Bool
  | refused _ => true
  | _ => false

namespace Database

variable [DecidableEq Q] [BEq K]

/-- On a fresh database with the same assigned values every evaluation ends, in no panic, and
refuses no read. -/
def Untroubled (P : Program Q K V W) (db : Database Q K V W) : Prop :=
  ∃ w assigned, db.Lists assigned ∧ ∀ q k, ∃ fuel o db₀,
    query P fuel q k (fresh w assigned) = some (o, db₀) ∧ ¬ o.IsPanic ∧
      ∀ f, Event.refused f ∉ db₀.events

variable [LawfulBEq K] {P : Program Q K V W} {db db' : Database Q K V W}

namespace Untroubled

variable (h : db.Untroubled P) (hP : P.Obeys R)

include h hP

theorem exists_yields (x : Q × K) :
    ∃ o, Yields R db.store.inputs x o ∧ ¬ o.IsPanic := by
  obtain ⟨w, assigned, hlists, hqueries⟩ := h
  obtain ⟨fuel, o, db₀, hquery, hpanic, hrefused⟩ := hqueries x.1 x.2
  have hyields := ((bare_fresh R w assigned).answered hP hquery (.inr hrefused)).2 hrefused
  rw [inputs_fresh hlists] at hyields
  exact ⟨o, hyields, hpanic⟩

theorem acyclic : Acyclic R db.store.inputs := by
  intro x
  obtain ⟨o, hyields, _⟩ := h.exists_yields hP x
  exact hyields.not_below_self

theorem noPanics : NoPanics R db.store.inputs := by
  intro x o ho
  obtain ⟨o', hyields, hpanic⟩ := h.exists_yields hP x
  rwa [ho.unique hyields]

/-- Only assigned values have changed, and no panic keeps their changes from a reader. -/
theorem favourable (huntouched : db.Untouched) : db.Favourable R True :=
  ⟨(h.noPanics hP).panicsShow.changesShow fun _ hx ↦ huntouched.lastChange_eq hx,
    fun _ ↦ (h.acyclic hP).passesCircles⟩

end Untroubled

variable [BEq V] {ops : List (Operation Q K V)}

section

omit [LawfulBEq K]

variable {fuel fuel' : Nat}

theorem states_mono (hle : fuel ≤ fuel') {s : Database Q K V W} (hs : s ∈ states P fuel ops db) :
    s ∈ states P fuel' ops db := by
  induction ops generalizing db with
  | nil => exact hs
  | cons op ops ih =>
      rw [states] at hs ⊢
      rcases List.mem_cons.mp hs with rfl | hs
      · exact List.mem_cons_self
      · cases hop : perform P fuel op db with
        | none => simp [hop] at hs
        | some p =>
            rw [perform_mono hle hop]
            rw [hop] at hs
            exact List.mem_cons_of_mem _ (ih hs)

/-- A history that ends with some fuel passes through no other states with more. -/
theorem mem_states_of_performAll {r : List (Except String (Reply V)) × Database Q K V W}
    (h : performAll P fuel ops db = some r) {s : Database Q K V W}
    (hs : s ∈ states P fuel' ops db) : s ∈ states P fuel ops db := by
  induction ops generalizing db r with
  | nil => exact hs
  | cons op ops ih =>
      obtain ⟨a, db₁, rest, hop, hops, _⟩ := performAll_cons.mp h
      rw [states] at hs ⊢
      rcases List.mem_cons.mp hs with rfl | hs
      · exact List.mem_cons_self
      · cases hop' : perform P fuel' op db with
        | none => simp [hop'] at hs
        | some p' =>
            obtain rfl := perform_unique hop hop'
            rw [hop'] at hs
            rw [hop]
            exact List.mem_cons_of_mem _ (ih hops hs)

end

theorem AtRest.exists_perform {H : Timeline Q K V} {tame : Prop} (hdb : AtRest R H tame db)
    (hP : P.Obeys R) {op : Operation Q K V} (hop : op.Single)
    (hshow : ChangesShow R db.store.inputs db.store.lastChange)
    (hyields : ∀ x, ∃ o, Yields R db.store.inputs x o) (ht : tame) :
    ∃ n r db', ∀ m ≥ n, Database.perform P m op db = some (r, db') := by
  obtain ⟨q, k, rfl⟩ | ⟨e, rfl⟩ | rfl := hop.cases
  · obtain ⟨o, ho⟩ := hyields (q, k)
    obtain ⟨n, db', hquery⟩ := hdb.query_eq_yields hP hshow ho (.inl ht)
    refine ⟨n, o.reply, db', fun m hm ↦ ?_⟩
    rw [perform_query, hquery m hm, Option.map_some]
  · exact ⟨0, _, _, fun _ _ ↦ rfl⟩
  · exact ⟨0, _, _, fun _ _ ↦ rfl⟩

/-- A history that comes to no circle and no panic and removes nothing ends, at rest. -/
theorem AtRest.exists_performAll (hP : P.Obeys R) (hdb : ∃ H, AtRest R H True db)
    (huntouched : db.Untouched) (hops : ∀ op ∈ ops, op.Single ∧ ¬ op.Removes)
    (hclean : ∀ fuel, ∀ s ∈ states P fuel ops db, s.Untroubled P) :
    ∃ n replies db', (∀ m ≥ n, performAll P m ops db = some (replies, db')) ∧
      (∃ H, AtRest R H True db') ∧ db'.Untouched ∧ db'.Untroubled P := by
  induction ops generalizing db with
  | nil => exact ⟨0, [], db, fun _ _ ↦ rfl, hdb, huntouched, hclean 0 db List.mem_cons_self⟩
  | cons op ops ih =>
      obtain ⟨hop, hops⟩ := List.forall_mem_cons.mp hops
      have huntroubled : db.Untroubled P := hclean 0 db mem_states_self
      have hfavour := huntroubled.favourable hP huntouched
      obtain ⟨n, r, db₁, hperform⟩ :
          ∃ n r db₁, ∀ m ≥ n, Database.perform P m op db = some (r, db₁) := by
        obtain ⟨H, hdb⟩ := hdb
        exact hdb.exists_perform hP hop.1 hfavour.shows
          (fun x ↦ (huntroubled.exists_yields hP x).imp fun _ ↦ And.left) trivial
      have hn := hperform n (Nat.le_refl n)
      have hdb₁ := AtRest.single hP hdb hop.1 (fun _ ↦ hfavour) (by simp) hn
      obtain ⟨H, hrest⟩ := hdb
      have huntouched₁ := huntouched.single hrest.sound hop.1 hop.2 hn
      have hclean₁ : ∀ fuel, ∀ s ∈ states P fuel ops db₁, s.Untroubled P := by
        intro fuel s hs
        refine hclean (max n fuel) s ?_
        rw [states, hperform _ (Nat.le_max_left n fuel)]
        exact List.mem_cons_of_mem _ (states_mono (Nat.le_max_right n fuel) hs)
      obtain ⟨n', replies, db', hrun, hend⟩ := ih hdb₁ huntouched₁ hops hclean₁
      refine ⟨max n n', r :: replies, db', fun m hm ↦ ?_, hend⟩
      exact performAll_cons.mpr ⟨r, db₁, replies,
        hperform m (Nat.le_trans (Nat.le_max_left n n') hm),
        hrun m (Nat.le_trans (Nat.le_max_right n n') hm), rfl⟩

/-- Handled failures keep results right as long as nothing is removed: a history of reads,
assignments and clearings, in which no evaluation from scratch comes to a circle or a panic,
ends, and after it every query ends as it does on a fresh database with the same assigned values.
Nothing that is known to stand is kept for a query that fails, and what is known to stand lists
every read of its evaluation, failed or not. -/
theorem query_after_failures {w : W} (hP : P.Obeys R)
    (hops : ∀ op ∈ ops, op.Single ∧ ¬ op.Removes)
    (hclean : ∀ fuel, ∀ s ∈ states P fuel ops { outside := w }, s.Untroubled P) :
    ∃ n replies db, (∀ m ≥ n, performAll P m ops { outside := w } = some (replies, db)) ∧
      ∀ w' assigned, db.Lists assigned → ∀ q k, ∃ n o db₀ db',
        (∀ m ≥ n, query P m q k (fresh w' assigned) = some (o, db₀)) ∧
        (∀ m ≥ n, query P m q k db = some (o, db')) ∧
        (¬ o.IsValue → ∀ key v c reads, db'.store.named? key = some (q, k) →
          db'.store.memo? key ≠ some (.derived v c db.revision reads)) ∧
        ∀ key x v c reads, db'.store.named? key = some x →
          db'.store.memo? key = some (.derived v c db.revision reads) →
          ∀ y, ReadBy R db.store.inputs y x → ∃ d ∈ reads, db'.store.named? d = some y := by
  have hinitial : ({ outside := w } : Database Q K V W).Untouched := fun key ↦ by
    simp [Store.removedAt, Store.row?, Store.find?]
  obtain ⟨n, replies, db, hrun, ⟨H, hdb⟩, huntouched, huntroubled⟩ :=
    AtRest.exists_performAll hP ⟨_, .initial R True w⟩ hinitial hops hclean
  have hfavour := huntroubled.favourable hP huntouched
  refine ⟨n, replies, db, hrun, fun w' assigned hlists q k ↦ ?_⟩
  obtain ⟨o, hyields, _⟩ := huntroubled.exists_yields hP (q, k)
  obtain ⟨n, db', hquery⟩ := hdb.query_eq_yields hP hfavour.shows hyields (.inl trivial)
  obtain ⟨n₀, db₀, hfresh⟩ := (bare_fresh R w' assigned).query_eq_yields hP
    (by rwa [inputs_fresh hlists w'] : Yields R (fresh w' assigned).store.inputs (q, k) o)
  have hanswer := hquery n (Nat.le_refl n)
  obtain ⟨hrest, _⟩ := hdb.answered hP hfavour.shows hanswer hfavour.circles (by simp)
  have hrevision : db'.revision = db.revision := (hdb.sound.query hanswer).2.revision
  have hkept : ∀ {key x v c reads}, db'.store.named? key = some x →
      db'.store.memo? key = some (.derived v c db.revision reads) →
      Kept R db.store.inputs db'.store.lastChange True db'.store x v c db.revision reads := by
    intro key x v c reads hx hm
    exact hdb.inputs ▸ hrest.faithful.kept key x v c db.revision reads hx (hrevision ▸ hm)
  refine ⟨max n n₀, o, db₀, db', fun m hm ↦ hfresh m (Nat.le_trans (Nat.le_max_right n n₀) hm),
    fun m hm ↦ hquery m (Nat.le_trans (Nat.le_max_left n n₀) hm),
    fun hvalue key v c reads hx hm ↦ ?_, fun key x v c reads hx hm ↦ (hkept hx hm).lists⟩
  exact hvalue ⟨v, (hkept hx hm).right o hyields⟩

end Database

/-- A reading that counts as missing where it is zero, a spare reading, what is shown of them,
and its double. -/
inductive Gauge
  | reading
  | spare
  | checked
  | shown
  | doubled
  deriving DecidableEq

namespace Gauge

open Database

def logic : Gauge → Option (Recipe Gauge Unit Nat)
  | checked => some (.get (reading, ()) fun a ↦
      .done (if a = 0 then .failure (.ofMessage "no reading") else .value a))
  | shown => some (.read (checked, ()) fun
      | .failure _ => .get (spare, ()) fun b ↦ .done (.value b)
      | answer => .done answer)
  | doubled => some (.get (shown, ()) fun v ↦ .done (.value (2 * v)))
  | _ => none

def program : Program Gauge Unit Nat Unit := .ofRecipes (fun _ ↦ "") logic

/-- What is assigned in a database. -/
def assigned (db : Database Gauge Unit Nat Unit) : List ((Gauge × Unit) × Nat) :=
  [reading, spare, checked, shown, doubled].filterMap fun q ↦ (db.input? q ()).map ((q, ()), ·)

theorem lists_assigned (db : Database Gauge Unit Nat Unit) : db.Lists (assigned db) := by
  rintro q ⟨⟩ v
  cases q <;> simp [assigned]

/-- The reading is lost after its double was computed, and what it was is still kept for the
check. -/
def history : List (Operation Gauge Unit Nat) :=
  [.act (.edit (.set reading () 5)), .act (.edit (.set spare () 9)),
    .act (.inquire (.query doubled ())), .act (.edit (.set reading () 0)),
    .act (.inquire (.query shown ())), .act (.inquire (.query checked ())),
    .act (.edit (.setIfChanged spare () 8)), .act (.inquire (.query checked ()))]

/-- The double is that of the spare reading, as last assigned. -/
theorem query_doubled_spare :
    ∃ n replies, ∃ db : Database Gauge Unit Nat Unit,
      (∀ m ≥ n, performAll program m history { outside := () } = some (replies, db)) ∧
      ∃ n db', ∀ m ≥ n, query program m .doubled () db = some (.value 16, db') := by
  have hrun : (performAll program 8 history { outside := () }).map
      (fun p ↦ (query program 8 .doubled () (fresh () (assigned p.2))).map Prod.fst) =
      some (some (.value 16)) := by
    decide +kernel
  have hstates : ∀ s ∈ states program 8 history { outside := () },
      ∀ q ∈ [reading, spare, checked, shown, doubled],
        (query program 8 q () (fresh () (assigned s))).map (fun p ↦
          (decide p.1.IsPanic, p.2.events.any Event.isRefused)) = some (false, false) := by
    decide +kernel
  obtain ⟨⟨replies, db⟩, hops, hfresh⟩ := Option.map_eq_some_iff.mp hrun
  obtain ⟨⟨o, db₀⟩, hfresh, rfl⟩ := Option.map_eq_some_iff.mp hfresh
  have hclean : ∀ fuel, ∀ s ∈ states program fuel history { outside := () },
      s.Untroubled program := by
    intro fuel s hs
    refine ⟨(), assigned s, lists_assigned s, ?_⟩
    rintro q ⟨⟩
    have hquery := hstates s (mem_states_of_performAll hops hs) q (by cases q <;> simp)
    obtain ⟨⟨a, db₁⟩, hquery, hend⟩ := Option.map_eq_some_iff.mp hquery
    obtain ⟨hpanic, hrefused⟩ := Prod.mk.inj hend
    exact ⟨8, a, db₁, hquery, of_decide_eq_false hpanic,
      fun f hf ↦ absurd rfl (List.any_eq_false.mp hrefused _ hf)⟩
  obtain ⟨n, replies', db', hops', hqueries⟩ :=
    query_after_failures (Program.ofRecipes_obeys _ _) (by simp [history, Operation.Single,
      Operation.Removes]) hclean
  obtain ⟨rfl, rfl⟩ := Prod.mk.inj (performAll_unique hops (hops' n (Nat.le_refl n)))
  obtain ⟨n', o', db₀', db', hfresh', hquery, _⟩ :=
    hqueries () (assigned db) (lists_assigned db) .doubled ()
  cases query_unique hfresh (hfresh' n' (Nat.le_refl n'))
  exact ⟨n, replies, db, hops', n', db', hquery⟩

end Gauge

end Incremental
