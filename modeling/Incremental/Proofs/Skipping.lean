import Incremental.Proofs.Covering
import Incremental.Proofs.Histories
import Incremental.Proofs.Beginning

/-!
# Assigning only what is not assigned already

To leave out an assignment of an equal value saves work and changes nothing else. Two databases on
which a history is performed, once with and once without such assignments, have the same values
assigned, and the one on which they are left out holds whatever the other holds.
-/

namespace Incremental

variable {Q K V W : Type}

/-- The change, made whether it makes a difference or not. -/
def Edit.forced : Edit Q K V → Edit Q K V
  | setIfChanged q k v => set q k v
  | e => e

def Action.forced : Action Q K V → Action Q K V
  | edit e => edit e.forced
  | action => action

def Operation.forced : Operation Q K V → Operation Q K V
  | act action => act action.forced
  | run actions => run (actions.map Action.forced)
  | op => op

namespace Database

open Store

variable [DecidableEq Q] [BEq K] {R : Q × K → Recipe Q K V} {P : Program Q K V W}
  {db db' db₁ db₁' : Database Q K V W} {q : Q} {k : K} {v : V} {fuel fuel' : Nat}
  {o o' : Outcome V}

/-- Between two operations of a program whose bodies are pure and give values only if all their
reads do. -/
structure Quiet (R : Q × K → Recipe Q K V) (db : Database Q K V W) : Prop where
  atRest : ∃ H, AtRest R H True db
  resting : Resting (.of R) db

/-- `db` was given the same values as `db'`, in no more steps, and holds all that `db'` holds. -/
structure Outlasts (R : Q × K → Recipe Q K V) (db db' : Database Q K V W) : Prop where
  quiet : Quiet R db
  quiet' : Quiet R db'
  covers : db.store.Covers db'.store
  revision : db.revision ≤ db'.revision

/-- Every body that was begun between `db` and `db₁` was begun between `db'` and `db₁'` too. -/
def Saves (db db₁ db' db₁' : Database Q K V W) : Prop :=
  ∃ l l', db₁.begun = db.begun ++ l ∧ db₁'.begun = db'.begun ++ l' ∧ l.Sublist l'

omit [DecidableEq Q] [BEq K] in
theorem Saves.of_eq (h : db₁.begun = db.begun) (h' : db₁'.begun = db'.begun) :
    Saves db db₁ db' db₁' :=
  ⟨[], [], by simpa using h, by simpa using h', .slnil⟩

omit [DecidableEq Q] [BEq K] in
theorem begun_clearCache (db : Database Q K V W) : db.clearCache.begun = db.begun :=
  begun_note_of_none rfl _

theorem begun_edit [BEq V] (e : Edit Q K V) (db : Database Q K V W) :
    (edit e db).2.begun = db.begun := by
  obtain heq | heq | ⟨v, heq⟩ | ⟨_, _, heq⟩ := edit_cases e db <;> rw [heq]
  · exact begun_note_of_none rfl _
  · exact begun_note_of_none rfl _
  · exact begun_note_of_none rfl _

namespace Quiet

theorem initial (R : Q × K → Recipe Q K V) (w : W) :
    Quiet R ({ outside := w } : Database Q K V W) :=
  ⟨⟨_, .initial R True w⟩, .initial (.of R) {} w⟩

variable [LawfulBEq K]

theorem edit [BEq V] (h : Quiet R db) (e : Edit Q K V) : Quiet R (edit e db).2 := by
  obtain ⟨H, hrest⟩ := h.atRest
  exact ⟨hrest.edit e, (h.resting.edit e).1⟩

theorem clearCache (h : Quiet R db) : Quiet R db.clearCache := by
  obtain ⟨H, hrest⟩ := h.atRest
  exact ⟨⟨H, hrest.clearCache⟩, h.resting.clearCache⟩

theorem closed (h : Quiet R db) : Closed R db.store.inputs db.store.Holds :=
  ⟨fun _ hx ↦ h.resting.store.holds_yields hx,
    fun _ _ hx hy ↦ h.resting.store.holds_of_readBy hx hy⟩

variable (hP : P.Obeys R) (hR : ∀ x, (R x).Strict)

include hP hR

/-- A read is answered as the evaluation from scratch ends. It begins the bodies that this
evaluation begins when what is held is remembered. -/
theorem query (h : Quiet R db) (hquery : query P fuel q k db = some (o, db₁)) :
    Quiet R db₁ ∧ db₁.store.inputs = db.store.inputs ∧ db₁.revision = db.revision ∧
      Ends R db.store.inputs (fun x ↦ P.label x.1 x.2) [] (q, k) o ∧
      ∃ l, Leaves R db.store.inputs db l db₁ ∧
        Begins R db.store.inputs (fun x ↦ P.label x.1 x.2) [] db.store.Holds [(q, k)] l := by
  obtain ⟨H, hrest⟩ := h.atRest
  have hpure : P.Pure R := .of_lawful hP hR
  obtain ⟨hs, hf⟩ := hrest.sound.query hquery
  obtain ⟨hrest₁, _, hends⟩ := hrest.answered hP (changesShow_of_strict hR _ _) hquery
    (fun _ ↦ passesCircles_of_strict hR _) (by simp)
  refine ⟨⟨⟨H, hrest₁⟩, h.resting.query hpure.steady hquery⟩,
    hf.store.keeps.inputs_eq hrest.sound.store.indexed hs.store.indexed, hf.revision,
    hends trivial, ?_⟩
  rw [← hrest.inputs]
  let c : Scene Q K V W :=
    ⟨P, R, H, db.revision, db.store.lastChange, True, hP, changesShow_of_strict hR _ _⟩
  have hready : c.Ready [] (q, k) db := .of_idle hrest.idle hrest.unlimited rfl hrest.faithful _
  exact Scene.query_begins (c := c) hpure trivial hquery hready h.resting.coherent

theorem exists_query (h : Quiet R db)
    (hends : Ends R db.store.inputs (fun x ↦ P.label x.1 x.2) [] (q, k) o) :
    ∃ fuel db₁, Database.query P fuel q k db = some (o, db₁) := by
  obtain ⟨H, hrest⟩ := h.atRest
  obtain ⟨n, db₁, hquery⟩ := hrest.query_eq_ends hP (changesShow_of_strict hR _ _)
    (passesCircles_of_strict hR _) hends
  exact ⟨n, db₁, hquery n (Nat.le_refl n)⟩

end Quiet

namespace Outlasts

variable [LawfulBEq K]

/-- An assignment may be left out where an equal value is assigned already. -/
theorem edit [BEq V] [LawfulBEq V] (h : Outlasts R db db') (e : Edit Q K V) :
    Outlasts R (edit e db).2 (Database.edit e.forced db').2 ∧
      (e.forced = e → (Database.edit e db).1 = (Database.edit e.forced db').1) := by
  suffices hsuffices : (Database.edit e db).2.store.Covers (Database.edit e.forced db').2.store ∧
      (Database.edit e db).2.revision ≤ (Database.edit e.forced db').2.revision ∧
      (e.forced = e → (Database.edit e db).1 = (Database.edit e.forced db').1) from
    ⟨⟨h.quiet.edit e, h.quiet'.edit e.forced, hsuffices.1, hsuffices.2.1⟩, hsuffices.2.2⟩
  have hset : ∀ q k v, (db.set q k v).store.Covers (db'.set q k v).store ∧
      (db.set q k v).revision ≤ (db'.set q k v).revision := by
    intro q k v
    refine ⟨h.covers.assigns (h.quiet.resting.assigns_set q k v)
      (h.quiet'.resting.assigns_set q k v), ?_⟩
    rw [revision_set, revision_set]
    exact Nat.succ_le_succ h.revision
  cases e with
  | set q k v => exact ⟨(hset q k v).1, (hset q k v).2, fun _ ↦ rfl⟩
  | setIfChanged q k v =>
      refine and_assoc.1 ⟨?_, fun heq ↦ by cases heq⟩
      change (db.setIfChanged q k v).2.store.Covers (db'.set q k v).store ∧
        (db.setIfChanged q k v).2.revision ≤ (db'.set q k v).revision
      unfold Database.setIfChanged
      split
      · next hequal =>
          obtain ⟨v', hinput, hv⟩ := (Option.any_eq_true _ _).1 hequal
          obtain rfl := eq_of_beq hv
          refine ⟨h.covers.skip (x := (q, k)) hinput (h.quiet'.resting.assigns_set q k v'), ?_⟩
          rw [revision_set]
          exact Nat.le_succ_of_le h.revision
      · exact hset q k v
  | remove q k =>
      change (db.remove q k).2.store.Covers (db'.remove q k).2.store ∧
        (db.remove q k).2.revision ≤ (db'.remove q k).2.revision ∧
        (_ → Reply.flag (db.remove q k).1 = .flag (db'.remove q k).1)
      obtain ⟨hnone, hsome⟩ := h.quiet.resting.assigns_remove q k
      obtain ⟨hnone', hsome'⟩ := h.quiet'.resting.assigns_remove q k
      rw [h.covers.stores] at hnone' hsome'
      by_cases hkept : db.store.Stores (q, k)
      · obtain ⟨db₁, heq, hrevision, hassigns⟩ := hsome hkept
        obtain ⟨db₁', heq', hrevision', hassigns'⟩ := hsome' hkept
        rw [heq, heq', hrevision, hrevision']
        exact ⟨h.covers.assigns hassigns hassigns', Nat.succ_le_succ h.revision, fun _ ↦ rfl⟩
      · rw [hnone hkept, hnone' hkept]
        exact ⟨h.covers, h.revision, fun _ ↦ rfl⟩

theorem clearCache (h : Outlasts R db db') : Outlasts R db.clearCache db'.clearCache := by
  refine ⟨h.quiet.clearCache, h.quiet'.clearCache, ?_, h.revision⟩
  rw [clearCache_eq, clearCache_eq]
  exact h.covers.dropDerived h.quiet.resting.store.indexed h.quiet'.resting.store.indexed

section

variable (hP : P.Obeys R) (hR : ∀ x, (R x).Strict)

include hP hR

/-- Where more is held, a read is answered the same and begins no body that the other does not. -/
theorem query (h : Outlasts R db db') (hquery : query P fuel q k db = some (o, db₁))
    (hquery' : Database.query P fuel' q k db' = some (o', db₁')) :
    o = o' ∧ Outlasts R db₁ db₁' ∧ Saves db db₁ db' db₁' := by
  obtain ⟨hquiet, hinputs, hrevision, hends, l, hleaves, hbegins⟩ := h.quiet.query hP hR hquery
  obtain ⟨hquiet', hinputs', hrevision', hends', l', hleaves', hbegins'⟩ :=
    h.quiet'.query hP hR hquery'
  rw [h.covers.inputs] at hends' hleaves' hbegins' hinputs'
  obtain ⟨hsublist, hgrown⟩ := hbegins'.sublist hR hbegins h.quiet.closed h.covers.holds
  refine ⟨hends.unique hends', ⟨hquiet, hquiet', ⟨?_, funext fun x ↦ propext ?_, ?_⟩, ?_⟩,
    l, l', hleaves.begun, hleaves'.begun, hsublist⟩
  · rw [hinputs, hinputs']
  · rw [hleaves.stores, hleaves'.stores, h.covers.stores]
    constructor
    · -- what only the other has computed is held here
      rintro (hx | hx)
      · exact .inl hx
      · exact (hgrown x (.inr hx)).imp_left Holds.stores
    · rintro (hx | ⟨hmem, hvalued⟩)
      · exact .inl hx
      · exact .inr ⟨hsublist.subset hmem, hvalued⟩
  · rw [hleaves.holds, hleaves'.holds]
    exact hgrown
  · rw [hrevision, hrevision']
    exact h.revision

theorem query_ends_iff (h : Outlasts R db db') :
    (∃ fuel p, Database.query P fuel q k db = some p) ↔
      ∃ fuel p, Database.query P fuel q k db' = some p := by
  constructor
  · rintro ⟨fuel, ⟨o, db₁⟩, hquery⟩
    obtain ⟨_, _, _, hends, _⟩ := h.quiet.query hP hR hquery
    rw [← h.covers.inputs] at hends
    obtain ⟨fuel', db₁', hquery'⟩ := h.quiet'.exists_query hP hR hends
    exact ⟨fuel', _, hquery'⟩
  · rintro ⟨fuel, ⟨o, db₁'⟩, hquery'⟩
    obtain ⟨_, _, _, hends, _⟩ := h.quiet'.query hP hR hquery'
    rw [h.covers.inputs] at hends
    obtain ⟨fuel, db₁, hquery⟩ := h.quiet.exists_query hP hR hends
    exact ⟨fuel, _, hquery⟩

variable [BEq V] [LawfulBEq V] {op : Operation Q K V} {ops : List (Operation Q K V)}
  {r r' : Except String (Reply V)} {replies replies' : List (Except String (Reply V))}

/-- An operation is answered the same where nothing is left out of it, and begins no body that it
does not begin otherwise. -/
theorem perform (h : Outlasts R db db') (hop : op.Single)
    (hstep : perform P fuel op db = some (r, db₁))
    (hstep' : Database.perform P fuel' op.forced db' = some (r', db₁')) :
    Outlasts R db₁ db₁' ∧ (op.forced = op → r = r') ∧ Saves db db₁ db' db₁' := by
  obtain ⟨q, k, rfl⟩ | ⟨e, rfl⟩ | rfl := hop.cases
  · obtain ⟨⟨o, _⟩, hquery, hend⟩ :=
      Option.map_eq_some_iff.mp ((perform_query q k db).symm.trans hstep)
    obtain ⟨⟨o', _⟩, hquery', hend'⟩ :=
      Option.map_eq_some_iff.mp ((perform_query q k db').symm.trans hstep')
    cases hend
    cases hend'
    obtain ⟨rfl, hout, hsaves⟩ := h.query hP hR hquery hquery'
    exact ⟨hout, fun _ ↦ rfl, hsaves⟩
  · cases hstep
    cases hstep'
    obtain ⟨hout, hreply⟩ := h.edit e
    refine ⟨hout, fun heq ↦ ?_, .of_eq (begun_edit e db) (begun_edit e.forced db')⟩
    exact congrArg Except.ok (hreply (Action.edit.inj (Operation.act.inj heq)))
  · cases hstep
    cases hstep'
    exact ⟨h.clearCache, fun _ ↦ rfl, .of_eq (begun_clearCache db) (begun_clearCache db')⟩

omit [LawfulBEq V] in
theorem perform_ends_iff (h : Outlasts R db db') (hop : op.Single) :
    (∃ fuel p, Database.perform P fuel op db = some p) ↔
      ∃ fuel p, Database.perform P fuel op.forced db' = some p := by
  obtain ⟨q, k, rfl⟩ | ⟨e, rfl⟩ | rfl := hop.cases
  · change (∃ fuel p, Database.perform P fuel (.act (.inquire (.query q k))) db = some p) ↔
      ∃ fuel p, Database.perform P fuel (.act (.inquire (.query q k))) db' = some p
    simp only [← Option.isSome_iff_exists, perform_query, Option.isSome_map]
    simpa only [← Option.isSome_iff_exists] using h.query_ends_iff hP hR
  · exact iff_of_true ⟨0, _, rfl⟩ ⟨0, _, rfl⟩
  · exact iff_of_true ⟨0, _, rfl⟩ ⟨0, _, rfl⟩

theorem performAll (h : Outlasts R db db') (hops : ∀ op ∈ ops, op.Single)
    (hrun : performAll P fuel ops db = some (replies, db₁))
    (hrun' : Database.performAll P fuel' (ops.map Operation.forced) db' = some (replies', db₁')) :
    Outlasts R db₁ db₁' := by
  induction ops generalizing db db' replies replies' with
  | nil =>
      cases hrun
      cases hrun'
      exact h
  | cons op ops ih =>
      obtain ⟨r, db₂, rest, hstep, hrest, _⟩ := performAll_cons.mp hrun
      obtain ⟨r', db₂', rest', hstep', hrest', _⟩ := performAll_cons.mp hrun'
      obtain ⟨hout, _⟩ := h.perform hP hR (hops op List.mem_cons_self) hstep hstep'
      exact ih hout (fun op hmem ↦ hops op (List.mem_cons_of_mem _ hmem)) hrest hrest'

theorem performAll_ends_iff (h : Outlasts R db db') (hops : ∀ op ∈ ops, op.Single) :
    (∃ fuel p, Database.performAll P fuel ops db = some p) ↔
      ∃ fuel p, Database.performAll P fuel (ops.map Operation.forced) db' = some p := by
  induction ops generalizing db db' with
  | nil => exact iff_of_true ⟨0, _, rfl⟩ ⟨0, _, rfl⟩
  | cons op ops ih =>
      have hop := hops op List.mem_cons_self
      have hrest : ∀ op ∈ ops, op.Single := fun op hmem ↦ hops op (List.mem_cons_of_mem _ hmem)
      rw [List.map_cons, exists_performAll_cons, exists_performAll_cons]
      constructor
      · rintro ⟨fuel, r, db₁, hstep, hends⟩
        obtain ⟨fuel', ⟨r', db₁'⟩, hstep'⟩ := (h.perform_ends_iff hP hR hop).1 ⟨fuel, _, hstep⟩
        have hout := (h.perform hP hR hop hstep hstep').1
        exact ⟨fuel', r', db₁', hstep', (ih hout hrest).1 hends⟩
      · rintro ⟨fuel', r', db₁', hstep', hends⟩
        obtain ⟨fuel, ⟨r, db₁⟩, hstep⟩ := (h.perform_ends_iff hP hR hop).2 ⟨fuel', _, hstep'⟩
        have hout := (h.perform hP hR hop hstep hstep').1
        exact ⟨fuel, r, db₁, hstep, (ih hout hrest).2 hends⟩

end

end Outlasts

variable [BEq V]

/-- After the history `ops`, from the start on, the operation `op` is performed on `db`, replies `r`
and leaves `db₁` behind. -/
def Steps (P : Program Q K V W) (w : W) (ops : List (Operation Q K V)) (op : Operation Q K V)
    (db : Database Q K V W) (r : Except String (Reply V)) (db₁ : Database Q K V W) : Prop :=
  ∃ fuel replies, performAll P fuel ops { outside := w } = some (replies, db) ∧
    perform P fuel op db = some (r, db₁)

theorem Steps.of_fuel {w : W} {ops : List (Operation Q K V)} {op : Operation Q K V}
    {replies : List (Except String (Reply V))} {r : Except String (Reply V)}
    (hops : performAll P fuel ops { outside := w } = some (replies, db))
    (hop : perform P fuel' op db = some (r, db₁)) : Steps P w ops op db r db₁ :=
  ⟨max fuel fuel', replies, performAll_mono (Nat.le_max_left fuel fuel') hops,
    perform_mono (Nat.le_max_right fuel fuel') hop⟩

/-- To leave out assignments of equal values is an optimisation of assigning and nothing else: at
every step of a history of single operations the replies and the assigned values are the same as
when each of them is made, the revision is no larger, and no body is begun that is not begun in the
same step then. -/
theorem setIfChanged_saves [LawfulBEq K] [LawfulBEq V] {w : W} {ops : List (Operation Q K V)}
    {op : Operation Q K V} (hP : P.Obeys R) (hR : ∀ x, (R x).Strict)
    (hops : ∀ op ∈ ops, op.Single) (hop : op.Single) :
    ((∃ db r db₁, Steps P w ops op db r db₁) ↔
      ∃ db' r' db₁', Steps P w (ops.map Operation.forced) op.forced db' r' db₁') ∧
    ∀ db r db₁ db' r' db₁', Steps P w ops op db r db₁ →
      Steps P w (ops.map Operation.forced) op.forced db' r' db₁' →
      (op.forced = op → r = r') ∧ (∀ q k, db₁.input? q k = db₁'.input? q k) ∧
        db₁.revision ≤ db₁'.revision ∧ Saves db db₁ db' db₁' := by
  have hinitial : Outlasts R ({ outside := w } : Database Q K V W) { outside := w } :=
    ⟨.initial R w, .initial R w, .refl _, Nat.le_refl _⟩
  have hends := hinitial.performAll_ends_iff hP hR hops
  refine ⟨⟨?_, ?_⟩, ?_⟩
  · rintro ⟨db, r, db₁, fuel, replies, hrun, hstep⟩
    obtain ⟨fuel', ⟨replies', db'⟩, hrun'⟩ := hends.1 ⟨fuel, _, hrun⟩
    have h := hinitial.performAll hP hR hops hrun hrun'
    obtain ⟨fuel', ⟨r', db₁'⟩, hstep'⟩ := (h.perform_ends_iff hP hR hop).1 ⟨fuel, _, hstep⟩
    exact ⟨db', r', db₁', .of_fuel hrun' hstep'⟩
  · rintro ⟨db', r', db₁', fuel', replies', hrun', hstep'⟩
    obtain ⟨fuel, ⟨replies, db⟩, hrun⟩ := hends.2 ⟨fuel', _, hrun'⟩
    have h := hinitial.performAll hP hR hops hrun hrun'
    obtain ⟨fuel, ⟨r, db₁⟩, hstep⟩ := (h.perform_ends_iff hP hR hop).2 ⟨fuel', _, hstep'⟩
    exact ⟨db, r, db₁, .of_fuel hrun hstep⟩
  · rintro db r db₁ db' r' db₁' ⟨fuel, replies, hrun, hstep⟩ ⟨fuel', replies', hrun', hstep'⟩
    have h := hinitial.performAll hP hR hops hrun hrun'
    obtain ⟨h₁, hreply, hsaves⟩ := h.perform hP hR hop hstep hstep'
    refine ⟨hreply, fun q k ↦ ?_, h₁.revision, hsaves⟩
    rw [input?_eq, input?_eq, h₁.covers.inputs]

end Database

open Database

namespace Ledger

/-- An addend is assigned once more what it is assigned already. -/
def repeated : List (Operation Ledger Unit Nat) :=
  [.act (.edit (.set left () 1)), .act (.edit (.set right () 2)),
    .act (.inquire (.query total ())), .act (.edit (.setIfChanged left () 1))]

def ask : Operation Ledger Unit Nat := .act (.inquire (.query total ()))

/-- The total is computed again only where the equal addend is assigned anew. -/
theorem query_total_repeated :
    ∃ r, ∃ db db₁ db' db₁' : Database Ledger Unit Nat Unit,
      Steps program () repeated ask db r db₁ ∧
      Steps program () (repeated.map Operation.forced) ask db' r db₁' ∧
      db₁.begun = db.begun ∧ db₁'.begun = db'.begun ++ [(total, ())] ∧
      db₁.revision < db₁'.revision ∧ Saves db db₁ db' db₁' := by
  have hrun : (performAll program 8 repeated { outside := () }).bind (fun p ↦
      (perform program 8 ask p.2).map fun p' ↦ (p.2.begun, p'.2.begun, p'.2.revision)) =
      some ([(total, ())], [(total, ())], 2) := by
    decide +kernel
  have hrun' : (performAll program 8 (repeated.map Operation.forced) { outside := () }).bind
      (fun p ↦ (perform program 8 ask p.2).map fun p' ↦ (p.2.begun, p'.2.begun, p'.2.revision)) =
      some ([(total, ())], [(total, ()), (total, ())], 3) := by
    decide +kernel
  obtain ⟨⟨replies, db⟩, hops, hrun⟩ := Option.bind_eq_some_iff.mp hrun
  obtain ⟨⟨r, db₁⟩, hop, hend⟩ := Option.map_eq_some_iff.mp hrun
  obtain ⟨⟨replies', db'⟩, hops', hrun'⟩ := Option.bind_eq_some_iff.mp hrun'
  obtain ⟨⟨r', db₁'⟩, hop', hend'⟩ := Option.map_eq_some_iff.mp hrun'
  simp only [Prod.mk.injEq] at hend hend'
  obtain ⟨hbegun, hbegun₁, hrevision⟩ := hend
  obtain ⟨hbegun', hbegun₁', hrevision'⟩ := hend'
  have hsteps : Steps program () repeated ask db r db₁ := ⟨8, replies, hops, hop⟩
  have hsteps' : Steps program () (repeated.map Operation.forced) ask db' r' db₁' :=
    ⟨8, replies', hops', hop'⟩
  have hstrict : ∀ x, (recipes (fun _ ↦ "") logic x).Strict := by
    rintro ⟨q, k⟩
    cases q <;> simp [recipes, logic]
  have hsingle : (∀ op ∈ repeated, op.Single) ∧ ask.Single := by
    simp [repeated, ask, Operation.Single]
  obtain ⟨_, hagree⟩ := setIfChanged_saves (w := ()) (Program.ofRecipes_obeys (fun _ ↦ "") logic)
    hstrict hsingle.1 hsingle.2
  obtain ⟨hreply, _, _, hsaves⟩ := hagree db r db₁ db' r' db₁' hsteps hsteps'
  obtain rfl := hreply rfl
  refine ⟨r, db, db₁, db', db₁', hsteps, hsteps', ?_, ?_, ?_, hsaves⟩
  · rw [hbegun, hbegun₁]
  · rw [hbegun', hbegun₁']
    rfl
  · rw [hrevision, hrevision']
    decide

end Ledger

end Incremental
