import Incremental.Proofs.Editing
import Incremental.Proofs.Executions

/-!
# Only dependents are computed again

What is known to stand goes on standing, with all that was read for it, as long as none of that is
assigned or removed, whatever else is changed, computed and removed meanwhile. So it is answered
from memory then, and no body is begun.
-/

namespace Incremental

variable {Q K V W : Type}

/-- The memos tell the same, apart from when the value was last known to stand. -/
structure Memo.Same (m m' : Memo V) : Prop where
  value : m'.value = m.value
  changedAt : m'.changedAt = m.changedAt
  reads : m'.reads = m.reads
  isInput : m'.isInput = m.isInput

namespace Memo.Same

variable {m m' m'' : Memo V}

theorem refl (m : Memo V) : m.Same m := ⟨rfl, rfl, rfl, rfl⟩

theorem trans (h : m.Same m') (h' : m'.Same m'') : m.Same m'' :=
  ⟨h'.value.trans h.value, h'.changedAt.trans h.changedAt, h'.reads.trans h.reads,
    h'.isInput.trans h.isInput⟩

theorem verified (m : Memo V) (r : Revision) : m.Same (m.verified r) := by
  constructor <;> simp

end Memo.Same

namespace Database

open Store

variable [DecidableEq Q] [BEq K] [EquivBEq K] {R : Q × K → Recipe Q K V} {P : Program Q K V W}
  {s : Store Q K V} {db db' : Database Q K V W} {q : Q} {k : K} {key d : Handle} {fuel : Nat}

/-- What is kept and not outdated is given without a body being begun. -/
theorem Resting.exists_query_hit (h : Resting (.of R) db) (hkey : db.store.lookup? q k = some key)
    {m : Memo V} (hm : db.store.memo? key = some m) (hout : ¬ db.store.Outdated key) :
    ∃ n db', (∀ fuel ≥ n, Database.query P fuel q k db = some (.value m.value, db')) ∧
      db'.begun = db.begun := by
  obtain ⟨other, db₁, hintern⟩ : ∃ other db₁, db.intern q k = (other, db₁) := ⟨_, _, rfl⟩
  have hstore : (db.store.intern q k).2 = db₁.store := congrArg (·.2.store) hintern
  have hstack : db₁.stack = {} := (congrArg (·.2.stack) hintern).symm.trans h.idle
  have hevents : (db₁.recordRead other).begun = db.begun :=
    begun_congr (congrArg (·.2.events) hintern).symm
  obtain rfl : key = other := by
    have hfound := lookup?_intern hkey q k
    rw [hstore, lookup?_of_intern hintern] at hfound
    exact (Option.some.inj hfound).symm
  obtain ⟨hrecord, hrenews⟩ := h.coherent.record hintern
  obtain ⟨fuel, ⟨r, db₂⟩, hretrieve⟩ := exists_retrieve_coherent hrecord.store key
  obtain ⟨hrechecks, hvalue, hlacks⟩ := retrieve_coherent hretrieve hrecord.store
  cases r with
  | none =>
      obtain ⟨hstays, hout₁⟩ := hrenews.stays key m hm hout
      rcases hlacks.1 rfl with hnone | hout'
      · simp [hnone] at hstays
      · exact absurd hout' hout₁
  | some p =>
      obtain ⟨v, c⟩ := p
      obtain ⟨m', hm', _, rfl, rfl⟩ := hvalue v c rfl
      have hsame : m'.value = m.value := by
        have hrevision : (db₁.recordRead key).revision = db.revision :=
          (congrArg (·.2.revision) hintern).symm
        rcases ((hrenews.trans (hrevision ▸ hrechecks.renews)).stays key m hm hout).1 with heq | heq
        · cases hm'.symm.trans heq
          rfl
        · cases hm'.symm.trans heq
          simp
      refine ⟨fuel + 1, (db₂.note (.hit q k)).observe m'.changedAt, fun fuel' hle ↦ ?_, ?_⟩
      · refine query_mono hle ?_
        have hidle : db₁.stack.isActive key = false := by simp [hstack, CallStack.isActive]
        exact hsame ▸ query_of_hit hintern hidle hretrieve
      · have hbegun : (db₂.note (.hit q k)).begun = db₂.begun := begun_note_of_none rfl _
        exact hbegun.trans ((retrieve_begun hretrieve).trans hevents)

/-- Of what was reached from `top` in the store `s`, nothing is outdated, and what is kept is the
same. -/
structure Spares (R : Q × K → Recipe Q K V) (s : Store Q K V) (top : Handle)
    (db : Database Q K V W) : Prop where
  resting : Resting (.of R) db
  lookup : ∀ q k d, s.lookup? q k = some d → db.store.lookup? q k = some d
  stands : ∀ d, s.Reaches top d → ¬ db.store.Outdated d ∧
    ∃ m m', s.memo? d = some m ∧ db.store.memo? d = some m' ∧ m.Same m'

namespace Spares

variable {top : Handle}

omit [EquivBEq K] in
theorem refl (h : Resting (.of R) db) {m : Memo V} (hm : db.store.memo? top = some m)
    (hcurrent : m.IsCurrent db.revision) : Spares R db.store top db := by
  have hall : ∀ d, db.store.Reaches top d → ∃ m, db.store.memo? d = some m ∧
      m.IsCurrent db.revision := by
    intro d hd
    induction hd with
    | refl => exact ⟨m, hm, hcurrent⟩
    | tail _ hrests ih =>
        obtain ⟨m, hm, hcurrent⟩ := ih
        obtain ⟨v, c, w, reads, hm', hd⟩ := hrests.exists_derived
        cases hm.symm.trans hm'
        obtain rfl : w = db.revision := hcurrent
        obtain ⟨m, hm, hcurrent, _⟩ := h.store.current_reads hm' hd
        exact ⟨m, hm, hcurrent⟩
  refine ⟨h, fun _ _ _ h ↦ h, fun d hd ↦ ?_⟩
  obtain ⟨m, hm, hcurrent⟩ := hall d hd
  exact ⟨h.store.not_outdated hm hcurrent, m, m, hm, hm, .refl m⟩

omit [EquivBEq K] in
/-- From what was reached before nothing else is reached now. -/
theorem reaches (h : Spares R s top db) (hkey : s.Reaches top key)
    (hd : db.store.Reaches key d) : s.Reaches top d := by
  induction hd with
  | refl => exact hkey
  | tail _ hrests ih =>
      obtain ⟨_, m, m', hm, hm', hsame⟩ := h.stands _ ih
      obtain ⟨m₁, hm₁, hd⟩ := hrests
      cases hm'.symm.trans hm₁
      exact ih.tail ⟨m, hm, hsame.reads ▸ hd⟩

theorem query (hP : P.Pure R) (h : Spares R s top db) {o : Outcome V}
    (hquery : Database.query P fuel q k db = some (o, db')) : Spares R s top db' := by
  obtain ⟨_, hrenews, _⟩ := query_gives hP.steady hquery h.resting.coherent
  have hresting := h.resting.query hP.steady hquery
  have hnamed := (h.resting.coherent.sound.query hquery).2.store.named
  refine ⟨hresting, fun q k d hd ↦ ?_, fun d hd ↦ ?_⟩
  · exact lookup?_of_named hresting.store.indexed hnamed (h.lookup q k d hd)
  · obtain ⟨hout, m, m', hm, hm', hsame⟩ := h.stands d hd
    obtain ⟨hm'' | hm'', hout'⟩ := hrenews.stays d m' hm' hout
    · exact ⟨hout', m, m', hm, hm'', hsame⟩
    · exact ⟨hout', m, _, hm, hm'', hsame.trans (.verified m' _)⟩

/-- A change of anything else leaves it alone. -/
theorem edit [BEq V] (h : Spares R s top db) (hs : s.Indexed) {e : Edit Q K V}
    (he : ∀ d, s.Reaches top d → s.lookup? e.target.1 e.target.2 ≠ some d) :
    Spares R s top (Database.edit e db).2 := by
  obtain ⟨hresting, hchanges⟩ := h.resting.edit e
  refine ⟨hresting, fun q k d hd ↦ lookup?_edit (h.lookup q k d hd) e, ?_⟩
  rcases hchanges with hsame | ⟨key, hfound, hchanges⟩
  · exact hsame ▸ h.stands
  · -- the row that is changed is none of those that were reached
    have hkey : ∀ d, s.Reaches top d → d ≠ key := by
      rintro d hd rfl
      obtain ⟨_, m, _, hm, _⟩ := h.stands d hd
      obtain ⟨⟨q, k⟩, hname⟩ := has_of_memo? hm
      have hd' := hs d q k hname
      obtain ⟨rfl, hk⟩ := beq_of_lookup? (lookup?_edit (h.lookup q k d hd') e) hfound
      exact he d hd ((lookup?_of_beq hk).symm.trans hd')
    intro d hd
    obtain ⟨hout, m, m', hm, hm', hsame⟩ := h.stands d hd
    refine ⟨fun hout' ↦ ?_, m, m', hm, (hchanges.others d (hkey d hd)).trans hm', hsame⟩
    rcases (hchanges.outdated d (hkey d hd)).1 hout' with hout' | hreach
    · exact hout hout'
    · exact hkey key (h.reaches hd hreach.to_reflTransGen) rfl

omit [EquivBEq K] in
theorem same (h : Spares R s top db) (hd : s.Reaches top d) {m : Memo V}
    (hm : s.memo? d = some m) : ∃ m', db.store.memo? d = some m' ∧ m.Same m' := by
  obtain ⟨_, m₀, m', hm₀, hm', hsame⟩ := h.stands d hd
  cases hm.symm.trans hm₀
  exact ⟨m', hm', hsame⟩

end Spares

variable [BEq V] {configuration : Configuration} {w : W} {before ops : List (Operation Q K V)}
  {replies replies' : List (Except String (Reply V))} {fuel' : Nat} {v : V} {c : Revision}
  {reads : List Handle}

/-- Only dependents are computed again: what is known to stand is answered from memory, and all that
was read for it is kept as it was, after any operations that neither assign nor remove any of it
and do not drop what was computed. -/
theorem query_unaffected (hP : P.Pure R)
    (hbefore : performAll P fuel before { configuration, outside := w } = some (replies, db))
    (hkey : db.store.lookup? q k = some key)
    (hmemo : db.store.memo? key = some (.derived v c db.revision reads))
    (hops : performAll P fuel' ops db = some (replies', db'))
    (hspared : ∀ op ∈ ops, ¬ op.Clears ∧ ∀ e ∈ op.edits, ∀ d, db.store.Reaches key d →
      db.store.lookup? e.target.1 e.target.2 ≠ some d) :
    ∃ n db'', (∀ m ≥ n, query P m q k db' = some (.value v, db'')) ∧ db''.begun = db'.begun ∧
      ∀ d, db.store.Reaches key d → ∃ m m' m'', db.store.memo? d = some m ∧
        db'.store.memo? d = some m' ∧ m.Same m' ∧ db''.store.memo? d = some m'' ∧ m.Same m'' := by
  have hdb : Resting (.of R) db :=
    (Resting.initial _ configuration w).performAll hP.steady hbefore
  have hdb' : Spares R db.store key db' := by
    refine performAll_keeps (Spares R db.store key) (fun op hop _ _ _ h hstep ↦ ?_)
      (.refl hdb hmemo rfl) hops
    obtain ⟨hclears, hedits⟩ := hspared op hop
    exact perform_keeps (Spares R db.store key) (fun _ _ _ _ _ h hquery ↦ h.query hP hquery)
      (fun e he _ h ↦ h.edit hdb.store.indexed (hedits e he)) (fun h ↦ absurd h hclears)
      (fun _ h ↦ ⟨h.resting.note _, h.lookup, h.stands⟩) h hstep
  obtain ⟨m, hm, hsame⟩ := hdb'.same .refl hmemo
  obtain ⟨n, db'', hquery, hbegun⟩ := hdb'.resting.exists_query_hit (P := P)
    (hdb'.lookup q k key hkey) hm (hdb'.stands key .refl).1
  have hdb'' := hdb'.query hP (hquery n (Nat.le_refl n))
  rw [hsame.value] at hquery
  refine ⟨n, db'', hquery, hbegun, fun d hd ↦ ?_⟩
  obtain ⟨_, m, m', hm, hm', hsame⟩ := hdb'.stands d hd
  obtain ⟨m'', hm'', hsame'⟩ := hdb''.same hd hm
  exact ⟨m, m', m'', hm, hm', hsame, hm'', hsame'⟩

end Database

/-- What a shop has in stock is worth something, in other money too. -/
inductive Shop
  | stock
  | price
  | rate
  | worth
  | abroad
  deriving DecidableEq

open Database

namespace Shop

def product (x y : Shop) : Recipe Shop Unit Nat :=
  .get (x, ()) fun a ↦ .get (y, ()) fun b ↦ .done (.value (a * b))

def logic : Shop → Option (Recipe Shop Unit Nat)
  | worth => some (product stock price)
  | abroad => some (product worth rate)
  | _ => none

def program : Program Shop Unit Nat Unit := .ofRecipes (fun _ ↦ "") logic

theorem program_pure : program.Pure (recipes (fun _ ↦ "") logic) := by
  refine .of_lawful (Program.ofRecipes_obeys _ _) ?_
  rintro ⟨q, k⟩
  cases q <;> simp [recipes, logic, product]

def opening : List (Operation Shop Unit Nat) :=
  [.act (.edit (.set stock () 3)), .act (.edit (.set price () 4)), .act (.edit (.set rate () 2)),
    .act (.inquire (.query abroad ()))]

/-- The worth abroad is computed again, assigned, removed, and cannot be computed without a rate. -/
def trade : List (Operation Shop Unit Nat) :=
  [.act (.edit (.setIfChanged rate () 5)), .act (.inquire (.query abroad ())),
    .act (.edit (.set abroad () 9)),
    .run [.edit (.remove abroad ()), .edit (.remove rate ()), .inquire (.query abroad ())]]

/-- The worth is still at hand when its reader was assigned, removed, and has failed. -/
theorem query_worth_unaffected :
    ∃ replies replies', ∃ db db' : Database Shop Unit Nat Unit,
      performAll program 8 opening { outside := () } = some (replies, db) ∧
      performAll program 8 trade db = some (replies', db') ∧ db.revision < db'.revision ∧
      ∃ n db'', (∀ m ≥ n, query program m .worth () db' = some (.value 12, db'')) ∧
        db''.begun = db'.begun := by
  have hrun : (performAll program 8 opening { outside := () }).map (fun p ↦
      ([worth, rate, abroad].map (p.2.store.lookup? · ()),
        [⟨4, 0⟩, ⟨0, 0⟩, ⟨1, 0⟩].map p.2.store.memo?, p.2.revision)) =
      some ([some ⟨4, 0⟩, some ⟨2, 0⟩, some ⟨3, 0⟩],
        [some (.derived 12 2 3 [⟨0, 0⟩, ⟨1, 0⟩]), some (.input 3 1), some (.input 4 2)], 3) := by
    decide +kernel
  have htrade : ((performAll program 8 opening { outside := () }).bind fun p ↦
      (performAll program 8 trade p.2).map (·.2.revision)) = some 7 := by
    decide +kernel
  obtain ⟨⟨replies, db⟩, hbefore, hend⟩ := Option.map_eq_some_iff.mp hrun
  rw [hbefore] at htrade
  obtain ⟨⟨replies', db'⟩, hops, hrevision'⟩ := Option.map_eq_some_iff.mp htrade
  simp only [List.map_cons, List.map_nil, Prod.mk.injEq, List.cons.injEq, and_true] at hend
  obtain ⟨⟨hworth, hrate, habroad⟩, ⟨hmemo, hstock, hprice⟩, hrevision⟩ := hend
  have hreaches : ∀ d, db.store.Reaches ⟨4, 0⟩ d → d ∈ [⟨4, 0⟩, ⟨0, 0⟩, ⟨1, 0⟩] := by
    intro d hd
    induction hd with
    | refl => simp
    | tail _ hrests ih =>
        obtain ⟨m, hm, hd⟩ := hrests
        simp only [List.mem_cons, List.not_mem_nil, or_false] at ih
        rcases ih with rfl | rfl | rfl <;> simp_all [Memo.reads]
  have hcurrent : db.store.memo? ⟨4, 0⟩ = some (.derived 12 2 db.revision [⟨0, 0⟩, ⟨1, 0⟩]) := by
    rw [hmemo, hrevision]
  have hapart : ∀ d, db.store.Reaches ⟨4, 0⟩ d →
      db.store.lookup? rate () ≠ some d ∧ db.store.lookup? abroad () ≠ some d := by
    intro d hd
    have hmem := hreaches d hd
    simp only [List.mem_cons, List.not_mem_nil, or_false] at hmem
    rcases hmem with rfl | rfl | rfl <;> simp [hrate, habroad]
  have hspared : ∀ op ∈ trade, ¬ op.Clears ∧ ∀ e ∈ op.edits, ∀ d, db.store.Reaches ⟨4, 0⟩ d →
      db.store.lookup? e.target.1 e.target.2 ≠ some d := by
    simp +contextual [trade, Operation.Clears, Operation.edits, Action.edits, Edit.target, hapart]
  obtain ⟨n, db'', hquery, hbegun, _⟩ :=
    query_unaffected program_pure hbefore hworth hcurrent hops hspared
  refine ⟨replies, replies', db, db', hbefore, hops, ?_, n, db'', hquery, hbegun⟩
  rw [hrevision, hrevision']
  decide

end Shop

end Incremental
