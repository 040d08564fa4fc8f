import Incremental.Proofs.Editing
import Mathlib.Order.WellFounded

/-!
# Verification ends

Verification walks along the lists of what was read and keeps no account of where it has been.
It ends because no computed value rests on itself, whatever was assigned, removed and computed
before, and also while queries are being computed. Bodies may give whatever results they like, as
long as the answers decide what they read: a body that looks at the revision to choose what it reads
may come to another value though nothing that it has read before has changed since, and then what
was computed from the old value still passes for fresh.
-/

namespace Incremental

variable {Q K V W : Type}

namespace Database

/-- Verifying each of the handles as of `since`, up to the first that has changed, passes through
the database `s`. -/
inductive Walks : Revision → List Handle → Database Q K V W → Database Q K V W → Prop
  | here {since : Revision} {keys : List Handle} {db : Database Q K V W} : Walks since keys db db
  | within {since since' : Revision} {key : Handle} {keys reads : List Handle}
      {db s : Database Q K V W}
      (hglance : glance db.revision since (db.store.memo? key) = .undecided since' reads)
      (h : Walks since' reads (db.note (.walked key)) s) : Walks since (key :: keys) db s
  | ended {fuel : Nat} {since : Revision} {key : Handle} {keys : List Handle} {fresh : Bool}
      {db db₁ : Database Q K V W} (hverify : verify fuel key since db = some (fresh, db₁)) :
      Walks since (key :: keys) db db₁
  | later {fuel : Nat} {since : Revision} {key : Handle} {keys : List Handle}
      {db db₁ s : Database Q K V W} (hverify : verify fuel key since db = some (true, db₁))
      (h : Walks since keys db₁ s) : Walks since (key :: keys) db s

theorem Walks.verifies {since : Revision} {keys : List Handle} {db s : Database Q K V W}
    (h : Walks since keys db s) : db.Verifies s := by
  induction h with
  | here => exact .refl _
  | within _ _ ih => exact (Verifies.note _ _).trans ih
  | ended hverify => exact verify_verifies hverify
  | later hverify _ ih => exact (verify_verifies hverify).trans ih

variable [DecidableEq Q] [BEq K]

/-- Running a body on the database `db` passes through the database `s`. -/
inductive Passes (P : Program Q K V W) :
    Body Q K V W V → Database Q K V W → Database Q K V W → Prop
  | here {b : Body Q K V W V} {db : Database Q K V W} : Passes P b db db
  | looks {q : Q} {k : K} {next : Outcome V → Body Q K V W V} {db db₁ s : Database Q K V W}
      {key : Handle} {v : V} {c w : Revision} {reads : List Handle}
      (hkey : db.intern q k = (key, db₁)) (hactive : db₁.stack.isActive key = false)
      (hm : (db₁.recordRead key).store.memo? key = some (.derived v c w reads))
      (h : Walks w [key] (db₁.recordRead key) s) : Passes P (.read q k next) db s
  | inside {q : Q} {k : K} {next : Outcome V → Body Q K V W V} {db db₁ db₂ s : Database Q K V W}
      {key : Handle} {fuel : Nat} (hkey : db.intern q k = (key, db₁))
      (hactive : db₁.stack.isActive key = false)
      (hretrieve : (db₁.recordRead key).retrieve fuel key = some (none, db₂))
      (hbroken : db₂.configuration.brokenAt db₂.stack.depth = none)
      (h : Passes P (P.body q k) ((db₂.note (.miss q k)).enter q k key) s) :
      Passes P (.read q k next) db s
  | later {q : Q} {k : K} {next : Outcome V → Body Q K V W V} {db db₁ s : Database Q K V W}
      {fuel : Nat} {a : Outcome V} (hread : query P fuel q k db = some (a, db₁))
      (h : Passes P (next a) db₁ s) : Passes P (.read q k next) db s
  | revision {next : Revision → Body Q K V W V} {db s : Database Q K V W}
      (h : Passes P (next db.revision) db s) : Passes P (.revision next) db s
  | outside {change : W → W} {next : W → Body Q K V W V} {db s : Database Q K V W}
      (h : Passes P (next db.outside) { db with outside := change db.outside } s) :
      Passes P (.outside change next) db s

open Store

variable [EquivBEq K] {T : Ways Q K V} {P : Program Q K V W} {db s : Database Q K V W}
  {q : Q} {k : K}

theorem Walks.consistent {since : Revision} {keys : List Handle} (h : Walks since keys db s)
    (hdb : Consistent T db.revision db.store) : Consistent T s.revision s.store := by
  induction h with
  | here => exact hdb
  | within _ _ ih => exact ih hdb
  | ended hverify =>
      rw [(verify_verifies hverify).revision_eq]
      exact (verify_iff hverify hdb).1.consistent
  | later hverify _ ih =>
      refine ih ?_
      rw [(verify_verifies hverify).revision_eq]
      exact (verify_iff hverify hdb).1.consistent

theorem Passes.consistent (hP : P.Steady T) {b : Body Q K V W V} (h : Passes P b db s)
    {outer : CallStack} {ys : List ((Q × K) × Outcome V)} {frame : Frame}
    (hdb : Computing T outer ys frame db) : Consistent T s.revision s.store := by
  induction h generalizing outer ys frame with
  | here => exact hdb.coherent.store
  | looks hkey _ _ hwalks => exact hwalks.consistent (hdb.coherent.record hkey).1.store
  | inside hkey _ hretrieve _ _ ih =>
      exact ih (Computing.enter hdb.coherent hkey hretrieve).1
  | later hread _ ih =>
      obtain ⟨_, _, hdb₁⟩ := hdb.next (query_gives hP hread hdb.coherent)
        (hdb.coherent.sound.query hread).2
      exact ih hdb₁
  | revision _ ih => exact ih hdb
  | outside _ ih => exact ih ⟨hdb.coherent.of_eq rfl rfl rfl, hdb.stack, hdb.collects⟩

/-- Asking for a query passes through consistent stores only. -/
theorem Resting.passes (hP : P.Steady T) (hdb : Resting T db) (h : Passes P (.get q k) db s) :
    Consistent T s.revision s.store := by
  cases h with
  | here => exact hdb.store
  | looks hkey _ _ hwalks => exact hwalks.consistent (hdb.coherent.record hkey).1.store
  | inside hkey _ hretrieve _ h =>
      exact h.consistent hP (Computing.enter hdb.coherent hkey hretrieve).1
  | later hread h =>
      cases h with
      | here => exact (query_gives hP hread hdb.coherent).coherent.store

theorem Resting.consistent_within (hP : P.Steady T) (hdb : Resting T db)
    (hs : s = db ∨ ∃ q k, Passes P (.get q k) db s) : Consistent T s.revision s.store := by
  rcases hs with rfl | ⟨q, k, hpasses⟩
  · exact hdb.store
  · exact hdb.passes hP hpasses

variable [BEq V]

/-- Verification ends: after any history of a program whose bodies give values only if all their
reads do, and are guided by the answers in what they read, and at every point inside a query that is
then asked for, no computed value rests on itself, and every verification comes to a verdict. What
the bodies give, and when they fail, may depend on the revision and the outside state, too. -/
theorem verification_ends (hstrict : P.ways.Strict) (hguided : P.ways.Guided)
    {configuration : Configuration} {w : W} {fuel : Nat} {ops : List (Operation Q K V)}
    {replies : List (Except String (Reply V))}
    (hops : performAll P fuel ops { configuration, outside := w } = some (replies, db))
    (hs : s = db ∨ ∃ q k, Passes P (.get q k) db s) :
    (∀ key, ¬ Relation.TransGen s.store.Feeds key key) ∧
      ∀ key asOf, ∃ n fresh s', ∀ m ≥ n, verify m key asOf s = some (fresh, s') := by
  have hP := Program.steady_ways hstrict hguided
  have hdb : Resting P.ways db := (Resting.initial P.ways configuration w).performAll hP hops
  have hconsistent := hdb.consistent_within hP hs
  refine ⟨fun key hcircle ↦ ?_, fun key asOf ↦ ?_⟩
  · exact hconsistent.founded.transGen.irrefl.irrefl key hcircle
  · obtain ⟨n, ⟨fresh, s'⟩, hverify⟩ := exists_verify hconsistent key asOf
    exact ⟨n, fresh, s', fun m hm ↦ verify_mono hm hverify⟩

end Database

/-- Two queries of which one reads the other, and a switch that says which. -/
inductive Turn
  | switch
  | ground
  | front
  | back
  deriving DecidableEq

open Database

namespace Turn

/-- The value of the other query while the switch is at `n`, that of the ground otherwise, raised by
how often one of the two was computed before. -/
def follow (n : Nat) (other : Turn) : Body Turn Unit Nat Nat Nat :=
  (Body.get switch ()).bind fun v ↦ (Body.get (if v = n then other else ground) ()).bind fun v ↦
    .outside (· + 1) fun count ↦ .value (v + count)

def logic : Turn → Option (Unit → Body Turn Unit Nat Nat Nat)
  | front => some fun _ ↦ follow 1 back
  | back => some fun _ ↦ follow 0 front
  | _ => none

def program : Program Turn Unit Nat Nat where
  name _ := ""
  logic := logic
  showArgument _ _ := ""
  showValue _ _ := ""

theorem eq_of_trace_follow {n : Nat} {other : Turn} {r : Revision} {w : Nat}
    {ys : List ((Turn × Unit) × Outcome Nat)} {v : Nat}
    (h : (follow n other).Trace r w ys (.value v)) :
    ∃ a b, ys = [((switch, ()), .value a),
      ((if a = n then other else ground, ()), .value b)] := by
  obtain ⟨a, zs, _, rfl, hrest⟩ := Body.trace_get_bind.1 h
  obtain ⟨b, zs, _, rfl, hend⟩ := Body.trace_get_bind.1 hrest
  cases hend with
  | outside hend =>
      cases hend
      exact ⟨a, b, rfl⟩

/-- Only what follows the switch comes to values. -/
theorem exists_follow {q : Turn} {k : Unit} {ys : List ((Turn × Unit) × Outcome Nat)} {v : Nat}
    (h : program.ways (q, k) ys v) : ∃ n other, ∀ k, program.body q k = follow n other := by
  obtain ⟨r, w, h⟩ := h
  cases q with
  | switch => cases h
  | ground => cases h
  | front => exact ⟨1, back, fun _ ↦ rfl⟩
  | back => exact ⟨0, front, fun _ ↦ rfl⟩

theorem ways_strict : program.ways.Strict := by
  rintro ⟨q, k⟩ ys v h
  obtain ⟨n, other, hbody⟩ := exists_follow h
  obtain ⟨_, _, h⟩ := h
  rw [hbody] at h
  obtain ⟨a, b, rfl⟩ := eq_of_trace_follow h
  simp

theorem ways_guided : program.ways.Guided := by
  intro q k k' ys ys' v v' _ h h' hagree
  obtain ⟨n, other, hbody⟩ := exists_follow h
  obtain ⟨_, _, h⟩ := h
  obtain ⟨_, _, h'⟩ := h'
  rw [hbody] at h h'
  obtain ⟨a, b, rfl⟩ := eq_of_trace_follow h
  obtain ⟨a', b', rfl⟩ := eq_of_trace_follow h'
  obtain rfl : a = a' := by
    simpa using hagree _ List.mem_cons_self _ List.mem_cons_self rfl rfl
  simp

/-- The front is still kept as it was read by the back when the switch is turned. -/
def history : List (Operation Turn Unit Nat) :=
  [.act (.edit (.set switch () 0)), .act (.edit (.set ground () 5)),
    .act (.inquire (.query back ())), .act (.edit (.set switch () 1))]

/-- While the front is computed anew, after the switch was turned, verification ends. -/
theorem verification_ends_inside :
    program.ways.Strict ∧ program.ways.Guided ∧ ∃ replies, ∃ db s : Database Turn Unit Nat Nat,
      performAll program 8 history { outside := 0 } = some (replies, db) ∧
      Passes program (.get front ()) db s ∧ s.stack.depth = 1 ∧
      (∀ key, ¬ Relation.TransGen s.store.Feeds key key) ∧
      ∀ key asOf, ∃ n fresh s', ∀ m ≥ n, verify m key asOf s = some (fresh, s') := by
  have hrun : (performAll program 8 history { outside := 0 }).bind (fun p ↦
      let (key, db) := p.2.intern front ()
      (retrieve 8 key (db.recordRead key)).map fun r ↦
        (db.stack.isActive key, r.1.isNone, r.2.configuration.brokenAt r.2.stack.depth,
          (r.2.enter front () key).stack.depth)) = some (false, true, none, 1) := by
    decide +kernel
  obtain ⟨⟨replies, db⟩, hops, hrun⟩ := Option.bind_eq_some_iff.mp hrun
  obtain ⟨⟨r, db₂⟩, hretrieve, hend⟩ := Option.map_eq_some_iff.mp hrun
  simp only [Prod.mk.injEq, Option.isNone_iff_eq_none] at hend
  obtain ⟨hactive, rfl, hbroken, hdepth⟩ := hend
  have hpasses : Passes program (.get front ()) db _ :=
    .inside rfl hactive hretrieve hbroken .here
  obtain ⟨hacyclic, hends⟩ :=
    verification_ends ways_strict ways_guided hops (.inr ⟨front, (), hpasses⟩)
  exact ⟨ways_strict, ways_guided, replies, db, _, hops, hpasses, hdepth, hacyclic, hends⟩

end Turn

namespace Database

/-- All of `S` has stood still since `r`, and so has what was read for it. Each of `C` lists
another of `C`, and has to be walked. -/
structure Hangs (S C : Handle → Prop) (r now : Revision) (s : Store Q K V) : Prop where
  unchanged : ∀ key, S key → ∃ m, s.memo? key = some m ∧ m.changedAt ≤ r ∧ ∀ d ∈ m.reads, S d
  later : ∀ key, S key → ∀ v c w reads, s.memo? key = some (.derived v c w reads) → r ≤ w
  circle : ∀ key, C key → ∃ v c w reads, s.memo? key = some (.derived v c w reads) ∧ w ≠ now ∧
    ∃ d ∈ reads, C d

theorem Hangs.markVerified {S C : Handle → Prop} {r now : Revision} {s : Store Q K V}
    {key : Handle} (h : Hangs S C r now s) (hr : r ≤ now) (hkey : ¬ C key) :
    Hangs S C r now (s.markVerified key now) := by
  refine ⟨fun other hother ↦ ?_, fun other hother v c w reads hm ↦ ?_, fun other hother ↦ ?_⟩
  · obtain ⟨m, hm, hc, hreads⟩ := h.unchanged other hother
    by_cases heq : other = key
    · subst heq
      exact ⟨m.verified now, by rw [Store.memo?_markVerified, hm]; rfl, by simpa using hc,
        by simpa using hreads⟩
    · exact ⟨m, (Store.memo?_markVerified_of_ne heq now).trans hm, hc, hreads⟩
  · by_cases heq : other = key
    · subst heq
      rw [Store.memo?_markVerified] at hm
      obtain ⟨m, _, hm⟩ := Option.map_eq_some_iff.mp hm
      cases m with
      | input => cases hm
      | derived => cases hm; exact hr
    · rw [Store.memo?_markVerified_of_ne heq] at hm
      exact h.later other hother v c w reads hm
  · obtain ⟨v, c, w, reads, hm, hrest⟩ := h.circle other hother
    have hne : other ≠ key := by
      rintro rfl
      exact hkey hother
    exact ⟨v, c, w, reads, (Store.memo?_markVerified_of_ne hne now).trans hm, hrest⟩

/-- Verification of a circle in which nothing has changed does not end. -/
theorem Hangs.verify_eq_none {S C : Handle → Prop} {r : Revision} {db : Database Q K V W}
    (h : Hangs S C r db.revision db.store) (hr : r ≤ db.revision) {key : Handle} (hS : S key)
    (hC : C key) {asOf : Revision} (hle : r ≤ asOf) (fuel : Nat) :
    verify fuel key asOf db = none := by
  -- a verdict would be that the value stands, and it would have been given for all reads before
  rw [Option.eq_none_iff_forall_ne_some]
  rintro ⟨fresh, db'⟩ hverify
  refine (verify_induction
    (fun key asOf db fresh db' ↦ db'.revision = db.revision ∧
      (Hangs S C r db.revision db.store → r ≤ db.revision → S key → r ≤ asOf →
        Hangs S C r db.revision db'.store ∧ fresh = true ∧ ¬ C key))
    (fun since keys db fresh db' ↦ db'.revision = db.revision ∧
      (Hangs S C r db.revision db.store → r ≤ db.revision → (∀ d ∈ keys, S d) → r ≤ since →
        Hangs S C r db.revision db'.store ∧ fresh = true ∧ ∀ d ∈ keys, ¬ C d))
    ?settled ?walked ?nil ?stop ?step hverify).2 h hr hS hle |>.2.2 hC
  case settled =>
    intro key asOf db fresh hglance
    refine ⟨rfl, fun h _ hS hle ↦ ⟨h, ?_, fun hC ↦ ?_⟩⟩
    · obtain ⟨m, hm, hc, _⟩ := h.unchanged key hS
      have hc := Nat.le_trans hc hle
      rw [hm] at hglance
      cases m with
      | input v c =>
          change c ≤ asOf at hc
          simpa [glance, hc] using hglance.symm
      | derived v c w reads =>
          change c ≤ asOf at hc
          simp only [glance, Nat.not_lt.2 hc, if_false] at hglance
          split at hglance <;> cases hglance
          rfl
    · obtain ⟨v, c, w, reads, hm, hw, _⟩ := h.circle key hC
      obtain ⟨m, hm', hc, _⟩ := h.unchanged key hS
      cases hm.symm.trans hm'
      have hc : c ≤ asOf := Nat.le_trans hc hle
      simp [hm, glance, hw, Nat.not_lt.2 hc] at hglance
  case walked =>
    rintro key asOf db since reads fresh db₁ hglance ⟨hrevision, hwalk⟩
    have hrevision : db₁.revision = db.revision := hrevision
    refine ⟨by cases fresh <;> exact hrevision, fun h hr hS hle ↦ ?_⟩
    obtain ⟨v, c, hm, _⟩ := glance_undecided hglance
    obtain ⟨m, hm', _, hreads⟩ := h.unchanged key hS
    cases hm.symm.trans hm'
    obtain ⟨h₁, rfl, hnone⟩ := hwalk h hr hreads (h.later key hS v c since reads hm)
    have hkey : ¬ C key := by
      intro hC
      obtain ⟨_, _, _, _, hm', _, d, hd, hCd⟩ := h.circle key hC
      cases hm.symm.trans hm'
      exact hnone d hd hCd
    refine ⟨?_, rfl, hkey⟩
    change Hangs S C r db.revision (db₁.store.markVerified key db₁.revision)
    rw [hrevision]
    exact h₁.markVerified hr hkey
  case nil => exact fun since db ↦ ⟨rfl, fun h _ _ _ ↦ ⟨h, rfl, by simp⟩⟩
  case stop =>
    rintro since key keys db db₁ ⟨hrevision, hkey⟩
    refine ⟨hrevision, fun h hr hS hle ↦ ?_⟩
    obtain ⟨_, hfresh, _⟩ := hkey h hr (hS key List.mem_cons_self) hle
    cases hfresh
  case step =>
    rintro since key keys db db₁ fresh db₂ ⟨hrevision, hkey⟩ ⟨hrevision', hkeys⟩
    rw [hrevision] at hkeys hrevision'
    refine ⟨hrevision', fun h hr hS hle ↦ ?_⟩
    obtain ⟨h₁, _, hC⟩ := hkey h hr (hS key List.mem_cons_self) hle
    obtain ⟨h₂, hfresh, hCs⟩ := hkeys h₁ hr (fun d hd ↦ hS d (List.mem_cons_of_mem _ hd)) hle
    exact ⟨h₂, hfresh, List.forall_mem_cons.mpr ⟨hC, hCs⟩⟩

end Database

/-- Two assigned values, the query that shows the one or the other by the revision, and two queries
that read each other once a seven is shown. -/
inductive Drift
  | early
  | late
  | shown
  | entry
  | echo
  deriving DecidableEq

namespace Drift

def logic : Drift → Option (Unit → Body Drift Unit Nat Unit Nat)
  | shown => some fun _ ↦ .revision fun r ↦ if r < 4 then .get early () else .get late ()
  | entry => some fun _ ↦
      (Body.get shown ()).bind fun v ↦ if v = 7 then .get echo () else .value 0
  | echo => some fun _ ↦ .get entry ()
  | _ => none

def program : Program Drift Unit Nat Unit where
  name _ := ""
  logic := logic
  showArgument _ _ := ""
  showValue _ _ := ""

/-- What is shown takes the late value when the revision has come for it, though that value has
not changed since the entry and its echo were computed. -/
def history : List (Operation Drift Unit Nat) :=
  [.act (.edit (.set late () 7)), .act (.edit (.set early () 1)),
    .act (.inquire (.query shown ())), .act (.inquire (.query entry ())),
    .act (.inquire (.query echo ())), .act (.edit (.set early () 2)),
    .act (.inquire (.query shown ())), .act (.edit (.set early () 3)),
    .act (.inquire (.query entry ())), .act (.edit (.set early () 4))]

theorem ways_strict : program.ways.Strict := by
  have hget : ∀ {q : Drift} {r : Revision} {ys : List ((Drift × Unit) × Outcome Nat)} {v : Nat},
      (Body.get q ()).Trace r () ys (.value v) → ∀ p ∈ ys, p.2.IsValue := by
    intro q r ys v h
    rw [Body.trace_get.1 h]
    simp
  rintro ⟨q, k⟩ ys v ⟨r, w, h⟩
  cases q with
  | early => cases h
  | late => cases h
  | shown =>
      cases h with
      | revision h =>
          dsimp only at h
          split at h <;> exact hget h
  | entry =>
      obtain ⟨u, zs, _, rfl, hrest⟩ := Body.trace_get_bind.1 h
      refine List.forall_mem_cons.mpr ⟨Outcome.isValue_value u, ?_⟩
      split at hrest
      · exact hget hrest
      · cases hrest
        simp
  | echo => exact hget h

/-- Where a body looks at the revision to choose what it reads, two values may come to rest on each
other, and their verification does not end. -/
theorem verification_hangs : program.ways.Strict ∧
      ∃ replies, ∃ db : Database Drift Unit Nat Unit,
        performAll program 8 history { outside := () } = some (replies, db) ∧
        ∃ key, Relation.TransGen db.store.Feeds key key ∧
          ∀ n, verify n key db.revision db = none := by
  have hrun : (performAll program 8 history { outside := () }).map (fun p ↦
      ([⟨0, 0⟩, ⟨2, 0⟩, ⟨3, 0⟩, ⟨4, 0⟩].map p.2.store.memo?, p.2.revision)) =
      some ([some (.input 7 1), some (.derived 7 1 4 [⟨0, 0⟩]),
        some (.derived 0 2 4 [⟨2, 0⟩, ⟨0, 0⟩, ⟨4, 0⟩]), some (.derived 0 2 4 [⟨3, 0⟩])], 5) := by
    decide +kernel
  obtain ⟨⟨replies, db⟩, hops, hend⟩ := Option.map_eq_some_iff.mp hrun
  obtain ⟨hmemos, hrevision : db.revision = 5⟩ := Prod.mk.inj hend
  simp only [List.map_cons, List.map_nil, List.cons.injEq, and_true] at hmemos
  obtain ⟨hlate, hshown, hentry, hecho⟩ := hmemos
  have hhangs : Hangs (· ∈ [⟨0, 0⟩, ⟨2, 0⟩, ⟨3, 0⟩, ⟨4, 0⟩]) (· ∈ [⟨3, 0⟩, ⟨4, 0⟩]) 2 db.revision
      db.store := by
    refine ⟨?_, ?_, ?_⟩
    · simp [hlate, hshown, hentry, hecho, Memo.changedAt, Memo.reads]
    · simp only [List.mem_cons, List.not_mem_nil, or_false]
      rintro key (rfl | rfl | rfl | rfl) v c w reads hm <;> grind
    · simp [hentry, hecho, hrevision]
  have hfirst : db.store.Feeds ⟨4, 0⟩ ⟨3, 0⟩ := ⟨⟨_, hentry, by simp [Memo.reads]⟩, _, hecho, rfl⟩
  have hsecond : db.store.Feeds ⟨3, 0⟩ ⟨4, 0⟩ := ⟨⟨_, hecho, by simp [Memo.reads]⟩, _, hentry, rfl⟩
  have hold : 2 ≤ db.revision := by simp [hrevision]
  exact ⟨ways_strict, replies, db, hops, ⟨3, 0⟩, .tail (.single hsecond) hfirst,
    hhangs.verify_eq_none hold (by simp) (by simp) hold⟩

end Drift

end Incremental
