import Incremental.Proofs.Executions
import Incremental.Proofs.Moves

/-!
# Recall within a revision

What a read was given is settled: it is known to stand, and it is not being computed anew. Until
the revision changes, or computed values are dropped, nothing unsettles it, whatever else is
computed, fails or panics meanwhile. So it is given to every later read at once, and no value is
computed twice.
-/

namespace Incremental

variable {Q K V W : Type}

/-- The handle whose value was computed. -/
def Event.computed? : Event Q K → Option Handle
  | computed key => some key
  | _ => none

namespace Database

/-- What is kept under `key` is known to stand, and it is not under evaluation. -/
structure Settled (db : Database Q K V W) (key : Handle) (m : Memo V) : Prop where
  memo : db.store.memo? key = some m
  current : m.IsCurrent db.revision
  idle : key ∉ db.stack.active

variable {db db₁ db₂ db' : Database Q K V W} {key : Handle} {m : Memo V}

/-- A memo that is found to stand is stamped. -/
theorem verify_current {fuel : Nat} {asOf : Revision}
    (h : verify fuel key asOf db = some (true, db')) :
    ∃ m, db'.store.memo? key = some m ∧ m.IsCurrent db.revision := by
  refine verify_induction
    (fun key _ db fresh db' ↦ db.Verifies db' ∧ (fresh = true →
      ∃ m, db'.store.memo? key = some m ∧ m.IsCurrent db.revision))
    (fun _ _ db _ db' ↦ db.Verifies db') ?settled ?walked ?nil ?stop ?step h |>.2 rfl
  case settled =>
    refine fun key asOf db fresh hglance ↦ ⟨.note db _, fun hfresh ↦ ?_⟩
    subst hfresh
    rcases glance_settled hglance with ⟨v, c, hm, _⟩ | ⟨v, c, reads, hm, _⟩
    · exact ⟨_, hm, trivial⟩
    · exact ⟨_, hm, rfl⟩
  case walked =>
    intro key asOf db since reads fresh db₁ hglance hwalk
    have hwalked := (Verifies.note db (.walked key)).trans hwalk
    refine ⟨hwalked.trans (.conclude key asOf fresh db₁), fun hfresh ↦ ?_⟩
    subst hfresh
    obtain ⟨v, c, hm, _⟩ := glance_undecided hglance
    obtain ⟨w, hm₁, _⟩ := hwalked.store.derived hm
    refine ⟨.derived v c db₁.revision reads, ?_, hwalked.revision_eq⟩
    change (db₁.store.markVerified key db₁.revision).memo? key = _
    rw [Store.memo?_markVerified, hm₁]
    rfl
  case nil => exact fun _ db ↦ .refl db
  case stop => exact fun _ _ _ _ _ h ↦ h.1
  case step => exact fun _ _ _ _ _ _ _ h h' ↦ h.1.trans h'

/-- What is retrieved is known to stand from then on. -/
theorem retrieve_current {fuel : Nat} {v : V} {c : Revision}
    (h : db.retrieve fuel key = some (some (v, c), db')) :
    ∃ m, db'.store.memo? key = some m ∧ m.IsCurrent db.revision ∧ m.value = v := by
  rcases retrieve_some h with ⟨hm, rfl⟩ | ⟨w, reads, hm, hverify⟩
  · exact ⟨_, hm, trivial, rfl⟩
  · obtain ⟨m, hm', hcurrent⟩ := verify_current hverify
    obtain ⟨w', hm'', _⟩ := (verify_verifies hverify).store.derived hm
    cases hm'.symm.trans hm''
    exact ⟨_, hm', hcurrent, rfl⟩

variable [DecidableEq Q] [BEq K]

/-- The revision is the same as before, and computed values were not dropped in between. -/
structure Within (db db' : Database Q K V W) : Prop where
  revision : db'.revision = db.revision
  cleared : ∀ count, .cleared count ∉ db'.since db

omit [DecidableEq Q] [BEq K] in
theorem Within.split (h : db.Within db₂) (h₁ : db.Precedes db₁) (h₂ : db₁.Precedes db₂) :
    db.Within db₁ ∧ db₁.Within db₂ := by
  obtain ⟨hrevision, hcleared⟩ := h
  rw [since_trans h₁.events h₂.events] at hcleared
  simp only [List.mem_append, not_or] at hcleared
  have hsame : db₁.revision = db.revision :=
    Nat.le_antisymm (hrevision ▸ h₂.revision) h₁.revision
  exact ⟨⟨hsame, fun count ↦ (hcleared count).2⟩,
    ⟨hrevision.trans hsame.symm, fun count ↦ (hcleared count).1⟩⟩

/-- Unless the revision changes or computed values are dropped, what is settled stays so, and what
is kept anew was not settled before. -/
theorem Moves.settles (h : db.Moves db') (hwithin : db.Within db') :
    (∀ key m, db.Settled key m → db'.Settled key m) ∧
    ((db'.since db).filterMap Event.computed? = [] ∨
      ∃ key, (db'.since db).filterMap Event.computed? = [key] ∧ (∃ m, db'.Settled key m) ∧
        ∀ m, ¬ db.Settled key m) := by
  obtain ⟨hrevision, hcleared⟩ := hwithin
  cases h with
  | looks _ hevents hstore hactive =>
      refine ⟨fun key m hm ↦ ?_, .inl ?_⟩
      · refine ⟨hstore.current_memo hm.memo hm.current, hrevision ▸ hm.current, fun hmem ↦ ?_⟩
        rcases hactive key hmem with hmem | hopen
        · exact hm.idle hmem
        · exact hopen m hm.memo hm.current
      · obtain ⟨recent, hrecent, hquiet⟩ := hevents
        rw [since_eq hrecent, List.filterMap_eq_nil_iff]
        intro e he
        have := hquiet e he
        cases e <;> first | rfl | exact absurd trivial this
  | @keeps key v c reads _ hevents hkey _ hstore hactive hidle =>
      refine ⟨fun other m hm ↦ ?_, .inr ⟨key, ?_, ?_, fun m hm ↦ ?_⟩⟩
      · have hne : other ≠ key := by
          rintro rfl
          exact hm.idle (by simp [hactive])
        refine ⟨?_, hrevision ▸ hm.current, fun hmem ↦ hm.idle ?_⟩
        · rw [hstore]
          exact (Store.memo?_insert_of_ne _ hne.symm _).trans hm.memo
        · rw [hactive]
          exact List.mem_cons_of_mem _ hmem
      · have hsince : db'.since db = [.computed key] := since_eq hevents
        rw [hsince]
        rfl
      · refine ⟨.derived v c db.revision reads, ?_, hrevision.symm, hidle⟩
        rw [hstore]
        exact Store.memo?_insert_self hkey _
      · exact hm.idle (by simp [hactive])
  | assigns _ _ _ h =>
      rw [h] at hrevision
      exact absurd hrevision (Nat.succ_ne_self _)
  | erases _ _ h =>
      rw [h] at hrevision
      exact absurd hrevision (Nat.succ_ne_self _)
  | clears _ h =>
      refine absurd ?_ (hcleared db.store.derivedCount)
      have hsince : db'.since db = [.cleared db.store.derivedCount] := by
        rw [h, clearCache_eq]
        exact since_eq rfl
      simp [hsince]

/-- Between the two nothing was unsettled, and no value was computed twice. -/
structure Recalls (db db' : Database Q K V W) : Prop where
  settled : ∀ key m, db.Settled key m → db'.Settled key m
  nodup : ((db'.since db).filterMap Event.computed?).Nodup
  computed : ∀ key ∈ (db'.since db).filterMap Event.computed?, ∃ m, db'.Settled key m

namespace Recalls

omit [DecidableEq Q] [BEq K] in
theorem refl (db : Database Q K V W) : db.Recalls db := by
  have hsince : db.since db = [] := since_eq rfl
  exact ⟨fun _ _ h ↦ h, by simp [hsince], by simp [hsince]⟩

theorem move (h : db.Recalls db₁) (hevents : db.events <:+ db₁.events)
    (hmove : db₁.Moves db₂) (hwithin : db₁.Within db₂) : db.Recalls db₂ := by
  obtain ⟨hsettled, hcomputed⟩ := hmove.settles hwithin
  have hsince := congrArg (List.filterMap Event.computed?)
    (since_trans hevents hmove.precedes.events)
  rw [List.filterMap_append] at hsince
  have hold : ∀ key ∈ (db₁.since db).filterMap Event.computed?, ∃ m, db₂.Settled key m := by
    intro key hkey
    obtain ⟨m, hm⟩ := h.computed key hkey
    exact ⟨m, hsettled key m hm⟩
  refine ⟨fun key m hm ↦ hsettled key m (h.settled key m hm), ?_, ?_⟩
  · rcases hcomputed with hnil | ⟨key, hone, _, hnot⟩
    · rw [hsince, hnil]
      exact h.nodup
    · rw [hsince, hone]
      refine List.nodup_cons.2 ⟨fun hkey ↦ ?_, h.nodup⟩
      -- what was computed before is settled, so it is not under evaluation now
      obtain ⟨m, hm⟩ := h.computed key hkey
      exact hnot m hm
  · rcases hcomputed with hnil | ⟨key, hone, hnew, _⟩
    · rw [hsince, hnil]
      exact hold
    · rw [hsince, hone]
      intro other hother
      rcases List.mem_cons.mp hother with rfl | hother
      · exact hnew
      · exact hold other hother

end Recalls

theorem Sound.lookup?_of_retrieve [EquivBEq K] {fuel : Nat} {q : Q} {k : K}
    {r : Option (V × Revision)} (hdb : db.Sound) (hkey : db.intern q k = (key, db₁))
    (hretrieve : (db₁.recordRead key).retrieve fuel key = some (r, db₂)) :
    db₂.store.lookup? q k = some key :=
  Store.lookup?_of_named (hdb.recordRetrieve hkey hretrieve).1.store.indexed
    (retrieve_verifies hretrieve).store.advances.named (lookup?_of_intern hkey :)

/-- A body that has run has left its frame on top of those that were there. -/
theorem Sound.ran [EquivBEq K] {P : Program Q K V W} {fuel fuel' : Nat} {q : Q} {k : K}
    {db₃ : Database Q K V W} {o : Outcome V} (hdb : db.Sound) (hkey : db.intern q k = (key, db₁))
    (hretrieve : (db₁.recordRead key).retrieve fuel key = some (none, db₂))
    (hrun : (P.body q k).run (Database.query P fuel') ((db₂.note (.miss q k)).enter q k key) =
      some (o, db₃)) :
    db₃.Sound ∧ db₃.store.lookup? q k = some key ∧ db.events <:+ db₃.events ∧
      ∃ frame : Frame, frame.key = key ∧
        db₃.stack = ⟨frame :: db₂.stack.frames, frame.key :: db₂.stack.active⟩ := by
  obtain ⟨_, hf, _⟩ := hdb.recordRetrieve hkey hretrieve
  obtain ⟨hs₃, hf₃⟩ := (hdb.enter_of_miss hkey hretrieve).run hrun
  obtain ⟨frame, rfl, hstack⟩ := hf₃.stack.of_push
  refine ⟨hs₃, ?_, ?_, frame, rfl, hstack⟩
  · exact Store.lookup?_of_named hs₃.store.indexed hf₃.store.named
      (hdb.lookup?_of_retrieve hkey hretrieve :)
  · exact hf.events.trans ((List.suffix_cons _ _).trans ((List.suffix_cons _ _).trans hf₃.events))

/-- What a read was given is settled. -/
theorem settled_of_query [EquivBEq K] {P : Program Q K V W} {fuel : Nat} {q : Q} {k : K} {v : V}
    (hdb : db.Sound) (h : query P fuel q k db = some (.value v, db')) :
    ∃ key m, db'.store.lookup? q k = some key ∧ db'.Settled key m ∧ m.value = v := by
  refine query_cases (P := P)
    (fun a db' ↦ a = .value v →
      ∃ key m, db'.store.lookup? q k = some key ∧ db'.Settled key m ∧ m.value = v)
    ?refused ?hit ?tooDeep ?computed h rfl
  case refused =>
    rintro key db₁ _ _ ⟨⟩
  case hit =>
    rintro n key db₁ v c db₂ hkey hactive hretrieve ⟨⟩
    obtain ⟨m, hm, hcurrent, hvalue⟩ := retrieve_current hretrieve
    refine ⟨key, m, (hdb.lookup?_of_retrieve hkey hretrieve :), ⟨hm, ?_, ?_⟩, hvalue⟩
    · exact (retrieve_verifies hretrieve).revision_eq.symm ▸ hcurrent
    · change key ∉ (db₂.stack.observe c).active
      rw [(CallStack.Grows.observe _ c).active_eq, (retrieve_grows hkey hretrieve).active_eq]
      exact not_mem_active hkey hactive
  case tooDeep =>
    rintro n key db₁ db₂ limit _ _ _ _ ⟨⟩
  case computed =>
    intro n key db₁ db₂ o db₃ _ hkey hactive hretrieve _ hrun hvalue
    obtain ⟨hs₃, hfound, _, frame, rfl, hstack⟩ := hdb.ran hkey hretrieve hrun
    obtain rfl : o = .value v := (leave_outcome hstack o).symm.trans hvalue
    rw [leave_value hstack]
    refine ⟨frame.key, _, ?_, ⟨Store.memo?_insert_self (hs₃.pop hstack).2.key _, rfl, ?_⟩, rfl⟩
    · exact (Store.lookup?_insert ..).trans hfound
    · change frame.key ∉ (db₂.stack.absorb _ _).active
      rw [(CallStack.Grows.absorb _ _ _).active_eq, (retrieve_grows hkey hretrieve).active_eq]
      exact not_mem_active hkey hactive

omit [DecidableEq Q] [BEq K] in
/-- Where what is kept is known to stand, if anything is, it is retrieved at once. -/
theorem exists_retrieve_of_current (db : Database Q K V W) (key : Handle)
    (hcurrent : ∀ m, db.store.memo? key = some m → m.IsCurrent db.revision)
    (hle : ∀ v c w reads, db.store.memo? key = some (.derived v c w reads) → c ≤ w) :
    ∃ db₁, ∀ n ≥ 1, db.retrieve n key =
      some ((db.store.memo? key).map fun m ↦ (m.value, m.changedAt), db₁) := by
  cases hm : db.store.memo? key with
  | none => exact ⟨db, fun n _ ↦ by simp only [retrieve, hm]; rfl⟩
  | some m =>
      cases m with
      | input v c => exact ⟨db, fun n _ ↦ by simp only [retrieve, hm]; rfl⟩
      | derived v c w reads =>
          obtain rfl : w = db.revision := hcurrent _ hm
          refine ⟨(db.settle key db.revision true).2, fun n hn ↦ ?_⟩
          have hglance : glance db.revision db.revision
              (some (.derived v c db.revision reads)) = .settled true := by
            simp [glance, Nat.not_lt.2 (hle v c _ reads hm)]
          obtain ⟨n, rfl⟩ := Nat.exists_eq_add_of_le' hn
          simp only [retrieve, hm, verify, hglance]
          rfl

/-- What is settled is given at once. -/
theorem Settled.exists_query (h : db.Settled key m) (hdb : db.Sound) (P : Program Q K V W) {q : Q}
    {k : K} (hkey : db.store.lookup? q k = some key) :
    ∃ db', (∀ n ≥ 2, query P n q k db = some (.value m.value, db')) ∧ db'.begun = db.begun := by
  obtain ⟨hm, hcurrent, hidle⟩ := h
  have hintern : db.intern q k = (key, db) := by
    simp [Database.intern, Store.intern_of_lookup? hkey]
  obtain ⟨db₁, hretrieve⟩ := exists_retrieve_of_current (db.recordRead key) key
    (fun m' hm' ↦ by cases hm.symm.trans hm'; exact hcurrent)
    (fun v c w reads hm' ↦ (hdb.store.derived key v c w reads hm').2.1)
  rw [show (db.recordRead key).store.memo? key = some m from hm] at hretrieve
  have hactive : db.stack.isActive key = false := by simpa [CallStack.isActive] using hidle
  refine ⟨(db₁.note (.hit q k)).observe m.changedAt, fun n hn ↦ ?_, ?_⟩
  · obtain ⟨n, rfl⟩ := Nat.exists_eq_add_of_le' (Nat.le_of_succ_le hn)
    exact query_of_hit hintern hactive (hretrieve n (Nat.le_of_succ_le_succ hn))
  · have hbegun : db₁.begun = (db.recordRead key).begun :=
      retrieve_begun (hretrieve 1 (Nat.le_refl 1))
    exact (begun_note_of_none rfl db₁).trans hbegun

end Database

namespace Stage

open Database

variable [DecidableEq Q] [BEq K] [BEq V] {P : Program Q K V W} {s t : Stage Q K V W}

/-- A run within a revision unsettles nothing and computes no value twice. -/
theorem Later.recalls [ReflBEq K] (h : Later P s t) (hs : Reached P s)
    (hwithin : s.db.Within t.db) : s.db.Precedes t.db ∧ s.db.Recalls t.db := by
  refine (h.keeps (fun db ↦ s.db.Within db → s.db.Recalls db) hs (fun _ ↦ .refl _)
    fun db db' _ _ hprecedes hmove ih hw ↦ ?_).imp_right fun h ↦ h hwithin
  obtain ⟨hold, hnew⟩ := hw.split hprecedes hmove.precedes
  exact (ih hold).move hprecedes.events hmove hnew

/-- Recall within a revision: in every run of whatever program, as long as the revision stays the
same and computed values are not dropped, no value is computed twice; and what a read was given,
every later read of an equal argument is given, inside whatever evaluation, without any body being
begun. -/
theorem value_recalled [EquivBEq K] (hs : Reached P s) (ht : Later P s t)
    (hwithin : s.db.Within t.db) : ((t.db.since s.db).filterMap Event.computed?).Nodup ∧
      ∀ fuel t₀ q k next v, Reached P t₀ → t₀.body = .read q k next →
        query P fuel q k t₀.db = some (.value v, s.db) → ∀ k', (k == k') = true →
        ∃ db', (∀ n ≥ 2, query P n q k' t.db = some (.value v, db')) ∧
          db'.begun = t.db.begun := by
  obtain ⟨hprecedes, hrecalls⟩ := ht.recalls hs hwithin
  refine ⟨hrecalls.nodup, fun fuel t₀ q k next v ht₀ _ hquery k' hk ↦ ?_⟩
  obtain ⟨key, m, hfound, hsettled, rfl⟩ := settled_of_query ht₀.sound hquery
  have hdb := (hs.later ht).sound
  have hfound := hprecedes.lookup? hdb hfound
  rw [Store.lookup?_of_beq hk] at hfound
  exact (hrecalls.settled key m hsettled).exists_query hdb P hfound

end Stage

/-- A clock that ticks whenever it is read, and two alarms of which one breaks. -/
inductive Clock
  | tick
  | broken
  | alarm
  | pair
  deriving DecidableEq

open Database Stage

namespace Clock

def logic : Clock → Option (Unit → Body Clock Unit Nat Nat Nat)
  | tick => some fun _ ↦ .outside (· + 1) .value
  | broken => some fun _ ↦ (Body.get tick ()).bind fun _ ↦ .panic "broken"
  | alarm => some fun _ ↦ (Body.get tick ()).bind fun n ↦ .value (n + 7)
  | pair => some fun _ ↦
    ((Body.get broken ()).catchPanic fun _ ↦ .value 0).bind fun m ↦
      (Body.get alarm ()).bind fun n ↦ .value (m + n)

def program : Program Clock Unit Nat Nat where
  name _ := ""
  logic := logic
  showArgument _ _ := ""
  showValue _ _ := ""

/-- The tick that the broken alarm was given before it panicked is given to the other alarm, though
the clock would tick once more. -/
theorem tick_recalled : ∃ s t : Stage Clock Unit Nat Nat, Reached program s ∧ Later program s t ∧
    s.calls.map Call.key = [⟨1, 0⟩, ⟨0, 0⟩] ∧ t.calls.map Call.key = [⟨3, 0⟩, ⟨0, 0⟩] ∧
    t.db.outside = 4 ∧ ((t.db.since s.db).filterMap Event.computed?).Nodup ∧
    ∃ db', (∀ n ≥ 2, query program n tick () t.db = some (.value 3, db')) ∧
      db'.begun = t.db.begun := by
  have hrun : (performAll program 9 [] { outside := 3 }).bind (fun p ↦
      (steps? program 9 2 ⟨p.2, .get pair (), []⟩).bind fun t₀ ↦
      (t₀.answer? program 9).bind fun r ↦ (steps? program 9 2 r.2).map fun t ↦
        decide (t₀.reading? = some (tick, ()) ∧ r.1 = .value 3 ∧
          r.2.calls.map Call.key = [⟨1, 0⟩, ⟨0, 0⟩] ∧ t.calls.map Call.key = [⟨3, 0⟩, ⟨0, 0⟩] ∧
          t.db.outside = 4 ∧ t.db.revision = r.2.db.revision ∧
          t.db.since r.2.db = [.started alarm () ⟨3, 0⟩, .miss alarm (), .discarded 1])) =
      some true := by
    decide +kernel
  obtain ⟨⟨replies, db⟩, hops, hrun⟩ := Option.bind_eq_some_iff.mp hrun
  obtain ⟨t₀, hfirst, hrun⟩ := Option.bind_eq_some_iff.mp hrun
  obtain ⟨⟨a, s⟩, hanswer, hrun⟩ := Option.bind_eq_some_iff.mp hrun
  obtain ⟨t, hsecond, hend⟩ := Option.map_eq_some_iff.mp hrun
  obtain ⟨hreading, rfl, hcalls, hcalls', houtside, hrevision, hsince⟩ := of_decide_eq_true hend
  obtain ⟨hquery, hlater, next, hbody⟩ := later_of_answer? hanswer hreading
  have ht₀ : Reached program t₀ := reached_of_steps? hops hfirst
  have hst : Later program s t := .of_evaluates (evaluates_of_steps? hsecond)
  obtain ⟨hnodup, hrecalled⟩ := value_recalled (ht₀.later hlater) hst
    ⟨hrevision, by simp [hsince]⟩
  exact ⟨s, t, ht₀.later hlater, hst, hcalls, hcalls', houtside, hnodup,
    hrecalled 9 t₀ tick () next 3 ht₀ (congrArg Stage.body hbody) hquery () rfl⟩

end Clock

end Incremental
