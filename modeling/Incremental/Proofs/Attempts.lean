import Incremental.Proofs.Recall

/-!
# What an attempt leaves behind

A read may fail after much was computed, verified and caught inside it. What it leaves behind is
what would have been left by reading the parts that succeeded: new rows, later stamps, and the
values whose evaluations ended well. What is under evaluation is never kept from within, so an
evaluation that fails leaves what is kept for its own key as it was.
-/

namespace Incremental

variable {Q K V W : Type}

namespace Store

/-- What is kept under `key` is the same, but that a computed value may have been stamped at
`now`. -/
def Retains (now : Revision) (s s' : Store Q K V) (key : Handle) : Prop :=
  s'.memo? key = s.memo? key ∨ ∃ v c w reads, s.memo? key = some (.derived v c w reads) ∧
    w ≤ now ∧ s'.memo? key = some (.derived v c now reads)

/-- `s'` names what `s` names, nothing was assigned or removed, and what is kept is the same up to
stamps, or it is a value known to stand at `now` that was computed for one of `keys`. -/
structure Gains (now : Revision) (keys : Handle → Prop) (s s' : Store Q K V) : Prop where
  named : ∀ key x, s.named? key = some x → s'.named? key = some x
  removedAt : ∀ key, s'.removedAt key = s.removedAt key
  memo : ∀ key, s.Retains now s' key ∨
    keys key ∧ (∀ v c, s.memo? key ≠ some (.input v c)) ∧
      ∃ v c reads, s'.memo? key = some (.derived v c now reads)

variable {now : Revision} {s s' s'' : Store Q K V} {key : Handle} {keys keys' : Handle → Prop}

namespace Retains

theorem trans (h : s.Retains now s' key) (h' : s'.Retains now s'' key) :
    s.Retains now s'' key := by
  rcases h with heq | ⟨v, c, w, reads, hm, hle, hm'⟩
  · rcases h' with heq' | ⟨v, c, w, reads, hm, hle, hm'⟩
    · exact .inl (heq'.trans heq)
    · exact .inr ⟨v, c, w, reads, heq ▸ hm, hle, hm'⟩
  · rcases h' with heq' | ⟨v', c', w', reads', hm₁, _, hm₂⟩
    · exact .inr ⟨v, c, w, reads, hm, hle, heq'.trans hm'⟩
    · cases hm'.symm.trans hm₁
      exact .inr ⟨v, c, w, reads, hm, hle, hm₂⟩

theorem input_iff (h : s.Retains now s' key) {v : V} {c : Revision} :
    s'.memo? key = some (.input v c) ↔ s.memo? key = some (.input v c) := by
  rcases h with heq | ⟨v, c, w, reads, hm, _, hm'⟩
  · rw [heq]
  · simp [hm, hm']

/-- A value that is known to stand stays known to. -/
theorem derived (h : s.Retains now s' key) {v : V} {c : Revision} {reads : List Handle}
    (hm : s.memo? key = some (.derived v c now reads)) :
    s'.memo? key = some (.derived v c now reads) := by
  rcases h with heq | ⟨v', c', w, reads', hm₁, _, hm₂⟩
  · exact heq.trans hm
  · cases hm.symm.trans hm₁
    exact hm₂

end Retains

variable [DecidableEq Q] [BEq K] in
theorem Stamps.retains (h : s.Stamps now s') (hs : s.Regular now) (key : Handle) :
    s.Retains now s' key := by
  rcases h.memo key with heq | ⟨_, heq⟩
  · exact .inl heq
  · cases hm : s.memo? key with
    | none => exact .inl (by rw [heq, hm]; rfl)
    | some m =>
        cases m with
        | input v c => exact .inl (by rw [heq, hm]; rfl)
        | derived v c w reads =>
            obtain ⟨_, _, hle, _⟩ := hs.derived key v c w reads hm
            exact .inr ⟨v, c, w, reads, hm, hle, by rw [heq, hm]; rfl⟩

namespace Gains

theorem refl (now : Revision) (keys : Handle → Prop) (s : Store Q K V) : s.Gains now keys s :=
  ⟨fun _ _ hx ↦ hx, fun _ ↦ rfl, fun _ ↦ .inl (.inl rfl)⟩

theorem mono (h : s.Gains now keys s') (hkeys : ∀ key, keys key → keys' key) :
    s.Gains now keys' s' := by
  refine ⟨h.named, h.removedAt, fun key ↦ ?_⟩
  apply (h.memo key).imp_right
  exact fun ⟨hkey, hnew⟩ ↦ ⟨hkeys key hkey, hnew⟩

theorem input_iff (h : s.Gains now keys s') {v : V} {c : Revision} :
    s'.memo? key = some (.input v c) ↔ s.memo? key = some (.input v c) := by
  rcases h.memo key with hsame | ⟨_, hinput, v', c', reads, hm⟩
  · exact hsame.input_iff
  · simp [hm, hinput v c]

theorem trans (h : s.Gains now keys s') (h' : s'.Gains now keys s'') : s.Gains now keys s'' := by
  refine ⟨fun key x hx ↦ h'.named key x (h.named key x hx),
    fun key ↦ (h'.removedAt key).trans (h.removedAt key), fun key ↦ ?_⟩
  rcases h.memo key with hsame | ⟨hkey, hinput, v, c, reads, hm⟩
  · rcases h'.memo key with hsame' | ⟨hkey, hinput, hnew⟩
    · exact .inl (hsame.trans hsame')
    · exact .inr ⟨hkey, fun v c hm ↦ hinput v c (hsame.input_iff.2 hm), hnew⟩
  · refine .inr ⟨hkey, hinput, ?_⟩
    rcases h'.memo key with hsame' | ⟨_, _, hnew⟩
    · exact ⟨v, c, reads, hsame'.derived hm⟩
    · exact hnew

/-- Nothing that was kept is dropped. -/
theorem isSome (h : s.Gains now keys s') (hkey : (s.memo? key).isSome) :
    (s'.memo? key).isSome := by
  rcases h.memo key with (heq | ⟨v, c, w, reads, _, _, hm⟩) | ⟨_, _, v, c, reads, hm⟩
  · rwa [heq]
  · simp [hm]
  · simp [hm]

variable [DecidableEq Q] [BEq K] in
theorem of_stamps (h : s.Stamps now s') (hs : s.Regular now) : s.Gains now keys s' :=
  ⟨h.named, h.removedAt, fun key ↦ .inl (h.retains hs key)⟩

end Gains

end Store

namespace Database

variable {db db₁ db₂ db' : Database Q K V W} {key : Handle}

/-- Nothing is kept that was not, but for values that were computed since, of what was not under
evaluation at first. -/
def Progresses (db db' : Database Q K V W) : Prop :=
  db.store.Gains db.revision (fun key ↦ key ∉ db.stack.active ∧ .computed key ∈ db'.since db)
    db'.store

theorem Progresses.of_stamps [DecidableEq Q] [BEq K]
    (h : db.store.Stamps db.revision db'.store) (hdb : db.store.Regular db.revision) :
    db.Progresses db' := Store.Gains.of_stamps h hdb

theorem Progresses.refl (db : Database Q K V W) : db.Progresses db := Store.Gains.refl _ _ _

/-- What is under evaluation is retained. -/
theorem Progresses.retains (h : db.Progresses db') (hkey : key ∈ db.stack.active) :
    db.store.Retains db.revision db'.store key := by
  rcases h.memo key with hsame | ⟨⟨hidle, _⟩, _⟩
  · exact hsame
  · exact absurd hkey hidle

theorem Progresses.trans (h : db.Progresses db₁) (hf : db.Follows db₁) (h' : db₁.Progresses db₂)
    (hevents : db₁.events <:+ db₂.events) : db.Progresses db₂ := by
  have hsince : db₂.since db = db₂.since db₁ ++ db₁.since db := since_trans hf.events hevents
  have hfirst : db.store.Gains db.revision
      (fun key ↦ key ∉ db.stack.active ∧ .computed key ∈ db₂.since db) db₁.store :=
    h.mono fun key ⟨hidle, hevent⟩ ↦ ⟨hidle, by simp [hsince, hevent]⟩
  have hsecond : db₁.store.Gains db₁.revision
      (fun key ↦ key ∉ db.stack.active ∧ .computed key ∈ db₂.since db) db₂.store :=
    h'.mono fun key ⟨hidle, hevent⟩ ↦ ⟨hf.stack.active_eq ▸ hidle, by simp [hsince, hevent]⟩
  apply hfirst.trans
  exact hf.revision ▸ hsecond

/-- What was computed inside an evaluation was computed since before it was begun. -/
theorem Progresses.of_enter {q : Q} {k : K} (h : (db.enter q k key).Progresses db₁)
    (hevents : (db.enter q k key).events <:+ db₁.events) : db.Progresses db₁ := by
  have hsince : db₁.since db = db₁.since (db.enter q k key) ++ (db.enter q k key).since db :=
    since_trans (List.suffix_cons _ _) hevents
  apply Store.Gains.mono h
  intro other ⟨hidle, hevent⟩
  refine ⟨fun hmem ↦ hidle (List.mem_cons_of_mem _ hmem), ?_⟩
  rw [hsince]
  exact List.mem_append_left _ hevent

section leave

variable {stack : CallStack} {frame : Frame} {o : Outcome V}
  (hstack : db.stack = ⟨frame :: stack.frames, frame.key :: stack.active⟩)

include hstack

theorem store_leave (hvalue : ¬ o.IsValue) :
    (leave frame.key stack.depth (o, db)).2.store = db.store := by
  cases o with
  | panic message => rw [leave_panic hstack]; rfl
  | failure f => rw [leave_failure hstack]
  | value v => exact absurd ⟨v, rfl⟩ hvalue

/-- The end of an evaluation keeps its value, if it has one, and nothing else. -/
theorem leave_progresses (hidle : frame.key ∉ stack.active) (hkey : db.store.Has frame.key)
    (hinput : ∀ v c, db.store.memo? frame.key ≠ some (.input v c)) (o : Outcome V) :
    Progresses { db with stack } (leave frame.key stack.depth (o, db)).2 := by
  cases o with
  | panic message =>
      rw [leave_panic hstack]
      exact Store.Gains.refl _ _ _
  | failure f =>
      rw [leave_failure hstack]
      exact Store.Gains.refl _ _ _
  | value v =>
      rw [leave_value hstack]
      refine ⟨fun other x hx ↦ (Store.named?_insert ..).trans hx,
        fun other ↦ Store.removedAt_insert .., fun other ↦ ?_⟩
      by_cases hother : frame.key = other
      · subst hother
        refine .inr ⟨⟨hidle, ?_⟩, hinput, _, _, _, Store.memo?_insert_self hkey _⟩
        exact mem_since List.suffix_rfl rfl
      · exact .inl (.inl (Store.memo?_insert_of_ne _ hother _))

end leave

variable [DecidableEq Q] [BEq K] {P : Program Q K V W} {fuel : Nat} {q : Q} {k : K} {o : Outcome V}

/-- A read leaves behind what was computed in it. If it gives no value, what is kept for its own
key is retained. -/
theorem progresses_course [EquivBEq K] : Course P
    (fun q k db o db' ↦ db.Sound → db.Progresses db' ∧
      (¬ o.IsValue → ∀ key, db'.store.lookup? q k = some key →
        db.store.Retains db.revision db'.store key))
    (fun _ db _ db' ↦ db.Sound → db.Progresses db') where
  refused := by
    intro fuel q k db key db₁ hkey _ _ hdb
    have hstamps := (store_of_intern hkey db.revision).2.2
    exact ⟨.of_stamps hstamps hdb.store, fun _ other _ ↦ hstamps.retains hdb.store other⟩
  hit := by
    intro fuel n q k db key db₁ v c db₂ hkey _ hretrieve _ hdb
    have hstamps := (read_looks hkey hretrieve).2.2
    exact ⟨.of_stamps hstamps hdb.store, fun hvalue ↦ absurd ⟨v, rfl⟩ hvalue⟩
  tooDeep := by
    intro fuel n q k db key db₁ db₂ limit hkey _ hretrieve _ _ hdb
    have hstamps := (read_looks hkey hretrieve).2.2
    exact ⟨.of_stamps hstamps hdb.store, fun _ other _ ↦ hstamps.retains hdb.store other⟩
  computed := by
    intro fuel n q k db key db₁ db₂ o db₃ hkey hactive hretrieve _ hrun _ hruns hdb
    have hstamps := (read_looks hkey hretrieve).2.2
    have hlooks : db.Progresses (db₂.note (.miss q k)) := .of_stamps hstamps hdb.store
    have hlooksF : db.Follows (db₂.note (.miss q k)) :=
      (hdb.recordRetrieve hkey hretrieve).2.1.trans (.note _ _)
    have henter := hdb.enter_of_miss hkey hretrieve
    obtain ⟨hs₃, hf₃⟩ := henter.run hrun
    have hbody := hruns henter
    obtain ⟨_, hfound, _, frame, rfl, hstack⟩ := hdb.ran hkey hretrieve hrun
    -- while the body ran its key was active, so nothing was kept for it
    have hown : db₂.store.Retains db₂.revision db₃.store frame.key :=
      hbody.retains List.mem_cons_self
    have hinput : ∀ v c, db₃.store.memo? frame.key ≠ some (.input v c) := by
      intro v c hm
      have hm : (db₁.recordRead frame.key).store.memo? frame.key = some (.input v c) :=
        (memo?_of_intern hkey _).trans (hstamps.input_iff.1 (hown.input_iff.1 hm))
      rcases not_current_of_retrieve_none (hdb.record hkey).1.store hretrieve with
        hnone | ⟨v', c', w, reads, hm', _⟩
      · cases hm.symm.trans hnone
      · cases hm.symm.trans hm'
    have hidle : frame.key ∉ db₂.stack.active :=
      (retrieve_grows hkey hretrieve).active_eq ▸ not_mem_active hkey hactive
    have hleave := leave_progresses hstack hidle (hs₃.pop hstack).2.key hinput o
    have hmiss : db.Progresses { db₃ with stack := db₂.stack } :=
      hlooks.trans hlooksF (hbody.of_enter hf₃.events) ((List.suffix_cons _ _).trans hf₃.events)
    refine ⟨hmiss.trans (hlooksF.trans hf₃.of_enter) hleave
      (leave_events frame.key db₂.stack.depth o db₃), fun hvalue other hother ↦ ?_⟩
    rw [leave_outcome hstack o] at hvalue
    rw [store_leave hstack hvalue] at hother ⊢
    obtain rfl : frame.key = other := Option.some.inj (hfound.symm.trans hother)
    apply (hstamps.retains hdb.store frame.key).trans
    exact hlooksF.revision ▸ hown
  done := fun _ db _ ↦ .refl db
  read := by
    intro fuel q k next db a db₁ o db₂ hread hrun hreads hruns hdb
    obtain ⟨hs, hf⟩ := hdb.query hread
    exact (hreads hdb).1.trans hf (hruns hs) (hs.run hrun).2.events
  revision := fun next db o db₁ h hdb ↦ h hdb
  outside := fun change next db o db₁ h hdb ↦ h (hdb.of_eq rfl rfl rfl)

theorem Sound.progresses [EquivBEq K] (hdb : db.Sound)
    (h : Database.query P fuel q k db = some (o, db')) : db.Progresses db' ∧
      (¬ o.IsValue → ∀ key, db'.store.lookup? q k = some key →
        db.store.Retains db.revision db'.store key) :=
  progresses_course.query h hdb

theorem Sound.run_progresses [EquivBEq K] {b : Body Q K V W V} (hdb : db.Sound)
    (h : b.run (Database.query P fuel) db = some (o, db')) : db.Progresses db' :=
  progresses_course.run h hdb

end Database

namespace Stage

open Database

variable [DecidableEq Q] [BEq K] [EquivBEq K] [BEq V] {P : Program Q K V W} {t : Stage Q K V W}

/-- Failed attempts are contained: at every stage of every run, of whatever program, an evaluation
that comes to a failure or a panic leaves what is kept for its own key as it was at the stage, up to
a later stamp; and a read that fails leaves the revision, what is assigned and the removals as they
were, drops nothing, and keeps nothing new but values known to stand that were computed meanwhile,
none of them for its own key. -/
theorem failure_contained (ht : Reached P t) :
    (∀ fuel call calls r o db', t.calls = call :: calls →
      t.body.run (query P fuel) t.db = some r → leave call.key call.depth r = (o, db') →
      ¬ o.IsValue → db'.store.named? call.key = t.db.store.named? call.key ∧
        db'.store.removedAt call.key = t.db.store.removedAt call.key ∧
        t.db.store.Retains t.db.revision db'.store call.key) ∧
    ∀ s fuel q k o s', t.Shows s → query P fuel q k s = some (o, s') → ¬ o.IsValue →
      s'.revision = s.revision ∧ s.Progresses s' ∧
      (∀ key v c, s'.store.memo? key = some (.input v c) ↔ s.store.memo? key = some (.input v c)) ∧
      (∀ key, (s.store.memo? key).isSome → (s'.store.memo? key).isSome) ∧
      ∀ key, s'.store.lookup? q k = some key → s.store.Retains s.revision s'.store key := by
  constructor
  · intro fuel call calls r o db' hcalls hrun hleave hvalue
    rcases r with ⟨o₃, db₃⟩
    obtain ⟨frame₀, rest₀, hkey₀, _, hstack₀, _, _⟩ := (hcalls ▸ ht.serves).exists_top
    obtain ⟨x, hx⟩ := (ht.sound.pop hstack₀).2.key
    rw [hkey₀] at hx
    have hactive : call.key ∈ t.db.stack.active := by
      rw [hstack₀, ← hkey₀]
      exact List.mem_cons_self
    have hprogresses := ht.sound.run_progresses hrun
    -- the body has run to its end on top of the same calls
    have hend : Reached P ⟨db₃, .done o₃, call :: calls⟩ :=
      ht.later (Later.of_evaluates (hcalls ▸ evaluates_run hrun t.calls))
    obtain ⟨frame, rest, hkey, hdepth, hstack, _, _⟩ := hend.serves.exists_top
    rw [← hkey, hdepth] at hleave
    obtain rfl : o₃ = o := by
      rw [← leave_outcome hstack o₃, hleave]
    have hstore := store_leave hstack hvalue
    rw [hleave] at hstore
    rw [hstore]
    exact ⟨(hprogresses.named _ x hx).trans hx.symm, hprogresses.removedAt _,
      hprogresses.retains hactive⟩
  · intro s fuel q k o s' hs hquery hvalue
    have hsound := hs.sound ht.sound
    obtain ⟨hprogresses, hown⟩ := hsound.progresses hquery
    exact ⟨(hsound.query hquery).2.revision, hprogresses, fun key v c ↦ hprogresses.input_iff,
      fun key ↦ hprogresses.isSome, hown hvalue⟩

end Stage

/-- A kiln: what is fired in it takes the heat of its gas, and cracks if it is too much. -/
inductive Kiln
  | gas
  | load
  | heat
  | firing
  deriving DecidableEq

open Database Stage

namespace Kiln

def logic : Kiln → Option (Unit → Body Kiln Unit Nat Unit Nat)
  | gas | load => none
  | heat => some fun _ ↦ (Body.get gas ()).bind fun n ↦ .value (n * 2)
  | firing => some fun _ ↦
    (Body.get heat ()).bind fun m ↦
      (Body.get load ()).bind fun n ↦ if n ≤ 5 then .value (m * n) else .panic "cracked"

def program : Program Kiln Unit Nat Unit where
  name _ := ""
  logic := logic
  showArgument _ _ := ""
  showValue _ _ := ""

def history : List (Operation Kiln Unit Nat) :=
  [.act (.edit (.set gas () 2)), .act (.edit (.set load () 3)),
    .act (.inquire (.query firing ())), .act (.edit (.set gas () 4)),
    .act (.edit (.set load () 9))]

/-- When the load cracks, the heat that was computed for it is kept, and so is what was kept for the
last load that did not crack. -/
theorem firing_contained :
    ∃ (t : Stage Kiln Unit Nat Unit) (s s' db' : Database Kiln Unit Nat Unit),
      Reached program t ∧ t.body = .done (.panic "cracked") ∧ t.calls.map Call.key = [⟨2, 0⟩] ∧
      t.db.store.memo? ⟨2, 0⟩ = some (.derived 12 2 2 [⟨3, 0⟩, ⟨0, 0⟩, ⟨1, 0⟩]) ∧
      t.db.store.Retains t.db.revision db'.store ⟨2, 0⟩ ∧
      query program 9 firing () s = some (.panic "cracked", s') ∧ s.Progresses s' ∧
      s.store.Retains s.revision s'.store ⟨2, 0⟩ ∧
      (s'.since s).filterMap Event.computed? = [⟨3, 0⟩] ∧
      s.store.memo? ⟨3, 0⟩ = some (.derived 4 1 2 [⟨0, 0⟩]) ∧
      s'.store.memo? ⟨3, 0⟩ = some (.derived 8 3 4 [⟨0, 0⟩]) := by
  have hrun : (performAll program 9 history { outside := () }).bind (fun p ↦
      (query program 9 firing () p.2).bind fun r ↦
      (steps? program 9 5 ⟨p.2, .get firing (), []⟩).map fun t ↦
        decide (r.1 = .panic "cracked" ∧ t.outcome? = some (.panic "cracked") ∧
          (t.calls.map fun call ↦ (call.key, call.depth)) = [(⟨2, 0⟩, 0)] ∧
          t.db.store.memo? ⟨2, 0⟩ = some (.derived 12 2 2 [⟨3, 0⟩, ⟨0, 0⟩, ⟨1, 0⟩]) ∧
          (r.2.since p.2).filterMap Event.computed? = [⟨3, 0⟩] ∧
          r.2.store.lookup? firing () = some ⟨2, 0⟩ ∧
          p.2.store.memo? ⟨3, 0⟩ = some (.derived 4 1 2 [⟨0, 0⟩]) ∧
          r.2.store.memo? ⟨3, 0⟩ = some (.derived 8 3 4 [⟨0, 0⟩]))) = some true := by
    decide +kernel
  obtain ⟨⟨replies, s⟩, hops, hrun⟩ := Option.bind_eq_some_iff.mp hrun
  obtain ⟨⟨o, s'⟩, hquery, hrun⟩ := Option.bind_eq_some_iff.mp hrun
  obtain ⟨t, hsteps, hend⟩ := Option.map_eq_some_iff.mp hrun
  obtain ⟨rfl, hbody, hcalls, hkept, hcomputed, hfound, hold, hnew⟩ := of_decide_eq_true hend
  have hbody : t.body = .done (.panic "cracked") := body_of_outcome? hbody
  have ht : Reached program t := reached_of_steps? hops hsteps
  obtain ⟨o, hs⟩ := reached_performAll hops
  have hcontained := (failure_contained hs).2 s 9 firing () _ s' .here hquery (by simp)
  obtain ⟨_, hprogresses, _, _, hown⟩ := hcontained
  obtain ⟨call, calls, hcalls, hcall, hrest⟩ := List.map_eq_cons_iff.mp hcalls
  obtain rfl : calls = [] := List.map_eq_nil_iff.mp hrest
  obtain ⟨hkey, hdepth⟩ := Prod.mk.inj hcall
  have hrun : t.body.run (query program 9) t.db = some (.panic "cracked", t.db) := by
    rw [hbody]
    rfl
  have hleft := (failure_contained ht).1 9 call [] _ _ _ hcalls hrun rfl (by simp)
  rw [hkey, hdepth] at hleft
  refine ⟨t, s, s', _, ht, hbody, by rw [hcalls, List.map_cons, hkey]; rfl, hkept, hleft.2.2,
    hquery, hprogresses, hown _ hfound, hcomputed, hold, hnew⟩

end Kiln

end Incremental
