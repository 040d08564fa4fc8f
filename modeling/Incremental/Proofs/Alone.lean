import Incremental.Proofs.Nesting
import Incremental.Proofs.Removal

/-!
# Evaluations by themselves

A read may be refused for what it is nested in: for its depth, or because it would close a circle.
Where no read is refused, it makes no difference what else is under evaluation, and which limit
there is. So what such an evaluation comes to is what the query yields, and what it keeps is what it
would have kept by itself.
-/

namespace Incremental

variable {Q K V W : Type}

/-- How many reads were refused. One that was not answered from memory is refused for its depth if
it is not computed then. The latest event comes first. -/
def Event.refusals : List (Event Q K) → Nat
  | [] => 0
  | refused _ :: events => refusals events + 1
  | started .. :: miss .. :: events => refusals events
  | miss .. :: events => refusals events + 1
  | _ :: events => refusals events

namespace CallStack

/-- What is active in `stack'` is so in `stack`, and if there are frames in `stack'`, the innermost
is that of `stack`. -/
structure Pared (stack stack' : CallStack) : Prop where
  active : ∀ key ∈ stack'.active, key ∈ stack.active
  top : ∀ frame, stack'.frames.head? = some frame → stack.frames.head? = some frame

namespace Pared

variable {stack stack' : CallStack}

theorem modifyTop (h : stack.Pared stack') (f : Frame → Frame) :
    (stack.modifyTop f).Pared (stack'.modifyTop f) := by
  refine ⟨fun key hkey ↦ ?_, fun frame hframe ↦ ?_⟩
  · rw [active_modifyTop] at hkey ⊢
    exact h.active key hkey
  · rcases stack' with ⟨_ | ⟨top, frames'⟩, active'⟩
    · cases hframe
    · have htop := h.top top rfl
      rcases stack with ⟨_ | ⟨top', frames⟩, active⟩
      · cases htop
      · cases htop
        exact hframe

theorem push (h : stack.Pared stack') (key : Handle) :
    (stack.push key).Pared (stack'.push key) := by
  refine ⟨fun other hother ↦ ?_, fun frame hframe ↦ hframe⟩
  rcases List.mem_cons.mp hother with rfl | hother
  · exact List.mem_cons_self
  · exact List.mem_cons_of_mem _ (h.active other hother)

theorem isActive (h : stack.Pared stack') {key : Handle} (hkey : stack.isActive key = false) :
    stack'.isActive key = false := by
  simp only [CallStack.isActive, decide_eq_false_iff_not] at hkey ⊢
  exact fun hmem ↦ hkey (h.active key hmem)

end Pared

end CallStack

namespace Database

/-- How many reads were refused so far. -/
def refusals (db : Database Q K V W) : Nat := Event.refusals db.events

/-- The database with nothing under evaluation and without a limit. -/
def alone (db : Database Q K V W) : Database Q K V W :=
  { db with stack := {}, configuration := {} }

/-- `db'` is `db` with less around what is evaluated innermost, and without a limit. -/
structure Pared (db db' : Database Q K V W) : Prop where
  store : db'.store = db.store
  revision : db'.revision = db.revision
  outside : db'.outside = db.outside
  unlimited : db'.configuration.maxDepth = none
  stack : db.stack.Pared db'.stack

theorem pared_alone (db : Database Q K V W) : db.Pared db.alone :=
  ⟨rfl, rfl, rfl, rfl, ⟨fun _ hkey ↦ (by cases hkey), fun _ hframe ↦ (by cases hframe)⟩⟩

section

variable {db db' db₁ : Database Q K V W} {key : Handle} {fuel : Nat}

theorem verify_refusals {asOf : Revision} {fresh : Bool}
    (h : verify fuel key asOf db = some (fresh, db')) : db'.refusals = db.refusals :=
  verify_keeps (fun db db' ↦ db'.refusals = db.refusals) (fun _ ↦ rfl) (fun h h' ↦ h'.trans h)
    (fun _ _ ↦ rfl) (fun _ _ _ _ ↦ rfl) (fun _ _ ↦ rfl) h

theorem retrieve_refusals {r : Option (V × Revision)} (h : db.retrieve fuel key = some (r, db')) :
    db'.refusals = db.refusals := by
  rcases eq_or_verify_of_retrieve h with rfl | ⟨_, hverify⟩
  · rfl
  · exact verify_refusals hverify

namespace Pared

theorem note (h : db.Pared db') (event event' : Event Q K) :
    (db.note event).Pared (db'.note event') :=
  ⟨h.store, h.revision, h.outside, h.unlimited, h.stack⟩

theorem modifyTop (h : db.Pared db') (f : Frame → Frame) :
    Pared { db with stack := db.stack.modifyTop f } { db' with stack := db'.stack.modifyTop f } :=
  ⟨h.store, h.revision, h.outside, h.unlimited, h.stack.modifyTop f⟩

theorem enter (h : db.Pared db') (q : Q) (k : K) (key : Handle) :
    (db.enter q k key).Pared (db'.enter q k key) :=
  ⟨h.store, h.revision, h.outside, h.unlimited, h.stack.push key⟩

theorem conclude (h : db.Pared db') (key : Handle) (asOf : Revision) (fresh : Bool) :
    (conclude key asOf (fresh, db)).2.Pared (Database.conclude key asOf (fresh, db')).2 := by
  obtain ⟨hstore, hrevision, houtside, hunlimited, hstack⟩ := h
  cases fresh with
  | false => exact ⟨hstore, hrevision, houtside, hunlimited, hstack⟩
  | true =>
      refine ⟨?_, hrevision, houtside, hunlimited, hstack⟩
      change db'.store.markVerified key db'.revision = db.store.markVerified key db.revision
      rw [hstore, hrevision]

/-- Verification only looks at what is kept. -/
theorem exists_verify {asOf : Revision} {fresh : Bool}
    (hverify : verify fuel key asOf db = some (fresh, db₁)) (h : db.Pared db') :
    ∃ n db₁', verify n key asOf db' = some (fresh, db₁') ∧ db₁.Pared db₁' := by
  refine verify_induction
    (fun key asOf db fresh db₁ ↦ ∀ db', db.Pared db' →
      ∃ n db₁', verify n key asOf db' = some (fresh, db₁') ∧ db₁.Pared db₁')
    (fun since keys db fresh db₁ ↦ ∀ db', db.Pared db' → ∃ n db₁',
      allReads (fun d ↦ verify n d since) keys db' = some (fresh, db₁') ∧ db₁.Pared db₁')
    ?settled ?walked ?nil ?stop ?step hverify db' h
  case settled =>
    intro key asOf db fresh hglance db' h
    rw [← h.store, ← h.revision] at hglance
    exact ⟨1, _, by rw [verify, hglance]; rfl, h.note _ _⟩
  case walked =>
    intro key asOf db since reads fresh db₁ hglance hwalk db' h
    rw [← h.store, ← h.revision] at hglance
    obtain ⟨n, db₁', hreads, h₁⟩ := hwalk _ (h.note (.walked key) (.walked key))
    refine ⟨n + 1, _, ?_, h₁.conclude key asOf fresh⟩
    simp only [verify, hglance, hreads, Option.map_some]
    cases fresh <;> rfl
  case nil => exact fun _ _ db' h ↦ ⟨0, db', rfl, h⟩
  case stop =>
    intro since key keys db db₁ hkey db' h
    obtain ⟨n, db₁', hverify, h₁⟩ := hkey db' h
    exact ⟨n, db₁', by rw [allReads, hverify], h₁⟩
  case step =>
    intro since key keys db db₁ fresh db₂ hkey hkeys db' h
    obtain ⟨n, db₁', hverify, h₁⟩ := hkey db' h
    obtain ⟨m, db₂', hrest, h₂⟩ := hkeys db₁' h₁
    refine ⟨max n m, db₂', ?_, h₂⟩
    rw [allReads, verify_mono (Nat.le_max_left n m) hverify]
    exact allReads_mono (fun _ _ _ ↦ verify_mono (Nat.le_max_right n m)) hrest

theorem exists_retrieve {r : Option (V × Revision)}
    (hretrieve : db.retrieve fuel key = some (r, db₁)) (h : db.Pared db') :
    ∃ n db₁', db'.retrieve n key = some (r, db₁') ∧ db₁.Pared db₁' := by
  unfold retrieve at hretrieve ⊢
  rw [h.store]
  cases hm : db.store.memo? key with
  | none =>
      rw [hm] at hretrieve
      cases hretrieve
      exact ⟨0, db', rfl, h⟩
  | some m =>
      rw [hm] at hretrieve
      cases m with
      | input v c =>
          cases hretrieve
          exact ⟨0, db', rfl, h⟩
      | derived v c w reads =>
          obtain ⟨⟨fresh, _⟩, hverify, hend⟩ := Option.map_eq_some_iff.mp hretrieve
          cases hend
          obtain ⟨n, db₁', hverify', h₁⟩ := h.exists_verify hverify
          exact ⟨n, db₁', by simp only [hverify', Option.map_some], h₁⟩

/-- What is left behind by an evaluation does not depend on what it is nested in. -/
theorem ended {outer outer' : CallStack} {frame frame' : Frame} (h : db.Pared db')
    (houter : outer.Pared outer')
    (hstack : db.stack = ⟨frame :: outer.frames, frame.key :: outer.active⟩)
    (hstack' : db'.stack = ⟨frame' :: outer'.frames, frame'.key :: outer'.active⟩)
    (o : Outcome V) : (leave frame.key outer.depth (o, db)).2.Pared
      (leave frame'.key outer'.depth (o, db')).2 := by
  obtain rfl : frame = frame' := by
    have htop := h.stack.top frame' (by rw [hstack']; rfl)
    rw [hstack] at htop
    exact Option.some.inj htop
  obtain ⟨hstore, hrevision, houtside, hunlimited, _⟩ := h
  cases o with
  | panic message =>
      rw [leave_panic hstack, leave_panic hstack']
      exact ⟨hstore, hrevision, houtside, hunlimited, houter⟩
  | failure f =>
      rw [leave_failure hstack, leave_failure hstack']
      exact ⟨hstore, hrevision, houtside, hunlimited, houter.modifyTop _⟩
  | value v =>
      rw [leave_value hstack, leave_value hstack', hstore, hrevision]
      exact ⟨rfl, rfl, houtside, hunlimited, houter.modifyTop _⟩

variable [DecidableEq Q] [BEq K]

theorem intern (h : db.Pared db') {q : Q} {k : K} (hkey : db.intern q k = (key, db₁)) :
    ∃ db₁', db'.intern q k = (key, db₁') ∧ db₁.Pared db₁' := by
  obtain ⟨hstore, hrevision, houtside, hunlimited, hstack⟩ := h
  refine ⟨{ db' with store := db₁.store }, ?_, ?_⟩
  · simp only [Database.intern, hstore] at hkey ⊢
    cases hkey
    rfl
  · cases hkey
    exact ⟨rfl, hrevision, houtside, hunlimited, hstack⟩

end Pared

end

variable [DecidableEq Q] [BEq K] {P : Program Q K V W} {fuel : Nat} {q : Q} {k : K}
  {db db' db₁ db₂ dbₐ : Database Q K V W} {key : Handle} {o : Outcome V}

theorem read_refusals {r : Option (V × Revision)} (hkey : db.intern q k = (key, db₁))
    (hretrieve : (db₁.recordRead key).retrieve fuel key = some (r, db₂)) :
    db₂.refusals = db.refusals := by
  obtain rfl := eq_of_intern hkey
  exact (retrieve_refusals hretrieve :)

theorem refused_refusals (hkey : db.intern q k = (key, db₁)) (f : Failure) :
    (db₁.note (.refused f)).refusals = db.refusals + 1 := by
  obtain rfl := eq_of_intern hkey
  rfl

/-- A read that is neither answered from memory nor computed is refused, and one that is computed is
not. -/
theorem miss_refusals (hkey : db.intern q k = (key, db₁))
    (hretrieve : (db₁.recordRead key).retrieve fuel key = some (none, db₂)) :
    (db₂.note (.miss q k)).refusals = db.refusals + 1 ∧
      ((db₂.note (.miss q k)).enter q k key).refusals = db.refusals :=
  have hread := read_refusals hkey hretrieve
  ⟨congrArg (· + 1) hread, hread⟩

omit [DecidableEq Q] [BEq K] in
theorem refusals_leave {stack : CallStack} {frame : Frame}
    (h : db.stack = ⟨frame :: stack.frames, frame.key :: stack.active⟩) (o : Outcome V) :
    (leave frame.key stack.depth (o, db)).2.refusals = db.refusals := by
  cases o with
  | panic message => rw [leave_panic h]; rfl
  | failure f => rw [leave_failure h]; rfl
  | value v => rw [leave_value h]; rfl

/-- What an evaluation in which no read is refused comes to, it comes to by itself, too, and keeps
the same. -/
theorem pared_course : Course P
    (fun q k db o db' ↦ db.refusals ≤ db'.refusals ∧
      (db'.refusals = db.refusals → ∀ dbₐ, db.Pared dbₐ →
        ∃ n dbₐ', query P n q k dbₐ = some (o, dbₐ') ∧ db'.Pared dbₐ'))
    (fun b db o db' ↦ db.refusals ≤ db'.refusals ∧
      (db'.refusals = db.refusals → ∀ dbₐ, db.Pared dbₐ →
        ∃ n dbₐ', b.run (query P n) dbₐ = some (o, dbₐ') ∧ db'.Pared dbₐ')) where
  refused := by
    intro fuel q k db key db₁ hkey _ _
    have hmore := refused_refusals hkey (db₁.circle P key)
    exact ⟨by omega, fun heq ↦ by omega⟩
  hit := by
    intro fuel n q k db key db₁ v c db₂ hkey hactive hretrieve _
    have hsame : ((db₂.note (.hit q k)).observe c).refusals = db.refusals :=
      (read_refusals hkey hretrieve :)
    refine ⟨Nat.le_of_eq hsame.symm, fun _ dbₐ h ↦ ?_⟩
    obtain ⟨dbₐ₁, hkeyₐ, h₁⟩ := h.intern hkey
    obtain ⟨n, dbₐ₂, hretrieveₐ, h₂⟩ := (h₁.modifyTop _).exists_retrieve hretrieve
    obtain ⟨m, hqueryₐ⟩ :=
      (AnswersAtOnce.hit (P := P) hkeyₐ (h₁.stack.isActive hactive) hretrieveₐ).exists_query
    exact ⟨m, _, hqueryₐ, (h₂.note _ _).modifyTop _⟩
  tooDeep := by
    intro fuel n q k db key db₁ db₂ limit hkey _ hretrieve _ _
    have hmore := (miss_refusals hkey hretrieve).1
    exact ⟨by omega, fun heq ↦ by omega⟩
  computed := by
    rintro fuel n q k db key db₁ db₂ o db₃ hkey hactive hretrieve _ hrun _ ⟨hle, hruns⟩
    have henter := (miss_refusals hkey hretrieve).2
    obtain ⟨frame, rfl, hstack⟩ := (run_grows hrun).of_push
    change db₃.stack = ⟨frame :: db₂.stack.frames, frame.key :: db₂.stack.active⟩ at hstack
    have hend : (leave frame.key db₂.stack.depth (o, db₃)).2.refusals = db₃.refusals :=
      refusals_leave hstack o
    rw [leave_outcome hstack o]
    refine ⟨by omega, fun heq dbₐ h ↦ ?_⟩
    obtain ⟨dbₐ₁, hkeyₐ, h₁⟩ := h.intern hkey
    obtain ⟨n, dbₐ₂, hretrieveₐ, h₂⟩ := (h₁.modifyTop _).exists_retrieve hretrieve
    obtain ⟨m, dbₐ₃, hrunₐ, h₃⟩ := hruns (by omega) _ ((h₂.note _ _).enter q k frame.key)
    obtain ⟨frame', hframe, hstackₐ⟩ := (run_grows hrunₐ).of_push
    rw [← hframe] at hstackₐ
    change dbₐ₃.stack = ⟨frame' :: dbₐ₂.stack.frames, frame'.key :: dbₐ₂.stack.active⟩ at hstackₐ
    have hbrokenₐ : dbₐ₂.configuration.brokenAt dbₐ₂.stack.depth = none := by
      simp [Configuration.brokenAt, h₂.unlimited]
    have hqueryₐ := query_of_run hkeyₐ (h₁.stack.isActive hactive) hretrieveₐ hbrokenₐ hrunₐ
    rw [← hframe] at hqueryₐ
    exact ⟨_, _, hqueryₐ.trans (congrArg some (Prod.ext (leave_outcome hstackₐ o) rfl)),
      h₃.ended h₂.stack hstack hstackₐ o⟩
  done := fun _ _ ↦ ⟨Nat.le_refl _, fun _ dbₐ h ↦ ⟨0, dbₐ, rfl, h⟩⟩
  read := by
    rintro fuel q k next db a db₁ o db₂ _ _ ⟨hle, hread⟩ ⟨hle', hruns⟩
    refine ⟨Nat.le_trans hle hle', fun heq dbₐ h ↦ ?_⟩
    obtain ⟨n, dbₐ₁, hqueryₐ, h₁⟩ := hread (by omega) dbₐ h
    obtain ⟨m, dbₐ₂, hrunₐ, h₂⟩ := hruns (by omega) dbₐ₁ h₁
    exact ⟨max n m, dbₐ₂, run_read hqueryₐ hrunₐ, h₂⟩
  revision := by
    rintro next db o db₁ ⟨hle, hruns⟩
    refine ⟨hle, fun heq dbₐ h ↦ ?_⟩
    rw [← h.revision] at hruns
    exact hruns heq dbₐ h
  outside := by
    rintro change next db o db₁ ⟨hle, hruns⟩
    refine ⟨hle, fun heq dbₐ h ↦ ?_⟩
    obtain ⟨n, dbₐ', hrunₐ, h'⟩ := hruns heq { dbₐ with outside := change dbₐ.outside }
      ⟨h.store, h.revision, congrArg change h.outside, h.unlimited, h.stack⟩
    exact ⟨n, dbₐ', by rw [Body.run, h.outside]; exact (h.outside ▸ hrunₐ), h'⟩

theorem Pared.exists_query (hquery : query P fuel q k db = some (o, db')) :
    db.refusals ≤ db'.refusals ∧ (db'.refusals = db.refusals → ∀ dbₐ, db.Pared dbₐ →
      ∃ n dbₐ', query P n q k dbₐ = some (o, dbₐ') ∧ db'.Pared dbₐ') :=
  pared_course.query hquery

theorem refusals_le_of_run {b : Body Q K V W V} (hrun : b.run (query P fuel) db = some (o, db')) :
    db.refusals ≤ db'.refusals :=
  (pared_course.run hrun).1

section

variable [LawfulBEq K] {R : Q × K → Recipe Q K V} {H : Timeline Q K V}

theorem AtRest.yields (h : AtRest R H True db) (hP : P.Obeys R)
    (hshow : ChangesShow R db.store.inputs db.store.lastChange)
    (hacyclic : Acyclic R db.store.inputs) (hquery : query P fuel q k db = some (o, db')) :
    Yields R db.store.inputs (q, k) o := by
  rw [← h.inputs] at hshow hacyclic ⊢
  let c : Scene Q K V W := ⟨P, R, H, db.revision, db.store.lastChange, True, hP, hshow⟩
  have hready : c.Ready [] (q, k) db := .of_idle h.idle h.unlimited rfl h.faithful _
  have hans := Scene.query_answered hquery hready
    (.inr (.of_tame trivial hacyclic.passesCircles _ _ _))
  refine (hans.settles trivial).resolve_right ?_
  rintro ⟨⟨y, _, hy⟩, _⟩
  exact hacyclic y hy

omit [LawfulBEq K] in
theorem AtRest.of_pared (h : AtRest R H True dbₐ) (hpared : db.Pared dbₐ) :
    AtRest R H True db.alone := by
  refine ⟨rfl, rfl, ?_⟩
  have hfaithful := h.faithful
  rwa [hpared.store, hpared.revision] at hfaithful

/-- By itself the database would be at rest, changes show in it, and nothing reads in a circle. -/
structure Poised (R : Q × K → Recipe Q K V) (db : Database Q K V W) : Prop where
  sound : db.Sound
  atRest : ∃ H, AtRest R H True db.alone
  shows : ChangesShow R db.store.inputs db.store.lastChange
  acyclic : Acyclic R db.store.inputs

namespace Poised

theorem keeps (h : Poised R db) (hs : db'.Sound) (hrest : ∃ H, AtRest R H True db'.alone)
    (hkeeps : db.store.Keeps db'.store) :
    Poised R db' ∧ db'.store.inputs = db.store.inputs := by
  have hinputs := hkeeps.inputs_eq h.sound.store.indexed hs.store.indexed
  refine ⟨⟨hs, hrest, ?_, hinputs ▸ h.acyclic⟩, hinputs⟩
  rw [hinputs, hkeeps.lastChange_eq h.sound.store.indexed hs.store.indexed]
  exact h.shows

theorem follows (h : Poised R db) (hs : db'.Sound) (hf : db.Follows db')
    (hstore : ∀ H, Faithful R H db.store.lastChange True db.revision db.store →
      Faithful R H db.store.lastChange True db.revision db'.store) :
    Poised R db' ∧ db'.store.inputs = db.store.inputs := by
  obtain ⟨H, hrest⟩ := h.atRest
  have hlast := hf.store.keeps.lastChange_eq h.sound.store.indexed hs.store.indexed
  have hfaithful := hstore H hrest.faithful
  rw [← hlast, ← hf.revision] at hfaithful
  exact h.keeps hs ⟨H, rfl, rfl, hfaithful⟩ hf.store.keeps

theorem record (h : Poised R db) (hkey : db.intern q k = (key, db₁)) :
    Poised R (db₁.recordRead key) ∧ (db₁.recordRead key).store.inputs = db.store.inputs := by
  obtain ⟨hs, hf⟩ := h.sound.record hkey
  obtain rfl := eq_of_intern hkey
  exact h.follows hs hf fun H hfaithful ↦ hfaithful.intern q k

theorem retrieve {r : Option (V × Revision)} (h : Poised R db)
    (hretrieve : db.retrieve fuel key = some (r, db')) :
    Poised R db' ∧ db'.store.inputs = db.store.inputs :=
  have hv := retrieve_verifies hretrieve
  h.follows (h.sound.verifies hv) (.of_verifies hv) fun _ hfaithful ↦
    (retrieve_faithful hretrieve rfl hfaithful).1

omit [LawfulBEq K] in
theorem of_eq (h : Poised R db) (hs : db'.Sound) (hstore : db'.store = db.store)
    (hrevision : db'.revision = db.revision) : Poised R db' := by
  obtain ⟨H, _, _, hfaithful⟩ := h.atRest
  refine ⟨hs, ⟨H, rfl, rfl, ?_⟩, hstore ▸ h.shows, hstore ▸ h.acyclic⟩
  change Faithful R H db'.store.lastChange True db'.revision db'.store
  rw [hstore, hrevision]
  exact hfaithful

/-- What is computed was not assigned. -/
theorem enter (h : Poised R db) (hkey : db.intern q k = (key, db₁))
    (hretrieve : (db₁.recordRead key).retrieve fuel key = some (none, db₂)) :
    Poised R ((db₂.note (.miss q k)).enter q k key) ∧ db₂.store.inputs = db.store.inputs ∧
      db.store.inputs (q, k) = none := by
  obtain ⟨h₁, hinputs₁⟩ := h.record hkey
  obtain ⟨h₂, hinputs₂⟩ := h₁.retrieve hretrieve
  have hname : (db₁.recordRead key).store.named? key = some (q, k) := (named?_of_intern hkey :)
  have hhas : (db₂.note (.miss q k)).store.Has key :=
    ⟨_, (retrieve_verifies hretrieve).store.advances.named key _ hname⟩
  refine ⟨h₂.of_eq ((h₂.sound.note _).enter hhas q k) rfl rfl, hinputs₂.trans hinputs₁, ?_⟩
  rw [← hinputs₁]
  refine Store.inputs_of_not_input h₁.sound.store.indexed hname fun v c hm ↦ ?_
  rcases retrieve_none hretrieve with ⟨hm', _⟩ | ⟨_, _, _, _, hm', _⟩ <;> cases hm.symm.trans hm'

theorem exists_retrieve (h : Poised R db) {x : Q × K} (hx : db.store.named? key = some x) :
    ∃ fuel r, db.retrieve fuel key = some r := by
  obtain ⟨H, hrest⟩ := h.atRest
  exact Database.exists_retrieve trivial rfl hrest.faithful hx

/-- Where no read is refused, the answer is what the query yields. -/
theorem query (h : Poised R db) (hP : P.Obeys R) (hquery : query P fuel q k db = some (o, db'))
    (hrefusals : db'.refusals = db.refusals) : Poised R db' ∧
      db'.store.inputs = db.store.inputs ∧ Yields R db.store.inputs (q, k) o := by
  obtain ⟨H, hrest⟩ := h.atRest
  obtain ⟨n, dbₐ, hqueryₐ, hpared⟩ :=
    (Pared.exists_query hquery).2 hrefusals db.alone (pared_alone db)
  obtain ⟨hs, hf⟩ := h.sound.query hquery
  have hyields := hrest.yields hP h.shows h.acyclic hqueryₐ
  obtain ⟨hrest', _⟩ :=
    hrest.answered hP h.shows hqueryₐ (fun _ ↦ h.acyclic.passesCircles) (by simp)
  obtain ⟨hpoised, hinputs⟩ := h.keeps hs ⟨H, hrest'.of_pared hpared⟩ hf.store.keeps
  exact ⟨hpoised, hinputs, hyields⟩

end Poised

end

end Database

end Incremental
