import Incremental.Proofs.Upkeep

/-!
# Bookkeeping of an evaluation

An evaluation that ends gives the call stack back as it found it, but for what the innermost
frame has collected meanwhile. What is active is what the frames compute, and what the frames
collected is named in the store and no newer than the revision.
-/

namespace Incremental

variable {Q K V W : Type}

namespace Store

theorem named?_insert (s : Store Q K V) (key other : Handle) (memo : Memo V) :
    (s.insert key memo).named? other = s.named? other :=
  named?_congr (arguments_modify s key fun _ ↦ rfl)

theorem memo?_insert_self {s : Store Q K V} {key : Handle} (h : s.Has key) (memo : Memo V) :
    (s.insert key memo).memo? key = some memo := by
  obtain ⟨row, hrow⟩ := named?_eq_some_iff_row?.1 h
  simp [hrow]

/-- A computed value may take the place of one that is not known to stand. -/
theorem Advances.insert {now : Revision} {s s' : Store Q K V} (h : s.Advances now s') {key : Handle}
    (hold : s.memo? key = none ∨ ∃ v c w reads, s.memo? key = some (.derived v c w reads) ∧ w ≠ now)
    (hkey : s'.Has key) (v : V) (c : Revision) (reads : List Handle) :
    s.Advances now (s'.insert key (.derived v c now reads)) := by
  refine ⟨fun other x hx ↦ (named?_insert ..).trans (h.named other x hx),
    fun other ↦ (removedAt_insert ..).trans (h.removedAt other), fun other ↦ ?_⟩
  by_cases heq : key = other
  · subst heq
    exact .inr ⟨⟨v, c, reads, memo?_insert_self hkey _⟩, hold⟩
  · rw [memo?_insert_of_ne s' heq]
    exact h.memo other

variable [DecidableEq Q] [BEq K]

theorem advances_intern (now : Revision) (s : Store Q K V) (q : Q) (k : K) :
    s.Advances now (s.intern q k).2 :=
  ⟨fun _ _ hx ↦ named?_intern hx q k, fun key ↦ removedAt_intern s q k key,
    fun key ↦ .inl (memo?_intern s q k key)⟩

theorem Regular.intern [ReflBEq K] {s : Store Q K V} {now : Revision} (h : s.Regular now) (q : Q)
    (k : K) : (s.intern q k).2.Regular now := by
  refine ⟨h.indexed.intern q k, fun key ↦ ?_, fun key v c hm ↦ ?_, fun key v c w reads hm ↦ ?_⟩
  · rw [removedAt_intern]
    exact h.removedAt_le key
  · rw [memo?_intern] at hm
    exact h.input key v c hm
  · rw [memo?_intern] at hm
    rw [removedAt_intern]
    obtain ⟨hremoved, hcw, hle, hreads⟩ := h.derived key v c w reads hm
    exact ⟨hremoved, hcw, hle, fun d hd ↦ (advances_intern now s q k).has (hreads d hd)⟩

theorem Indexed.insert {s : Store Q K V} (h : s.Indexed) (key : Handle) (memo : Memo V) :
    (s.insert key memo).Indexed := h.congr (arguments_modify s key fun _ ↦ rfl)

theorem Regular.insert {s : Store Q K V} {now : Revision} (h : s.Regular now) {key : Handle} {v : V}
    {c : Revision} {reads : List Handle} (hc : s.removedAt key ≤ c) (hnow : c ≤ now)
    (hreads : ∀ d ∈ reads, s.Has d) : (s.insert key (.derived v c now reads)).Regular now := by
  have hhas : ∀ d, s.Has d → (s.insert key (.derived v c now reads)).Has d := by
    rintro d ⟨x, hx⟩
    exact ⟨x, (named?_insert ..).trans hx⟩
  have hmemo : ∀ {other m}, (s.insert key (.derived v c now reads)).memo? other = some m →
      other = key ∧ m = .derived v c now reads ∨ s.memo? other = some m := by
    intro other m hm
    by_cases hkey : key = other
    · subst hkey
      rw [memo?_insert] at hm
      obtain ⟨_, _, rfl⟩ := Option.map_eq_some_iff.mp hm
      exact .inl ⟨rfl, rfl⟩
    · rw [memo?_insert_of_ne s hkey] at hm
      exact .inr hm
  refine ⟨h.indexed.insert key _, fun other ↦ ?_,
    fun other v' c' hm ↦ ?_, fun other v' c' w reads' hm ↦ ?_⟩
  · rw [removedAt_insert]
    exact h.removedAt_le other
  · rcases hmemo hm with ⟨_, heq⟩ | hm
    · cases heq
    · exact h.input other v' c' hm
  · rw [removedAt_insert]
    rcases hmemo hm with ⟨rfl, heq⟩ | hm
    · cases heq
      exact ⟨hc, hnow, Nat.le_refl _, fun d hd ↦ hhas d (hreads d hd)⟩
    · obtain ⟨hremoved, hcw, hle, hreads⟩ := h.derived other v' c' w reads' hm
      exact ⟨hremoved, hcw, hle, fun d hd ↦ hhas d (hreads d hd)⟩

end Store

namespace CallStack

/-- `stack'` differs from `stack` in what the innermost frame has collected. -/
def Fills (stack stack' : CallStack) : Prop :=
  ∃ g : Frame → Frame, (∀ f, (g f).key = f.key) ∧ stack' = stack.modifyTop g

namespace Fills

variable {stack stack' stack'' : CallStack}

theorem refl (stack : CallStack) : stack.Fills stack := by
  refine ⟨id, fun _ ↦ rfl, ?_⟩
  rcases stack with ⟨_ | _, _⟩ <;> rfl

theorem trans (h : stack.Fills stack') (h' : stack'.Fills stack'') : stack.Fills stack'' := by
  obtain ⟨g, hg, rfl⟩ := h
  obtain ⟨g', hg', rfl⟩ := h'
  refine ⟨g' ∘ g, fun f ↦ (hg' (g f)).trans (hg f), ?_⟩
  rcases stack with ⟨_ | _, _⟩ <;> rfl

theorem recordRead (stack : CallStack) (key : Handle) : stack.Fills (stack.recordRead key) :=
  ⟨_, fun f ↦ f.key_addRead key, rfl⟩

theorem observe (stack : CallStack) (r : Revision) : stack.Fills (stack.observe r) :=
  ⟨(·.observe r), fun _ ↦ rfl, rfl⟩

theorem absorb (stack : CallStack) (reads : List Handle) (r : Revision) :
    stack.Fills (stack.absorb reads r) :=
  ⟨fun frame ↦ (frame.addReads reads).observe r, fun _ ↦ rfl, rfl⟩

/-- After an evaluation was begun and its frame was filled, everything below is as before. -/
theorem of_push {key : Handle} (h : (stack.push key).Fills stack') :
    ∃ frame : Frame, frame.key = key ∧ stack' = ⟨frame :: stack.frames, key :: stack.active⟩ := by
  obtain ⟨g, hg, rfl⟩ := h
  exact ⟨g { key }, hg _, rfl⟩

theorem active_eq (h : stack.Fills stack') : stack'.active = stack.active := by
  obtain ⟨g, _, rfl⟩ := h
  exact active_modifyTop g stack

theorem of_cons {frame : Frame} {frames : List Frame} {active : List Handle}
    (h : Fills ⟨frame :: frames, active⟩ stack') :
    ∃ frame' : Frame, frame'.key = frame.key ∧ stack' = ⟨frame' :: frames, active⟩ := by
  obtain ⟨g, hg, rfl⟩ := h
  exact ⟨g frame, hg frame, rfl⟩

end Fills

variable {stack : CallStack} {frame : Frame}

theorem absorb_nil (stack : CallStack) (r : Revision) : stack.absorb [] r = stack.observe r := by
  simp [absorb, observe, Frame.addReads]

theorem pop?_cons :
    pop? ⟨frame :: stack.frames, frame.key :: stack.active⟩ = some (frame, stack) := by
  simp [pop?]

theorem unwindTo_cons :
    unwindTo ⟨frame :: stack.frames, frame.key :: stack.active⟩ stack.depth = stack := by
  have hcount : stack.frames.length + 1 - stack.frames.length = 1 := by omega
  simp [unwindTo, depth, hcount]

end CallStack

/-- What the frame collected is named in the store and no newer than `now`. -/
structure Frame.Sound (s : Store Q K V) (now : Revision) (f : Frame) : Prop where
  key : s.Has f.key
  reads : ∀ d ∈ f.reads, s.Has d
  newest : f.newest ≤ now

theorem Frame.Sound.advance {now : Revision} {s s' : Store Q K V} {f : Frame} (h : f.Sound s now)
    (hs : s.Advances now s') : f.Sound s' now :=
  ⟨hs.has h.key, fun d hd ↦ hs.has (h.reads d hd), h.newest⟩

namespace Database

section leave

variable {db : Database Q K V W} {stack : CallStack} {frame : Frame}
  (h : db.stack = ⟨frame :: stack.frames, frame.key :: stack.active⟩)

include h

theorem leave_panic (message : String) : leave frame.key stack.depth (.panic message, db) =
    (.panic message, { db with stack }.note (.discarded 1)) := by
  have hdepth : db.stack.depth - stack.depth = 1 := by
    simp only [h, CallStack.depth, List.length_cons]
    omega
  have hunwind : db.stack.unwindTo stack.depth = stack := by
    rw [h]
    exact CallStack.unwindTo_cons
  simp [leave, discard, hdepth, hunwind]

theorem leave_failure (failure : Failure) : leave frame.key stack.depth (.failure failure, db) =
    (.failure failure, { db with stack := stack.absorb frame.reads frame.newest }) := by
  have hpop : db.stack.pop? = some (frame, stack) := by
    rw [h]
    exact CallStack.pop?_cons
  simp [leave, hpop]

theorem leave_value (v : V) : leave frame.key stack.depth (.value v, db) =
    (.value v,
      { db with
        store := db.store.insert frame.key (.derived v
          (max frame.newest (db.store.removedAt frame.key)) db.revision frame.reads)
        stack := stack.absorb frame.reads (max frame.newest (db.store.removedAt frame.key)) }.note
          (.computed frame.key)) := by
  have hpop : db.stack.pop? = some (frame, stack) := by
    rw [h]
    exact CallStack.pop?_cons
  simp [leave, hpop]

theorem leave_outcome (o : Outcome V) : (leave frame.key stack.depth (o, db)).1 = o := by
  cases o with
  | panic message => rw [leave_panic h]
  | failure f => rw [leave_failure h]
  | value v => rw [leave_value h]

end leave

theorem leave_fixed (key : Handle) (depth : Nat) (o : Outcome V) (db : Database Q K V W) :
    (leave key depth (o, db)).2.revision = db.revision ∧
      (leave key depth (o, db)).2.configuration = db.configuration := by
  cases o with
  | panic message =>
      simp only [leave, discard]
      split <;> exact ⟨rfl, rfl⟩
  | failure f =>
      simp only [leave]
      split <;> exact ⟨rfl, rfl⟩
  | value v =>
      simp only [leave]
      split <;> exact ⟨rfl, rfl⟩

theorem leave_events (key : Handle) (depth : Nat) (o : Outcome V) (db : Database Q K V W) :
    db.events <:+ (leave key depth (o, db)).2.events := by
  cases o with
  | panic message =>
      simp only [leave, discard]
      split
      · exact List.suffix_rfl
      · exact List.suffix_cons _ _
  | failure f =>
      simp only [leave]
      split <;> exact List.suffix_rfl
  | value v =>
      simp only [leave]
      split
      · exact List.suffix_rfl
      · exact List.suffix_cons _ _

/-- What an evaluation that ends leaves as it is. -/
structure Follows (db db' : Database Q K V W) : Prop where
  revision : db'.revision = db.revision
  configuration : db'.configuration = db.configuration
  store : db.store.Advances db.revision db'.store
  stack : db.stack.Fills db'.stack
  events : db.events <:+ db'.events

namespace Follows

variable {db db₁ db₂ : Database Q K V W}

theorem refl (db : Database Q K V W) : db.Follows db :=
  ⟨rfl, rfl, .refl _ _, .refl _, List.suffix_rfl⟩

theorem trans (h : db.Follows db₁) (h' : db₁.Follows db₂) : db.Follows db₂ :=
  ⟨h'.revision.trans h.revision, h'.configuration.trans h.configuration,
    h.store.trans (h.revision ▸ h'.store), h.stack.trans h'.stack, h.events.trans h'.events⟩

theorem note (db : Database Q K V W) (event : Event Q K) : db.Follows (db.note event) :=
  ⟨rfl, rfl, .refl _ _, .refl _, List.suffix_cons _ _⟩

theorem of_verifies (h : db.Verifies db₁) : db.Follows db₁ :=
  ⟨h.revision_eq, h.configuration_eq, h.store.advances, h.stack_eq ▸ .refl _, h.events⟩

theorem of_stack {stack : CallStack} (h : db.stack.Fills stack) : db.Follows { db with stack } :=
  ⟨rfl, rfl, .refl _ _, h, List.suffix_rfl⟩

theorem outside (db : Database Q K V W) (w : W) : db.Follows { db with outside := w } :=
  ⟨rfl, rfl, .refl _ _, .refl _, List.suffix_rfl⟩

end Follows

variable [DecidableEq Q] [BEq K]

/-- The store is regular, what is active is what the frames compute, and the frames are sound. -/
structure Sound (db : Database Q K V W) : Prop where
  store : db.store.Regular db.revision
  active : db.stack.active = db.stack.frames.map Frame.key
  frames : ∀ f ∈ db.stack.frames, f.Sound db.store db.revision

namespace Sound

variable {db db₁ : Database Q K V W} {key : Handle}

/-- Soundness does not depend on the outside state, the events and the configuration. -/
theorem of_eq (h : db.Sound) (hstore : db₁.store = db.store) (hstack : db₁.stack = db.stack)
    (hrevision : db₁.revision = db.revision) : db₁.Sound :=
  ⟨by rw [hstore, hrevision]; exact h.store, by rw [hstack]; exact h.active,
    by rw [hstack, hstore, hrevision]; exact h.frames⟩

theorem note (h : db.Sound) (event : Event Q K) : (db.note event).Sound := h.of_eq rfl rfl rfl

theorem of_has (h : db.Sound) {store : Store Q K V} (hstore : store.Regular db.revision)
    (hhas : ∀ key, db.store.Has key → store.Has key) : Sound { db with store } :=
  ⟨hstore, h.active, fun f hf ↦ ⟨hhas _ (h.frames f hf).key,
    fun d hd ↦ hhas d ((h.frames f hf).reads d hd), (h.frames f hf).newest⟩⟩

theorem verifies (h : db.Sound) (hv : db.Verifies db₁) : db₁.Sound := by
  refine ⟨?_, ?_, ?_⟩
  · rw [hv.revision_eq]
    exact hv.store.regular h.store
  · rw [hv.stack_eq]
    exact h.active
  · rw [hv.stack_eq, hv.revision_eq]
    exact fun f hf ↦ (h.frames f hf).advance hv.store.advances

theorem modifyTop (h : db.Sound) {g : Frame → Frame} (hkey : ∀ f, (g f).key = f.key)
    (hg : ∀ f, f.Sound db.store db.revision → (g f).Sound db.store db.revision) :
    Sound { db with stack := db.stack.modifyTop g } := by
  obtain ⟨hstore, hactive, hframes⟩ := h
  rcases hstack : db.stack with ⟨_ | ⟨f, frames⟩, active⟩
  · exact ⟨hstore, by simpa [hstack, CallStack.modifyTop] using hactive,
      by simp [CallStack.modifyTop]⟩
  · rw [hstack] at hactive hframes
    refine ⟨hstore, by simpa [CallStack.modifyTop, hkey] using hactive, ?_⟩
    intro f' hf'
    rcases List.mem_cons.mp hf' with rfl | hf'
    · exact hg f (hframes f List.mem_cons_self)
    · exact hframes f' (List.mem_cons_of_mem _ hf')

theorem recordRead (h : db.Sound) (hkey : db.store.Has key) : (db.recordRead key).Sound := by
  refine h.modifyTop (fun f ↦ f.key_addRead key) fun f hf ↦ ⟨?_, fun d hd ↦ ?_, ?_⟩
  · rw [Frame.key_addRead]
    exact hf.key
  · rcases (f.mem_addRead key d).1 hd with hd | rfl
    · exact hf.reads d hd
    · exact hkey
  · rw [Frame.newest_addRead]
    exact hf.newest

theorem observe (h : db.Sound) {r : Revision} (hr : r ≤ db.revision) : (db.observe r).Sound :=
  h.modifyTop (fun _ ↦ rfl) fun _ hf ↦ ⟨hf.key, hf.reads, Nat.max_le.2 ⟨hf.newest, hr⟩⟩

theorem absorb (h : db.Sound) {reads : List Handle} {r : Revision} (hr : r ≤ db.revision)
    (hreads : ∀ d ∈ reads, db.store.Has d) :
    Sound { db with stack := db.stack.absorb reads r } := by
  refine h.modifyTop (fun _ ↦ rfl) fun f hf ↦ ⟨hf.key, fun d hd ↦ ?_, Nat.max_le.2 ⟨hf.newest, hr⟩⟩
  rcases (f.mem_addReads reads d).1 hd with hd | hd
  · exact hf.reads d hd
  · exact hreads d hd

theorem enter (h : db.Sound) (hkey : db.store.Has key) (q : Q) (k : K) :
    (db.enter q k key).Sound := by
  refine ⟨h.store, ?_, fun f hf ↦ ?_⟩
  · change key :: db.stack.active = key :: db.stack.frames.map Frame.key
    rw [h.active]
  · rcases List.mem_cons.mp hf with rfl | hf
    · exact ⟨hkey, by simp, Nat.zero_le _⟩
    · exact h.frames f hf

theorem pop (h : db.Sound) {stack : CallStack} {frame : Frame}
    (hstack : db.stack = ⟨frame :: stack.frames, frame.key :: stack.active⟩) :
    Sound { db with stack } ∧ frame.Sound db.store db.revision := by
  obtain ⟨hstore, hactive, hframes⟩ := h
  rw [hstack] at hactive hframes
  refine ⟨⟨hstore, ?_, fun f hf ↦ hframes f (List.mem_cons_of_mem _ hf)⟩,
    hframes frame List.mem_cons_self⟩
  have htail := (List.cons.inj hactive).2
  exact htail

variable [ReflBEq K]

theorem intern (h : db.Sound) (q : Q) (k : K) : (db.intern q k).2.Sound := by
  have hadvance := Store.advances_intern db.revision db.store q k
  exact ⟨h.store.intern q k, h.active, fun f hf ↦ (h.frames f hf).advance hadvance⟩

end Sound

section

variable {db db₁ : Database Q K V W} {q : Q} {k : K} {key : Handle}

theorem Follows.intern (db : Database Q K V W) (q : Q) (k : K) : db.Follows (db.intern q k).2 :=
  ⟨rfl, rfl, Store.advances_intern _ _ q k, .refl _, List.suffix_rfl⟩

theorem lookup?_of_intern [ReflBEq K] (h : db.intern q k = (key, db₁)) :
    db₁.store.lookup? q k = some key := by
  obtain ⟨rfl, rfl⟩ : (db.store.intern q k).1 = key ∧
      { db with store := (db.store.intern q k).2 } = db₁ := by simpa [Database.intern] using h
  exact Store.lookup?_intern_self db.store q k

theorem has_of_intern [ReflBEq K] (h : db.intern q k = (key, db₁)) : db₁.store.Has key :=
  Store.has_of_lookup? (lookup?_of_intern h)

theorem named?_of_intern [LawfulBEq K] (h : db.intern q k = (key, db₁)) :
    db₁.store.named? key = some (q, k) :=
  Store.named?_of_lookup? (lookup?_of_intern h)

theorem memo?_of_intern (h : db.intern q k = (key, db₁)) (other : Handle) :
    db₁.store.memo? other = db.store.memo? other := by
  obtain rfl := eq_of_intern h
  exact Store.memo?_intern db.store q k other

theorem Sound.record [ReflBEq K] (hdb : db.Sound) (h : db.intern q k = (key, db₁)) :
    (db₁.recordRead key).Sound ∧ db.Follows (db₁.recordRead key) := by
  obtain rfl : (db.intern q k).2 = db₁ := by rw [h]
  exact ⟨(hdb.intern q k).recordRead (has_of_intern h),
    (Follows.intern db q k).trans (.of_stack (.recordRead _ _))⟩

end

section

omit [DecidableEq Q] [BEq K]

variable {db db' : Database Q K V W} {key : Handle} {fuel : Nat}

theorem retrieve_some {v : V} {c : Revision} (h : db.retrieve fuel key = some (some (v, c), db')) :
    (db.store.memo? key = some (.input v c) ∧ db' = db) ∨
      ∃ w reads, db.store.memo? key = some (.derived v c w reads) ∧
        verify fuel key w db = some (true, db') := by
  unfold retrieve at h
  split at h
  · cases h
  · next hm =>
      cases h
      exact .inl ⟨hm, rfl⟩
  · next w reads hm =>
      obtain ⟨⟨fresh, db₁⟩, hverify, hend⟩ := Option.map_eq_some_iff.mp h
      cases fresh <;> cases hend
      exact .inr ⟨w, reads, hm, hverify⟩

theorem retrieve_none (h : db.retrieve fuel key = some (none, db')) :
    (db.store.memo? key = none ∧ db' = db) ∨
      ∃ v c w reads, db.store.memo? key = some (.derived v c w reads) ∧
        verify fuel key w db = some (false, db') := by
  unfold retrieve at h
  split at h
  · next hm =>
      cases h
      exact .inl ⟨hm, rfl⟩
  · cases h
  · next v c w reads hm =>
      obtain ⟨⟨fresh, db₁⟩, hverify, hend⟩ := Option.map_eq_some_iff.mp h
      cases fresh <;> cases hend
      exact .inr ⟨v, c, w, reads, hm, hverify⟩

end

/-- What is known to stand is answered from memory. -/
theorem not_current_of_retrieve_none {db db' : Database Q K V W} {key : Handle} {fuel : Nat}
    (hs : db.store.Regular db.revision) (h : db.retrieve fuel key = some (none, db')) :
    db.store.memo? key = none ∨
      ∃ v c w reads, db.store.memo? key = some (.derived v c w reads) ∧ w ≠ db.revision := by
  rcases retrieve_none h with ⟨hm, _⟩ | ⟨v, c, w, reads, hm, hverify⟩
  · exact .inl hm
  · refine .inr ⟨v, c, w, reads, hm, fun hw ↦ ?_⟩
    obtain ⟨_, hcw, _⟩ := hs.derived key v c w reads hm
    have hglance : glance db.revision w (db.store.memo? key) = .settled true := by
      rw [hm]
      simp [glance, hw, Nat.not_lt.2 (hw ▸ hcw)]
    cases fuel with
    | zero => cases hverify
    | succ fuel =>
        rw [verify, hglance] at hverify
        cases hverify

theorem changedAt_le_of_retrieve {db db' : Database Q K V W} {key : Handle} {fuel : Nat} {v : V}
    {c : Revision} (hs : db.store.Regular db.revision)
    (h : db.retrieve fuel key = some (some (v, c), db')) : c ≤ db.revision := by
  rcases retrieve_some h with ⟨hm, _⟩ | ⟨w, reads, hm, _⟩
  · exact hs.input key v c hm
  · obtain ⟨_, hcw, hle, _⟩ := hs.derived key v c w reads hm
    exact Nat.le_trans hcw hle

omit [DecidableEq Q] [BEq K] in
theorem Follows.of_enter {db db₃ : Database Q K V W} {q : Q} {k : K} {key : Handle}
    (h : (db.enter q k key).Follows db₃) : db.Follows { db₃ with stack := db.stack } :=
  ⟨h.revision, h.configuration, h.store, .refl _, (List.suffix_cons _ _).trans h.events⟩

/-- Whatever the outcome, the database is sound after the evaluation of its innermost frame. -/
theorem Sound.ended {db : Database Q K V W} {stack : CallStack} {frame : Frame} (h : db.Sound)
    (hstack : db.stack = ⟨frame :: stack.frames, frame.key :: stack.active⟩) (o : Outcome V) :
    (Database.leave frame.key stack.depth (o, db)).2.Sound := by
  obtain ⟨hpop, hframe⟩ := h.pop hstack
  cases o with
  | panic message =>
      rw [leave_panic hstack]
      exact hpop.note _
  | failure f =>
      rw [leave_failure hstack]
      exact hpop.absorb hframe.newest hframe.reads
  | value v =>
      rw [leave_value hstack]
      have hc : max frame.newest (db.store.removedAt frame.key) ≤ db.revision :=
        Nat.max_le.2 ⟨hframe.newest, h.store.removedAt_le frame.key⟩
      have hregular := h.store.insert (v := v) (Nat.le_max_right frame.newest _) hc hframe.reads
      have hhas : ∀ d, db.store.Has d → (db.store.insert frame.key (.derived v
          (max frame.newest (db.store.removedAt frame.key)) db.revision frame.reads)).Has d := by
        rintro d ⟨x, hx⟩
        exact ⟨x, (Store.named?_insert ..).trans hx⟩
      refine Sound.note ?_ _
      exact (hpop.of_has hregular hhas).absorb hc fun d hd ↦ hhas d (hframe.reads d hd)

/-- An evaluation that ends keeps the database sound, if its body did. -/
theorem Sound.leave {db db₁ db₃ : Database Q K V W} {q : Q} {k : K} {key : Handle}
    (hfollows : db.Follows db₁) (hrun : (db₁.enter q k key).Follows db₃) (h₃ : db₃.Sound)
    (hold : db.store.memo? key = none ∨ ∃ v c w reads,
      db.store.memo? key = some (.derived v c w reads) ∧ w ≠ db.revision) (o : Outcome V) :
    (leave key db₁.stack.depth (o, db₃)).2.Sound ∧
      db.Follows (leave key db₁.stack.depth (o, db₃)).2 := by
  obtain ⟨frame, rfl, hstack⟩ := hrun.stack.of_push
  have hback : db.Follows { db₃ with stack := db₁.stack } := hfollows.trans hrun.of_enter
  refine ⟨h₃.ended hstack o, ?_⟩
  cases o with
  | panic message =>
      rw [leave_panic hstack]
      exact hback.trans (.note _ _)
  | failure f =>
      rw [leave_failure hstack]
      exact hback.trans (.of_stack (.absorb _ _ _))
  | value v =>
      rw [leave_value hstack]
      have hrevision : db₃.revision = db.revision := hback.revision
      have hadvances := hback.store.insert hold (h₃.pop hstack).2.key v
        (max frame.newest (db₃.store.removedAt frame.key)) frame.reads
      exact ⟨hrevision, hback.configuration, hrevision ▸ hadvances,
        hback.stack.trans (.absorb _ _ _), hback.events.trans (List.suffix_cons _ _)⟩

variable [ReflBEq K] {P : Program Q K V W}

section

variable {db db₁ db₂ : Database Q K V W} {q : Q} {k : K} {key : Handle} {fuel : Nat}

theorem Sound.recordRetrieve {r : Option (V × Revision)} (hdb : db.Sound)
    (hkey : db.intern q k = (key, db₁))
    (hretrieve : (db₁.recordRead key).retrieve fuel key = some (r, db₂)) :
    db₂.Sound ∧ db.Follows db₂ ∧ db₂.store.Has key := by
  obtain ⟨hs, hf⟩ := hdb.record hkey
  have hv := retrieve_verifies hretrieve
  exact ⟨hs.verifies hv, hf.trans (.of_verifies hv),
    hv.store.advances.has (has_of_intern hkey : db₁.store.Has key)⟩

theorem Sound.enter_of_miss (hdb : db.Sound) (hkey : db.intern q k = (key, db₁))
    (hretrieve : (db₁.recordRead key).retrieve fuel key = some (none, db₂)) :
    ((db₂.note (.miss q k)).enter q k key).Sound := by
  obtain ⟨hs, _, hhas⟩ := hdb.recordRetrieve hkey hretrieve
  exact (hs.note (.miss q k)).enter hhas q k

end

/-- Every evaluation keeps the database sound and leaves the revision, what is assigned, what is
known to stand and the outer frames as they are. -/
theorem sound_course : Course P (fun _ _ db _ db' ↦ db.Sound → db'.Sound ∧ db.Follows db')
    (fun _ db _ db' ↦ db.Sound → db'.Sound ∧ db.Follows db') where
  refused := by
    intro fuel q k db key db₁ hkey _ _ hdb
    obtain rfl : (db.intern q k).2 = db₁ := by rw [hkey]
    exact ⟨(hdb.intern q k).note _, (Follows.intern db q k).trans (.note _ _)⟩
  hit := by
    intro fuel n q k db key db₁ v c db₂ hkey _ hretrieve _ hdb
    obtain ⟨hs, hf, _⟩ := hdb.recordRetrieve hkey hretrieve
    have hc := changedAt_le_of_retrieve (hdb.record hkey).1.store hretrieve
    rw [← (retrieve_verifies hretrieve).revision_eq] at hc
    exact ⟨(hs.note _).observe hc, hf.trans ((Follows.note _ _).trans (.of_stack (.observe _ _)))⟩
  tooDeep := by
    intro fuel n q k db key db₁ db₂ limit hkey _ hretrieve _ _ hdb
    obtain ⟨hs, hf, _⟩ := hdb.recordRetrieve hkey hretrieve
    exact ⟨hs.note _, hf.trans (.note _ _)⟩
  computed := by
    intro fuel n q k db key db₁ db₂ o db₃ hkey _ hretrieve _ _ _ hrun hdb
    obtain ⟨hs, hf⟩ := hdb.record hkey
    obtain ⟨_, hf₂, _⟩ := hdb.recordRetrieve hkey hretrieve
    obtain ⟨hs₃, hf₃⟩ := hrun (hdb.enter_of_miss hkey hretrieve)
    have hold := not_current_of_retrieve_none hs.store hretrieve
    rw [hf.revision, show (db₁.recordRead key).store.memo? key = db.store.memo? key from
      memo?_of_intern hkey key] at hold
    exact Sound.leave (hf₂.trans (.note _ (.miss q k))) hf₃ hs₃ hold o
  done := fun _ db hdb ↦ ⟨hdb, .refl db⟩
  read := by
    intro fuel q k next db a db₁ o db₂ _ _ hread hrun hdb
    obtain ⟨hs₁, hf₁⟩ := hread hdb
    obtain ⟨hs₂, hf₂⟩ := hrun hs₁
    exact ⟨hs₂, hf₁.trans hf₂⟩
  revision := fun _ _ _ _ h ↦ h
  outside := by
    intro change next db o db₁ h hdb
    obtain ⟨hs, hf⟩ := h (hdb.of_eq rfl rfl rfl)
    exact ⟨hs, (Follows.outside db _).trans hf⟩

theorem Sound.query {fuel : Nat} {q : Q} {k : K} {db db' : Database Q K V W} {o : Outcome V}
    (hdb : db.Sound) (h : query P fuel q k db = some (o, db')) : db'.Sound ∧ db.Follows db' :=
  sound_course.query h hdb

theorem Sound.run {fuel : Nat} {b : Body Q K V W V} {db db' : Database Q K V W} {o : Outcome V}
    (hdb : db.Sound) (h : b.run (Database.query P fuel) db = some (o, db')) :
    db'.Sound ∧ db.Follows db' :=
  sound_course.run h hdb

end Database

end Incremental
