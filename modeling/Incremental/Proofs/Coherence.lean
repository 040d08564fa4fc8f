import Incremental.Proofs.Rechecking

/-!
# Evaluation keeps a store consistent

While a body runs, all values that it was given are known to stand, and its frame lists them with
what was read for them. So the value that is kept at its end is recorded rightly, and it takes the
place of none or of an outdated one: what is under evaluation lacks until then.
-/

namespace Incremental

variable {Q K V W : Type}

theorem Store.Advances.current_memo {now : Revision} {s s' : Store Q K V} {key : Handle}
    {m : Memo V} (h : s.Advances now s') (hm : s.memo? key = some m) (hcurrent : m.IsCurrent now) :
    s'.memo? key = some m := by
  cases m with
  | input v c => exact h.input_iff.2 hm
  | derived v c w reads =>
      obtain rfl : w = now := hcurrent
      exact h.current hm

namespace Database

open Store

variable [DecidableEq Q] [BEq K] {T : Ways Q K V}

/-- The store is consistent, and what is under evaluation lacks. -/
structure Coherent (T : Ways Q K V) (db : Database Q K V W) : Prop where
  sound : db.Sound
  store : Consistent T db.revision db.store
  lacks : ∀ key ∈ db.stack.active, db.store.Lacks key

/-- The frame accounts for the reads `ys`, which all gave values: it lists each of them, with some
of what was read for it, and is as new as the newest of them. -/
structure Collects (now : Revision) (s : Store Q K V) (ys : List ((Q × K) × Outcome V))
    (frame : Frame) : Prop where
  direct : ∀ p ∈ ys, ∃ d ∈ frame.reads, ∃ m, s.lookup? p.1.1 p.1.2 = some d ∧
    s.memo? d = some m ∧ m.IsCurrent now ∧ m.changedAt ≤ frame.newest ∧ p.2 = .value m.value
  indirect : ∀ e ∈ frame.reads, ∃ p ∈ ys, ∃ d m, s.lookup? p.1.1 p.1.2 = some d ∧
    s.memo? d = some m ∧ (e = d ∨ e ∈ m.reads)
  newest : frame.newest = Revision.initial ∨
    ∃ d ∈ frame.reads, ∃ m, s.memo? d = some m ∧ m.IsCurrent now ∧ m.changedAt = frame.newest

/-- A body is running that has read `ys` so far, `frame` is what was collected for it, and `outer`
is the call stack without it. -/
structure Computing (T : Ways Q K V) (outer : CallStack)
    (ys : List ((Q × K) × Outcome V)) (frame : Frame) (db : Database Q K V W) : Prop where
  coherent : Coherent T db
  stack : db.stack = ⟨frame :: outer.frames, frame.key :: outer.active⟩
  collects : (∀ p ∈ ys, p.2.IsValue) → Collects db.revision db.store ys frame

/-- What a read of query `q` at `k` leaves behind that gave `o`. -/
structure Gives (T : Ways Q K V) (q : Q) (k : K) (db : Database Q K V W) (o : Outcome V)
    (db' : Database Q K V W) : Prop where
  coherent : Coherent T db'
  renews : db.store.Renews db.revision db'.store
  value : ∀ v, o = .value v → ∃ key m reads, db'.store.lookup? q k = some key ∧
    db'.store.memo? key = some m ∧ m.IsCurrent db.revision ∧ m.value = v ∧
    db'.stack = (db.stack.recordRead key).absorb reads m.changedAt ∧ (reads = [] ∨ reads = m.reads)

namespace Coherent

variable {db db' : Database Q K V W} {key : Handle}

theorem of_eq (h : Coherent T db) (hstore : db'.store = db.store) (hstack : db'.stack = db.stack)
    (hrevision : db'.revision = db.revision) : Coherent T db' := by
  refine ⟨h.sound.of_eq hstore hstack hrevision, ?_, ?_⟩
  · rw [hstore, hrevision]
    exact h.store
  · rw [hstack, hstore]
    exact h.lacks

theorem note (h : Coherent T db) (event : Event Q K) : Coherent T (db.note event) :=
  h.of_eq rfl rfl rfl

theorem rechecks (h : Coherent T db) (hv : db.Verifies db')
    (hrechecks : Rechecks T db.revision db.store db'.store) : Coherent T db' := by
  refine ⟨h.sound.verifies hv, ?_, fun key hkey ↦ ?_⟩
  · rw [hv.revision_eq]
    exact hrechecks.consistent
  · rw [hv.stack_eq] at hkey
    rcases hrechecks.renews.lacks key (h.lacks key hkey) with ⟨_, hlacks⟩ | ⟨_, hout⟩
    · exact hlacks
    · rcases h.lacks key hkey with hnone | hout'
      · refine .inl ?_
        rcases hrechecks.kept key with heq | ⟨_, heq⟩
        · exact heq.trans hnone
        · rw [heq, hnone]
          rfl
      · exact absurd ((hrechecks.outdated key).2 hout') hout

theorem enter (h : Coherent T db) (hkey : db.store.Has key) (hlacks : db.store.Lacks key) (q : Q)
    (k : K) : Coherent T (db.enter q k key) := by
  refine ⟨h.sound.enter hkey q k, h.store, fun other hother ↦ ?_⟩
  rcases List.mem_cons.mp hother with rfl | hother
  · exact hlacks
  · exact h.lacks other hother

theorem record [EquivBEq K] {q : Q} {k : K} {db₁ : Database Q K V W} (h : Coherent T db)
    (hkey : db.intern q k = (key, db₁)) : Coherent T (db₁.recordRead key) ∧
      db.store.Renews db.revision (db₁.recordRead key).store := by
  obtain ⟨hs, hf⟩ := h.sound.record hkey
  have hmemo : ∀ other, (db₁.recordRead key).store.memo? other = db.store.memo? other :=
    (memo?_of_intern hkey :)
  have hlacks : ∀ other, db.store.Lacks other → (db₁.recordRead key).store.Lacks other :=
    fun other h ↦ h.imp ((hmemo other).trans ·) (.congr hmemo)
  have hactive : (db₁.recordRead key).stack.active = db.stack.active := hf.stack.active_eq
  refine ⟨⟨hs, ?_, fun other hother ↦ hlacks other (h.lacks other (hactive ▸ hother))⟩, ?_⟩
  · rw [hf.revision]
    obtain rfl := eq_of_intern hkey
    exact h.store.intern q k
  · exact .of_marks (fun other ↦ .inl (hmemo other)) fun other ↦
      ⟨.congr fun other ↦ (hmemo other).symm, .congr hmemo⟩

end Coherent

section

variable {db db' : Database Q K V W} {key : Handle} {fuel : Nat}

/-- Retrieval gives what is kept unless it lacks. -/
theorem retrieve_coherent [EquivBEq K] {r : Option (V × Revision)}
    (h : db.retrieve fuel key = some (r, db')) (hs : Consistent T db.revision db.store) :
    Rechecks T db.revision db.store db'.store ∧
      (∀ v c, r = some (v, c) → ∃ m, db'.store.memo? key = some m ∧ m.IsCurrent db.revision ∧
        m.value = v ∧ m.changedAt = c) ∧ (r = none ↔ db.store.Lacks key) := by
  cases r with
  | none =>
      refine ⟨?_, by simp, fun _ ↦ ?_, fun _ ↦ rfl⟩
      · rcases retrieve_none h with ⟨_, rfl⟩ | ⟨v, c, w, reads, _, hverify⟩
        · exact .refl hs
        · exact (verify_iff hverify hs).1
      · rcases retrieve_none h with ⟨hm, _⟩ | ⟨v, c, w, reads, hm, hverify⟩
        · exact .inl hm
        · obtain ⟨_, hiff, _⟩ := verify_iff hverify hs
          obtain ⟨_, hcw, _⟩ := hs.derived key v c w reads hm
          refine .inr (not_not.1 fun hout ↦ ?_)
          exact absurd (hiff.2 ⟨_, hm, hcw, hout⟩) (by simp)
  | some p =>
      obtain ⟨v, c⟩ := p
      rcases retrieve_some h with ⟨hm, rfl⟩ | ⟨w, reads, hm, hverify⟩
      · refine ⟨.refl hs, fun v' c' heq ↦ ?_, fun h ↦ absurd h (by simp), fun hlacks ↦ ?_⟩
        · cases heq
          exact ⟨_, hm, trivial, rfl, rfl⟩
        · rcases hlacks with hnone | hout
          · rw [hm] at hnone
            cases hnone
          · exact absurd hout (not_outdated_of_input hm)
      · obtain ⟨hrechecks, hiff, hcurrent⟩ := verify_iff hverify hs
        refine ⟨hrechecks, fun v' c' heq ↦ ?_, fun h ↦ absurd h (by simp), fun hlacks ↦ ?_⟩
        · cases heq
          obtain ⟨m, hm', hcurrent⟩ := hcurrent rfl
          obtain ⟨w', _, hm''⟩ := hrechecks.derived hs.toRegular hm
          cases hm'.symm.trans hm''
          exact ⟨_, hm', hcurrent, rfl, rfl⟩
        · obtain ⟨_, hm', _, hout⟩ := hiff.1 rfl
          rcases hlacks with hnone | hout'
          · rw [hm'] at hnone
            cases hnone
          · exact absurd hout' hout

theorem exists_retrieve_coherent [EquivBEq K] (hs : Consistent T db.revision db.store)
    (key : Handle) : ∃ fuel r, db.retrieve fuel key = some r := by
  cases hm : db.store.memo? key with
  | none => exact ⟨0, (none, db), by simp only [retrieve, hm]⟩
  | some m =>
      cases m with
      | input v c => exact ⟨0, (some (v, c), db), by simp only [retrieve, hm]⟩
      | derived v c w reads =>
          obtain ⟨fuel, ⟨fresh, db'⟩, hverify⟩ := exists_verify hs key w
          refine ⟨fuel, (if fresh then some (v, c) else none, db'), ?_⟩
          simp only [retrieve, hm, hverify, Option.map_some]

end

section

variable {now r : Revision} {s s' : Store Q K V} {ys : List ((Q × K) × Outcome V)} {frame : Frame}
  {key : Handle} {x : Q × K} {v : V}

namespace Collects

theorem nil (now : Revision) (s : Store Q K V) (key : Handle) :
    Collects now s ([] : List ((Q × K) × Outcome V)) { key } :=
  ⟨by simp, by simp, .inl rfl⟩

theorem reads_current (h : Collects now s ys frame) (hs : Consistent T now s) {e : Handle}
    (he : e ∈ frame.reads) :
    ∃ m, s.memo? e = some m ∧ m.IsCurrent now ∧ m.changedAt ≤ frame.newest := by
  obtain ⟨p, hp, d, m, hfound, hm, hor⟩ := h.indirect e he
  obtain ⟨d', _, m', hfound', hm', hcurrent, hle, _⟩ := h.direct p hp
  cases hfound.symm.trans hfound'
  cases hm.symm.trans hm'
  rcases hor with rfl | he
  · exact ⟨m, hm, hcurrent, hle⟩
  · cases m with
    | input => simp [Memo.reads] at he
    | derived v c w reads =>
        obtain rfl : w = now := hcurrent
        obtain ⟨m, hm, hcurrent, hc⟩ := hs.current_reads hm he
        exact ⟨m, hm, hcurrent, Nat.le_trans hc hle⟩

theorem advances [EquivBEq K] (h : Collects now s ys frame) (hs : s.Advances now s')
    (hs' : s'.Indexed) : Collects now s' ys frame := by
  have hlookup : ∀ {q k d}, s.lookup? q k = some d → s'.lookup? q k = some d :=
    fun hfound ↦ lookup?_of_named hs' hs.named hfound
  have hdirect : ∀ p ∈ ys, ∃ d ∈ frame.reads, ∃ m, s.lookup? p.1.1 p.1.2 = some d ∧
      s.memo? d = some m ∧ s'.memo? d = some m ∧ m.IsCurrent now ∧ m.changedAt ≤ frame.newest ∧
      p.2 = .value m.value := by
    intro p hp
    obtain ⟨d, hd, m, hfound, hm, hcurrent, hrest⟩ := h.direct p hp
    exact ⟨d, hd, m, hfound, hm, hs.current_memo hm hcurrent, hcurrent, hrest⟩
  refine ⟨fun p hp ↦ ?_, fun e he ↦ ?_, h.newest.imp_right ?_⟩
  · obtain ⟨d, hd, m, hfound, _, hm', hrest⟩ := hdirect p hp
    exact ⟨d, hd, m, hlookup hfound, hm', hrest⟩
  · obtain ⟨p, hp, d, m, hfound, hm, hor⟩ := h.indirect e he
    obtain ⟨d', _, m', hfound', hm', hm'', _⟩ := hdirect p hp
    cases hfound.symm.trans hfound'
    cases hm.symm.trans hm'
    exact ⟨p, hp, d, m, hlookup hfound, hm'', hor⟩
  · rintro ⟨d, hd, m, hm, hcurrent, hc⟩
    exact ⟨d, hd, m, hs.current_memo hm hcurrent, hcurrent, hc⟩

/-- A further read that gave a value, with what was read for it or not. -/
theorem read (h : Collects now s ys frame) {m : Memo V} {reads : List Handle}
    (hfound : s.lookup? x.1 x.2 = some key) (hm : s.memo? key = some m)
    (hcurrent : m.IsCurrent now) (hreads : reads = [] ∨ reads = m.reads) :
    Collects now s (ys ++ [(x, .value m.value)])
      (((frame.addRead key).addReads reads).observe m.changedAt) := by
  have hmem : ∀ e, e ∈ (((frame.addRead key).addReads reads).observe m.changedAt).reads ↔
      (e ∈ frame.reads ∨ e = key) ∨ e ∈ reads := by
    intro e
    exact (Frame.mem_addReads _ _ _).trans (or_congr (Frame.mem_addRead _ _ _) Iff.rfl)
  have hnewest : (((frame.addRead key).addReads reads).observe m.changedAt).newest =
      max frame.newest m.changedAt := by simp [Frame.observe]
  refine ⟨fun p hp ↦ ?_, fun e he ↦ ?_, ?_⟩
  · rw [hnewest]
    rcases List.mem_append.mp hp with hp | hp
    · obtain ⟨d, hd, m', hfound', hm', hcurrent', hle, hvalue⟩ := h.direct p hp
      exact ⟨d, (hmem d).2 (.inl (.inl hd)), m', hfound', hm', hcurrent',
        Nat.le_trans hle (Nat.le_max_left _ _), hvalue⟩
    · obtain rfl := List.mem_singleton.mp hp
      exact ⟨key, (hmem key).2 (.inl (.inr rfl)), m, hfound, hm, hcurrent,
        Nat.le_max_right _ _, rfl⟩
  · have hself : ∀ e, e = key ∨ e ∈ m.reads → ∃ p ∈ ys ++ [(x, .value m.value)], ∃ d m',
        s.lookup? p.1.1 p.1.2 = some d ∧ s.memo? d = some m' ∧ (e = d ∨ e ∈ m'.reads) :=
      fun e he ↦ ⟨(x, .value m.value), by simp, key, m, hfound, hm, he⟩
    rcases (hmem e).1 he with (he | he) | he
    · obtain ⟨p, hp, d, m', hrest⟩ := h.indirect e he
      exact ⟨p, List.mem_append_left _ hp, d, m', hrest⟩
    · exact hself e (.inl he)
    · rcases hreads with rfl | rfl
      · simp at he
      · exact hself e (.inr he)
  · rw [hnewest]
    rcases Nat.le_total frame.newest m.changedAt with hle | hle
    · exact .inr ⟨key, (hmem key).2 (.inl (.inr rfl)), m, hm, hcurrent, (Nat.max_eq_right hle).symm⟩
    · rw [Nat.max_eq_left hle]
      refine h.newest.imp_right ?_
      rintro ⟨d, hd, hrest⟩
      exact ⟨d, (hmem d).2 (.inl (.inl hd)), hrest⟩

/-- At the end of its body a value is recorded rightly. -/
theorem recorded (h : Collects now s ys frame) (hs : Consistent T now s)
    (hfound : s.lookup? x.1 x.2 = some key) (hway : T x ys v)
    (hr : r = max frame.newest (s.removedAt key)) : Recorded T s key v r now frame.reads := by
  refine ⟨fun d hd hnone ↦ ?_, fun d hd v' c' w' reads' hm ↦ ?_, fun d hd m hm _ ↦ ?_, ?_, x, ys,
    hfound, hway, fun p hp ↦ ?_, fun e he ↦ ?_⟩
  · obtain ⟨m, hm, _⟩ := h.reads_current hs hd
    rw [hnone] at hm
    cases hm
  · obtain ⟨m, hm', hcurrent, _⟩ := h.reads_current hs hd
    cases hm.symm.trans hm'
    exact Nat.le_of_eq (Eq.symm hcurrent)
  · obtain ⟨m', hm', _, hle⟩ := h.reads_current hs hd
    cases hm.symm.trans hm'
    exact Nat.le_trans hle (hr ▸ Nat.le_max_left _ _)
  · rcases Nat.le_total frame.newest (s.removedAt key) with hle | hle
    · exact .inl (hr.trans (Nat.max_eq_right hle))
    · rw [hr, Nat.max_eq_left hle]
      rcases h.newest with hzero | ⟨d, hd, m, hm, _, hc⟩
      · exact .inl (Nat.le_antisymm (hzero ▸ Nat.zero_le _) hle)
      · refine .inr ⟨d, hd, fun m' hm' _ ↦ ?_⟩
        cases hm.symm.trans hm'
        exact hc
  · obtain ⟨d, hd, m, hfound, hm, _, _, hvalue⟩ := h.direct p hp
    refine ⟨d, hd, hfound, fun m' hm' _ ↦ ?_⟩
    cases hm.symm.trans hm'
    exact hvalue
  · obtain ⟨p, hp, d, m, hfound, hm, hor⟩ := h.indirect e he
    obtain ⟨d', hd, _, hfound', _⟩ := h.direct p hp
    cases hfound.symm.trans hfound'
    refine ⟨p, hp, d, hd, hfound, hor.imp_right fun he m' hm' _ ↦ ?_⟩
    cases hm.symm.trans hm'
    exact he

end Collects

end

variable [EquivBEq K] {P : Program Q K V W} {q : Q} {k : K} {key : Handle} {o : Outcome V}
  {db db₁ db₂ db₃ db' : Database Q K V W} {outer : CallStack} {ys : List ((Q × K) × Outcome V)}
  {frame : Frame} {fuel : Nat}

/-- What is answered from memory is known to stand. -/
theorem Gives.hit (h : Coherent T db) (hkey : db.intern q k = (key, db₁)) {v : V} {c : Revision}
    (hretrieve : (db₁.recordRead key).retrieve fuel key = some (some (v, c), db₂))
    (hsound : ((db₂.note (.hit q k)).observe c).Sound) :
    Gives T q k db (.value v) ((db₂.note (.hit q k)).observe c) := by
  obtain ⟨hrecord, hrenews⟩ := h.record hkey
  obtain ⟨_, hf⟩ := h.sound.record hkey
  have hv := retrieve_verifies hretrieve
  obtain ⟨hrechecks, hvalue, _⟩ := retrieve_coherent hretrieve hrecord.store
  have hcoherent := hrecord.rechecks hv hrechecks
  have hrevision : (db₁.recordRead key).revision = db.revision := hf.revision
  rw [hrevision] at hrechecks hvalue
  refine ⟨⟨hsound, hcoherent.store, fun other hother ↦ hcoherent.lacks other ?_⟩,
    hrenews.trans hrechecks.renews, fun v' heq ↦ ?_⟩
  · exact CallStack.active_modifyTop _ _ ▸ hother
  · cases heq
    obtain ⟨m, hm, hcurrent, rfl, rfl⟩ := hvalue v c rfl
    have hfound : db₂.store.lookup? q k = some key :=
      lookup?_of_named hcoherent.store.indexed hv.store.advances.named (lookup?_of_intern hkey :)
    refine ⟨key, m, [], hfound, hm, hcurrent, rfl, ?_, .inl rfl⟩
    rw [CallStack.absorb_nil]
    obtain rfl := eq_of_intern hkey
    exact congrArg (CallStack.observe · m.changedAt) hv.stack_eq

namespace Computing

omit [EquivBEq K] in
theorem lacks_of_mem_outer (h : Computing T outer ys frame db) {other : Handle}
    (hother : other ∈ outer.active) : db.store.Lacks other :=
  h.coherent.lacks other (by rw [h.stack]; exact List.mem_cons_of_mem _ hother)

/-- The body goes on after its next read was answered. -/
theorem next (h : Computing T outer ys frame db) {a : Outcome V}
    (hgives : Gives T q k db a db₁) (hf : db.Follows db₁) :
    ∃ frame', frame'.key = frame.key ∧ Computing T outer (ys ++ [((q, k), a)]) frame' db₁ := by
  obtain ⟨frame', hframe, hstack⟩ := (h.stack ▸ hf.stack).of_cons
  refine ⟨frame', hframe, hgives.coherent, hframe ▸ hstack, fun hvalues ↦ ?_⟩
  obtain ⟨v, rfl⟩ := hvalues ((q, k), a) (by simp)
  obtain ⟨key, m, reads, hfound, hm, hcurrent, rfl, hstack', hreads⟩ := hgives.value v rfl
  have hcollects := (h.collects fun p hp ↦ hvalues p (List.mem_append_left _ hp)).advances
    hf.store hgives.coherent.store.indexed
  have hframe' : frame' = ((frame.addRead key).addReads reads).observe m.changedAt := by
    have hcons := hstack.symm.trans hstack'
    rw [h.stack] at hcons
    exact (List.cons.inj (CallStack.mk.inj hcons).1).1
  rw [hframe', hf.revision]
  exact hcollects.read hfound hm hcurrent hreads

/-- The end of a body is a right answer to the read that it was run for. -/
theorem leave (h : Computing T outer ys frame db₃) (hP : P.Steady T)
    (hway : ∀ v, o = .value v → T (q, k) ys v) (hfound : db₃.store.lookup? q k = some frame.key)
    (hidle : frame.key ∉ outer.active) (hrenews : db.store.Renews db.revision db₃.store)
    (hrevision : db₃.revision = db.revision) (houter : outer = db.stack.recordRead frame.key)
    (hsound : (Database.leave frame.key outer.depth (o, db₃)).2.Sound) :
    Gives T q k db (Database.leave frame.key outer.depth (o, db₃)).1
      (Database.leave frame.key outer.depth (o, db₃)).2 := by
  have hs := h.coherent.store
  cases o with
  | panic message =>
      rw [leave_panic h.stack] at hsound ⊢
      exact ⟨⟨hsound, hs, fun other hother ↦ h.lacks_of_mem_outer hother⟩, hrenews, by simp⟩
  | failure f =>
      rw [leave_failure h.stack] at hsound ⊢
      refine ⟨⟨hsound, hs, fun other hother ↦ h.lacks_of_mem_outer ?_⟩, hrenews, by simp⟩
      exact CallStack.active_modifyTop _ _ ▸ hother
  | value v =>
      rw [leave_value h.stack] at hsound ⊢
      have hway := hway v rfl
      have hcollects := h.collects (hP.strict hway)
      have hkey := has_of_lookup? hfound
      have hlacks : db₃.store.Lacks frame.key := h.coherent.lacks _ (by simp [h.stack])
      have hreads : ∀ d ∈ frame.reads, ∃ m, db₃.store.memo? d = some m ∧
          m.IsCurrent db₃.revision := by
        intro d hd
        obtain ⟨m, hm, hcurrent, _⟩ := hcollects.reads_current hs hd
        exact ⟨m, hm, hcurrent⟩
      -- an old value that is replaced is outdated, so something read for the new one has changed
      have hraise : ∀ v₀ c₀ w₀ reads₀, db₃.store.memo? frame.key =
          some (.derived v₀ c₀ w₀ reads₀) →
          w₀ < max frame.newest (db₃.store.removedAt frame.key) := by
        intro v₀ c₀ w₀ reads₀ hm
        have hout : db₃.store.Outdated frame.key := hlacks.resolve_left (by simp [hm])
        refine Nat.lt_of_lt_of_le (hs.raise (x := (q, k)) hP.guided hm hout hfound hway ?_)
          (Nat.le_max_left _ _)
        intro p hp
        obtain ⟨d, _, m, hrest⟩ := hcollects.direct p hp
        exact ⟨d, m, hrest⟩
      have hremoved := Nat.le_max_right frame.newest (db₃.store.removedAt frame.key)
      have hnow : max frame.newest (db₃.store.removedAt frame.key) ≤ db₃.revision := by
        refine Nat.max_le.2 ⟨?_, hs.removedAt_le _⟩
        exact (h.coherent.sound.frames frame (by simp [h.stack])).newest
      have hrecorded := hcollects.recorded (x := (q, k)) hs hfound hway rfl
      have hinsert := hs.insert hkey hlacks hreads hremoved hraise hnow hrecorded
      refine ⟨⟨hsound, hinsert, fun other hother ↦ ?_⟩, ?_, fun v' heq ↦ ?_⟩
      · have hother : other ∈ outer.active := CallStack.active_modifyTop _ _ ▸ hother
        have hne : other ≠ frame.key := by
          rintro rfl
          exact hidle hother
        exact (h.lacks_of_mem_outer hother).imp
          ((memo?_insert_of_ne _ hne.symm _).trans ·)
          fun hout ↦ (hs.outdated_insert_iff hkey hlacks hreads hremoved hraise).2 ⟨hne, hout⟩
      · rw [← hrevision] at hrenews ⊢
        exact hrenews.trans (.insert hs hkey hlacks hreads hremoved hraise)
      · cases heq
        refine ⟨frame.key, _, frame.reads, ?_, memo?_insert_self hkey _, hrevision, rfl, ?_,
          .inr rfl⟩
        · exact lookup?_of_named hinsert.indexed (fun d y hy ↦ (named?_insert ..).trans hy) hfound
        · change outer.absorb _ _ = _
          rw [houter]
          rfl

end Computing

/-- The body of a query that is not answered from memory begins to run. -/
theorem Computing.enter (hdb : Coherent T db) (hkey : db.intern q k = (key, db₁))
    (hretrieve : (db₁.recordRead key).retrieve fuel key = some (none, db₂)) :
    Computing T db₂.stack [] { key } ((db₂.note (.miss q k)).enter q k key) ∧
      db.store.Renews db.revision db₂.store ∧ db₂.revision = db.revision ∧
      db₂.store.lookup? q k = some key := by
  obtain ⟨hrecord, hrenews⟩ := hdb.record hkey
  have hrevision : (db₁.recordRead key).revision = db.revision := (hdb.sound.record hkey).2.revision
  have hv := retrieve_verifies hretrieve
  obtain ⟨hrechecks, _, hlacks⟩ := retrieve_coherent hretrieve hrecord.store
  have hdb₂ := (hrecord.rechecks hv hrechecks).note (.miss q k)
  have hlacks₂ : db₂.store.Lacks key := by
    refine (hlacks.1 rfl).imp (fun hnone ↦ ?_) (hrechecks.outdated key).2
    exact hv.store.none_iff.2 hnone
  have hhas := (hdb.sound.recordRetrieve hkey hretrieve).2.2
  refine ⟨⟨hdb₂.enter hhas hlacks₂ q k, rfl, fun _ ↦ .nil _ _ _⟩,
    hrenews.trans (hrevision ▸ hrechecks.renews), hv.revision_eq.trans hrevision, ?_⟩
  exact lookup?_of_named hdb₂.store.indexed hv.store.advances.named (lookup?_of_intern hkey :)

/-- Every read keeps a database coherent and renews what it lacks, and a body that runs to its end
makes the reads of one of its traces. -/
theorem gives_course (hP : P.Steady T) : Course P
    (fun q k db o db' ↦ Coherent T db → Gives T q k db o db')
    (fun b db o db' ↦ ∀ outer ys frame, Computing T outer ys frame db →
      ∃ zs frame', b.Trace db.revision db.outside zs o ∧ frame'.key = frame.key ∧
        Computing T outer (ys ++ zs) frame' db' ∧ db.store.Renews db.revision db'.store) where
  refused := by
    intro fuel q k db key db₁ hkey _ _ hdb
    obtain ⟨hrecord, hrenews⟩ := hdb.record hkey
    obtain rfl := eq_of_intern hkey
    refine ⟨⟨(hdb.sound.intern q k).note _, hrecord.store, fun other hother ↦ ?_⟩, hrenews,
      by simp⟩
    change other ∈ db.stack.active at hother
    exact hrecord.lacks other (by simpa [recordRead, CallStack.recordRead] using hother)
  hit := by
    intro fuel n q k db key db₁ v c db₂ hkey _ hretrieve hquery hdb
    exact .hit hdb hkey hretrieve (hdb.sound.query hquery).1
  tooDeep := by
    intro fuel n q k db key db₁ db₂ limit hkey _ hretrieve _ _ hdb
    obtain ⟨hrecord, hrenews⟩ := hdb.record hkey
    have hrechecks := (retrieve_coherent hretrieve hrecord.store).1
    have hrevision : (db₁.recordRead key).revision = db.revision :=
      (hdb.sound.record hkey).2.revision
    refine ⟨(hrecord.rechecks (retrieve_verifies hretrieve) hrechecks).note _, ?_, by simp⟩
    exact hrenews.trans (hrevision ▸ hrechecks.renews)
  computed := by
    intro fuel n q k db key db₁ db₂ o db₃ hkey hactive hretrieve _ hrun hquery hruns hdb
    obtain ⟨henter, hrenews, hrevision, hfound⟩ := Computing.enter hdb hkey hretrieve
    obtain ⟨ys, frame, htrace, hframe, hcomputing, hrenews₃⟩ := hruns db₂.stack [] _ henter
    obtain ⟨_, hf₃⟩ := henter.coherent.sound.run hrun
    obtain rfl : frame.key = key := hframe
    refine hcomputing.leave hP ?_ ?_ ?_ ?_ (hf₃.revision.trans hrevision)
      (stack_of_retrieve hkey hretrieve) (hdb.sound.query hquery).1
    · rintro v rfl
      exact hP.takes ⟨_, _, htrace⟩
    · exact lookup?_of_named hcomputing.coherent.store.indexed hf₃.store.named hfound
    · have hactive₂ : db₂.stack.active = db₁.stack.active :=
        (congrArg CallStack.active (retrieve_verifies hretrieve).stack_eq).trans
          (CallStack.active_modifyTop _ _)
      rw [hactive₂]
      simpa [CallStack.isActive] using hactive
    · exact hrenews.trans (hrevision ▸ hrenews₃)
  done := by
    intro o db outer ys frame hcomputing
    exact ⟨[], frame, .done o db.outside, rfl, by simpa using hcomputing, .refl _ _⟩
  read := by
    intro fuel q k next db a db₁ o db₂ hread _ hgives hruns outer ys frame hcomputing
    have hgives := hgives hcomputing.coherent
    have hf := (hcomputing.coherent.sound.query hread).2
    obtain ⟨frame₁, hframe₁, hcomputing₁⟩ := hcomputing.next hgives hf
    obtain ⟨zs, frame', htrace, hframe', hcomputing', hrenews⟩ := hruns outer _ frame₁ hcomputing₁
    rw [hf.revision] at htrace hrenews
    refine ⟨((q, k), a) :: zs, frame', .read htrace, hframe'.trans hframe₁, ?_,
      hgives.renews.trans hrenews⟩
    simpa using hcomputing'
  revision := by
    intro next db o db₁ hruns outer ys frame hcomputing
    obtain ⟨zs, frame', htrace, hrest⟩ := hruns outer ys frame hcomputing
    exact ⟨zs, frame', .revision htrace, hrest⟩
  outside := by
    intro change next db o db₁ hruns outer ys frame hcomputing
    obtain ⟨zs, frame', htrace, hrest⟩ := hruns outer ys frame
      ⟨hcomputing.coherent.of_eq rfl rfl rfl, hcomputing.stack, hcomputing.collects⟩
    exact ⟨zs, frame', .outside htrace, hrest⟩

theorem query_gives (hP : P.Steady T) (h : query P fuel q k db = some (o, db'))
    (hdb : Coherent T db) : Gives T q k db o db' :=
  (gives_course hP).query h hdb

theorem Computing.run (hP : P.Steady T) {b : Body Q K V W V} (h : Computing T outer ys frame db)
    (hrun : b.run (query P fuel) db = some (o, db')) :
    ∃ zs frame', b.Trace db.revision db.outside zs o ∧ frame'.key = frame.key ∧
      Computing T outer (ys ++ zs) frame' db' := by
  obtain ⟨zs, frame', htrace, hframe, h', _⟩ := (gives_course hP).run hrun outer ys frame h
  exact ⟨zs, frame', htrace, hframe, h'⟩

end Database

end Incremental
