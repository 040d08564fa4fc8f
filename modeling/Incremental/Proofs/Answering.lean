import Incremental.Proofs.Asking

/-!
# Every answer is right

While a body runs, what it has read so far is a trace of its recipe, and its frame lists every
read of the trace and covers their changes. This is kept by each read that is answered right,
and makes the end of the body a right answer in turn. So every answer is right, by induction
along the evaluation.
-/

namespace Incremental

variable {Q K V W : Type}

namespace Scene

variable (c : Scene Q K V W) [DecidableEq Q] [BEq K]

/-- The body of `x` is running: it has read `ys` so far, `frame` is what was collected for it,
and `outer` is the call stack without it. -/
structure Running (outer : CallStack) (active : List (Q × K)) (x : Q × K)
    (ys : List ((Q × K) × Outcome V)) (frame : Frame) (db : Database Q K V W) : Prop
    extends c.Orderly (active ++ [x]) db where
  stack : db.stack = ⟨frame :: outer.frames, frame.key :: outer.active⟩
  key : db.store.named? frame.key = some x
  fresh : x ∉ active
  notInput : c.inputs x = none
  live : ∀ s ∈ active, (c.tame ∨ ∃ o, c.Yields s o) → c.Below x s ∨ c.Circles s
  ends : c.tame → ∀ p ∈ ys, c.Ends (active ++ [x]) p.1 p.2

omit [DecidableEq Q] [BEq K] in
/-- The frame of `x` accounts for the reads `ys`. -/
structure Tracks (x : Q × K) (ys : List ((Q × K) × Outcome V)) (frame : Frame) (s : Store Q K V) :
    Prop where
  trail : (c.tame ∨ ∃ o, c.Yields x o) → ∀ p ∈ ys, c.Yields p.1 p.2 ∧
    c.Stamped frame.newest p.1 p.2 ∧ ∃ d ∈ frame.reads, s.named? d = some p.1
  leads : c.tame → Leads c.recipe c.inputs s x frame.reads

omit [DecidableEq Q] [BEq K] in
/-- The body of `x` has met a circle and goes on with `t`, which gives no value. -/
structure Spent (x : Q × K) (t : Recipe Q K V) (events : List (Event Q K)) : Prop where
  tame : c.tame
  circles : c.Circles x
  fails : ∀ zs v, ¬ t.Trace zs (.done (.value v))
  refused : ∃ f, Event.refused f ∈ events

variable {c} {outer : CallStack} {active : List (Q × K)} {x y : Q × K}
  {ys : List ((Q × K) × Outcome V)} {frame : Frame} {db db₁ : Database Q K V W} {o a : Outcome V}

namespace Running

theorem readBy (h : c.Running outer active x ys frame db) (ht : c.Tracks x ys frame db.store)
    {next : Outcome V → Recipe Q K V} (hnext : (c.recipe x).Trace ys (.read y next))
    (hsure : c.tame ∨ ∃ o, c.Yields x o) : c.ReadBy y x :=
  ⟨h.notInput, ys, next, hnext, fun p hp ↦ (ht.trail hsure p hp).1⟩

theorem ready (h : c.Running outer active x ys frame db) {next : Outcome V → Recipe Q K V}
    (hnext : (c.recipe x).Trace ys (.read y next))
    (hend : c.Tracks x ys frame db.store ∨ c.Spent x (.read y next) db.events) :
    c.Ready (active ++ [x]) y db := by
  refine ⟨h.toOrderly, fun s hs hsure ↦ ?_⟩
  rcases hend with ht | hspent
  · have hread := h.readBy ht hnext
    rcases List.mem_append.mp hs with hs | hs
    · rcases h.live s hs hsure with hxs | hcircles
      · refine .inl (Relation.TransGen.head (hread ?_) hxs)
        exact hsure.imp_right fun ⟨_, ho⟩ ↦ ho.of_below hxs
      · exact .inr hcircles
    · obtain rfl := List.mem_singleton.mp hs
      exact .inl (hread hsure).below
  · rcases List.mem_append.mp hs with hs | hs
    · exact .inr ((h.live s hs hsure).elim hspent.circles.of_below id)
    · obtain rfl := List.mem_singleton.mp hs
      exact .inr hspent.circles

theorem yields_next (h : c.Running outer active x ys frame db) {next : Outcome V → Recipe Q K V}
    (hnext : (c.recipe x).Trace ys (.read y next))
    (hend : c.Tracks x ys frame db.store ∨ c.Spent x (.read y next) db.events)
    (hx : ∃ o, c.Yields x o) : ∃ o, c.Yields y o := by
  obtain ⟨o, ho⟩ := hx
  rcases hend with ht | hspent
  · exact ho.of_readBy (h.readBy ht hnext (.inr ⟨o, ho⟩))
  · exact absurd hspent.circles ho.not_circles

theorem step (h : c.Running outer active x ys frame db)
    (hans : c.Answered (active ++ [x]) y db a db₁) (hs : db₁.Sound) (hf : db.Follows db₁) :
    ∃ frame', c.Running outer active x (ys ++ [(y, a)]) frame' db₁ := by
  obtain ⟨frame', hkey, hstack⟩ := (h.stack ▸ hf.stack).of_cons
  refine ⟨frame', h.toOrderly.follows hf hs hans.faithful, ?_, ?_, h.fresh, h.notInput, h.live,
    fun ht p hp ↦ ?_⟩
  · rw [hstack, hkey]
  · rw [hkey]
    exact hf.store.named _ _ h.key
  · rcases List.mem_append.mp hp with hp | hp
    · exact h.ends ht p hp
    · obtain rfl := List.mem_singleton.mp hp
      exact hans.ends ht

/-- What is under evaluation is not assigned: it has not changed after the last removal from its
row. -/
theorem lastChange_le (h : c.Running outer active x ys frame db) :
    c.lastChange x ≤ db.store.removedAt frame.key := by
  refine (h.faithful.not_input h.key fun v r hm ↦ ?_).2
  have hinput : c.inputs x = some v := (h.faithful.input h.key hm).1
  rw [h.notInput] at hinput
  cases hinput

theorem not_mem_active (h : c.Running outer active x ys frame db) : frame.key ∉ outer.active := by
  have hactive := h.sound.active
  have hstacked := h.stacked
  rw [h.stack] at hactive hstacked
  rw [CallStack.keys_cons frame outer.frames _ outer.active, List.map_append, List.map_append]
    at hstacked
  have houter := (List.append_inj' hstacked rfl).1
  rw [(List.cons.inj hactive).2]
  intro hmem
  have hkey : db.store.named? frame.key ∈ active.map some := by
    rw [← houter]
    exact List.mem_map_of_mem (by simpa [CallStack.keys] using hmem)
  rw [h.key] at hkey
  exact h.fresh (by simpa using hkey)

theorem frame_sound (h : c.Running outer active x ys frame db) : frame.Sound db.store db.revision :=
  h.sound.frames frame (by simp [h.stack])

end Running

omit [DecidableEq Q] [BEq K] in
/-- What leads on inside a frame leads on after a further read and what that has read. -/
theorem leadsUnder_addReads {s : Store Q K V} {J : Inputs Q K V} {key : Handle}
    {reads : List Handle} (h : LeadsUnder c.recipe c.inputs J s x frame.reads)
    (hkey : s.named? key = some y)
    (hread : (∀ d ∈ frame.reads, ∀ z, s.named? d = some z → CarriesOver c.recipe c.inputs J z) →
      Incremental.ReadBy c.recipe J y x)
    (hreads : J y = c.inputs y → LeadsUnder c.recipe c.inputs J s y reads) :
    LeadsUnder c.recipe c.inputs J s x ((frame.addRead key).addReads reads).reads := by
  have hbase : LeadsUnder c.recipe c.inputs J s x (frame.addRead key).reads := by
    unfold Frame.addRead
    split
    · exact h
    · refine h.append fun hcarry ↦ ⟨fun z hz ↦ ?_, fun _ ↦ trivial⟩
      obtain rfl : y = z := Option.some.inj (hkey.symm.trans hz)
      exact (hread hcarry).below
  refine hbase.append fun hcarry ↦ ?_
  have hy : CarriesOver c.recipe c.inputs J y :=
    hcarry key ((frame.mem_addRead key key).2 (.inr rfl)) y hkey
  have hbelow : Incremental.ReadBy c.recipe J y x :=
    hread fun d hd ↦ hcarry d ((frame.mem_addRead key d).2 (.inl hd))
  refine (hreads hy.1).filter hbelow.below fun d _ hd ↦ hcarry d ?_
  simpa using hd

namespace Tracks

theorem step {frame' : Frame} (ht : c.Tracks x ys frame db.store)
    (h : c.Running outer active x ys frame db) {next : Outcome V → Recipe Q K V}
    (hnext : (c.recipe x).Trace ys (.read y next)) (hans : c.Answered (active ++ [x]) y db a db₁)
    (h₁ : c.Running outer active x (ys ++ [(y, a)]) frame' db₁) (hf : db.Follows db₁)
    (hy : ∃ o, c.Yields y o) : c.Tracks x (ys ++ [(y, a)]) frame' db₁.store := by
  obtain ⟨o, hy⟩ := hy
  obtain ⟨rfl, key, reads, r, hstack, hkey, hstamped, hleads, hnone⟩ := hans.agrees o hy
  have hframe : frame' = ((frame.addRead key).addReads reads).observe r := by
    have hcons := h₁.stack.symm.trans hstack
    rw [h.stack] at hcons
    exact (List.cons.inj (CallStack.mk.inj hcons).1).1
  have hmem : ∀ d, d ∈ frame.reads ∨ d = key → d ∈ frame'.reads := by
    intro d hd
    rw [hframe]
    exact (Frame.mem_addReads _ _ _).2 (.inl ((Frame.mem_addRead _ _ _).2 hd))
  have hnewest : frame'.newest = max frame.newest r := by simp [hframe, Frame.observe]
  refine ⟨fun hsure p hp ↦ ?_, fun htame J hJ ↦ ?_⟩
  · rcases List.mem_append.mp hp with hp | hp
    · obtain ⟨hyields, hstamp, d, hd, hname⟩ := ht.trail hsure p hp
      refine ⟨hyields, hstamp.mono ?_, d, hmem d (.inl hd), hf.store.named d _ hname⟩
      exact hnewest ▸ Nat.le_max_left _ _
    · obtain rfl := List.mem_singleton.mp hp
      refine ⟨hy, hstamped.mono ?_, key, hmem key (.inr rfl), hkey⟩
      exact hnewest ▸ Nat.le_max_right _ _
  · have hlead := (ht.leads htame J hJ).rename hf.store.named h.frame_sound.reads
    rw [hframe]
    refine leadsUnder_addReads hlead hkey (fun hcarry ↦ ?_) fun hJy ↦ ?_
    · refine ⟨hJ, ys, next, hnext, fun p hp ↦ ?_⟩
      obtain ⟨hyields, _, d, hd, hname⟩ := ht.trail (.inl htame) p hp
      exact (hcarry d hd p.1 (hf.store.named d _ hname)).2 p.2 hyields
    · by_cases hinput : c.inputs y = none
      · exact hleads htame J (hJy.trans hinput)
      · rw [hnone hinput]
        trivial

theorem yields (ht : c.Tracks x ys frame db.store) (h : c.Running outer active x ys frame db)
    (hdone : (c.recipe x).Trace ys (.done o)) (hsure : c.tame ∨ ∃ o', c.Yields x o') :
    c.Yields x o :=
  .computed h.notInput hdone fun p hp ↦ (ht.trail hsure p hp).1

/-- At the end of the body the newest revision of the frame covers what shows in the outcome. -/
theorem shown (ht : c.Tracks x ys frame db.store) (h : c.Running outer active x ys frame db)
    (hdone : (c.recipe x).Trace ys (.done o)) (hsure : c.tame ∨ ∃ o', c.Yields x o')
    {e : Q × K} (he : c.Shows e x) : c.lastChange e ≤ frame.newest := by
  have htrail := ht.trail hsure
  have hanswer : ∀ {z}, c.ReadBy z x → ∃ p ∈ ys, p.1 = z := by
    intro z hz
    have hz := (Yields.readBy_iff h.notInput hdone fun p hp ↦ (htrail p hp).1).1 hz
    simpa using hz
  cases he with
  | value hread hvalue =>
      obtain ⟨p, hp, rfl⟩ := hanswer hread
      obtain ⟨hyields, hstamp, _⟩ := htrail p hp
      exact hstamp.self ⟨_, hyields.unique hvalue⟩
  | through hread hyields hpanic hshows =>
      obtain ⟨p, hp, rfl⟩ := hanswer hread
      obtain ⟨hyields', hstamp, _⟩ := htrail p hp
      exact hstamp.shown (hyields'.unique hyields ▸ hpanic) e hshows

end Tracks

section

variable {db₃ db' : Database Q K V W} (reads : List Handle) (r : Revision)

/-- The end of a body is a right answer, if what is passed to the reader is in order. -/
theorem Running.answered (h : c.Running outer active x ys frame db₃)
    (hdone : (c.recipe x).Trace ys (.done o))
    (hend : c.Tracks x ys frame db₃.store ∨ c.Spent x (.done o) db₃.events)
    (houter : outer = db.stack.recordRead frame.key) (hfaithful : c.Faithful db'.store)
    (hkey : db'.store.named? frame.key = some x) (hstack : db'.stack = outer.absorb reads r)
    (hevents : db₃.events <:+ db'.events)
    (hstamped : c.Tracks x ys frame db₃.store → (∃ o', c.Yields x o') → c.Stamped r x o)
    (hleads : c.Tracks x ys frame db₃.store → c.tame →
      Leads c.recipe c.inputs db'.store x reads) : c.Answered active x db o db' := by
  refine ⟨hfaithful, fun o' ho' ↦ ?_, fun ht ↦ ?_, fun ht ↦ ?_⟩
  · rcases hend with htracks | hspent
    · have ho := htracks.yields h hdone (.inr ⟨o', ho'⟩)
      exact ⟨ho.unique ho', frame.key, reads, r, houter ▸ hstack, hkey, hstamped htracks ⟨o', ho'⟩,
        hleads htracks, fun hinput ↦ absurd h.notInput hinput⟩
    · exact absurd hspent.circles ho'.not_circles
  · rcases hend with htracks | ⟨_, hcircles, hfails, f, hf⟩
    · exact .inl (htracks.yields h hdone (.inl ht))
    · refine .inr ⟨hcircles, ?_, f, hevents.subset hf⟩
      rintro ⟨v, rfl⟩
      exact hfails [] v (.nil _)
  · exact .computed h.fresh h.notInput hdone (h.ends ht)

omit reads in
/-- A value that is kept at the end of a body is one to keep. -/
theorem Running.kept {v : V} (h : c.Running outer active x ys frame db₃)
    (hdone : (c.recipe x).Trace ys (.done (.value v)))
    (hend : c.Tracks x ys frame db₃.store ∨ c.Spent x (.done (.value v)) db₃.events)
    (hself : c.lastChange x ≤ r) (hnewest : frame.newest ≤ r)
    (hlists : ¬ c.tame → (¬ ∃ o, c.Yields x o) → ∀ y, c.ReadBy y x →
      ∃ d ∈ frame.reads, db₃.store.named? d = some y) :
    Kept c.recipe c.inputs c.lastChange c.tame db₃.store x v r c.now frame.reads := by
  have htracks : c.Tracks x ys frame db₃.store := by
    rcases hend with htracks | hspent
    · exact htracks
    · exact absurd (.nil _) (hspent.fails [] v)
  refine ⟨fun o ho ↦ ho.unique (htracks.yields h hdone (.inr ⟨o, ho⟩)), fun y hy ↦ ?_,
    fun hsure e he _ ↦ ?_, fun ht ↦ ⟨_, htracks.yields h hdone (.inl ht)⟩, htracks.leads⟩
  · by_cases hsure : c.tame ∨ ∃ o, c.Yields x o
    · have htrail := htracks.trail hsure
      have hmem := (Yields.readBy_iff h.notInput hdone fun p hp ↦ (htrail p hp).1).1 hy
      obtain ⟨p, hp, rfl⟩ := List.mem_map.mp hmem
      exact (htrail p hp).2.2
    · exact hlists (fun ht ↦ hsure (.inl ht)) (fun hx ↦ hsure (.inr hx)) y hy
  · have hvalue := htracks.yields h hdone (.inr hsure)
    obtain ⟨e', he', hle⟩ := c.shows x v h.notInput hvalue e he
    refine Nat.le_trans hle ?_
    rcases he' with rfl | he'
    · exact hself
    · exact Nat.le_trans (htracks.shown h hdone (.inr hsure) he') hnewest

omit reads r

variable [LawfulBEq K]

theorem Running.leave (h : c.Running outer active x ys frame db₃)
    (hdone : (c.recipe x).Trace ys (.done o))
    (hend : c.Tracks x ys frame db₃.store ∨ c.Spent x (.done o) db₃.events)
    (houter : outer = db.stack.recordRead frame.key)
    (hsound : (Database.leave frame.key outer.depth (o, db₃)).2.Sound)
    (hallows : (∃ o', c.Yields x o') ∨
      c.Allows outer.active (Database.leave frame.key outer.depth (o, db₃)).2.store
        (Database.leave frame.key outer.depth (o, db₃)).2.events) :
    c.Answered active x db (Database.leave frame.key outer.depth (o, db₃)).1
      (Database.leave frame.key outer.depth (o, db₃)).2 := by
  cases o with
  | panic message =>
      rw [Database.leave_panic h.stack]
      refine h.answered [] Revision.initial hdone hend houter h.faithful h.key ?_
        (List.suffix_cons _ _) (fun _ _ ↦ .panic _ _ message) fun _ _ _ _ ↦ trivial
      rw [CallStack.absorb_nil, CallStack.observe_initial]
      rfl
  | failure f =>
      rw [Database.leave_failure h.stack]
      refine h.answered frame.reads frame.newest hdone hend houter h.faithful h.key rfl
        List.suffix_rfl
        (fun htracks hsure ↦ ⟨fun hvalue ↦ absurd hvalue (by simp), fun _ e he ↦ ?_⟩)
        fun htracks ht ↦ htracks.leads ht
      exact htracks.shown h hdone (.inr hsure) he
  | value v =>
      obtain ⟨r, hr⟩ : ∃ r, r = max frame.newest (db₃.store.removedAt frame.key) := ⟨_, rfl⟩
      have hself : c.lastChange x ≤ r := by
        rw [hr]
        exact Nat.le_trans h.lastChange_le (Nat.le_max_right _ _)
      have hnewest : frame.newest ≤ r := hr ▸ Nat.le_max_left _ _
      rw [Database.leave_value h.stack, ← hr, h.revision] at hsound hallows ⊢
      have hnamed : ∀ d y, db₃.store.named? d = some y →
          (db₃.store.insert frame.key (.derived v r c.now frame.reads)).named? d = some y :=
        fun d y hy ↦ (Store.named?_insert ..).trans hy
      have hlists : ¬ c.tame → (¬ ∃ o, c.Yields x o) → ∀ y, c.ReadBy y x →
          ∃ d ∈ frame.reads, db₃.store.named? d = some y := by
        intro ht hx y hy
        obtain ⟨d, hd, hname⟩ :=
          (hallows.resolve_left hx).lists ht frame.key x v r frame.reads h.not_mem_active
          (hnamed _ _ h.key) (Store.memo?_insert_self ⟨x, h.key⟩ _) hx y hy
        exact ⟨d, hd, (Store.named?_insert ..).symm.trans hname⟩
      have hkept := h.kept r hdone hend hself hnewest hlists
      have hfaithful := h.faithful.insert h.key h.notInput hsound.store hkept h.frame_sound.reads
      refine h.answered frame.reads r hdone hend houter hfaithful (hnamed _ _ h.key) rfl
        (List.suffix_cons _ _) (fun htracks hsure ↦ ⟨fun _ ↦ hself, fun _ e he ↦ ?_⟩)
        fun htracks ht J hJ ↦ (htracks.leads ht J hJ).rename hnamed h.frame_sound.reads
      exact Nat.le_trans (htracks.shown h hdone (.inr hsure) he) hnewest

end

/-- The body of `x` goes on after its next read was answered, with a circle met or not. -/
theorem Running.next (h : c.Running outer active x ys frame db) {next : Outcome V → Recipe Q K V}
    (hnext : (c.recipe x).Trace ys (.read y next))
    (hend : c.Tracks x ys frame db.store ∨ c.Spent x (.read y next) db.events)
    (hans : c.Answered (active ++ [x]) y db a db₁) (hs : db₁.Sound) (hf : db.Follows db₁)
    (hcircles : (∃ o, c.Yields x o) ∨
      (c.tame → PassesCircles c.recipe c.inputs ∨ ∀ f, .refused f ∉ db₁.events)) :
    ∃ frame', c.Running outer active x (ys ++ [(y, a)]) frame' db₁ ∧
      (c.Tracks x (ys ++ [(y, a)]) frame' db₁.store ∨ c.Spent x (next a) db₁.events) := by
  obtain ⟨frame', h₁⟩ := h.step hans hs hf
  refine ⟨frame', h₁, ?_⟩
  rcases hend with ht | ⟨htame, hxc, hfails, f, hrefused⟩
  · by_cases hy : ∃ o, c.Yields y o
    · exact .inl (ht.step h hnext hans h₁ hf hy)
    have hread := h.readBy ht hnext
    by_cases htame : c.tame
    · right
      have hx : ¬ ∃ o, c.Yields x o := fun ⟨_, ho⟩ ↦ hy (ho.of_readBy (hread (.inl htame)))
      obtain ⟨hyc, hvalue, hrefused⟩ := (hans.settles htame).resolve_left fun ha ↦ hy ⟨a, ha⟩
      rcases hcircles.resolve_left hx htame with hpasses | hnone
      · have htrail := fun p hp ↦ (ht.trail (.inl htame) p hp).1
        refine ⟨htame, hyc.of_readBy (hread (.inl htame)), ?_, hrefused⟩
        exact hpasses x ys y next h.notInput hnext htrail hyc a hvalue
      · obtain ⟨f, hrefused⟩ := hrefused
        exact absurd hrefused (hnone f)
    · left
      refine ⟨?_, fun ht' ↦ absurd ht' htame⟩
      rintro (ht' | ⟨o, ho⟩)
      · exact absurd ht' htame
      · exact absurd (ho.of_readBy (hread (.inr ⟨o, ho⟩))) hy
  · refine .inr ⟨htame, hxc, fun zs v htrace ↦ ?_, f, hf.events.subset hrefused⟩
    exact hfails _ v (.cons htrace)

namespace Allows

theorem of_follows {keys : List Handle} (h : c.Allows keys db₁.store db₁.events) (hs : db.Sound)
    (hnow : db.revision = c.now) (hf : db.Follows db₁) : c.Allows keys db.store db.events := by
  refine ⟨fun ht ↦ (h.circles ht).imp_right fun hnone f hmem ↦ hnone f (hf.events.subset hmem),
    fun ht key x v r reads hkey hname hm hx y hy ↦ ?_⟩
  have hstore := hnow ▸ hf.store
  obtain ⟨d, hd, hnamed⟩ := h.lists ht key x v r reads hkey (hf.store.named key x hname)
    (hstore.current hm) hx y hy
  obtain ⟨z, hz⟩ := (hs.store.derived key v r c.now reads hm).2.2.2 d hd
  exact ⟨d, hd, hz.trans ((hf.store.named d z hz).symm.trans hnamed)⟩

omit [DecidableEq Q] [BEq K] in
/-- What is asked of the end of an evaluation held at the end of its body. -/
theorem of_leave (hstack : db.stack = ⟨frame :: outer.frames, frame.key :: outer.active⟩)
    (hallows : c.Allows outer.active (Database.leave frame.key outer.depth (o, db)).2.store
      (Database.leave frame.key outer.depth (o, db)).2.events) :
    c.Allows (frame.key :: outer.active) db.store db.events := by
  have hevents := Database.leave_events frame.key outer.depth o db
  have hstore : ∀ key, (Database.leave frame.key outer.depth (o, db)).2.store.named? key =
      db.store.named? key ∧ (key ≠ frame.key →
        (Database.leave frame.key outer.depth (o, db)).2.store.memo? key = db.store.memo? key) := by
    intro key
    cases o with
    | value v =>
        rw [Database.leave_value hstack]
        exact ⟨Store.named?_insert .., fun hkey ↦ Store.memo?_insert_of_ne _ hkey.symm _⟩
    | failure f =>
        rw [Database.leave_failure hstack]
        exact ⟨rfl, fun _ ↦ rfl⟩
    | panic message =>
        rw [Database.leave_panic hstack]
        exact ⟨rfl, fun _ ↦ rfl⟩
  refine ⟨fun ht ↦ (hallows.circles ht).imp_right fun hnone f hmem ↦ hnone f (hevents.subset hmem),
    fun ht key x v r reads hkey hname hm hx y hy ↦ ?_⟩
  have hne : key ≠ frame.key := fun heq ↦ hkey (heq ▸ List.mem_cons_self)
  obtain ⟨d, hd, hnamed⟩ := hallows.lists ht key x v r reads
    (fun hmem ↦ hkey (List.mem_cons_of_mem _ hmem)) ((hstore key).1.trans hname)
    (((hstore key).2 hne).trans hm) hx y hy
  exact ⟨d, hd, (hstore d).1.symm.trans hnamed⟩

end Allows

section

variable [LawfulBEq K] {q : Q} {k : K} {key : Handle} {db₂ : Database Q K V W}

theorem unbroken_of_retrieve (h : c.Orderly active db) (hkey : db.intern q k = (key, db₁))
    {fuel : Nat} {r : Option (V × Revision)}
    (hretrieve : (db₁.recordRead key).retrieve fuel key = some (r, db₂)) :
    db₂.configuration.brokenAt db₂.stack.depth = none := by
  have hunlimited : db₂.configuration.maxDepth = none :=
    (Database.retrieve_verifies hretrieve).configuration_eq ▸ (h.record hkey).unlimited
  simp [Configuration.brokenAt, hunlimited]

/-- The body of a query that is not answered from memory begins to run. -/
theorem Running.enter (h : c.Ready active (q, k) db) (hkey : db.intern q k = (key, db₁))
    (hactive : db₁.stack.isActive key = false) {fuel : Nat}
    (hretrieve : (db₁.recordRead key).retrieve fuel key = some (none, db₂)) :
    c.Running (db.stack.recordRead key) active (q, k) [] { key }
      ((db₂.note (.miss q k)).enter q k key) := by
  have hready := h.record hkey
  have hname : db₁.store.named? key = some (q, k) := Database.named?_of_intern hkey
  have hv := Database.retrieve_verifies hretrieve
  have h₂ : c.Orderly active db₂ := hready.verifies hv
    (Database.retrieve_faithful hretrieve hready.revision hready.faithful).1
  have hname₂ : db₂.store.named? key = some (q, k) := hv.store.advances.named key _ hname
  have hstack : db₂.stack = db.stack.recordRead key :=
    Database.stack_of_retrieve hkey hretrieve
  refine ⟨⟨(h₂.sound.note _).enter ⟨_, hname₂⟩ q k, h₂.revision, h₂.faithful, h₂.unlimited, ?_⟩,
    ?_, hname₂, fun hmem ↦ ?_, ?_, h.live, by simp⟩
  · change (CallStack.keys ⟨{ key } :: db₂.stack.frames, key :: db₂.stack.active⟩).map
      db₂.store.named? = (active ++ [(q, k)]).map some
    rw [CallStack.keys_cons _ _ _ db₂.stack.active, List.map_append, h₂.stacked, List.map_append]
    simp [hname₂]
  · rw [← hstack]
    rfl
  · rw [(h.isActive_intern hkey).2 hmem] at hactive
    cases hactive
  · refine (hready.faithful.not_input hname fun v r hm ↦ ?_).1
    rcases Database.retrieve_none hretrieve with ⟨hm', _⟩ | ⟨_, _, _, _, hm', _⟩
    · rw [hm] at hm'
      cases hm'
    · rw [hm] at hm'
      cases hm'

/-- Every answer to a read is right, where the query yields something or refused reads are
allowed for. -/
theorem answered_course : Database.RecipeCourse c.program c.recipe
    (fun q k db o db' ↦ ∀ active, c.Ready active (q, k) db →
      (∃ o', c.Yields (q, k) o') ∨ c.Allows db.stack.active db'.store db'.events →
      c.Answered active (q, k) db o db')
    (fun t db o db' ↦ ∀ outer active x ys frame, (c.recipe x).Trace ys t →
      c.Running outer active x ys frame db →
      (c.Tracks x ys frame db.store ∨ c.Spent x t db.events) →
      (∃ o', c.Yields x o') ∨ c.Allows db.stack.active db'.store db'.events →
      ∃ ys' frame', (c.recipe x).Trace ys' (.done o) ∧ c.Running outer active x ys' frame' db' ∧
        (c.Tracks x ys' frame' db'.store ∨ c.Spent x (.done o) db'.events)) where
  refused := fun _ q k db key db₁ hkey hactive _ active hready _ ↦ .refused hready hkey hactive
  hit := fun _ n q k db key db₁ v r db₂ hkey _ hretrieve _ active hready _ ↦
    .hit hready hkey hretrieve
  tooDeep := by
    intro fuel n q k db key db₁ db₂ limit hkey _ hretrieve hbroken _ active hready _
    rw [unbroken_of_retrieve hready.toOrderly hkey hretrieve] at hbroken
    cases hbroken
  computed := by
    intro fuel n q k db key db₁ db₂ o db₃ hkey hactive hretrieve _ hrun hquery hruns active hready
      hallows
    have henter := Running.enter hready hkey hactive hretrieve
    have hsound := (hready.sound.query hquery).1
    have houter := Database.stack_of_retrieve hkey hretrieve
    have hactive' : db.stack.active = (db.stack.recordRead key).active :=
      (CallStack.active_modifyTop _ _).symm
    rw [houter, hactive'] at hallows
    rw [houter] at hsound ⊢
    have hfills := (henter.sound.run hrun).2.stack
    change (db₂.stack.push key).Fills db₃.stack at hfills
    obtain ⟨frame, rfl, hstack⟩ := hfills.of_push
    rw [houter] at hstack
    have hbody : (∃ o', c.Yields (q, k) o') ∨
        c.Allows (db₂.stack.push frame.key).active db₃.store db₃.events := by
      rw [houter]
      exact hallows.imp_right fun hallows ↦ .of_leave hstack hallows
    obtain ⟨ys, frame', htrace, hrunning, hend⟩ := hruns _ active (q, k) [] _ (.nil _) henter
      (.inl ⟨fun _ p hp ↦ absurd hp (by simp), fun _ _ _ ↦ trivial⟩) hbody
    obtain rfl : frame' = frame :=
      (List.cons.inj (CallStack.mk.inj (hrunning.stack.symm.trans hstack)).1).1
    exact hrunning.leave htrace hend rfl hsound hallows
  done := fun _ _ _ _ _ ys frame htrace hrunning hend _ ↦ ⟨ys, frame, htrace, hrunning, hend⟩
  read := by
    intro fuel q k _ next db a db₁ o db₂ _ hread hrest hreads hruns outer active x ys frame htrace
      hrunning hend hallows
    obtain ⟨hs₁, hf₁⟩ := hrunning.sound.query hread
    have hf₂ := (hs₁.run hrest).2
    have hallows₁ := hallows.imp_right fun hallows : c.Allows _ _ _ ↦
      hallows.of_follows hs₁ (hf₁.revision.trans hrunning.revision) hf₂
    have hans := hreads _ (hrunning.ready htrace hend)
      (hallows₁.imp_left (hrunning.yields_next htrace hend))
    obtain ⟨frame', hrunning', hend'⟩ := hrunning.next htrace hend hans hs₁ hf₁
      (hallows₁.imp_right Allows.circles)
    exact hruns outer active x _ frame' (htrace.snoc a) hrunning' hend'
      (hf₁.stack.active_eq ▸ hallows)
  outside := by
    intro t w db o db₁ hruns outer active x ys frame htrace hrunning hend hallows
    refine hruns outer active x ys frame htrace ?_ hend hallows
    exact { hrunning with sound := hrunning.sound.of_eq rfl rfl rfl }

theorem query_answered {fuel : Nat} {db' : Database Q K V W}
    (h : Database.query c.program fuel q k db = some (o, db')) (hready : c.Ready active (q, k) db)
    (hallows : (∃ o', c.Yields (q, k) o') ∨ c.Allows db.stack.active db'.store db'.events) :
    c.Answered active (q, k) db o db' :=
  answered_course.query c.obeys h active hready hallows

end

end Scene

end Incremental
