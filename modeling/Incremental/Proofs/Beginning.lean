import Incremental.Proofs.Agreement
import Incremental.Proofs.Executions
import Incremental.Proofs.Holding
import Incremental.Proofs.Work

/-!
# What a query begins

A read begins just the bodies that its evaluation begins when the store remembers what it holds,
and afterwards the store holds what is remembered then.
-/

namespace Incremental

variable {Q K V W : Type} [DecidableEq Q] [BEq K]

namespace Database

open Store

omit [DecidableEq Q] [BEq K] in
theorem begun_leave {outer : CallStack} {frame : Frame} {db : Database Q K V W}
    (h : db.stack = ⟨frame :: outer.frames, frame.key :: outer.active⟩) (o : Outcome V) :
    (leave frame.key outer.depth (o, db)).2.begun = db.begun := by
  cases o with
  | value v =>
      rw [leave_value h]
      exact (begun_note_of_none rfl _).trans (begun_congr rfl)
  | failure f =>
      rw [leave_failure h]
      rfl
  | panic message =>
      rw [leave_panic h]
      exact (begun_note_of_none rfl _).trans (begun_congr rfl)

/-- The bodies `l` were begun, and those that end in a value have left it in the store. -/
structure Leaves (R : Q × K → Recipe Q K V) (I : Inputs Q K V) (db : Database Q K V W)
    (l : List (Q × K)) (db' : Database Q K V W) : Prop where
  begun : db'.begun = db.begun ++ l
  holds : db'.store.Holds = Grown R I db.store.Holds l
  stores : db'.store.Stores = Grown R I db.store.Stores l

namespace Leaves

variable {R : Q × K → Recipe Q K V} {I : Inputs Q K V} {db db₁ db₂ db₃ db' : Database Q K V W}
  {l l' : List (Q × K)} {q : Q} {k : K} {x : Q × K} {key : Handle} {fuel : Nat}

theorem trans (h : Leaves R I db l db₁) (h' : Leaves R I db₁ l' db₂) :
    Leaves R I db (l ++ l') db₂ := by
  refine ⟨?_, ?_, ?_⟩
  · rw [h'.begun, h.begun, List.append_assoc]
  · rw [h'.holds, h.holds, grown_append]
  · rw [h'.stores, h.stores, grown_append]

theorem holds_eq (h : Leaves R I db [] db') : db'.store.Holds = db.store.Holds := by
  rw [h.holds, grown_nil]

/-- The body of `x` is begun, then the bodies `l`, and at its end it leaves its value. -/
theorem evaluation (h : Leaves R I db [] db₁) (h' : Leaves R I db₂ l db₃)
    (hstarted : db₂.begun = db₁.begun ++ [x]) (hstore : db₂.store = db₁.store)
    (hbegun : db'.begun = db₃.begun)
    (hends : ∀ y, (db'.store.Holds y ↔ db₃.store.Holds y ∨ y = x ∧ Valued R I y) ∧
      (db'.store.Stores y ↔ db₃.store.Stores y ∨ y = x ∧ Valued R I y)) :
    Leaves R I db (x :: l) db' := by
  have hstep : ∀ (kept : Q × K → Prop) (y : Q × K),
      Grown R I kept l y ∨ y = x ∧ Valued R I y ↔ Grown R I kept (x :: l) y := by
    intro kept y
    simp only [Grown, List.mem_cons, or_and_right, or_assoc]
    exact or_congr_right or_comm
  refine ⟨?_, ?_, ?_⟩
  · simp [hbegun, h'.begun, hstarted, h.begun]
  · funext y
    rw [(hends y).1, h'.holds, hstore, h.holds, grown_nil, hstep]
  · funext y
    rw [(hends y).2, h'.stores, hstore, h.stores, grown_nil, hstep]

theorem of_eq (hbegun : db'.begun = db.begun) (hstore : db'.store = db.store) :
    Leaves R I db [] db' := by
  refine ⟨by simpa using hbegun, ?_, ?_⟩
  · rw [hstore, grown_nil]
  · rw [hstore, grown_nil]

variable [LawfulBEq K]

theorem of_same (hs : db.store.Indexed) (hbegun : db'.begun = db.begun)
    (hlookup : ∀ q k d, db.store.lookup? q k = some d → db'.store.lookup? q k = some d)
    (hsame : ∀ d, (db'.store.memo? d = none ↔ db.store.memo? d = none) ∧
      (db'.store.Lacks d ↔ db.store.Lacks d)) : Leaves R I db [] db' := by
  have hcongr := fun x ↦ holds_congr (x := x) hs hlookup fun d _ ↦ hsame d
  refine ⟨by simpa using hbegun, ?_, ?_⟩
  · rw [grown_nil]
    exact funext fun x ↦ propext (hcongr x).1
  · rw [grown_nil]
    exact funext fun x ↦ propext (hcongr x).2

theorem record (hs : db.store.Indexed) (hkey : db.intern q k = (key, db₁)) :
    Leaves R I db [] (db₁.recordRead key) := by
  have hmemo : ∀ other, db₁.store.memo? other = db.store.memo? other := memo?_of_intern hkey
  have hstore : db₁.store = (db.store.intern q k).2 := (congrArg (·.2.store) hkey).symm
  refine of_same hs ?_ (fun q' k' d hd ↦ ?_) fun d ↦ ?_
  · exact begun_congr (congrArg (·.2.events) hkey).symm
  · change db₁.store.lookup? q' k' = some d
    rw [hstore]
    exact lookup?_intern hd q k
  · refine ⟨by rw [← hmemo]; rfl, or_congr (by rw [← hmemo]; rfl) ?_⟩
    exact ⟨.congr fun other ↦ (hmemo other).symm, .congr hmemo⟩

theorem retrieve {r : Option (V × Revision)} (hs : Consistent (.of R) db.revision db.store)
    (h : db.retrieve fuel key = some (r, db')) : Leaves R I db [] db' := by
  have hrechecks := (retrieve_coherent h hs).1
  exact of_same hs.indexed (retrieve_begun h)
    (fun q k d ↦ lookup?_of_named hrechecks.consistent.indexed
      (retrieve_verifies h).store.advances.named)
    hrechecks.lacks_iff

theorem recordRetrieve {r : Option (V × Revision)} (hdb : Coherent (.of R) db)
    (hkey : db.intern q k = (key, db₁))
    (hretrieve : (db₁.recordRead key).retrieve fuel key = some (r, db₂)) : Leaves R I db [] db₂ :=
  (record hdb.store.indexed hkey).trans (retrieve (hdb.record hkey).1.store hretrieve)

end Leaves

variable [LawfulBEq K] {R : Q × K → Recipe Q K V} {db db₁ db₂ : Database Q K V W} {q : Q} {k : K}
  {key : Handle} {fuel : Nat}

/-- A query is answered from memory if it is held. -/
theorem retrieve_eq_none_iff {r : Option (V × Revision)} (hdb : Coherent (.of R) db)
    (hkey : db.intern q k = (key, db₁))
    (hretrieve : (db₁.recordRead key).retrieve fuel key = some (r, db₂)) :
    r = none ↔ ¬ db.store.Holds (q, k) := by
  have hrecord : Leaves R db.store.inputs db [] (db₁.recordRead key) :=
    .record hdb.store.indexed hkey
  have hlookup : (db₁.recordRead key).store.lookup? q k = some key := (lookup?_of_intern hkey :)
  rw [(retrieve_coherent hretrieve (hdb.record hkey).1.store).2.2, ← hrecord.holds_eq]
  exact lacks_iff_not_holds (x := (q, k)) hlookup

/-- The end of an evaluation leaves a value in the row that it was for, and nothing else. -/
theorem Computing.holds_leave {P : Program Q K V W} {outer stack : CallStack}
    {ys : List ((Q × K) × Outcome V)} {frame : Frame} {o : Outcome V} (hP : P.Pure R)
    (h : Computing (.of R) outer ys frame db) (htrace : (R (q, k)).Trace ys (.done o))
    (hkey : db.store.lookup? q k = some frame.key) (hidle : frame.key ∉ outer.active)
    (houter : outer = stack.recordRead frame.key) (y : Q × K) :
    ((Database.leave frame.key outer.depth (o, db)).2.store.Holds y ↔
      db.store.Holds y ∨ y = (q, k) ∧ o.IsValue) ∧
      ((Database.leave frame.key outer.depth (o, db)).2.store.Stores y ↔
        db.store.Stores y ∨ y = (q, k) ∧ o.IsValue) := by
  have hsound := h.coherent.sound.ended h.stack o
  have hway : ∀ v, o = .value v → Ways.of R (q, k) ys v := by
    rintro v rfl
    exact htrace
  have hgives : Gives (.of R) q k { db with stack } _ _ :=
    h.leave hP.steady hway hkey hidle (.refl _ _) rfl houter hsound
  rw [leave_outcome h.stack o] at hgives
  obtain ⟨db', hleave⟩ : ∃ db', (Database.leave frame.key outer.depth (o, db)).2 = db' := ⟨_, rfl⟩
  rw [hleave] at hgives ⊢
  have hnone : ¬ o.IsValue → db'.store = db.store →
      (db'.store.Holds y ↔ db.store.Holds y ∨ y = (q, k) ∧ o.IsValue) ∧
        (db'.store.Stores y ↔ db.store.Stores y ∨ y = (q, k) ∧ o.IsValue) := by
    intro ho hstore
    have hself : ¬ (y = (q, k) ∧ o.IsValue) := fun hy ↦ ho hy.2
    rw [hstore]
    exact ⟨(or_iff_left hself).symm, (or_iff_left hself).symm⟩
  cases o with
  | failure f => exact hnone (by simp) (by rw [← hleave, leave_failure h.stack])
  | panic message => exact hnone (by simp) (by rw [← hleave, leave_panic h.stack]; rfl)
  | value v =>
      obtain ⟨m, hstore⟩ : ∃ m, db'.store = db.store.insert frame.key m :=
        ⟨_, by rw [← hleave, leave_value h.stack]; rfl⟩
      have hnow : db'.revision = db.revision := by
        rw [← hleave, leave_value h.stack]
        rfl
      obtain ⟨_, m', _, hfound, hm', hcurrent, _⟩ := hgives.value v rfl
      have hself : db'.store.Holds (q, k) :=
        ⟨_, m', hfound, hm', hgives.coherent.store.not_outdated hm' (hnow ▸ hcurrent)⟩
      by_cases hy : y = (q, k)
      · have hvalue : y = (q, k) ∧ (Outcome.value v).IsValue := ⟨hy, Outcome.isValue_value v⟩
        subst hy
        exact ⟨iff_of_true hself (.inr hvalue), iff_of_true hself.stores (.inr hvalue)⟩
      · -- every other row is as it was
        have hlookup : ∀ q k, db'.store.lookup? q k = db.store.lookup? q k := fun q k ↦ by
          rw [hstore, lookup?_insert]
        have hne : ∀ d, db.store.lookup? y.1 y.2 = some d → d ≠ frame.key := by
          rintro d hd rfl
          exact hy (eq_of_lookup? hd hkey)
        rw [or_iff_left fun h ↦ hy h.1, or_iff_left fun h ↦ hy h.1]
        refine holds_congr h.coherent.store.indexed (fun q k d hd ↦ (hlookup q k).trans hd)
          fun d hd ↦ ?_
        have hm : db'.store.memo? d = db.store.memo? d := by
          rw [hstore, memo?_insert_of_ne _ (hne d ((hlookup _ _).symm.trans hd)).symm]
        exact ⟨by rw [hm], hgives.renews.lacks_iff h.coherent.store hm⟩

end Database

namespace Scene

open Store Database

abbrev Leaves (c : Scene Q K V W) (db : Database Q K V W) (l : List (Q × K))
    (db' : Database Q K V W) : Prop :=
  Database.Leaves c.recipe c.inputs db l db'

variable {c : Scene Q K V W} {db db' : Database Q K V W} {q : Q} {k : K} {fuel : Nat}
  {o : Outcome V}

variable [LawfulBEq K] {active : List (Q × K)}

/-- A read begins the bodies that its evaluation begins when what the store holds is remembered; of
a body, `zs` are the reads that are still to come, and `l` the bodies that they begin. -/
theorem begins_course (hP : c.program.Pure c.recipe) (ht : c.tame) :
    RecipeCourse c.program c.recipe
    (fun q k db _ db' ↦ ∀ active, c.Ready active (q, k) db → Coherent (.of c.recipe) db →
      ∃ l, c.Leaves db l db' ∧
        Begins c.recipe c.inputs c.label active db.store.Holds [(q, k)] l)
    (fun t db o db' ↦ ∀ outer active x ys frame, (c.recipe x).Trace ys t →
      c.Running outer active x ys frame db →
      (c.Tracks x ys frame db.store ∨ c.Spent x t db.events) →
      Computing (.of c.recipe) outer ys frame db →
      ∃ zs frame' l, t.Trace zs (.done o) ∧ frame'.key = frame.key ∧
        Computing (.of c.recipe) outer (ys ++ zs) frame' db' ∧ c.Leaves db l db' ∧
        Begins c.recipe c.inputs c.label (active ++ [x]) db.store.Holds (zs.map Prod.fst) l ∧
        ∀ p ∈ zs, c.Ends (active ++ [x]) p.1 p.2) where
  refused := by
    intro fuel q k db key db₁ hkey hactive _ active hready hdb
    have hleaves : c.Leaves db [] (db₁.recordRead key) := .record hdb.store.indexed hkey
    refine ⟨[], hleaves.trans (.of_eq ?_ rfl),
      .refused ((hready.isActive_intern hkey).1 hactive) .nil⟩
    exact begun_note_of_none rfl _
  hit := by
    intro fuel n q k db key db₁ v r db₂ hkey hactive hretrieve _ active hready hdb
    have hbefore : c.Leaves db [] db₂ := .recordRetrieve hdb hkey hretrieve
    have hholds : db.store.Holds (q, k) := by
      by_contra hnone
      cases (retrieve_eq_none_iff hdb hkey hretrieve).2 hnone
    refine ⟨[], hbefore.trans (.of_eq ?_ rfl), .kept (fun hmem ↦ ?_) hholds .nil⟩
    · exact begun_note_of_none rfl _
    · rw [(hready.isActive_intern hkey).2 hmem] at hactive
      cases hactive
  tooDeep := by
    intro fuel n q k db key db₁ db₂ limit hkey _ hretrieve hbroken _ active hready _
    rw [unbroken_of_retrieve hready.toOrderly hkey hretrieve] at hbroken
    cases hbroken
  computed := by
    intro fuel n q k db key db₁ db₂ o db₃ hkey hactive hretrieve _ hrun hquery hruns active hready
      hdb
    have hpasses := passesCircles_of_strict hP.strict c.inputs
    have hans := query_answered hquery hready (.inr (.of_tame ht hpasses _ _ _))
    have hbefore : c.Leaves db [] db₂ := .recordRetrieve hdb hkey hretrieve
    have henter := Running.enter hready hkey hactive hretrieve
    obtain ⟨hcenter, _, _, hfound⟩ := Computing.enter hdb hkey hretrieve
    have houter := stack_of_retrieve hkey hretrieve
    rw [houter] at hcenter hans ⊢
    obtain ⟨zs, frame, l, hzs, hframe, hcomputing, hleaves, hbegins, hends⟩ :=
      hruns _ active (q, k) [] _ (.nil _) henter
        (.inl ⟨fun _ p hp ↦ absurd hp (by simp), fun _ _ _ ↦ trivial⟩) hcenter
    obtain rfl : frame.key = key := hframe
    have ho := Database.leave_outcome hcomputing.stack o
    have hbegun := begun_leave hcomputing.stack o
    have hright : ∀ o', c.Yields (q, k) o' → o = o' := fun o' ho' ↦
      ho.symm.trans (hans.agrees o' ho').1
    have hself : c.Ends active (q, k) o := .computed henter.fresh henter.notInput hzs hends
    have hvalued := hself.isValue_iff hP.strict hright
    have hnamed := (henter.sound.run hrun).2.store.named
    have hkey₃ := lookup?_of_named hcomputing.coherent.store.indexed hnamed hfound
    -- the body of the query itself is begun first, and its value is left last
    have hends' := fun y ↦ hcomputing.holds_leave hP hzs hkey₃ henter.not_mem_active rfl y
    have hvalue : ∀ y, y = (q, k) ∧ o.IsValue ↔ y = (q, k) ∧ Valued c.recipe c.inputs y :=
      fun y ↦ and_congr_right fun hy ↦ hy ▸ hvalued
    simp only [hvalue] at hends'
    have hstarted : ((db₂.note (.miss q k)).enter q k frame.key).begun = db₂.begun ++ [(q, k)] := by
      rw [Database.begun_enter, begun_note_of_none rfl]
    have hkept := (retrieve_eq_none_iff hdb hkey hretrieve).1 rfl
    rw [← hbefore.holds_eq] at hkept ⊢
    exact ⟨(q, k) :: l, hbefore.evaluation hleaves hstarted rfl hbegun hends',
      .single henter.fresh hkept henter.notInput hzs hends hright hbegins⟩
  done := fun _ _ _ _ _ _ frame _ _ _ hcomputing ↦
    ⟨[], frame, [], .nil _, rfl, by simpa using hcomputing, .of_eq rfl rfl, .nil, by simp⟩
  read := by
    intro fuel q k _ next db a db₁ o db₂ _ hread hrest hreads hruns outer active x ys frame htrace
      hrunning hend hcomputing
    have hready := hrunning.ready htrace hend
    obtain ⟨l, hleaves, hbegins⟩ := hreads _ hready hcomputing.coherent
    have hpasses := passesCircles_of_strict hP.strict c.inputs
    have hans := query_answered hread hready (.inr (.of_tame ht hpasses _ _ _))
    obtain ⟨hs₁, hf₁⟩ := hrunning.sound.query hread
    obtain ⟨frame₁, hrunning₁, hend₁⟩ :=
      hrunning.next htrace hend hans hs₁ hf₁ (.inr fun _ ↦ .inl hpasses)
    obtain ⟨frame₂, hframe₁, hcomputing₁⟩ :=
      hcomputing.next (query_gives hP.steady hread hcomputing.coherent) hf₁
    obtain rfl : frame₁ = frame₂ := (List.cons.inj
      (CallStack.mk.inj (hrunning₁.stack.symm.trans hcomputing₁.stack)).1).1
    obtain ⟨zs, frame', l', hzs, hframe, hcomputing', hleaves', hbegins', hends⟩ :=
      hruns outer active x _ frame₁ (htrace.snoc a) hrunning₁ hend₁ hcomputing₁
    refine ⟨((q, k), a) :: zs, frame', l ++ l', .cons hzs, hframe.trans hframe₁, ?_,
      hleaves.trans hleaves', ?_, List.forall_mem_cons.mpr ⟨hans.ends ht, hends⟩⟩
    · simpa using hcomputing'
    · exact hbegins.append (hleaves.holds ▸ hbegins')
  outside := by
    intro t w db o db₁ hruns outer active x ys frame htrace hrunning hend hcomputing
    obtain ⟨zs, frame', l, hzs, hframe, hcomputing', hleaves, hbegins⟩ :=
      hruns outer active x ys frame htrace
        { hrunning with sound := hrunning.sound.of_eq rfl rfl rfl } hend
        ⟨hcomputing.coherent.of_eq rfl rfl rfl, hcomputing.stack, hcomputing.collects⟩
    have hsame : c.Leaves db [] { db with outside := w } := .of_eq rfl rfl
    exact ⟨zs, frame', l, hzs, hframe, hcomputing', hsame.trans hleaves, hbegins⟩

theorem query_begins (hP : c.program.Pure c.recipe) (ht : c.tame)
    (h : Database.query c.program fuel q k db = some (o, db')) (hready : c.Ready active (q, k) db)
    (hdb : Coherent (.of c.recipe) db) : ∃ l, c.Leaves db l db' ∧
      Begins c.recipe c.inputs c.label active db.store.Holds [(q, k)] l :=
  (begins_course hP ht).query c.obeys h active hready hdb

end Scene

end Incremental
