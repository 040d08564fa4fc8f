import Incremental.Proofs.Beginning
import Incremental.Proofs.Recall
import Incremental.Proofs.Resetting

/-!
# The limit on nested evaluations

A database may limit how deep evaluations are nested. The limit is kept at every stage of every
run. If the bodies are pure and hand on every failure, all that it does to an answer is to put the
failure that tells of it in its place; and to remember more only keeps an evaluation further from
the limit, since nothing that is remembered takes an evaluation of its own.
-/

namespace Incremental

variable {Q K V W : Type}

namespace Recipe

/-- The recipe hands on every failure and every panic of a read. -/
def Propagates : Recipe Q K V → Prop
  | done _ => True
  | read _ next =>
    (∀ v, (next (.value v)).Propagates) ∧ ∀ a : Outcome V, ¬ a.IsValue → next a = done a

variable {t : Recipe Q K V}

@[simp] theorem propagates_done (o : Outcome V) : (done o : Recipe Q K V).Propagates := trivial

@[simp] theorem propagates_get (x : Q × K) (next : V → Recipe Q K V) :
    (get x next).Propagates ↔ ∀ v, (next v).Propagates := by
  refine ⟨fun h ↦ h.1, fun h ↦ ⟨h, fun a ha ↦ ?_⟩⟩
  cases a with
  | value v => exact absurd (Outcome.isValue_value v) ha
  | failure f => rfl
  | panic message => rfl

theorem Propagates.strict (h : t.Propagates) : t.Strict := by
  induction t with
  | done o => exact strict_done o
  | read x next ih =>
      intro ys v htrace
      cases htrace with
      | @cons _ _ answer ys _ htrace =>
          by_cases hvalue : answer.IsValue
          · obtain ⟨w, rfl⟩ := hvalue
            exact List.forall_mem_cons.mpr ⟨Outcome.isValue_value w, ih _ (h.1 w) ys v htrace⟩
          · rw [h.2 answer hvalue] at htrace
            cases htrace
            exact absurd (Outcome.isValue_value v) hvalue

theorem Propagates.next {x : Q × K} {next : Outcome V → Recipe Q K V}
    (h : (read x next).Propagates) (a : Outcome V) : (next a).Propagates := by
  by_cases hvalue : a.IsValue
  · obtain ⟨v, rfl⟩ := hvalue
    exact h.1 v
  · rw [h.2 a hvalue]
    trivial

end Recipe

/-- A body that only has to end ends, whatever is done outside on the way. -/
theorem Body.Obeys.exists_run {b : Body Q K V W V} {o : Outcome V} (h : b.Obeys (.done o))
    (read : Q → K → Database Q K V W → Option (Outcome V × Database Q K V W))
    (db : Database Q K V W) : ∃ w, b.run read db = some (o, { db with outside := w }) := by
  generalize ht : Recipe.done o = t at h
  induction h generalizing db with
  | done outcome =>
      cases ht
      exact ⟨db.outside, rfl⟩
  | read => cases ht
  | revision _ ih => exact ih db.revision db ht
  | @outside change _ _ _ ih => exact ih db.outside { db with outside := change db.outside } ht

/-- A body that reads next does so, whatever is done outside before. -/
theorem Body.Obeys.exists_read {b : Body Q K V W V} {q : Q} {k : K}
    {rest : Outcome V → Recipe Q K V} (h : b.Obeys (.read (q, k) rest)) (db : Database Q K V W) :
    ∃ w next, (∀ a, (next a).Obeys (rest a)) ∧
      ∀ read, b.run read db = (Body.read q k next).run read { db with outside := w } := by
  generalize ht : Recipe.read (q, k) rest = t at h
  induction h generalizing db with
  | done => cases ht
  | read h =>
      cases ht
      exact ⟨db.outside, _, h, fun _ ↦ rfl⟩
  | revision _ ih => exact ih db.revision db ht
  | @outside change _ _ _ ih => exact ih db.outside { db with outside := change db.outside } ht

/-- A body that hands on the failures of its read ends, after a failure, with that. -/
theorem Body.Obeys.exists_run_failed {b : Body Q K V W V} {x : Q × K}
    {rest : Outcome V → Recipe Q K V} {a : Outcome V} (hR : (Recipe.read x rest).Propagates)
    (h : b.Obeys (rest a)) (ha : ¬ a.IsValue)
    (read : Q → K → Database Q K V W → Option (Outcome V × Database Q K V W))
    (db : Database Q K V W) : ∃ w, b.run read db = some (a, { db with outside := w }) := by
  rw [hR.2 a ha] at h
  exact h.exists_run read db

/-- What leads to the evaluation of `x` leads to what that reads. -/
theorem ReadBy.below_of_active {R : Q × K → Recipe Q K V} {I : Inputs Q K V}
    {active : List (Q × K)} {x y : Q × K} (h : ReadBy R I y x)
    (habove : ∀ s ∈ active, Below R I x s) : ∀ s ∈ active ++ [x], Below R I y s := by
  intro s hs
  rcases List.mem_append.mp hs with hs | hs
  · exact .head h (habove s hs)
  · obtain rfl := List.mem_singleton.mp hs
    exact h.below

/-- The evaluation of `x` has been given by its reads `ys` what they yield, and goes on with `t`. -/
structure Midway (R : Q × K → Recipe Q K V) (I : Inputs Q K V) (x : Q × K)
    (ys : List ((Q × K) × Outcome V)) (t : Recipe Q K V) : Prop where
  notInput : I x = none
  propagates : t.Propagates
  trace : (R x).Trace ys t
  yields : ∀ p ∈ ys, Yields R I p.1 p.2

namespace Midway

variable {R : Q × K → Recipe Q K V} {I : Inputs Q K V} {x y : Q × K}
  {ys : List ((Q × K) × Outcome V)} {rest : Outcome V → Recipe Q K V} {o : Outcome V}

theorem start (hx : I x = none) (hR : (R x).Propagates) : Midway R I x [] (R x) :=
  ⟨hx, hR, .nil _, by simp⟩

theorem readBy (h : Midway R I x ys (.read y rest)) : ReadBy R I y x :=
  ⟨h.notInput, ys, rest, h.trace, h.yields⟩

theorem next (h : Midway R I x ys (.read y rest)) (hy : Yields R I y o) :
    Midway R I x (ys ++ [(y, o)]) (rest o) := by
  refine ⟨h.notInput, h.propagates.next o, h.trace.snoc o, ?_⟩
  exact List.forall_mem_append.mpr ⟨h.yields, by simpa using hy⟩

theorem ends (h : Midway R I x ys (.done o)) : Yields R I x o :=
  .computed h.notInput h.trace h.yields

end Midway

/-- The outcome is that the limit on nested evaluations was met. -/
def Configuration.Stops (c : Configuration) (o : Outcome V) : Prop :=
  ∃ limit key, c.maxDepth = some limit ∧ o = .failure (.tooDeep limit key)

namespace Configuration

variable {c : Configuration} {o : Outcome V} {depth limit : Nat}

theorem Stops.not_isValue (h : c.Stops o) : ¬ o.IsValue := by
  obtain ⟨_, _, _, rfl⟩ := h
  exact Outcome.not_isValue_failure _

theorem brokenAt_eq_some (h : c.brokenAt depth = some limit) : c.maxDepth = some limit :=
  (Option.filter_eq_some_iff.mp h).1

theorem lt_of_brokenAt (h : c.brokenAt depth = none) (hlimit : c.maxDepth = some limit) :
    depth < limit := by
  simpa [brokenAt, hlimit] using h

end Configuration

theorem CallStack.Grows.depth_eq {stack stack' : CallStack} (h : stack.Grows stack') :
    stack'.depth = stack.depth := by
  have hlength := congrArg List.length h.keys_eq
  simpa [CallStack.depth] using hlength

namespace Stage

open Database

variable [DecidableEq Q] [BEq K] {P : Program Q K V W} {t t' : Stage Q K V W}
  {s db db₁ db₂ : Database Q K V W} {key : Handle} {q : Q} {k : K} {fuel limit : Nat}

theorem configuration_of_read (hkey : db.intern q k = (key, db₁)) {r : Option (V × Revision)}
    (hretrieve : (db₁.recordRead key).retrieve fuel key = some (r, db₂)) :
    db₂.configuration = db.configuration := by
  obtain rfl := eq_of_intern hkey
  exact (retrieve_verifies hretrieve).configuration_eq

theorem Evaluates.configuration_eq (hstep : Evaluates P t t') :
    t'.db.configuration = t.db.configuration := by
  cases hstep with
  | answers hanswers =>
      cases hanswers with
      | refused hkey => exact congrArg (·.2.configuration) hkey.symm
      | hit hkey _ hretrieve => exact (configuration_of_read hkey hretrieve :)
      | tooDeep hkey _ hretrieve => exact (configuration_of_read hkey hretrieve :)
  | enters hkey _ hretrieve _ => exact (configuration_of_read hkey hretrieve :)
  | @leaves o call _ db => exact (leave_fixed call.key call.depth o db).2
  | revision => rfl
  | outside => rfl

theorem Evaluates.depth_le (hstep : Evaluates P t t') (hserves : t.db.stack.Serves t.calls)
    (hlimit : t.db.configuration.maxDepth = some limit) (h : t.db.stack.depth ≤ limit) :
    t'.db.stack.depth ≤ limit := by
  cases hstep with
  | answers hanswers =>
      obtain ⟨fuel, hquery⟩ := hanswers.exists_query
      rwa [(query_grows hquery).depth_eq]
  | @enters q k _ _ _ _ _ db₂ key hkey _ hretrieve hbroken =>
      rw [← configuration_of_read hkey hretrieve] at hlimit
      have hlt := Configuration.lt_of_brokenAt hbroken hlimit
      change (db₂.stack.push key).depth ≤ limit
      rw [CallStack.depth_push]
      exact hlt
  | @leaves o call calls db =>
      obtain ⟨frame, rest, hkey, hdepth, hstack, _, _⟩ := hserves.exists_top
      dsimp only at h hstack ⊢
      have htop : db.stack.depth = rest.depth + 1 := by simp [hstack, CallStack.depth]
      rw [← hkey, hdepth, (leave_grows hstack o).depth_eq]
      omega
  | revision => exact h
  | outside => exact h

variable [BEq V]

theorem Step.configuration_eq (hstep : Step P t t') :
    t'.db.configuration = t.db.configuration := by
  cases hstep with
  | evaluates hstep => exact hstep.configuration_eq
  | asks => rfl
  | @edits db _ e =>
      obtain heq | heq | ⟨v, heq⟩ | ⟨key, _, heq⟩ := edit_cases e db <;> rw [heq] <;> rfl
  | clears => rfl
  | reports => rfl

theorem Later.configuration_eq (h : Later P t t') : t'.db.configuration = t.db.configuration := by
  induction h with
  | refl => rfl
  | tail _ hstep ih => exact hstep.configuration_eq.trans ih

/-- The limit on nested evaluations is kept at every stage of every run. -/
theorem Later.depth_le {configuration : Configuration} {w : W} {o : Outcome V}
    (h : Later P ⟨{ configuration, outside := w }, .done o, []⟩ t) (hs : t.Shows s)
    (hlimit : configuration.maxDepth = some limit) : s.stack.depth ≤ limit := by
  have hkept : t.db.stack.depth ≤ limit := by
    clear hs
    induction h with
    | refl => exact Nat.zero_le _
    | @tail t t' hlater hstep ih =>
        have hserves := Reached.serves ⟨configuration, w, o, hlater⟩
        have hconfiguration : t.db.configuration = configuration := Later.configuration_eq hlater
        have hidle : t'.calls = [] → t'.db.stack.depth ≤ limit := by
          intro hcalls
          have hserves' := hstep.serves hserves
          rw [hcalls] at hserves'
          simp [hserves'.eq_empty, CallStack.depth]
        cases hstep with
        | evaluates hstep => exact hstep.depth_le hserves (hconfiguration ▸ hlimit) ih
        | asks => exact hidle rfl
        | edits => exact hidle rfl
        | clears => exact hidle rfl
        | reports => exact hidle rfl
  rw [hs.grows.depth_eq]
  exact hkept

end Stage

namespace Store

variable [DecidableEq Q] [BEq K] {now : Revision} {s s' : Store Q K V} {x : Q × K}

/-- What is held stays so when the store is renewed. -/
theorem Renews.holds (h : s.Renews now s')
    (hlookup : ∀ q k d, s.lookup? q k = some d → s'.lookup? q k = some d) (hx : s.Holds x) :
    s'.Holds x := by
  obtain ⟨key, m, hkey, hm, hout⟩ := hx
  obtain ⟨hm', hout'⟩ := h.stays key m hm hout
  have hkey' := hlookup x.1 x.2 key hkey
  rcases hm' with hm' | hm'
  · exact ⟨key, _, hkey', hm', hout'⟩
  · exact ⟨key, _, hkey', hm', hout'⟩

end Store

namespace Database

open Store

variable [DecidableEq Q] [BEq K]

theorem Underway.brokenAt_eq {active : List (Q × K)} {db db₁ db₂ : Database Q K V W} {q : Q} {k : K}
    {key : Handle} {fuel : Nat} (h : Underway active db) (hkey : db.intern q k = (key, db₁))
    {r : Option (V × Revision)}
    (hretrieve : (db₁.recordRead key).retrieve fuel key = some (r, db₂)) :
    db₂.configuration.brokenAt db₂.stack.depth = db.configuration.brokenAt active.length := by
  rw [Stage.configuration_of_read hkey hretrieve, (retrieve_grows hkey hretrieve).depth_eq,
    h.depth_eq]

/-- A coherent database that is configured by `c`, in which `I` is assigned and `active` is under
evaluation. -/
structure Busy (R : Q × K → Recipe Q K V) (I : Inputs Q K V) (c : Configuration)
    (active : List (Q × K)) (db : Database Q K V W) : Prop where
  coherent : Coherent (.of R) db
  underway : Underway active db
  inputs : db.store.inputs = I
  configuration : db.configuration = c

/-- In both databases `active` is under evaluation, and the first holds no less. -/
structure Abreast (R : Q × K → Recipe Q K V) (I : Inputs Q K V) (c₁ c₂ : Configuration)
    (active : List (Q × K)) (db₁ db₂ : Database Q K V W) : Prop where
  first : Busy R I c₁ active db₁
  second : Busy R I c₂ active db₂
  holds : ∀ y, db₂.store.Holds y → db₁.store.Holds y

/-- What an evaluation that is configured by `c₂` comes to, `run` comes to as well, configured by
`c₁`, with no less held afterwards; unless the limit is met, in the one evaluation, or in the other
where the one has none. -/
def KeepsPace (c₁ c₂ : Configuration) (run : Nat → Option (Outcome V × Database Q K V W))
    (o : Outcome V) (db₂ : Database Q K V W) : Prop :=
  c₂.Stops o ∨ ∃ n o' db₁, run n = some (o', db₁) ∧
    (o' = o ∧ (∀ y, db₂.store.Holds y → db₁.store.Holds y) ∨ c₂.maxDepth = none ∧ c₁.Stops o')

theorem KeepsPace.of_run {c₁ c₂ : Configuration}
    {run run' : Nat → Option (Outcome V × Database Q K V W)} {o : Outcome V}
    {db₂ : Database Q K V W} (h : KeepsPace c₁ c₂ run o db₂)
    (hrun : ∀ n r, run n = some r → ∃ m, run' m = some r) : KeepsPace c₁ c₂ run' o db₂ := by
  rcases h with hstops | ⟨n, o', db₁, hn, hend⟩
  · exact .inl hstops
  · obtain ⟨m, hm⟩ := hrun n _ hn
    exact .inr ⟨m, o', db₁, hm, hend⟩

namespace Busy

variable [LawfulBEq K] {R : Q × K → Recipe Q K V} {I : Inputs Q K V} {c : Configuration}
  {active : List (Q × K)} {P : Program Q K V W} {db db₁ db₂ db₃ db' : Database Q K V W} {q : Q}
  {k : K} {x : Q × K} {key : Handle} {fuel fuel' : Nat} {o a : Outcome V}

theorem follows (h : Busy R I c active db) (hf : db.Follows db') (hdb' : Coherent (.of R) db') :
    Busy R I c active db' :=
  ⟨hdb', h.underway.follows hf, (hf.store.keeps.inputs_eq h.coherent.store.indexed
    hdb'.store.indexed).trans h.inputs, hf.configuration.trans h.configuration⟩

theorem query (hP : P.Pure R) (h : Busy R I c active db)
    (hquery : query P fuel q k db = some (o, db')) : Busy R I c active db' :=
  h.follows (h.coherent.sound.query hquery).2 (query_gives hP.steady hquery h.coherent).coherent

theorem outside (h : Busy R I c active db) (w : W) :
    Busy R I c active { db with outside := w } :=
  h.follows (.outside db w) (h.coherent.of_eq rfl rfl rfl)

theorem enter (h : Busy R I c active db) (hkey : db.intern q k = (key, db₁))
    (hretrieve : (db₁.recordRead key).retrieve fuel key = some (none, db₂)) :
    Busy R I c (active ++ [(q, k)]) ((db₂.note (.miss q k)).enter q k key) := by
  obtain ⟨hs, hf⟩ := h.coherent.sound.record hkey
  obtain ⟨hrecord, _⟩ := h.coherent.record hkey
  have hv := retrieve_verifies hretrieve
  have hmiss : Busy R I c active (db₂.note (.miss q k)) :=
    h.follows ((hf.trans (.of_verifies hv)).trans (.note _ _))
      ((hrecord.rechecks hv (retrieve_coherent hretrieve hrecord.store).1).note _)
  obtain ⟨henter, _⟩ := Computing.enter h.coherent hkey hretrieve
  exact ⟨henter.coherent, h.underway.enter_of_miss h.coherent.sound hkey hretrieve, hmiss.inputs,
    hmiss.configuration⟩

theorem isActive_iff (h : Busy R I c active db) (hkey : db.intern q k = (key, db₁)) :
    db₁.stack.isActive key = true ↔ (q, k) ∈ active :=
  h.underway.isActive_iff_of_intern h.coherent.sound hkey

theorem isActive_eq_false_iff (h : Busy R I c active db) (hkey : db.intern q k = (key, db₁)) :
    db₁.stack.isActive key = false ↔ (q, k) ∉ active :=
  h.underway.isActive_eq_false_of_intern h.coherent.sound hkey

omit [LawfulBEq K] in
theorem brokenAt_eq (h : Busy R I c active db) (hkey : db.intern q k = (key, db₁))
    {r : Option (V × Revision)}
    (hretrieve : (db₁.recordRead key).retrieve fuel key = some (r, db₂)) :
    db₂.configuration.brokenAt db₂.stack.depth = c.brokenAt active.length :=
  h.configuration ▸ h.underway.brokenAt_eq hkey hretrieve

theorem holds (hP : P.Pure R) (h : Busy R I c active db)
    (hquery : Database.query P fuel q k db = some (o, db')) (hx : db.store.Holds x) :
    db'.store.Holds x := by
  have hgives := query_gives hP.steady hquery h.coherent
  have hnamed := (h.coherent.sound.query hquery).2.store.named
  exact hgives.renews.holds
    (fun _ _ _ ↦ lookup?_of_named hgives.coherent.store.indexed hnamed) hx

/-- A value that a read gives is the one that the query yields. -/
theorem yields_of_value (hP : P.Pure R) (h : Busy R I c active db) {v : V}
    (hquery : Database.query P fuel q k db = some (.value v, db')) :
    Yields R I (q, k) (.value v) := by
  have hgives := query_gives hP.steady hquery h.coherent
  have hrevision := (h.coherent.sound.query hquery).2.revision
  obtain ⟨key, m, _, hkey, hm, hcurrent, rfl, _⟩ := hgives.value v rfl
  have hout := hgives.coherent.store.not_outdated hm (hrevision ▸ hcurrent)
  have hyields := hgives.coherent.store.yields (x := (q, k)) hkey hm hout
  exact (h.query hP hquery).inputs ▸ hyields

/-- What is held is answered from memory. -/
theorem exists_hit (P : Program Q K V W) (h : Busy R I c active db) (hx : db.store.Holds (q, k))
    (hidle : (q, k) ∉ active) : ∃ n v db', Database.query P n q k db = some (.value v, db') := by
  obtain ⟨key, db₁, hkey⟩ : ∃ key db₁, db.intern q k = (key, db₁) := ⟨_, _, rfl⟩
  obtain ⟨fuel, ⟨r, db₂⟩, hretrieve⟩ :=
    exists_retrieve_coherent (h.coherent.record hkey).1.store key
  have hactive := (h.isActive_eq_false_iff hkey).2 hidle
  cases r with
  | none => exact absurd hx ((retrieve_eq_none_iff h.coherent hkey hretrieve).1 rfl)
  | some p =>
      obtain ⟨n, hquery⟩ := (AnswersAtOnce.hit (P := P) hkey hactive hretrieve).exists_query
      exact ⟨n, p.1, _, hquery⟩

/-- The end of an evaluation hands on its outcome, and leaves a value to be held. -/
theorem ended (hP : P.Pure R) (h : Busy R I c active db) (hkey : db.intern q k = (key, db₁))
    (hactive : db₁.stack.isActive key = false)
    (hretrieve : (db₁.recordRead key).retrieve fuel key = some (none, db₂))
    (hrun : (P.body q k).run (Database.query P fuel') ((db₂.note (.miss q k)).enter q k key) =
      some (o, db₃)) :
    (leave key db₂.stack.depth (o, db₃)).1 = o ∧
      ∀ y, (leave key db₂.stack.depth (o, db₃)).2.store.Holds y ↔
        db₃.store.Holds y ∨ y = (q, k) ∧ o.IsValue := by
  obtain ⟨henter, _⟩ := Computing.enter h.coherent hkey hretrieve
  obtain ⟨ys, frame, hbody, hframe, hcomputing⟩ := henter.run hP.steady hrun
  have htrace := (hP.obeys q k).trace hbody
  obtain rfl : frame.key = key := hframe
  obtain ⟨_, hfound, _⟩ := h.coherent.sound.ran hkey hretrieve hrun
  have hidle : frame.key ∉ db₂.stack.active := by
    rw [(retrieve_grows hkey hretrieve).active_eq]
    exact not_mem_active hkey hactive
  have houter := stack_of_retrieve hkey hretrieve
  exact ⟨leave_outcome hcomputing.stack o,
    fun y ↦ (hcomputing.holds_leave hP htrace hfound hidle houter y).1⟩

omit [LawfulBEq K] in
theorem inputs_eq_none (h : Busy R I c active db) (hx : ¬ db.store.Holds x) : I x = none := by
  rw [← h.inputs, Option.eq_none_iff_forall_ne_some]
  exact fun v hv ↦ hx (holds_of_input hv)

omit [LawfulBEq K] in
theorem stops (h : Busy R I c active db) (hkey : db.intern q k = (key, db₁))
    {r : Option (V × Revision)} {limit : Nat}
    (hretrieve : (db₁.recordRead key).retrieve fuel key = some (r, db₂))
    (hbroken : db₂.configuration.brokenAt db₂.stack.depth = some limit) (label : String) :
    c.Stops (.failure (.tooDeep limit label) : Outcome V) := by
  rw [h.brokenAt_eq hkey hretrieve] at hbroken
  exact ⟨limit, label, Configuration.brokenAt_eq_some hbroken, rfl⟩

/-- The evaluation of a query that yields something ends in that, unless the limit is met, and
leaves nothing but the query itself and what is read below it to be held. -/
theorem yields_course (hP : P.Pure R) (hR : ∀ x, (R x).Propagates) (I : Inputs Q K V)
    (c : Configuration) : RecipeCourse P R
    (fun q k db o db' ↦ ∀ active a, Busy R I c active db → Yields R I (q, k) a →
      (∀ s ∈ active, Below R I (q, k) s) → (c.Stops o ∨ o = a) ∧
        ∀ y, db'.store.Holds y → db.store.Holds y ∨ y = (q, k) ∨ Below R I y (q, k))
    (fun t db o db' ↦ ∀ active x ys a, Midway R I x ys t → Yields R I x a →
      Busy R I c (active ++ [x]) db → (∀ s ∈ active, Below R I x s) → (c.Stops o ∨ o = a) ∧
        ∀ y, db'.store.Holds y → db.store.Holds y ∨ Below R I y x) where
  refused := by
    intro fuel q k db key db₁ hkey hactive _ active a h hyields habove
    have hmem := (h.isActive_iff hkey).1 hactive
    exact absurd (habove _ hmem) hyields.not_below_self
  hit := by
    intro fuel n q k db key db₁ v r db₂ hkey _ hretrieve hquery active a h hyields _
    have hleaves : Leaves R I db [] db₂ := .recordRetrieve h.coherent hkey hretrieve
    refine ⟨.inr ((h.yields_of_value hP hquery).unique hyields), fun y hy ↦ .inl ?_⟩
    exact hleaves.holds_eq ▸ hy
  tooDeep := by
    intro fuel n q k db key db₁ db₂ limit hkey _ hretrieve hbroken _ active a h hyields _
    have hleaves : Leaves R I db [] db₂ := .recordRetrieve h.coherent hkey hretrieve
    refine ⟨.inl (h.stops hkey hretrieve hbroken _), fun y hy ↦ .inl ?_⟩
    exact hleaves.holds_eq ▸ hy
  computed := by
    intro fuel n q k db key db₁ db₂ o db₃ hkey hactive hretrieve _ hrun _ hruns active a h hyields
      habove
    have hleaves : Leaves R I db [] db₂ := .recordRetrieve h.coherent hkey hretrieve
    have hnone := h.inputs_eq_none ((retrieve_eq_none_iff h.coherent hkey hretrieve).1 rfl)
    obtain ⟨hend, hholds⟩ := hruns active (q, k) [] a (.start hnone (hR _)) hyields
      (h.enter hkey hretrieve) habove
    obtain ⟨houtcome, hheld⟩ := h.ended hP hkey hactive hretrieve hrun
    rw [houtcome]
    refine ⟨hend, fun y hy ↦ ?_⟩
    rcases (hheld y).1 hy with hy | ⟨hy, _⟩
    · exact (hholds y hy).imp (fun hy ↦ hleaves.holds_eq ▸ hy) .inr
    · exact .inr (.inl hy)
  done := fun _ _ _ _ _ _ hmidway hyields _ _ ↦
    ⟨.inr (hmidway.ends.unique hyields), fun _ ↦ .inl⟩
  read := by
    intro fuel q k _ next db answer db₁ o db₂ hobeys hquery hnext hread hruns active x ys a hmidway
      hyields h habove
    have hby := hmidway.readBy
    obtain ⟨a', ha'⟩ := hyields.of_readBy hby
    obtain ⟨hanswer, hholds⟩ := hread _ a' h ha' (hby.below_of_active habove)
    have hholds : ∀ y, db₁.store.Holds y → db.store.Holds y ∨ Below R I y x := by
      intro y hy
      rcases hholds y hy with hy | rfl | hy
      · exact .inl hy
      · exact .inr hby.below
      · exact .inr (hy.tail hby)
    rcases hanswer with hstops | rfl
    · obtain ⟨w, hrun⟩ := (hobeys answer).exists_run_failed hmidway.propagates
        hstops.not_isValue (Database.query P fuel) db₁
      cases hnext.symm.trans hrun
      exact ⟨.inl hstops, hholds⟩
    · obtain ⟨hend, hholds'⟩ := hruns active x _ a (hmidway.next ha') hyields (h.query hP hquery)
        habove
      exact ⟨hend, fun y hy ↦ (hholds' y hy).elim (hholds y) .inr⟩
  outside := fun _ w _ _ _ hruns active x ys a hmidway hyields h ↦
    hruns active x ys a hmidway hyields (h.outside w)

theorem query_yields (hP : P.Pure R) (hR : ∀ x, (R x).Propagates)
    (hquery : Database.query P fuel q k db = some (o, db')) (h : Busy R I c active db)
    (hyields : Yields R I (q, k) a) (habove : ∀ s ∈ active, Below R I (q, k) s) :
    (c.Stops o ∨ o = a) ∧
      ∀ y, db'.store.Holds y → db.store.Holds y ∨ y = (q, k) ∨ Below R I y (q, k) :=
  (yields_course hP hR I c).query hP.obeys hquery active a h hyields habove

omit [LawfulBEq K] in
theorem of_resting (h : Resting (.of R) db) : Busy R db.store.inputs db.configuration [] db :=
  ⟨h.coherent, .of_idle h.idle, rfl, rfl⟩

end Busy

namespace Abreast

variable [LawfulBEq K] {R : Q × K → Recipe Q K V} {I : Inputs Q K V} {c₁ c₂ : Configuration}
  {active : List (Q × K)} {P : Program Q K V W} {db₁ db₂ db₂' db db' : Database Q K V W} {q : Q}
  {k : K} {key : Handle} {fuel fuel' : Nat} {o : Outcome V}

/-- What the second evaluation comes to, and all that it leaves on the way, is held already where
the first holds the query. -/
theorem keepsPace_of_holds (hP : P.Pure R) (hR : ∀ x, (R x).Propagates)
    (h : Abreast R I c₁ c₂ active db₁ db₂) (hquery : query P fuel q k db₂ = some (o, db₂'))
    (habove : ∀ s ∈ active, Below R I (q, k) s) (hidle : (q, k) ∉ active)
    (hx : db₁.store.Holds (q, k)) : KeepsPace c₁ c₂ (fun n ↦ query P n q k db₁) o db₂' := by
  obtain ⟨n, v, db₁', hquery₁⟩ := h.first.exists_hit P hx hidle
  have hyields := h.first.yields_of_value hP hquery₁
  obtain ⟨hstops | hvalue, hnew⟩ := h.second.query_yields hP hR hquery hyields habove
  · exact .inl hstops
  · refine .inr ⟨n, _, _, hquery₁, .inl ⟨hvalue.symm, fun y hy ↦ h.first.holds hP hquery₁ ?_⟩⟩
    rcases hnew y hy with hy | rfl | hy
    · exact h.holds y hy
    · exact hx
    · exact h.first.coherent.store.holds_of_below hx (h.first.inputs.symm ▸ hy)

/-- Where both have to evaluate the body, it is enough to keep pace with that. -/
theorem keepsPace_of_run (hP : P.Pure R) (hlimit : c₂ = c₁ ∨ c₂.maxDepth = none)
    (h : Abreast R I c₁ c₂ active db₁ db₂) (hx : ¬ db₁.store.Holds (q, k))
    (hkey : db₂.intern q k = (key, db)) (hactive : db.stack.isActive key = false)
    (hretrieve : (db.recordRead key).retrieve fuel key = some (none, db'))
    (hbroken : db'.configuration.brokenAt db'.stack.depth = none)
    (hrun : (P.body q k).run (query P fuel') ((db'.note (.miss q k)).enter q k key) =
      some (o, db₂'))
    (hruns : ∀ db₁', Abreast R I c₁ c₂ (active ++ [(q, k)]) db₁'
        ((db'.note (.miss q k)).enter q k key) →
      KeepsPace c₁ c₂ (fun n ↦ (P.body q k).run (query P n) db₁') o db₂') :
    KeepsPace c₁ c₂ (fun n ↦ query P n q k db₁) (leave key db'.stack.depth (o, db₂')).1
      (leave key db'.stack.depth (o, db₂')).2 := by
  have hidle := (h.second.isActive_eq_false_iff hkey).1 hactive
  obtain ⟨houtcome, hheld⟩ := h.second.ended hP hkey hactive hretrieve hrun
  obtain ⟨key₁, db₁', hkey₁⟩ : ∃ key₁ db₁', db₁.intern q k = (key₁, db₁') := ⟨_, _, rfl⟩
  have hactive₁ := (h.first.isActive_eq_false_iff hkey₁).2 hidle
  obtain ⟨fuel₁, ⟨r, db₁''⟩, hretrieve₁⟩ :=
    exists_retrieve_coherent (h.first.coherent.record hkey₁).1.store key₁
  obtain rfl : r = none := (retrieve_eq_none_iff h.first.coherent hkey₁ hretrieve₁).2 hx
  cases hbroken₁ : db₁''.configuration.brokenAt db₁''.stack.depth with
  | some limit =>
      obtain ⟨n, hquery₁⟩ :=
        (AnswersAtOnce.tooDeep (P := P) hkey₁ hactive₁ hretrieve₁ hbroken₁).exists_query
      have hunlimited : c₂.maxDepth = none := by
        apply hlimit.resolve_left
        rintro rfl
        rw [h.second.brokenAt_eq hkey hretrieve, ← h.first.brokenAt_eq hkey₁ hretrieve₁,
          hbroken₁] at hbroken
        cases hbroken
      exact .inr ⟨n, _, _, hquery₁, .inr ⟨hunlimited, h.first.stops hkey₁ hretrieve₁ hbroken₁ _⟩⟩
  | none =>
      have hleaves : Leaves R I db₂ [] db' := .recordRetrieve h.second.coherent hkey hretrieve
      have hleaves₁ : Leaves R I db₁ [] db₁'' :=
        .recordRetrieve h.first.coherent hkey₁ hretrieve₁
      have hholds : ∀ y, db'.store.Holds y → db₁''.store.Holds y := by
        rw [hleaves.holds_eq, hleaves₁.holds_eq]
        exact h.holds
      rw [houtcome]
      rcases hruns _ ⟨h.first.enter hkey₁ hretrieve₁, h.second.enter hkey hretrieve, hholds⟩ with
        hstops | ⟨n, o', db₃', hrun₁, hend⟩
      · exact .inl hstops
      · obtain ⟨houtcome₁, hheld₁⟩ := h.first.ended hP hkey₁ hactive₁ hretrieve₁ hrun₁
        have hquery₁ := query_of_run hkey₁ hactive₁ hretrieve₁ hbroken₁ hrun₁
        rw [show leave key₁ db₁''.stack.depth (o', db₃') = (o', _) from
          Prod.ext houtcome₁ rfl] at hquery₁
        refine .inr ⟨_, o', _, hquery₁, ?_⟩
        rcases hend with ⟨rfl, hholds₃⟩ | hstops
        · exact .inl ⟨rfl, fun y hy ↦ (hheld₁ y).2 (((hheld y).1 hy).imp_left (hholds₃ y))⟩
        · exact .inr hstops

/-- An evaluation with the same limit, or with none, is kept pace with by one that holds more. -/
theorem keepsPace_course (hP : P.Pure R) (hR : ∀ x, (R x).Propagates) (I : Inputs Q K V)
    (hlimit : c₂ = c₁ ∨ c₂.maxDepth = none) : RecipeCourse P R
    (fun q k db₂ o db₂' ↦ ∀ active db₁, Abreast R I c₁ c₂ active db₁ db₂ →
      (∀ s ∈ active, Below R I (q, k) s) → KeepsPace c₁ c₂ (fun n ↦ query P n q k db₁) o db₂')
    (fun t db₂ o db₂' ↦ ∀ active x ys (b₁ : Body Q K V W V) db₁, b₁.Obeys t →
      Midway R I x ys t → Abreast R I c₁ c₂ (active ++ [x]) db₁ db₂ →
      (∀ s ∈ active, Below R I x s) →
      KeepsPace c₁ c₂ (fun n ↦ b₁.run (query P n) db₁) o db₂') where
  refused := by
    intro fuel q k db₂ key db₂' hkey hactive _ active db₁ h _
    obtain ⟨key₁, db₁', hkey₁⟩ : ∃ key₁ db₁', db₁.intern q k = (key₁, db₁') := ⟨_, _, rfl⟩
    rw [h.second.isActive_iff hkey, ← h.first.isActive_iff hkey₁] at hactive
    obtain ⟨n, hquery₁⟩ := (AnswersAtOnce.refused (P := P) hkey₁ hactive).exists_query
    have hleaves : Leaves R I db₂ [] (db₂'.recordRead key) :=
      .record h.second.coherent.store.indexed hkey
    refine .inr ⟨n, _, _, hquery₁, .inl ⟨?_, fun y hy ↦ ?_⟩⟩
    · rw [h.first.underway.circle_of_intern P hkey₁, h.second.underway.circle_of_intern P hkey]
    · exact h.first.holds hP hquery₁ (h.holds y (hleaves.holds_eq ▸ hy))
  hit := by
    intro fuel n q k db₂ key db₂' v r db₂'' hkey hactive hretrieve hquery active db₁ h habove
    have hheld : db₂.store.Holds (q, k) := by
      by_contra hnone
      cases (retrieve_eq_none_iff h.second.coherent hkey hretrieve).2 hnone
    have hidle := (h.second.isActive_eq_false_iff hkey).1 hactive
    exact h.keepsPace_of_holds hP hR hquery habove hidle (h.holds _ hheld)
  tooDeep := by
    intro fuel n q k db₂ key db₂' db₂'' limit hkey _ hretrieve hbroken _ active db₁ h _
    exact .inl (h.second.stops hkey hretrieve hbroken _)
  computed := by
    intro fuel n q k db₂ key db₂' db₂'' o db₃ hkey hactive hretrieve hbroken hrun hquery hruns
      active db₁ h habove
    by_cases hx : db₁.store.Holds (q, k)
    · have hidle := (h.second.isActive_eq_false_iff hkey).1 hactive
      exact h.keepsPace_of_holds hP hR hquery habove hidle hx
    · have hstart := Midway.start (h.first.inputs_eq_none hx) (hR (q, k))
      apply keepsPace_of_run hP hlimit h hx hkey hactive hretrieve hbroken hrun
      intro db₁' h'
      exact hruns active (q, k) [] _ db₁' (hP.obeys q k) hstart h' habove
  done := by
    intro o db₂ active x ys b₁ db₁ hobeys₁ _ h _
    obtain ⟨w, hrun⟩ := hobeys₁.exists_run (query P 0) db₁
    exact .inr ⟨0, o, _, hrun, .inl ⟨rfl, h.holds⟩⟩
  read := by
    intro fuel q k _ rest db₂ answer db₂' o db₂'' hobeys hquery hnext hread hruns active x ys b₁ db₁
      hobeys₁ hmidway h habove
    obtain ⟨w, next₁, hobeys₁, hrun₁⟩ := hobeys₁.exists_read db₁
    have hfirst := h.first.outside w
    have hfailed : ¬ answer.IsValue → o = answer ∧ ∃ w, db₂'' = { db₂' with outside := w } := by
      intro hanswer
      obtain ⟨w, hrun⟩ := (hobeys answer).exists_run_failed hmidway.propagates hanswer
        (query P fuel) db₂'
      cases hnext.symm.trans hrun
      exact ⟨rfl, w, rfl⟩
    rcases hread _ _ ⟨hfirst, h.second, h.holds⟩ (hmidway.readBy.below_of_active habove) with
      hstops | ⟨n, a, db₁', hquery₁, hend⟩
    · rw [(hfailed hstops.not_isValue).1]
      exact .inl hstops
    · have hthen : ∀ m r, (next₁ a).run (query P m) db₁' = some r →
          ∃ n, b₁.run (query P n) db₁ = some r := by
        intro m r hm
        exact ⟨max n m, (hrun₁ _).trans (run_read hquery₁ hm)⟩
      by_cases hvalue : a.IsValue
      · obtain ⟨rfl, hholds⟩ := hend.resolve_right fun hend ↦ hend.2.not_isValue hvalue
        obtain ⟨v, rfl⟩ := hvalue
        have hyields := hfirst.yields_of_value hP hquery₁
        have h' : Abreast R I c₁ c₂ (active ++ [x]) db₁' db₂' :=
          ⟨hfirst.query hP hquery₁, h.second.query hP hquery, hholds⟩
        have hpace := hruns active x _ _ db₁' (hobeys₁ _) (hmidway.next hyields) h' habove
        exact hpace.of_run hthen
      · obtain ⟨w', hrun⟩ := (hobeys₁ a).exists_run_failed hmidway.propagates hvalue
          (query P n) db₁'
        obtain ⟨m, hm⟩ := hthen n _ hrun
        rcases hend with ⟨rfl, hholds⟩ | hstops
        · obtain ⟨rfl, _, rfl⟩ := hfailed hvalue
          exact .inr ⟨m, _, _, hm, .inl ⟨rfl, hholds⟩⟩
        · exact .inr ⟨m, a, _, hm, .inr hstops⟩
  outside := fun _ w _ _ _ hruns active x ys b₁ db₁ hobeys₁ hmidway h ↦
    hruns active x ys b₁ db₁ hobeys₁ hmidway ⟨h.first, h.second.outside w, h.holds⟩

theorem keepsPace (hP : P.Pure R) (hR : ∀ x, (R x).Propagates)
    (hlimit : c₂ = c₁ ∨ c₂.maxDepth = none) (h : Abreast R I c₁ c₂ active db₁ db₂)
    (hquery : query P fuel q k db₂ = some (o, db₂'))
    (habove : ∀ s ∈ active, Below R I (q, k) s) :
    KeepsPace c₁ c₂ (fun n ↦ query P n q k db₁) o db₂' :=
  (keepsPace_course hP hR I hlimit).query hP.obeys hquery active db₁ h habove

end Abreast

section

variable [LawfulBEq K] {P : Program Q K V W} {R : Q × K → Recipe Q K V} {db : Database Q K V W}

/-- Where values were only assigned, nothing else is held. -/
theorem busy_freshWith (R : Q × K → Recipe Q K V) {assigned : List ((Q × K) × V)}
    (h : db.Lists assigned) (configuration : Configuration) (w : W) :
    Busy R db.store.inputs configuration [] (freshWith configuration w assigned) ∧
      ∀ y, (freshWith configuration w assigned : Database Q K V W).store.Holds y →
        db.store.Holds y := by
  obtain ⟨⟨_, hrest⟩, hbare⟩ := bare_fresh R w assigned
  have hinputs : (freshWith configuration w assigned : Database Q K V W).store.inputs =
      db.store.inputs := by
    rw [freshWith_eq]
    exact inputs_fresh h w
  rw [← hinputs, freshWith_eq]
  refine ⟨.of_resting ⟨hrest.idle, hrest.sound.store.consistent hbare⟩, ?_⟩
  rintro y ⟨key, m, hkey, hm, _⟩
  cases m with
  | input v c => exact holds_of_input (inputs_fresh h w ▸ inputs_eq_some_iff.2 ⟨key, c, hkey, hm⟩)
  | derived => exact absurd hm (hbare key _ _ _ _)

variable [BEq V] {fuel fuel' limit : Nat} {ops : List (Operation Q K V)}
  {replies : List (Except String (Reply V))} {w w' : W} {q : Q} {k : K} {o : Outcome V}
  {db₀ : Database Q K V W} {assigned : List ((Q × K) × V)}

/-- The limit on nested evaluations is kept at every stage of every run. If the bodies are pure and
hand on every failure and every panic, then after every history a query comes to what it comes to
without a limit on a fresh database that holds the same assigned values, or it meets the limit; and
it does not meet it where a fresh database with the same limit comes to anything else. -/
theorem depth_limited (hP : P.Obeys R) (hR : ∀ x, (R x).Propagates)
    (hops : performAll P fuel ops { configuration := ⟨some limit⟩, outside := w } =
      some (replies, db)) (hassigned : db.Lists assigned)
    (hfresh : query P fuel' q k (fresh w' assigned) = some (o, db₀)) :
    (∀ a t s, Stage.Later P ⟨{ configuration := ⟨some limit⟩, outside := w }, .done a, []⟩ t →
        t.Shows s → s.stack.depth ≤ limit) ∧
      ∃ n o' db', (∀ m ≥ n, query P m q k db = some (o', db')) ∧
        (o' = o ∨ ∃ key, o' = .failure (.tooDeep limit key)) ∧
        ∀ n₁ w₁ o₁ db₁,
          query P n₁ q k (freshWith ⟨some limit⟩ w₁ assigned) = some (o₁, db₁) →
          (∀ key, o₁ ≠ .failure (.tooDeep limit key)) → o' = o₁ := by
  have hpure : P.Pure R := .of_lawful hP fun x ↦ (hR x).strict
  obtain ⟨_, hlater⟩ := Stage.later_performAll hops (.panic "")
  have hbusy := Busy.of_resting
    ((Resting.initial (.of R) ⟨some limit⟩ w).performAll hpure.steady hops)
  rw [show db.configuration = ⟨some limit⟩ from hlater.configuration_eq] at hbusy
  have hstops : ∀ {o : Outcome V}, Configuration.Stops ⟨some limit⟩ o →
      ∃ key, o = .failure (.tooDeep limit key) := by
    rintro _ ⟨_, key, ⟨⟩, rfl⟩
    exact ⟨key, rfl⟩
  refine ⟨fun a t s hlater hs ↦ hlater.depth_le hs rfl, ?_⟩
  obtain ⟨hunlimited, hholds⟩ := busy_freshWith R hassigned {} w'
  obtain ⟨_, _, hnone, _⟩ | ⟨n, o', db', hquery, hend⟩ :=
    Abreast.keepsPace hpure hR (.inr rfl) ⟨hbusy, hunlimited, hholds⟩ hfresh (by simp)
  · cases hnone
  refine ⟨n, o', db', fun m hm ↦ query_mono hm hquery, ?_, ?_⟩
  · exact hend.imp And.left fun hend ↦ hstops hend.2
  · intro n₁ w₁ o₁ db₁ hfresh₁ hkeys
    obtain ⟨hlimited, hholds₁⟩ := busy_freshWith R hassigned ⟨some limit⟩ w₁
    obtain hstops₁ | ⟨n', o'', db'', hquery', ⟨rfl, _⟩ | ⟨hnone, _⟩⟩ :=
      Abreast.keepsPace hpure hR (.inl rfl) ⟨hbusy, hlimited, hholds₁⟩ hfresh₁ (by simp)
    · obtain ⟨key, hkey⟩ := hstops hstops₁
      exact absurd hkey (hkeys key)
    · exact congrArg Prod.fst (query_unique hquery hquery')
    · cases hnone

end

end Database

/-- The foot of a mountain, and how high the camp, the ridge and the summit are above it. -/
inductive Climb
  | foot
  | camp
  | ridge
  | summit
  deriving DecidableEq

open Database

namespace Climb

def logic : Climb → Option (Recipe Climb Unit Nat)
  | foot => none
  | camp => some (.get (foot, ()) fun v ↦ .done (.value (v + 1)))
  | ridge => some (.get (camp, ()) fun v ↦ .done (.value (v + 1)))
  | summit => some (.get (ridge, ()) fun v ↦ .done (.value (v + 1)))

def program : Program Climb Unit Nat Unit := .ofRecipes (fun _ ↦ "") logic

theorem propagates (x : Climb × Unit) : (recipes (fun _ ↦ "") logic x).Propagates := by
  obtain ⟨q, ⟨⟩⟩ := x
  cases q <;> simp [recipes, logic]

/-- The summit is tried at once, then from the ridge; the foot is surveyed anew in between. -/
def attempts : List (Operation Climb Unit Nat) :=
  [.act (.edit (.set foot () 5)), .act (.inquire (.query summit ())),
    .act (.inquire (.query ridge ())), .act (.inquire (.query summit ())),
    .act (.edit (.set foot () 6)), .act (.inquire (.query summit ())),
    .act (.inquire (.query ridge ()))]

/-- At once the summit is too far, but it is reached from the ridge; and the ridge itself, which a
fresh database reaches, is reached after whatever was tried before. -/
theorem summit_from_ridge :
    ∃ replies, ∃ db : Database Climb Unit Nat Unit,
      performAll program 9 attempts { configuration := ⟨some 2⟩, outside := () } =
        some (replies, db) ∧
      db.Lists [((foot, ()), 6)] ∧
      (query program 9 summit () (freshWith ⟨some 2⟩ () [((foot, ()), 6)])).map Prod.fst =
        some (.failure (.tooDeep 2 "()")) ∧
      (query program 9 summit () db).map Prod.fst = some (.value 9) ∧
      (∀ a t s, Stage.Later program ⟨{ configuration := ⟨some 2⟩, outside := () }, .done a, []⟩ t →
        t.Shows s → s.stack.depth ≤ 2) ∧
      ∃ n db', ∀ m ≥ n, query program m ridge () db = some (.value 8, db') := by
  have hrun : (performAll program 9 attempts { configuration := ⟨some 2⟩, outside := () }).map
      (fun p ↦ ([foot, camp, ridge, summit].map (p.2.input? · ()),
        (query program 9 summit () p.2).map Prod.fst)) =
      some ([some 6, none, none, none], some (.value 9)) := by
    decide +kernel
  have htooDeep : (query program 9 summit () (freshWith ⟨some 2⟩ () [((foot, ()), 6)])).map
      Prod.fst = some (.failure (.tooDeep 2 "()")) := by
    decide +kernel
  have hunlimited : (query program 9 ridge () (fresh () [((foot, ()), 6)])).map Prod.fst =
      some (.value 8) := by
    decide +kernel
  have hlimited : (query program 9 ridge () (freshWith ⟨some 2⟩ () [((foot, ()), 6)])).map
      Prod.fst = some (.value 8) := by
    decide +kernel
  obtain ⟨⟨replies, db⟩, hops, hend⟩ := Option.map_eq_some_iff.mp hrun
  obtain ⟨hinputs, hsummit⟩ := Prod.mk.inj hend
  obtain ⟨⟨o, db₀⟩, hunlimited, rfl⟩ := Option.map_eq_some_iff.mp hunlimited
  obtain ⟨⟨o₁, db₁⟩, hlimited, rfl⟩ := Option.map_eq_some_iff.mp hlimited
  simp only [List.map_cons, List.map_nil, List.cons.injEq, and_true] at hinputs
  have hlists : db.Lists [((foot, ()), 6)] := by
    rintro q ⟨⟩ v
    cases q <;> simp [hinputs, eq_comm]
  obtain ⟨hdepth, n, o', db', hquery, _, hsame⟩ :=
    depth_limited (Program.ofRecipes_obeys (fun _ ↦ "") logic) propagates hops hlists hunlimited
  obtain rfl : o' = .value 8 := hsame 9 () _ db₁ hlimited (by simp)
  exact ⟨replies, db, hops, hlists, htooDeep, hsummit, hdepth, n, db', hquery⟩

end Climb

end Incremental
