import Incremental.Proofs.Answering

/-!
# Evaluation comes to an end

Where every kept value was yielded and circles are passed on, a read is answered as soon as the
evaluation of the query from scratch ends, with the same queries active. The answer is how that
evaluation ends. Elsewhere a read of a query that yields something is answered if every
verification ends to which it comes.
-/

namespace Incremental

variable {Q K V W : Type} [DecidableEq Q] [BEq K]

namespace Database

/-- Running a body on the database `db` comes to look up what is kept under `key` in the
database `s`. -/
inductive Comes (P : Program Q K V W) :
    Body Q K V W V → Database Q K V W → Handle → Database Q K V W → Prop
  | here {q : Q} {k : K} {next : Outcome V → Body Q K V W V} {db db₁ : Database Q K V W}
      {key : Handle} (hkey : db.intern q k = (key, db₁))
      (hactive : db₁.stack.isActive key = false) :
      Comes P (.read q k next) db key (db₁.recordRead key)
  | inside {q : Q} {k : K} {next : Outcome V → Body Q K V W V} {db db₁ db₂ s : Database Q K V W}
      {key other : Handle} {fuel : Nat} (hkey : db.intern q k = (key, db₁))
      (hactive : db₁.stack.isActive key = false)
      (hretrieve : (db₁.recordRead key).retrieve fuel key = some (none, db₂))
      (hbroken : db₂.configuration.brokenAt db₂.stack.depth = none)
      (h : Comes P (P.body q k) ((db₂.note (.miss q k)).enter q k key) other s) :
      Comes P (.read q k next) db other s
  | later {q : Q} {k : K} {next : Outcome V → Body Q K V W V} {db db₁ s : Database Q K V W}
      {other : Handle} {fuel : Nat} {a : Outcome V} (hread : query P fuel q k db = some (a, db₁))
      (h : Comes P (next a) db₁ other s) : Comes P (.read q k next) db other s
  | revision {next : Revision → Body Q K V W V} {db s : Database Q K V W} {other : Handle}
      (h : Comes P (next db.revision) db other s) : Comes P (.revision next) db other s
  | outside {change : W → W} {next : W → Body Q K V W V} {db s : Database Q K V W} {other : Handle}
      (h : Comes P (next db.outside) { db with outside := change db.outside } other s) :
      Comes P (.outside change next) db other s

/-- Every verification ends to which the body comes. -/
def Settles (P : Program Q K V W) (b : Body Q K V W V) (db : Database Q K V W) : Prop :=
  ∀ key s, Comes P b db key s → ∃ fuel r, s.retrieve fuel key = some r

theorem Settles.get_of_read {P : Program Q K V W} {q : Q} {k : K}
    {next : Outcome V → Body Q K V W V} {db : Database Q K V W}
    (h : Settles P (.read q k next) db) : Settles P (.get q k) db := by
  intro other s hs
  cases hs with
  | here hkey hactive => exact h _ _ (.here hkey hactive)
  | inside hkey hactive hretrieve hbroken hs =>
      exact h _ _ (.inside hkey hactive hretrieve hbroken hs)
  | later _ hs => cases hs

/-- A single read comes to look for its own key, if that is idle, and to what its body comes to. -/
theorem Comes.get_cases {P : Program Q K V W} {q : Q} {k : K} {key other : Handle}
    {db db₁ s : Database Q K V W} (h : Comes P (.get q k) db other s)
    (hkey : db.intern q k = (key, db₁)) : db₁.stack.isActive key = false ∧
      (other = key ∧ s = db₁.recordRead key ∨ ∃ fuel db₂,
        (db₁.recordRead key).retrieve fuel key = some (none, db₂) ∧
        db₂.configuration.brokenAt db₂.stack.depth = none ∧
        Comes P (P.body q k) ((db₂.note (.miss q k)).enter q k key) other s) := by
  cases h with
  | here hkey' hactive =>
      obtain ⟨rfl, rfl⟩ := Prod.mk.inj (hkey.symm.trans hkey')
      exact ⟨hactive, .inl ⟨rfl, rfl⟩⟩
  | inside hkey' hactive hretrieve hbroken h =>
      obtain ⟨rfl, rfl⟩ := Prod.mk.inj (hkey.symm.trans hkey')
      exact ⟨hactive, .inr ⟨_, _, hretrieve, hbroken, h⟩⟩
  | later _ h => cases h

/-- What is answered or runs to its end has come only to verifications that end. -/
theorem settles_course {P : Program Q K V W} : Course P (fun q k db _ _ ↦ Settles P (.get q k) db)
    (fun b db _ _ ↦ Settles P b db) where
  refused := by
    intro fuel q k db key db₁ hkey hactive _ other s hs
    have hidle := (hs.get_cases hkey).1
    rw [hactive] at hidle
    cases hidle
  hit := by
    intro fuel n q k db key db₁ v r db₂ hkey _ hretrieve _ other s hs
    obtain ⟨_, ⟨rfl, rfl⟩ | ⟨_, _, hretrieve', _⟩⟩ := hs.get_cases hkey
    · exact ⟨n, _, hretrieve⟩
    · cases retrieve_unique hretrieve hretrieve'
  tooDeep := by
    intro fuel n q k db key db₁ db₂ limit hkey _ hretrieve hbroken _ other s hs
    obtain ⟨_, ⟨rfl, rfl⟩ | ⟨_, _, hretrieve', hbroken', _⟩⟩ := hs.get_cases hkey
    · exact ⟨n, _, hretrieve⟩
    · cases retrieve_unique hretrieve hretrieve'
      rw [hbroken] at hbroken'
      cases hbroken'
  computed := by
    intro fuel n q k db key db₁ db₂ o db₃ hkey _ hretrieve _ _ _ hbody other s hs
    obtain ⟨_, ⟨rfl, rfl⟩ | ⟨_, _, hretrieve', _, hs⟩⟩ := hs.get_cases hkey
    · exact ⟨n, _, hretrieve⟩
    · cases retrieve_unique hretrieve hretrieve'
      exact hbody other s hs
  done := by
    rintro o db other s ⟨⟩
  read := by
    intro fuel q k next db a db₁ o db₂ hread _ hsettles hrest other s hs
    cases hs with
    | here hkey hactive => exact hsettles _ _ (.here hkey hactive)
    | inside hkey hactive hretrieve hbroken hs =>
        exact hsettles _ _ (.inside hkey hactive hretrieve hbroken hs)
    | later hread' hs =>
        cases query_unique hread hread'
        exact hrest other s hs
  revision := by
    intro next db o db₁ hrest other s hs
    cases hs with
    | revision hs => exact hrest other s hs
  outside := by
    intro change next db o db₁ hrest other s hs
    cases hs with
    | outside hs => exact hrest other s hs

/-- Where a query is answered, every verification has ended to which it came. -/
theorem Settles.of_query {P : Program Q K V W} {fuel : Nat} {q : Q} {k : K}
    {db db' : Database Q K V W} {o : Outcome V} (h : query P fuel q k db = some (o, db')) :
    Settles P (.get q k) db :=
  settles_course.query h

end Database

namespace Scene

variable {c : Scene Q K V W} {active : List (Q × K)} {q : Q} {k : K} {x : Q × K} {o : Outcome V}
  {db db₁ db₂ : Database Q K V W} {key : Handle}

omit [DecidableEq Q] [BEq K] in
theorem Allows.of_tame (ht : c.tame) (hpasses : PassesCircles c.recipe c.inputs)
    (keys : List Handle) (s : Store Q K V) (events : List (Event Q K)) : c.Allows keys s events :=
  ⟨fun _ ↦ .inl hpasses, fun hn ↦ absurd ht hn⟩

variable [LawfulBEq K]

/-- A read is answered if the body ends where the read is not answered from memory. -/
theorem exists_query_of_body (h : c.Ready active (q, k) db) (hkey : db.intern q k = (key, db₁))
    (hactive : db₁.stack.isActive key = false)
    (hretrieve : c.tame ∨ ∃ fuel r, (db₁.recordRead key).retrieve fuel key = some r)
    (hbody : ∀ fuel db₂, (db₁.recordRead key).retrieve fuel key = some (none, db₂) →
      ∃ fuel r, (c.program.body q k).run (Database.query c.program fuel)
        ((db₂.note (.miss q k)).enter q k key) = some r) :
    ∃ fuel o db', Database.query c.program fuel q k db = some (o, db') := by
  have hready := h.record hkey
  have hname : db₁.store.named? key = some (q, k) := Database.named?_of_intern hkey
  obtain ⟨fuel, ⟨r, db₂⟩, hretrieve⟩ := hretrieve.elim
    (fun ht ↦ Database.exists_retrieve ht hready.revision hready.faithful hname) id
  cases r with
  | some p => exact ⟨_, _, _, Database.query_of_hit hkey hactive hretrieve⟩
  | none =>
      obtain ⟨fuel', r, hrun⟩ := hbody fuel db₂ hretrieve
      have hbroken := unbroken_of_retrieve h.toOrderly hkey hretrieve
      exact ⟨_, _, _, Database.query_of_run hkey hactive hretrieve hbroken hrun⟩

variable (c) in
/-- Where verifications end, a read of `p.1` is answered with `p.2`. -/
def Answers (active : List (Q × K)) (p : (Q × K) × Outcome V) : Prop :=
  ∀ db, c.Ready active p.1 db → c.tame ∨ Database.Settles c.program (.get p.1.1 p.1.2) db →
    ∃ fuel db', Database.query c.program fuel p.1.1 p.1.2 db = some (p.2, db')

theorem Running.exists_run
    (hsure : (c.tame ∧ PassesCircles c.recipe c.inputs) ∨ ∃ o', c.Yields x o')
    {outer : CallStack} {b : Body Q K V W V} {t : Recipe Q K V} (hobeys : b.Obeys t)
    {ys zs : List ((Q × K) × Outcome V)} (hys : (c.recipe x).Trace ys t)
    (hzs : t.Trace zs (.done o)) {frame : Frame} (h : c.Running outer active x ys frame db)
    (hend : c.Tracks x ys frame db.store ∨ c.Spent x t db.events)
    (hsettles : c.tame ∨ Database.Settles c.program b db)
    (hreads : ∀ p ∈ zs, c.Answers (active ++ [x]) p) :
    ∃ fuel r, b.run (Database.query c.program fuel) db = some r := by
  induction b generalizing t ys zs frame db with
  | done outcome => exact ⟨0, _, rfl⟩
  | read q k next ih =>
      cases hobeys with
      | read hobeys =>
          cases hzs with
          | @cons _ _ a zs _ hzs =>
              have hready := h.ready hys hend
              obtain ⟨fuel, db₁, hread⟩ := hreads _ List.mem_cons_self db hready
                (hsettles.imp_right Database.Settles.get_of_read)
              have hans := query_answered hread hready (hsure.symm.imp (h.yields_next hys hend)
                fun hpasses ↦ Allows.of_tame hpasses.1 hpasses.2 _ _ _)
              obtain ⟨hs₁, hf₁⟩ := h.sound.query hread
              obtain ⟨frame', h₁, hend₁⟩ := h.next hys hend hans hs₁ hf₁
                (hsure.symm.imp_right fun hpasses _ ↦ .inl hpasses.2)
              obtain ⟨fuel', r, hrest⟩ := ih a (hobeys a) (hys.snoc a) hzs h₁ hend₁
                (hsettles.imp_right fun hsettles key s hs ↦ hsettles key s (.later hread hs))
                fun p hp ↦ hreads p (List.mem_cons_of_mem _ hp)
              exact ⟨max fuel fuel', r, Database.run_read hread hrest⟩
  | revision next ih =>
      cases hobeys with
      | revision hobeys =>
          exact ih db.revision (hobeys _) hys hzs h hend
            (hsettles.imp_right fun hsettles key s hs ↦ hsettles key s (.revision hs)) hreads
  | outside change next ih =>
      cases hobeys with
      | outside hobeys =>
          have h' : c.Running outer active x ys frame { db with outside := change db.outside } :=
            { h with sound := h.sound.of_eq rfl rfl rfl }
          exact ih db.outside (hobeys _) hys hzs h' hend
            (hsettles.imp_right fun hsettles key s hs ↦ hsettles key s (.outside hs)) hreads

/-- A read of what is not under evaluation is answered if every read is that its recipe comes to. -/
theorem exists_query_of_reads
    (hsure : (c.tame ∧ PassesCircles c.recipe c.inputs) ∨ ∃ o', c.Yields x o')
    (hx : x ∉ active) (hready : c.Ready active x db)
    (hsettles : c.tame ∨ Database.Settles c.program (.get x.1 x.2) db)
    (hreads : c.inputs x = none → ∃ ys o, (c.recipe x).Trace ys (.done o) ∧
      ∀ p ∈ ys, c.Answers (active ++ [x]) p) :
    ∃ fuel o' db', Database.query c.program fuel x.1 x.2 db = some (o', db') := by
  obtain ⟨key, db₁, hkey⟩ : ∃ key db₁, db.intern x.1 x.2 = (key, db₁) := ⟨_, _, rfl⟩
  have hactive : db₁.stack.isActive key = false := by
    rw [← Bool.not_eq_true, hready.isActive_intern hkey]
    exact hx
  refine exists_query_of_body hready hkey hactive
    (hsettles.imp_right fun hsettles ↦ hsettles _ _ (.here hkey hactive))
    fun fuel db₂ hretrieve ↦ ?_
  have henter := Running.enter hready hkey hactive hretrieve
  have hbroken := unbroken_of_retrieve hready.toOrderly hkey hretrieve
  obtain ⟨ys, o, htrace, hreads⟩ := hreads henter.notInput
  exact henter.exists_run hsure (c.obeys x.1 x.2) (.nil _) htrace
    (.inl ⟨fun _ p hp ↦ absurd hp (by simp), fun _ _ _ ↦ trivial⟩)
    (hsettles.imp_right fun hsettles other s hs ↦
      hsettles other s (.inside hkey hactive hretrieve hbroken hs)) hreads

/-- A read is answered as soon as the evaluation from scratch ends. -/
theorem Ends.answers (hends : c.Ends active x o) (ht : c.tame)
    (hpasses : PassesCircles c.recipe c.inputs) : c.Answers active (x, o) := by
  have hunique : ∀ {active x o}, c.Ends active x o → ∀ db, c.Ready active x db →
      (∃ fuel o' db', Database.query c.program fuel x.1 x.2 db = some (o', db')) →
      ∃ fuel db', Database.query c.program fuel x.1 x.2 db = some (o, db') := by
    rintro active x o hends db hready ⟨fuel, o', db', hquery⟩
    have hans := query_answered hquery hready (.inr (.of_tame ht hpasses _ _ _))
    rw [(hans.ends ht).unique hends] at hquery
    exact ⟨fuel, db', hquery⟩
  induction hends with
  | @refused active x hmem =>
      intro db hready _
      obtain ⟨key, db₁, hkey⟩ : ∃ key db₁, db.intern x.1 x.2 = (key, db₁) := ⟨_, _, rfl⟩
      exact hunique (.refused hmem) db hready
        ⟨1, _, _, Database.query_of_active hkey ((hready.isActive_intern hkey).2 hmem) 0⟩
  | @input active x v hmem hx =>
      intro db hready hsettles
      exact hunique (.input hmem hx) db hready (exists_query_of_reads (.inl ⟨ht, hpasses⟩) hmem
        hready hsettles fun hnone ↦ absurd hx (by simp [hnone]))
  | @computed active x o ys hmem hx htrace hys ih =>
      intro db hready hsettles
      exact hunique (.computed hmem hx htrace hys) db hready
        (exists_query_of_reads (.inl ⟨ht, hpasses⟩) hmem hready hsettles
          fun _ ↦ ⟨ys, o, htrace, ih⟩)

/-- A read of what yields something is answered with it if every verification ends to which it
comes. -/
theorem Yields.answers (hyields : c.Yields x o) : ∀ active, c.Answers active (x, o) := by
  have hunique : ∀ {active x o}, c.Yields x o → ∀ db, c.Ready active x db →
      (∃ fuel o' db', Database.query c.program fuel x.1 x.2 db = some (o', db')) →
      ∃ fuel db', Database.query c.program fuel x.1 x.2 db = some (o, db') := by
    rintro active x o hyields db hready ⟨fuel, o', db', hquery⟩
    have hans := query_answered hquery hready (.inl ⟨o, hyields⟩)
    rw [(hans.agrees o hyields).1] at hquery
    exact ⟨fuel, db', hquery⟩
  induction hyields with
  | @input x v hx =>
      intro active db hready hsettles
      have hyields : c.Yields x (.value v) := .input hx
      exact hunique hyields db hready (exists_query_of_reads (.inr ⟨_, hyields⟩)
        (fun hmem ↦ (hready.not_active hyields hmem).1 rfl) hready hsettles fun hnone ↦
          absurd hx (by simp [hnone]))
  | @computed x o ys hx htrace hys ih =>
      intro active db hready hsettles
      have hyields : c.Yields x o := .computed hx htrace hys
      exact hunique hyields db hready (exists_query_of_reads (.inr ⟨o, hyields⟩)
        (fun hmem ↦ (hready.not_active hyields hmem).1 rfl) hready hsettles fun _ ↦
          ⟨ys, o, htrace, fun p hp ↦ ih p hp _⟩)

end Scene

end Incremental
