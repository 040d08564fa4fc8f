import Incremental.Proofs.Fresh
import Incremental.Proofs.Recall
import Incremental.Proofs.Underway

/-!
# Databases that mirror each other

Two databases that keep equal values for equal queries, all of them known to stand, answer every
query in the same way and begin the same bodies for it, whatever the stamps and the handles of
their rows are. The bodies may handle failures, circles and panics and touch the outside state, as
long as they do not ask for the revision. So dropping all computed values makes a database as good
as a new one.
-/

namespace Incremental

variable {Q K V W : Type}

/-- The body does not ask for the revision, however its reads are answered. -/
def Body.Timeless {α : Type} : Body Q K V W α → Prop
  | done _ => True
  | Body.read _ _ next => ∀ answer, (next answer).Timeless
  | revision _ => False
  | outside _ next => ∀ w, (next w).Timeless

def Program.Timeless (P : Program Q K V W) : Prop := ∀ q k, (P.body q k).Timeless

namespace Database

variable [DecidableEq Q] [BEq K]

/-- The value that is kept for query `q` at `k`, be it assigned or computed. -/
def value? (db : Database Q K V W) (q : Q) (k : K) : Option V := (db.memo? q k).map Memo.value

/-- A database on which the listed values were assigned in turn, and nothing else was done. -/
def freshWith (configuration : Configuration) (w : W) (assigned : List ((Q × K) × V)) :
    Database Q K V W :=
  assigned.foldl (fun db p ↦ db.set p.1.1 p.1.2 p.2) { configuration, outside := w }

/-- Asks the queries in turn. Of each it is told what it came to, and which bodies were begun for
it. -/
def askAll (P : Program Q K V W) (fuel : Nat) :
    List (Q × K) → Database Q K V W → Option (List (Outcome V × List (Q × K)))
  | [], _ => some []
  | x :: queries, db =>
    (query P fuel x.1 x.2 db).bind fun (o, db') ↦
      (askAll P fuel queries db').map ((o, db'.begun.drop db.begun.length) :: ·)

section

variable {P : Program Q K V W} {fuel fuel' : Nat} {x : Q × K} {queries : List (Q × K)}
  {db db' : Database Q K V W} {o : Outcome V} {answers : List (Outcome V × List (Q × K))}

theorem askAll_cons (h : query P fuel x.1 x.2 db = some (o, db')) :
    askAll P fuel (x :: queries) db =
      (askAll P fuel queries db').map ((o, db'.begun.drop db.begun.length) :: ·) := by
  rw [askAll, h]
  rfl

theorem askAll_mono (hle : fuel ≤ fuel') (h : askAll P fuel queries db = some answers) :
    askAll P fuel' queries db = some answers := by
  induction queries generalizing db answers with
  | nil => exact h
  | cons x queries ih =>
      obtain ⟨⟨o, db₁⟩, hquery, hask⟩ := Option.bind_eq_some_iff.mp h
      obtain ⟨rest, hrest, rfl⟩ := Option.map_eq_some_iff.mp hask
      rw [askAll_cons (query_mono hle hquery), ih hrest, Option.map_some]

end

/-- Sound, with `active` under evaluation and nothing kept that is not known to stand. -/
structure Current (active : List (Q × K)) (db : Database Q K V W) : Prop where
  sound : db.Sound
  underway : Underway active db
  current : ∀ key m, db.store.memo? key = some m → m.IsCurrent db.revision

/-- The same values are kept, and no body was begun in between. -/
structure Still (db db' : Database Q K V W) : Prop where
  configuration : db'.configuration = db.configuration
  outside : db'.outside = db.outside
  values : ∀ q k, db'.value? q k = db.value? q k
  begun : db'.begun = db.begun

/-- The same values are kept in both, and since `past` and `past'` were begun in them, the same
bodies were begun. -/
structure Mirrors (past past' : List (Q × K)) (db db' : Database Q K V W) : Prop where
  configuration : db'.configuration = db.configuration
  outside : db'.outside = db.outside
  values : ∀ q k, db'.value? q k = db.value? q k
  begun : ∃ new, db.begun = past ++ new ∧ db'.begun = past' ++ new

variable {db db₁ db₂ db' : Database Q K V W} {active : List (Q × K)} {key : Handle} {q : Q} {k : K}

theorem value?_congr (hlookup : ∀ q k, db'.store.lookup? q k = db.store.lookup? q k)
    (hmemo : ∀ key, (db'.store.memo? key).map Memo.value = (db.store.memo? key).map Memo.value)
    (q : Q) (k : K) : db'.value? q k = db.value? q k := by
  rw [value?, value?, memo?, memo?, hlookup]
  cases db.store.lookup? q k with
  | none => rfl
  | some key => exact hmemo key

theorem value?_insert_self (hkey : db.store.lookup? q k = some key) (m : Memo V) :
    value? { db with store := db.store.insert key m } q k = some m.value := by
  have hfound : (db.store.insert key m).lookup? q k = some key :=
    (Store.lookup?_insert ..).trans hkey
  simp only [value?, memo?, hfound, Option.bind_some,
    Store.memo?_insert_self (Store.has_of_lookup? hkey), Option.map_some]

theorem value?_insert_of_ne [LawfulBEq K] (hkey : db.store.lookup? q k = some key) {q' : Q} {k' : K}
    (hne : (q', k') ≠ (q, k)) (m : Memo V) :
    value? { db with store := db.store.insert key m } q' k' = db.value? q' k' := by
  have hlookup : (db.store.insert key m).lookup? q' k' = db.store.lookup? q' k' :=
    Store.lookup?_insert ..
  simp only [value?, memo?, hlookup]
  cases hfound : db.store.lookup? q' k' with
  | none => rfl
  | some other =>
      have hother : key ≠ other := by
        rintro rfl
        exact hne (Store.eq_of_lookup? hfound hkey)
      rw [Option.bind_some, Option.bind_some, Store.memo?_insert_of_ne _ hother]

namespace Still

theorem trans (h : db.Still db₁) (h' : db₁.Still db₂) : db.Still db₂ :=
  ⟨h'.configuration.trans h.configuration, h'.outside.trans h.outside,
    fun q k ↦ (h'.values q k).trans (h.values q k), h'.begun.trans h.begun⟩

theorem note {event : Event Q K} (h : event.started? = none) (db : Database Q K V W) :
    db.Still (db.note event) :=
  ⟨rfl, rfl, fun _ _ ↦ rfl, begun_note_of_none h db⟩

theorem of_stack (db : Database Q K V W) (stack : CallStack) : db.Still { db with stack } :=
  ⟨rfl, rfl, fun _ _ ↦ rfl, rfl⟩

theorem intern [EquivBEq K] (hdb : db.Sound) (hkey : db.intern q k = (key, db₁)) :
    db.Still db₁ := by
  obtain rfl : (db.intern q k).2 = db₁ := congrArg Prod.snd hkey
  refine ⟨rfl, rfl, fun q' k' ↦ ?_, rfl⟩
  have hkeeps := (Follows.intern db q k).store.keeps
  rw [value?, value?, memo?, memo?]
  cases hfound : (db.intern q k).2.store.lookup? q' k' with
  | none =>
      cases hold : db.store.lookup? q' k' with
      | none => rfl
      | some other =>
          have hnew : (db.intern q k).2.store.lookup? q' k' = some other :=
            Store.lookup?_intern hold q k
          rw [hfound] at hnew
          cases hnew
  | some other =>
      have hmemo : (db.intern q k).2.store.memo? other = db.store.memo? other :=
        Store.memo?_intern db.store q k other
      rw [Option.bind_some, hmemo]
      rcases hkeeps.lookup?_cases hdb.store.indexed (hdb.intern q k).store.indexed hfound with
        hold | ⟨hold, hnew⟩
      · rw [hold, Option.bind_some]
      · rw [hold, Store.memo?_of_not_has hnew]
        rfl

theorem retrieve {fuel : Nat} {r : Option (V × Revision)}
    (h : db.retrieve fuel key = some (r, db₁)) : db.Still db₁ := by
  have hv := retrieve_verifies h
  refine ⟨hv.configuration_eq, by rw [hv.rest], ?_, retrieve_begun h⟩
  refine value?_congr (fun q k ↦ Store.lookup?_congr hv.store.arguments) fun other ↦ ?_
  rcases hv.store.memo other with heq | heq
  · rw [heq]
  · rw [heq]
    cases db.store.memo? other <;> simp

/-- To look for what is kept changes nothing of it. -/
theorem read [EquivBEq K] (hdb : db.Sound) (hkey : db.intern q k = (key, db₁)) {fuel : Nat}
    {r : Option (V × Revision)}
    (hretrieve : (db₁.recordRead key).retrieve fuel key = some (r, db₂)) : db.Still db₂ :=
  ((intern hdb hkey).trans (of_stack db₁ _)).trans (retrieve hretrieve)

end Still

namespace Current

theorem follows (h : Current active db) (hf : db.Follows db') (hdb' : db'.Sound) :
    Current active db' := by
  refine ⟨hdb', h.underway.follows hf, fun key m hm ↦ ?_⟩
  rw [hf.revision]
  rcases hf.store.memo key with heq | ⟨⟨v, c, reads, hnew⟩, _⟩
  · exact h.current key m (heq ▸ hm)
  · cases hnew.symm.trans hm
    rfl

theorem enter (h : Current active db) (hkey : db.store.named? key = some (q, k)) :
    Current (active ++ [(q, k)]) (db.enter q k key) :=
  ⟨h.sound.enter ⟨_, hkey⟩ q k, h.underway.enter hkey q k, h.current⟩

section

variable [ReflBEq K]

theorem intern (h : Current active db) (hkey : db.intern q k = (key, db₁)) :
    Current active db₁ := by
  obtain rfl : (db.intern q k).2 = db₁ := congrArg Prod.snd hkey
  exact h.follows (.intern db q k) (h.sound.intern q k)

theorem read (h : Current active db) (hkey : db.intern q k = (key, db₁)) {fuel : Nat}
    {r : Option (V × Revision)}
    (hretrieve : (db₁.recordRead key).retrieve fuel key = some (r, db₂)) : Current active db₂ := by
  obtain ⟨hrecord, hf⟩ := h.sound.record hkey
  have hv := retrieve_verifies hretrieve
  exact h.follows (hf.trans (.of_verifies hv)) (hrecord.verifies hv)

theorem query (h : Current active db) {P : Program Q K V W} {fuel : Nat} {o : Outcome V}
    (hquery : query P fuel q k db = some (o, db')) : Current active db' := by
  obtain ⟨hdb', hf⟩ := h.sound.query hquery
  exact h.follows hf hdb'

end

variable [EquivBEq K]

/-- Where all is known to stand, what is kept is retrieved at once. -/
theorem exists_retrieve (h : Current active db) (hkey : db.intern q k = (key, db₁)) :
    ∃ r db₂, (db₁.recordRead key).retrieve 1 key = some (r, db₂) ∧
      r.map Prod.fst = db.value? q k := by
  have hdb₁ := h.intern hkey
  obtain ⟨db₂, hretrieve⟩ := exists_retrieve_of_current (db₁.recordRead key) key
    (hdb₁.current key) fun v c w reads hm ↦ (hdb₁.sound.store.derived key v c w reads hm).2.1
  refine ⟨_, db₂, hretrieve 1 (Nat.le_refl 1), ?_⟩
  rw [← (Still.intern h.sound hkey).values q k, value?, memo?, lookup?_of_intern hkey,
    Option.map_map, Option.bind_some]
  rfl

theorem value?_of_retrieve (h : Current active db) (hkey : db.intern q k = (key, db₁)) {fuel : Nat}
    {r : Option (V × Revision)}
    (hretrieve : (db₁.recordRead key).retrieve fuel key = some (r, db₂)) :
    db.value? q k = r.map Prod.fst := by
  obtain ⟨r', db₂', hretrieve', hvalue⟩ := h.exists_retrieve hkey
  cases retrieve_unique hretrieve hretrieve'
  exact hvalue.symm

end Current

namespace Mirrors

variable {past past' : List (Q × K)}

theorem symm (h : Mirrors past past' db db') : Mirrors past' past db' db := by
  obtain ⟨new, hbegun, hbegun'⟩ := h.begun
  exact ⟨h.configuration.symm, h.outside.symm, fun q k ↦ (h.values q k).symm, new, hbegun', hbegun⟩

/-- To begin with, whatever was begun so far is past. -/
theorem start (h : Mirrors past past' db db') : Mirrors db.begun db'.begun db db' :=
  ⟨h.configuration, h.outside, h.values, [], by simp⟩

theorem still (h : Mirrors past past' db db') {db₁' : Database Q K V W} (hdb : db.Still db₁)
    (hdb' : db'.Still db₁') : Mirrors past past' db₁ db₁' := by
  refine ⟨?_, ?_, fun q k ↦ ?_, ?_⟩
  · rw [hdb.configuration, hdb'.configuration, h.configuration]
  · rw [hdb.outside, hdb'.outside, h.outside]
  · rw [hdb.values, hdb'.values, h.values]
  · rw [hdb.begun, hdb'.begun]
    exact h.begun

theorem outside_congr (h : Mirrors past past' db db') (change : W → W) :
    Mirrors past past' { db with outside := change db.outside }
      { db' with outside := change db'.outside } :=
  ⟨h.configuration, congrArg change h.outside, h.values, h.begun⟩

theorem enter (h : Mirrors past past' db db') (q : Q) (k : K) (key key' : Handle) :
    Mirrors past past' (db.enter q k key) (db'.enter q k key') := by
  obtain ⟨new, hbegun, hbegun'⟩ := h.begun
  refine ⟨h.configuration, h.outside, h.values, new ++ [(q, k)], ?_, ?_⟩
  · rw [begun_enter, hbegun, List.append_assoc]
  · rw [begun_enter, hbegun', List.append_assoc]

section

variable [LawfulBEq K] {db₁' db₂' : Database Q K V W} {key' : Handle} {fuel : Nat}

/-- What one of the databases has found for a read, the other finds at once. -/
theorem exists_read (h : Mirrors past past' db db') (hdb : Current active db)
    (hdb' : Current active db') (hkey : db.intern q k = (key, db₁))
    (hactive : db₁.stack.isActive key = false) {r : Option (V × Revision)}
    (hretrieve : (db₁.recordRead key).retrieve fuel key = some (r, db₂)) :
    ∃ key' db₁' r' db₂', db'.intern q k = (key', db₁') ∧ db₁'.stack.isActive key' = false ∧
      (db₁'.recordRead key').retrieve 1 key' = some (r', db₂') ∧
      r'.map Prod.fst = r.map Prod.fst ∧ Mirrors past past' db₂ db₂' ∧ Current active db₂ ∧
      Current active db₂' ∧ db₂.store.named? key = some (q, k) ∧
      db₂'.store.named? key' = some (q, k) := by
  obtain ⟨key', db₁', hkey'⟩ : ∃ key' db₁', db'.intern q k = (key', db₁') := ⟨_, _, rfl⟩
  obtain ⟨r', db₂', hretrieve', hvalue⟩ := hdb'.exists_retrieve hkey'
  have hname := named?_of_intern hkey
  have hname' := named?_of_intern hkey'
  have hactive' : db₁'.stack.isActive key' = false := by
    rw [hdb.underway.isActive_eq_false_of_intern hdb.sound hkey] at hactive
    rwa [hdb'.underway.isActive_eq_false_of_intern hdb'.sound hkey']
  refine ⟨key', db₁', r', db₂', hkey', hactive', hretrieve', ?_, ?_, hdb.read hkey hretrieve,
    hdb'.read hkey' hretrieve', ?_, ?_⟩
  · rw [hvalue, h.values, hdb.value?_of_retrieve hkey hretrieve]
  · exact h.still (.read hdb.sound hkey hretrieve) (.read hdb'.sound hkey' hretrieve')
  · exact ((retrieve_verifies hretrieve).store.named?_eq key).trans hname
  · exact ((retrieve_verifies hretrieve').store.named?_eq key').trans hname'

/-- The databases mirror each other after a query was computed in both, with the same outcome. -/
theorem ended (h : Mirrors past past' db db') {stack stack' : CallStack} {frame frame' : Frame}
    (hstack : db.stack = ⟨frame :: stack.frames, frame.key :: stack.active⟩)
    (hstack' : db'.stack = ⟨frame' :: stack'.frames, frame'.key :: stack'.active⟩)
    (hkey : db.store.lookup? q k = some frame.key)
    (hkey' : db'.store.lookup? q k = some frame'.key) (o : Outcome V) :
    Mirrors past past' (leave frame.key stack.depth (o, db)).2
      (leave frame'.key stack'.depth (o, db')).2 := by
  cases o with
  | panic message =>
      rw [leave_panic hstack, leave_panic hstack']
      exact h.still ((Still.of_stack db _).trans (.note rfl _))
        ((Still.of_stack db' _).trans (.note rfl _))
  | failure f =>
      rw [leave_failure hstack, leave_failure hstack']
      exact h.still (.of_stack db _) (.of_stack db' _)
  | value v =>
      rw [leave_value hstack, leave_value hstack']
      refine ⟨h.configuration, h.outside, fun q' k' ↦ ?_, ?_⟩
      · change value? { db' with store := db'.store.insert frame'.key _ } q' k' =
          value? { db with store := db.store.insert frame.key _ } q' k'
        by_cases hx : (q', k') = (q, k)
        · cases hx
          rw [value?_insert_self hkey, value?_insert_self hkey']
          rfl
        · rw [value?_insert_of_ne hkey hx, value?_insert_of_ne hkey' hx, h.values]
      · obtain ⟨new, hbegun, hbegun'⟩ := h.begun
        refine ⟨new, ?_, ?_⟩
        · exact (begun_note_of_none rfl _).trans hbegun
        · exact (begun_note_of_none rfl _).trans hbegun'

/-- Databases that mirror each other, with the same queries under evaluation, answer a query
alike, and mirror each other afterwards. -/
theorem query_course {P : Program Q K V W} (hP : P.Timeless) (past past' : List (Q × K)) :
    Course P
    (fun q k db o db₁ ↦ ∀ active db', Current active db → Current active db' →
      Mirrors past past' db db' →
      ∃ n db₁', query P n q k db' = some (o, db₁') ∧ Mirrors past past' db₁ db₁')
    (fun b db o db₁ ↦ b.Timeless → ∀ active db', Current active db → Current active db' →
      Mirrors past past' db db' →
      ∃ n db₁', b.run (query P n) db' = some (o, db₁') ∧ Mirrors past past' db₁ db₁') where
  refused := by
    intro fuel q k db key db₁ hkey hactive _ active db' hdb hdb' h
    obtain ⟨key', db₁', hkey'⟩ : ∃ key' db₁', db'.intern q k = (key', db₁') := ⟨_, _, rfl⟩
    rw [hdb.underway.isActive_iff_of_intern hdb.sound hkey] at hactive
    rw [← hdb'.underway.isActive_iff_of_intern hdb'.sound hkey'] at hactive
    obtain ⟨n, hquery⟩ := (AnswersAtOnce.refused (P := P) hkey' hactive).exists_query
    rw [hdb'.underway.circle_of_intern P hkey', ← hdb.underway.circle_of_intern P hkey] at hquery
    refine ⟨n, _, hquery, ?_⟩
    exact h.still ((Still.intern hdb.sound hkey).trans (.note rfl _))
      ((Still.intern hdb'.sound hkey').trans (.note rfl _))
  hit := by
    intro fuel n q k db key db₁ v c db₂ hkey hactive hretrieve _ active db' hdb hdb' h
    obtain ⟨key', db₁', r', db₂', hkey', hactive', hretrieve', hvalue, hmirrors, _⟩ :=
      h.exists_read hdb hdb' hkey hactive hretrieve
    obtain ⟨⟨v', c'⟩, rfl, rfl⟩ : ∃ p, r' = some p ∧ p.1 = v := Option.map_eq_some_iff.mp hvalue
    obtain ⟨n, hquery⟩ := (AnswersAtOnce.hit (P := P) hkey' hactive' hretrieve').exists_query
    refine ⟨n, _, hquery, ?_⟩
    exact hmirrors.still ((Still.note rfl db₂).trans (.of_stack _ _))
      ((Still.note rfl db₂').trans (.of_stack _ _))
  tooDeep := by
    intro fuel n q k db key db₁ db₂ limit hkey hactive hretrieve hbroken _ active db' hdb hdb' h
    obtain ⟨key', db₁', r', db₂', hkey', hactive', hretrieve', hvalue, hmirrors, hdb₂, hdb₂',
      hname, hname'⟩ := h.exists_read hdb hdb' hkey hactive hretrieve
    obtain rfl : r' = none := Option.map_eq_none_iff.mp hvalue
    rw [← hmirrors.configuration, hdb₂.underway.depth_eq, ← hdb₂'.underway.depth_eq] at hbroken
    obtain ⟨n, hquery⟩ :=
      (AnswersAtOnce.tooDeep (P := P) hkey' hactive' hretrieve' hbroken).exists_query
    have hlabel : db₂'.label P key' = db₂.label P key :=
      (Store.label_of_named? P hname').trans (Store.label_of_named? P hname).symm
    rw [hlabel] at hquery
    refine ⟨n, _, hquery, ?_⟩
    exact hmirrors.still (.note rfl db₂) (.note rfl db₂')
  computed := by
    intro fuel n q k db key db₁ db₂ o db₃ hkey hactive hretrieve hbroken hrun _ ih active db' hdb
      hdb' h
    obtain ⟨key', db₁', r', db₂', hkey', hactive', hretrieve', hvalue, hmirrors, hdb₂, hdb₂',
      hname, hname'⟩ := h.exists_read hdb hdb' hkey hactive hretrieve
    obtain rfl : r' = none := Option.map_eq_none_iff.mp hvalue
    rw [← hmirrors.configuration, hdb₂.underway.depth_eq, ← hdb₂'.underway.depth_eq] at hbroken
    have hmiss := hdb₂.follows (.note db₂ (.miss q k)) (hdb₂.sound.note _)
    have hmiss' := hdb₂'.follows (.note db₂' (.miss q k)) (hdb₂'.sound.note _)
    have hbegin : Mirrors past past' (db₂.note (.miss q k)) (db₂'.note (.miss q k)) :=
      hmirrors.still (.note rfl db₂) (.note rfl db₂')
    obtain ⟨n, db₃', hrun', hend⟩ :=
      ih (hP q k) _ _ (hmiss.enter hname) (hmiss'.enter hname') (hbegin.enter q k key key')
    have hquery := query_of_run hkey' hactive' hretrieve' hbroken hrun'
    obtain ⟨_, hfound, _, frame, rfl, hstack⟩ := hdb.sound.ran hkey hretrieve hrun
    obtain ⟨_, hfound', _, frame', rfl, hstack'⟩ := hdb'.sound.ran hkey' hretrieve' hrun'
    have houtcome := leave_outcome hstack o
    have houtcome' := leave_outcome hstack' o
    have hsame : leave frame'.key db₂'.stack.depth (o, db₃') =
        ((leave frame.key db₂.stack.depth (o, db₃)).1,
          (leave frame'.key db₂'.stack.depth (o, db₃')).2) :=
      Prod.ext (houtcome'.trans houtcome.symm) rfl
    exact ⟨_, _, hquery.trans (congrArg some hsame),
      hend.ended hstack hstack' hfound hfound' o⟩
  done := fun _ _ _ _ db' _ _ h ↦ ⟨0, db', rfl, h⟩
  read := by
    intro fuel q k next db a db₁ o db₂ hquery _ hread hruns hb active db' hdb hdb' h
    obtain ⟨n, db₁', hquery', h₁⟩ := hread active db' hdb hdb' h
    obtain ⟨n', db₂', hrun', h₂⟩ :=
      hruns (hb a) active db₁' (hdb.query hquery) (hdb'.query hquery') h₁
    exact ⟨max n n', db₂', run_read hquery' hrun', h₂⟩
  revision := fun _ _ _ _ _ hb ↦ hb.elim
  outside := by
    intro change next db o db₁ ih hb active db' hdb hdb' h
    have hdb₁ := hdb.follows (.outside db (change db.outside)) (hdb.sound.of_eq rfl rfl rfl)
    have hdb₁' := hdb'.follows (.outside db' (change db'.outside)) (hdb'.sound.of_eq rfl rfl rfl)
    obtain ⟨n, db₁', hrun, h₁⟩ :=
      ih (hb db.outside) active _ hdb₁ hdb₁' (h.outside_congr change)
    refine ⟨n, db₁', ?_, h₁⟩
    rw [Body.run, h.outside]
    rw [h.outside] at hrun
    exact hrun

theorem exists_query {P : Program Q K V W} (hP : P.Timeless) {o : Outcome V}
    (hquery : query P fuel q k db = some (o, db₁)) (h : Mirrors past past' db db')
    (hdb : Current active db) (hdb' : Current active db') :
    ∃ n db₁', query P n q k db' = some (o, db₁') ∧ Mirrors past past' db₁ db₁' :=
  (query_course hP past past').query hquery active db' hdb hdb' h

/-- The answers to several queries, and the bodies that are begun for each, are the same. -/
theorem exists_askAll {P : Program Q K V W} (hP : P.Timeless) {queries : List (Q × K)}
    {answers : List (Outcome V × List (Q × K))} (hask : askAll P fuel queries db = some answers)
    (h : Mirrors past past' db db') (hdb : Current active db) (hdb' : Current active db') :
    ∃ n, askAll P n queries db' = some answers := by
  induction queries generalizing db db' answers past past' with
  | nil => exact ⟨0, hask⟩
  | cons x queries ih =>
      obtain ⟨⟨o, db₁⟩, hquery, hask⟩ := Option.bind_eq_some_iff.mp hask
      obtain ⟨rest, hrest, rfl⟩ := Option.map_eq_some_iff.mp hask
      obtain ⟨n, db₁', hquery', h₁⟩ := h.start.exists_query hP hquery hdb hdb'
      obtain ⟨n', hrest'⟩ := ih hrest h₁ (hdb.query hquery) (hdb'.query hquery')
      have hnew : db₁'.begun.drop db'.begun.length = db₁.begun.drop db.begun.length := by
        obtain ⟨new, hbegun, hbegun'⟩ := h₁.begun
        rw [hbegun, hbegun', List.drop_left, List.drop_left]
      refine ⟨max n n', ?_⟩
      rw [askAll_cons (query_mono (Nat.le_max_left n n') hquery'),
        askAll_mono (Nat.le_max_right n n') hrest', Option.map_some, hnew]

end

end Mirrors

theorem Current.of_idle (hidle : db.stack = {}) (hregular : db.store.Regular db.revision)
    (hinputs : ∀ key v c w reads, db.store.memo? key ≠ some (.derived v c w reads)) :
    Current [] db := by
  refine ⟨.of_idle hidle hregular, .of_idle hidle, fun key m hm ↦ ?_⟩
  cases m with
  | input => trivial
  | derived v c w reads => exact absurd hm (hinputs key v c w reads)

/-- Where nothing was computed, what is kept is what was assigned. -/
theorem value?_eq_input?
    (hinputs : ∀ key v c w reads, db.store.memo? key ≠ some (.derived v c w reads))
    (q : Q) (k : K) : db.value? q k = db.input? q k := by
  rw [value?, input?, memo?]
  cases db.store.lookup? q k with
  | none => rfl
  | some key =>
      rw [Option.bind_some]
      cases hm : db.store.memo? key with
      | none => rfl
      | some m =>
          cases m with
          | input => rfl
          | derived v c w reads => exact absurd hm (hinputs key v c w reads)

theorem freshWith_eq (configuration : Configuration) (w : W) (assigned : List ((Q × K) × V)) :
    (freshWith configuration w assigned : Database Q K V W) =
      { fresh w assigned with configuration } := by
  have hset : ∀ db : Database Q K V W,
      assigned.foldl (fun db p ↦ db.set p.1.1 p.1.2 p.2) { db with configuration } =
        { assigned.foldl (fun db p ↦ db.set p.1.1 p.1.2 p.2) db with configuration } := by
    induction assigned with
    | nil => exact fun _ ↦ rfl
    | cons p assigned ih => exact fun db ↦ ih (db.set p.1.1 p.1.2 p.2)
  exact hset { outside := w }

theorem outside_fresh (w : W) (assigned : List ((Q × K) × V)) :
    (fresh w assigned : Database Q K V W).outside = w := by
  have hset : ∀ db : Database Q K V W,
      (assigned.foldl (fun db p ↦ db.set p.1.1 p.1.2 p.2) db).outside = db.outside := by
    induction assigned with
    | nil => exact fun _ ↦ rfl
    | cons p assigned ih => exact fun db ↦ ih (db.set p.1.1 p.1.2 p.2)
  exact hset { outside := w }

section

variable [LawfulBEq K] {assigned : List ((Q × K) × V)}

theorem current_clearCache (hdb : db.Sound) (hidle : db.stack = {}) :
    Current [] db.clearCache ∧ ∀ q k, db.clearCache.value? q k = db.input? q k := by
  have hregular : db.clearCache.store.Regular db.clearCache.revision := by
    rw [clearCache_eq]
    exact hdb.store.dropDerived
  have hinputs : ∀ key v c w reads,
      db.clearCache.store.memo? key ≠ some (.derived v c w reads) := by
    rw [clearCache_eq]
    exact db.store.memo?_dropDerived_ne
  refine ⟨.of_idle hidle hregular hinputs, fun q k ↦ ?_⟩
  rw [value?_eq_input? hinputs, input?_eq, input?_eq]
  exact congrFun (db.keeps_clearCache.inputs_eq hdb.store.indexed hregular.indexed) (q, k)

theorem current_freshWith (h : db.Lists assigned) (configuration : Configuration) (w : W) :
    Current [] (freshWith configuration w assigned) ∧
      ∀ q k, (freshWith configuration w assigned).value? q k = db.input? q k := by
  rw [freshWith_eq]
  -- any recipes will do: nothing is read
  obtain ⟨⟨_, hrest⟩, hbare⟩ :=
    bare_fresh (fun _ ↦ .done (.panic "") : Q × K → Recipe Q K V) w assigned
  have hinputs := inputs_fresh h w
  refine ⟨.of_idle hrest.idle hrest.sound.store hbare, fun q k ↦ ?_⟩
  exact (value?_eq_input? hbare q k).trans (congrFun hinputs (q, k))

end

end Database

namespace Stage

open Database

variable [DecidableEq Q] [BEq K] [LawfulBEq K] [BEq V] {P : Program Q K V W}
  {db : Database Q K V W} {o : Outcome V}

/-- Dropping what was computed is a complete reset: if no body asks for the revision, then
between any two operations of a run, whatever was set, removed, read and handled before, the
answers to any queries asked in turn, and the bodies that are begun for each of them, are from
then on those of a new database of the same configuration on which the values now assigned were
set. -/
theorem clearCache_resets (hP : P.Timeless) (hs : Reached P ⟨db, .done o, []⟩)
    {assigned : List ((Q × K) × V)} (hassigned : db.Lists assigned) (queries : List (Q × K))
    (answers : List (Outcome V × List (Q × K))) :
    (∃ n, askAll P n queries db.clearCache = some answers) ↔
      ∃ n, askAll P n queries (freshWith db.configuration db.outside assigned) = some answers := by
  obtain ⟨hcleared, hvalues⟩ := current_clearCache hs.sound hs.serves.eq_empty
  obtain ⟨hfresh, hvalues'⟩ := current_freshWith hassigned db.configuration db.outside
  have hmirrors : Mirrors db.clearCache.begun
      (freshWith db.configuration db.outside assigned).begun db.clearCache
      (freshWith db.configuration db.outside assigned) := by
    refine ⟨?_, ?_, fun q k ↦ (hvalues' q k).trans (hvalues q k).symm, [], by simp, by simp⟩
    · rw [freshWith_eq]
      rfl
    · rw [freshWith_eq]
      exact outside_fresh db.outside assigned
  constructor
  · rintro ⟨n, hask⟩
    exact hmirrors.exists_askAll hP hask hcleared hfresh
  · rintro ⟨n, hask⟩
    exact hmirrors.symm.exists_askAll hP hask hfresh hcleared

end Stage

/-- A fuse on the mains, a lamp behind it, the light that the lamp gives in the hall, and a bell
that rings itself. -/
inductive Lodge
  | mains
  | fuse
  | lamp
  | hall
  | bell
  deriving DecidableEq

open Database Stage

namespace Lodge

def logic : Lodge → Option (Unit → Body Lodge Unit Nat Nat Nat)
  | mains => none
  | fuse => some fun _ ↦
    (Body.get mains ()).bind fun v ↦ if 9 < v then .panic "blown" else .value v
  | lamp => some fun _ ↦ (Body.get fuse ()).catchPanic fun _ ↦ .value 0
  | hall => some fun _ ↦ (Body.get lamp ()).bind fun v ↦ .value (v + 1)
  | bell => some fun _ ↦
    ((Body.get bell ()).orElse fun _ ↦ .value 1).bind fun v ↦ .outside id fun w ↦ .value (v + w)

def program : Program Lodge Unit Nat Nat where
  name _ := ""
  logic := logic
  showArgument _ _ := ""
  showValue _ _ := ""

theorem timeless : program.Timeless := by
  rintro (_ | _ | _ | _ | _) k
  · trivial
  · rintro (v | f | message)
    · change Body.Timeless (if 9 < v then Body.panic "blown" else Body.value v)
      split <;> trivial
    · trivial
    · trivial
  all_goals rintro (_ | _ | _) <;> first | trivial | exact fun _ ↦ trivial

/-- The fuse blows after the lamp and the hall were lit. -/
def history : List (Operation Lodge Unit Nat) :=
  [.act (.edit (.set mains () 5)), .act (.inquire (.query lamp ())),
    .act (.inquire (.query hall ())), .act (.edit (.remove mains ())),
    .act (.inquire (.query fuse ())), .act (.edit (.set mains () 12)),
    .act (.inquire (.query lamp ()))]

def tour : List (Lodge × Unit) := [(hall, ()), (lamp, ()), (hall, ()), (bell, ()), (fuse, ())]

/-- Where the old light of the hall is still kept, for the panic has hidden the change, nothing of
it is left after the reset: at first the fuse is too deep to be looked at, then the lamp is off. -/
theorem tour_reset : ∃ (db : Database Lodge Unit Nat Nat) (o : Outcome Nat),
    Reached program ⟨db, .done o, []⟩ ∧ db.revision = 3 ∧ db.store.removedAt ⟨0, 0⟩ = 2 ∧
    db.Lists [((mains, ()), 12)] ∧
    (askAll program 9 tour db).map (List.map Prod.fst) =
      some [.value 6, .value 0, .value 6, .value 5, .panic "blown"] ∧
    ∃ n, askAll program n tour
        (freshWith { maxDepth := some 2 } 4 [((mains, ()), 12)] : Database Lodge Unit Nat Nat) =
      some [(.failure (.tooDeep 2 "()"), [(hall, ()), (lamp, ())]),
        (.value 0, [(lamp, ()), (fuse, ())]), (.value 1, [(hall, ())]), (.value 5, [(bell, ())]),
        (.panic "blown", [(fuse, ())])] := by
  have hrun : (performAll program 9 history
      { configuration := { maxDepth := some 2 }, outside := 4 }).map (fun p ↦
        decide (p.2.revision = 3 ∧ p.2.store.removedAt ⟨0, 0⟩ = 2 ∧
          [mains, fuse, lamp, hall, bell].map (p.2.input? · ()) =
            [some 12, none, none, none, none] ∧
          p.2.configuration = { maxDepth := some 2 } ∧ p.2.outside = 4 ∧
          (askAll program 9 tour p.2).map (List.map Prod.fst) =
            some [.value 6, .value 0, .value 6, .value 5, .panic "blown"] ∧
          askAll program 9 tour p.2.clearCache =
            some [(.failure (.tooDeep 2 "()"), [(hall, ()), (lamp, ())]),
              (.value 0, [(lamp, ()), (fuse, ())]), (.value 1, [(hall, ())]),
              (.value 5, [(bell, ())]), (.panic "blown", [(fuse, ())])])) = some true := by
    decide +kernel
  obtain ⟨⟨replies, db⟩, hops, hend⟩ := Option.map_eq_some_iff.mp hrun
  obtain ⟨hrevision, hremoved, hinputs, hconfiguration, houtside, hstale, hask⟩ :=
    of_decide_eq_true hend
  obtain ⟨o, hreached⟩ := reached_performAll hops
  have hlists : db.Lists [((mains, ()), 12)] := by
    simp only [List.map_cons, List.map_nil, List.cons.injEq, and_true] at hinputs
    rintro q ⟨⟩ v
    cases q <;> simp [hinputs, eq_comm]
  have hreset := (clearCache_resets timeless hreached hlists tour _).1 ⟨9, hask⟩
  rw [hconfiguration, houtside] at hreset
  exact ⟨db, o, hreached, hrevision, hremoved, hlists, hstale, hreset⟩

end Lodge

end Incremental
