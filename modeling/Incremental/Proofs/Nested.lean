import Incremental.Proofs.Depth
import Incremental.Proofs.Panics
import Incremental.Proofs.Uncut

/-!
# Values and what they were nested in

Take a database after some history, and a fresh one with the same limit and the same assigned
values, in which a query is evaluated and no read is refused. The one knows whatever the other has
come to know, so it computes no more, each at the same depth as the other does, and comes to the
same. This needs that no value was kept by an evaluation in which a read was refused: such a value
tells nothing of the depth at which it was computed.
-/

namespace Incremental

variable {Q K V W : Type}

namespace Database

variable [DecidableEq Q] [BEq K]

/-- In both databases `active` is under evaluation, all that the second keeps is known to stand,
and the first knows no less. -/
structure Alongside (R : Q × K → Recipe Q K V) (active : List (Q × K))
    (db₁ db₂ : Database Q K V W) : Prop where
  first : Poised R db₁
  second : Poised R db₂
  underway : Underway active db₁
  underway' : Underway active db₂
  configuration : db₁.configuration = db₂.configuration
  inputs : db₁.store.inputs = db₂.store.inputs
  grounded : db₁.Grounded R
  kept : db₂.KnowsKept
  knows : ∀ x, db₂.Knows x → db₁.Knows x

variable {R : Q × K → Recipe Q K V} {active : List (Q × K)} {P : Program Q K V W}
  {db₁ db₁' db₁'' db₂ db₂' db₂'' : Database Q K V W} {q : Q} {k : K} {key key' : Handle}
  {fuel fuel' : Nat} {o o' : Outcome V}

namespace Alongside

theorem outside (h : Alongside R active db₁ db₂) (w w' : W) :
    Alongside R active { db₁ with outside := w } { db₂ with outside := w' } :=
  ⟨h.first.of_eq (h.first.sound.of_eq rfl rfl rfl) rfl rfl,
    h.second.of_eq (h.second.sound.of_eq rfl rfl rfl) rfl rfl, h.underway, h.underway',
    h.configuration, h.inputs, h.grounded, h.kept, h.knows⟩

variable [LawfulBEq K]

/-- Both are evaluated further, and no read is refused. -/
theorem next (h : Alongside R active db₁ db₂) (hP : P.Obeys R)
    (hquery : query P fuel q k db₁ = some (o, db₁')) (hrefusals : db₁'.refusals = db₁.refusals)
    (hquery' : query P fuel' q k db₂ = some (o', db₂'))
    (hrefusals' : db₂'.refusals = db₂.refusals) :
    o = o' ∧ Alongside R active db₁' db₂' := by
  obtain ⟨hfirst, hinputs, hyields⟩ := h.first.query hP hquery hrefusals
  obtain ⟨hsecond, hinputs', hyields'⟩ := h.second.query hP hquery' hrefusals'
  obtain ⟨hlearns, hbelow⟩ := query_learns hP h.first hquery hrefusals
  obtain ⟨hlearns', _⟩ := query_learns hP h.second hquery' hrefusals'
  have hf := (h.first.sound.query hquery).2
  have hf' := (h.second.sound.query hquery').2
  have hsame : db₁'.store.inputs = db₂'.store.inputs := by rw [hinputs, hinputs', h.inputs]
  refine ⟨hyields.unique (h.inputs ▸ hyields'), hfirst, hsecond, h.underway.follows hf,
    h.underway'.follows hf', ?_, hsame, hlearns.grounded h.grounded, hlearns'.kept h.kept,
    fun x hx ↦ ?_⟩
  · rw [hf.configuration, hf'.configuration, h.configuration]
  · rcases hlearns'.scope h.kept x hx with hold | hnew
    · exact hlearns.knows x (h.knows x hold)
    · obtain ⟨v, hv⟩ := hsecond.yields_of_knows hx
      rw [← hinputs'] at hnew
      rw [← hsame] at hv hnew
      exact hbelow h.grounded x v hnew hv

theorem enter (h : Alongside R active db₁ db₂) (hkey : db₁.intern q k = (key, db₁'))
    (hretrieve : (db₁'.recordRead key).retrieve fuel key = some (none, db₁''))
    (hkey' : db₂.intern q k = (key', db₂'))
    (hretrieve' : (db₂'.recordRead key').retrieve fuel' key' = some (none, db₂'')) :
    Alongside R (active ++ [(q, k)]) ((db₁''.note (.miss q k)).enter q k key)
      ((db₂''.note (.miss q k)).enter q k key') := by
  obtain ⟨hfirst, hinputs, _⟩ := h.first.enter hkey hretrieve
  obtain ⟨hsecond, hinputs', _⟩ := h.second.enter hkey' hretrieve'
  have hunderway := h.underway.enter_of_miss h.first.sound hkey hretrieve
  have hunderway' := h.underway'.enter_of_miss h.second.sound hkey' hretrieve'
  have hlearns : Learns R (fun _ ↦ False) db₁ _ := .enter h.first hkey hretrieve
  have hlearns' : Learns R (fun _ ↦ False) db₂ _ := .enter h.second hkey' hretrieve'
  refine ⟨hfirst, hsecond, hunderway, hunderway', ?_, (hinputs.trans h.inputs).trans hinputs'.symm,
    hlearns.grounded h.grounded, hlearns'.kept h.kept, fun x hx ↦ ?_⟩
  · have hsame := Stage.configuration_of_read hkey hretrieve
    have hsame' := Stage.configuration_of_read hkey' hretrieve'
    exact (hsame.trans h.configuration).trans hsame'.symm
  · exact hlearns.knows x (h.knows x ((hlearns'.scope h.kept x hx).resolve_right id))

/-- What is found in memory is what the other database comes to. -/
theorem exists_hit (h : Alongside R active db₁ db₂) (hP : P.Obeys R)
    (hquery : query P fuel q k db₂ = some (o, db₂')) (hrefusals : db₂'.refusals = db₂.refusals)
    (hkey : db₁.intern q k = (key, db₁')) (hactive : db₁'.stack.isActive key = false) {v : V}
    {c : Revision}
    (hretrieve : (db₁'.recordRead key).retrieve fuel' key = some (some (v, c), db₁'')) :
    ∃ n db', query P n q k db₁ = some (o, db') ∧ db'.refusals = db₁.refusals := by
  obtain ⟨n, hquery₁⟩ := (AnswersAtOnce.hit (P := P) hkey hactive hretrieve).exists_query
  have hrefusals₁ : ((db₁''.note (.hit q k)).observe c).refusals = db₁.refusals :=
    (read_refusals hkey hretrieve :)
  obtain ⟨rfl, _⟩ := h.next hP hquery₁ hrefusals₁ hquery hrefusals
  exact ⟨n, _, hquery₁, hrefusals₁⟩

/-- A read that is not refused in the one database is looked up in the other. -/
theorem exists_retrieve (h : Alongside R active db₁ db₂) (hkey : db₂.intern q k = (key, db₂'))
    (hactive : db₂'.stack.isActive key = false) :
    ∃ key₁ db₁' n r db₁'', db₁.intern q k = (key₁, db₁') ∧ db₁'.stack.isActive key₁ = false ∧
      (db₁'.recordRead key₁).retrieve n key₁ = some (r, db₁'') := by
  obtain ⟨key₁, db₁', hkey₁⟩ : ∃ key₁ db₁', db₁.intern q k = (key₁, db₁') := ⟨_, _, rfl⟩
  rw [h.underway'.isActive_eq_false_of_intern h.second.sound hkey,
    ← h.underway.isActive_eq_false_of_intern h.first.sound hkey₁] at hactive
  obtain ⟨n, ⟨r, db₁''⟩, hretrieve₁⟩ :=
    (h.first.record hkey₁).1.exists_retrieve (named?_of_intern hkey₁ :)
  exact ⟨key₁, db₁', n, r, db₁'', hkey₁, hactive, hretrieve₁⟩

/-- What is computed in the one database is found in memory in the other, or computed at the same
depth. -/
theorem exists_of_run (h : Alongside R active db₁ db₂) (hP : P.Obeys R)
    (hkey : db₂.intern q k = (key, db₂')) (hactive : db₂'.stack.isActive key = false)
    (hretrieve : (db₂'.recordRead key).retrieve fuel key = some (none, db₂''))
    (hbroken : db₂''.configuration.brokenAt db₂''.stack.depth = none) {db₃ : Database Q K V W}
    (hrun : (P.body q k).run (query P fuel) ((db₂''.note (.miss q k)).enter q k key) =
      some (o, db₃))
    (hquery : query P fuel' q k db₂ = some (leave key db₂''.stack.depth (o, db₃)))
    (hrefusals : (leave key db₂''.stack.depth (o, db₃)).2.refusals = db₂.refusals)
    (hruns : db₃.refusals = ((db₂''.note (.miss q k)).enter q k key).refusals → ∀ db₁',
      Alongside R (active ++ [(q, k)]) db₁' ((db₂''.note (.miss q k)).enter q k key) →
      ∃ n db₁'', (P.body q k).run (query P n) db₁' = some (o, db₁'') ∧
        db₁''.refusals = db₁'.refusals) :
    ∃ n db₁', query P n q k db₁ = some ((leave key db₂''.stack.depth (o, db₃)).1, db₁') ∧
      db₁'.refusals = db₁.refusals := by
  obtain ⟨key₁, db₁', n, r, db₁'', hkey₁, hactive₁, hretrieve₁⟩ := h.exists_retrieve hkey hactive
  cases r with
  | some p => exact h.exists_hit hP hquery hrefusals hkey₁ hactive₁ hretrieve₁
  | none =>
      obtain ⟨_, _, _, frame, rfl, hstack⟩ := h.second.sound.ran hkey hretrieve hrun
      have hsame : db₃.refusals = ((db₂''.note (.miss q k)).enter q k frame.key).refusals := by
        rw [← refusals_leave hstack o, hrefusals, (miss_refusals hkey hretrieve).2]
      obtain ⟨m, db₁₃, hrun₁, hrefusals₁⟩ :=
        hruns hsame _ (h.enter hkey₁ hretrieve₁ hkey hretrieve)
      rw [h.underway'.brokenAt_eq hkey hretrieve, ← h.configuration,
        ← h.underway.brokenAt_eq hkey₁ hretrieve₁] at hbroken
      have hquery₁ := query_of_run hkey₁ hactive₁ hretrieve₁ hbroken hrun₁
      obtain ⟨_, _, _, frame₁, rfl, hstack₁⟩ := h.first.sound.ran hkey₁ hretrieve₁ hrun₁
      rw [leave_outcome hstack o]
      exact ⟨_, _, hquery₁.trans (congrArg some (Prod.ext (leave_outcome hstack₁ o) rfl)),
        (refusals_leave hstack₁ o).trans (hrefusals₁.trans (miss_refusals hkey₁ hretrieve₁).2)⟩

/-- Where the other database is refused no read, the one that knows no less comes to the same. -/
theorem query_course (hP : P.Obeys R) : RecipeCourse P R
    (fun q k db₂ o db₂' ↦ db₂'.refusals = db₂.refusals → ∀ active db₁,
      Alongside R active db₁ db₂ →
      ∃ n db₁', query P n q k db₁ = some (o, db₁') ∧ db₁'.refusals = db₁.refusals)
    (fun t db₂ o db₂' ↦ db₂'.refusals = db₂.refusals → ∀ active (b₁ : Body Q K V W V) db₁,
      b₁.Obeys t → Alongside R active db₁ db₂ →
      ∃ n db₁', b₁.run (query P n) db₁ = some (o, db₁') ∧ db₁'.refusals = db₁.refusals) where
  refused := by
    intro fuel q k db₂ key db₂' hkey _ _ hrefusals
    have hmore := refused_refusals hkey (db₂'.circle P key)
    omega
  hit := by
    intro fuel n q k db₂ key db₂' v c db₂'' hkey hactive hretrieve hquery hrefusals active db₁ h
    obtain ⟨key₁, db₁', n, r, db₁'', hkey₁, hactive₁, hretrieve₁⟩ := h.exists_retrieve hkey hactive
    cases r with
    | some p => exact h.exists_hit hP hquery hrefusals hkey₁ hactive₁ hretrieve₁
    | none =>
        have hread : Learns R (fun _ ↦ False) db₂ db₂'' := .read h.second hkey hretrieve
        have hknows₂ := (hread.scope h.kept _ (knows_of_hit hkey hretrieve)).resolve_right id
        have hintern : Learns R (fun _ ↦ False) db₁ (db₁'.recordRead key₁) := .intern h.first hkey₁
        have hknows₁ := hintern.knows _ (h.knows _ hknows₂)
        exact absurd hretrieve₁ (hknows₁.retrieve_ne_none (h.first.record hkey₁).1.sound.store
          (named?_of_intern hkey₁ :))
  tooDeep := by
    intro fuel n q k db₂ key db₂' db₂'' limit hkey _ hretrieve _ _ hrefusals
    have hmore := (miss_refusals hkey hretrieve).1
    omega
  computed := by
    intro fuel n q k db₂ key db₂' db₂'' o db₃ hkey hactive hretrieve hbroken hrun hquery hruns
      hrefusals active db₁ h
    refine h.exists_of_run hP hkey hactive hretrieve hbroken hrun hquery hrefusals ?_
    intro hrefusals₃ db₁' h'
    exact hruns hrefusals₃ _ _ db₁' (hP q k) h'
  done := by
    intro o db₂ _ active b₁ db₁ hobeys₁ _
    obtain ⟨w, hrun⟩ := hobeys₁.exists_run (query P 0) db₁
    exact ⟨0, _, hrun, rfl⟩
  read := by
    intro fuel q k _ rest db₂ a db₂' o db₂'' _ hquery hnext hread hruns hrefusals active b₁ db₁
      hobeys₁ h
    have hle := (Pared.exists_query hquery).1
    have hle' := refusals_le_of_run hnext
    have hrefusals₂ : db₂'.refusals = db₂.refusals := by omega
    obtain ⟨w, next₁, hobeys₁, hrun₁⟩ := hobeys₁.exists_read db₁
    have hw := h.outside w db₂.outside
    obtain ⟨n, db₁', hquery₁, hrefusals₁⟩ := hread hrefusals₂ active _ hw
    obtain ⟨_, h'⟩ := hw.next hP hquery₁ hrefusals₁ hquery hrefusals₂
    obtain ⟨m, db₁'', hrest, hrefusals₁'⟩ := hruns (by omega) active _ db₁' (hobeys₁ a) h'
    exact ⟨max n m, db₁'', (hrun₁ _).trans (run_read hquery₁ hrest),
      hrefusals₁'.trans hrefusals₁⟩
  outside := fun _ w _ _ _ hruns hrefusals active b₁ db₁ hobeys₁ h ↦
    hruns hrefusals active b₁ _ hobeys₁ (h.outside db₁.outside w)

theorem exists_query (hP : P.Obeys R) (h : Alongside R active db₁ db₂)
    (hquery : query P fuel q k db₂ = some (o, db₂')) (hrefusals : db₂'.refusals = db₂.refusals) :
    ∃ n db₁', query P n q k db₁ = some (o, db₁') ∧ db₁'.refusals = db₁.refusals :=
  (query_course hP).query hP hquery hrefusals active db₁ h

end Alongside

theorem grounded_of_inputs {db : Database Q K V W} (hs : db.store.Indexed)
    (h : ∀ key v c reads, db.store.memo? key ≠ some (.derived v c db.revision reads)) :
    db.Grounded R := by
  rintro x hx z v (rfl | hz) _
  · exact hx
  · obtain ⟨key, hname, m, hm, hcurrent⟩ := hx
    cases m with
    | input u c => cases (Store.inputs_of_input hs hname hm).symm.trans hz.isNone
    | derived u c w reads =>
        obtain rfl : w = db.revision := hcurrent
        exact absurd hm (h key u c reads)

/-- Between two operations, with nothing ever removed. As long as no value was cut short, the
database would be at rest without its limit. -/
structure Between (R : Q × K → Recipe Q K V) (c : Configuration) (db : Database Q K V W) :
    Prop where
  idle : db.stack = {}
  configuration : db.configuration = c
  sound : db.Sound
  untouched : db.Untouched
  unharmed : Event.uncut db.events → (∃ H, AtRest R H True db.alone) ∧ db.Grounded R

namespace Between

variable {c : Configuration} {db db' : Database Q K V W}

theorem initial (R : Q × K → Recipe Q K V) (c : Configuration) (w : W) :
    Between R c { configuration := c, outside := w } := by
  obtain ⟨⟨_, hrest⟩, hbare⟩ := Bare.initial R w
  refine ⟨rfl, rfl, .of_idle rfl hrest.sound.store, fun key ↦ ?_, fun _ ↦ ⟨⟨_, hrest⟩, ?_⟩⟩
  · simp [Store.removedAt, Store.row?, Store.find?]
  · exact grounded_of_inputs hrest.sound.store.indexed fun key v c reads ↦ hbare key v c _ reads

theorem poised (h : Between R c db) (hacyclic : Acyclic R db.store.inputs)
    (hpanics : NoPanics R db.store.inputs) (huncut : Event.uncut db.events) :
    Poised R db ∧ db.Grounded R := by
  obtain ⟨hrest, hgrounded⟩ := h.unharmed huncut
  have hshow := (NoPanics.panicsShow hpanics).changesShow fun _ hz ↦ h.untouched.lastChange_eq hz
  exact ⟨⟨h.sound, hrest, hshow, hacyclic⟩, hgrounded⟩

theorem note (h : Between R c db) {event : Event Q K} (hevent : event.clears = false) :
    Between R c (db.note event) := by
  refine ⟨h.idle, h.configuration, h.sound.note event, h.untouched, fun huncut ↦ ?_⟩
  obtain ⟨⟨H, hrest⟩, hgrounded⟩ := h.unharmed (Event.uncut_tail huncut hevent)
  exact ⟨⟨H, hrest.note event⟩, hgrounded⟩

/-- Where nothing is computed, nothing is harmed. -/
theorem clearCache (h : Between R c db) : Between R c db.clearCache := by
  have hregular := h.sound.store.dropDerived
  have hbare := db.store.memo?_dropDerived_ne
  rw [clearCache_eq]
  refine ⟨h.idle, h.configuration, .of_idle h.idle hregular,
    fun key ↦ (db.store.keeps_dropDerived.removedAt key).trans (h.untouched key), fun _ ↦ ⟨?_, ?_⟩⟩
  · exact ⟨_, .of_inputs R rfl rfl hregular hbare⟩
  · exact grounded_of_inputs hregular.indexed fun key v c reads ↦ hbare key v c _ reads

variable [LawfulBEq K]

theorem query (h : Between R c db) (hP : P.Obeys R) (hacyclic : Acyclic R db.store.inputs)
    (hpanics : NoPanics R db.store.inputs)
    (hquery : Database.query P fuel q k db = some (o, db')) : Between R c db' := by
  obtain ⟨hs, hf⟩ := h.sound.query hquery
  refine ⟨?_, hf.configuration.trans h.configuration, hs,
    fun key ↦ (hf.store.removedAt key).trans (h.untouched key), fun huncut ↦ ?_⟩
  · obtain ⟨g, _, hstack⟩ := hf.stack
    rw [hstack, h.idle]
    rfl
  · obtain ⟨hpoised, hgrounded⟩ :=
      h.poised hacyclic hpanics ((query_startsNone hquery).uncut huncut)
    obtain ⟨hpoised', hgrounded'⟩ := query_uncut hP hquery hpoised hgrounded huncut
    exact ⟨hpoised'.atRest, hgrounded'⟩

/-- What was known to stand before an assignment is no longer. -/
theorem set (h : Between R c db) (q : Q) (k : K) (v : V) : Between R c (db.set q k v) := by
  have hs := h.sound.set h.idle q k v
  refine ⟨h.idle, h.configuration, hs, h.untouched.set q k v, fun huncut ↦ ?_⟩
  obtain ⟨⟨H, hrest⟩, _⟩ := h.unharmed (Event.uncut_tail huncut rfl)
  refine ⟨hrest.set q k v, grounded_of_inputs hs.store.indexed fun key u c' reads hm ↦ ?_⟩
  have hle := (h.sound.store.derived key u c' _ reads (memo?_derived_of_set hm)).2.2.1
  rw [revision_set] at hle
  exact Nat.not_succ_le_self _ hle

theorem single [BEq V] (hP : P.Obeys R) (h : Between R c db) {op : Operation Q K V}
    (hop : op.Single) (hremoves : ¬ op.Removes)
    (hclean : op.asks = true → Acyclic R db.store.inputs ∧ NoPanics R db.store.inputs)
    {r : Except String (Reply V)} (hperform : perform P fuel op db = some (r, db')) :
    Between R c db' := by
  obtain ⟨q, k, rfl⟩ | ⟨e, rfl⟩ | rfl := hop.cases
  · obtain ⟨o, hquery⟩ := query_of_inquire hperform
    obtain ⟨hacyclic, hpanics⟩ := hclean rfl
    exact h.query hP hacyclic hpanics hquery
  · cases hperform
    cases e with
    | set q k v => exact h.set q k v
    | setIfChanged q k v =>
        change Between R c (db.setIfChanged q k v).2
        unfold Database.setIfChanged
        split
        · exact h.note rfl
        · exact h.set q k v
    | remove q k => exact absurd trivial hremoves
  · cases hperform
    exact h.clearCache

end Between

variable [LawfulBEq K]

/-- Where values were only assigned, no read was refused, and nothing is known but them. -/
theorem between_freshWith (R : Q × K → Recipe Q K V) (c : Configuration) (w : W)
    (assigned : List ((Q × K) × V)) :
    Between R c (freshWith c w assigned : Database Q K V W) ∧
      Event.uncut (freshWith c w assigned : Database Q K V W).events ∧
      (freshWith c w assigned : Database Q K V W).refusals = 0 := by
  have hset : ∀ db : Database Q K V W, Between R c db → Event.uncut db.events → db.refusals = 0 →
      let db' := assigned.foldl (fun db p ↦ db.set p.1.1 p.1.2 p.2) db
      Between R c db' ∧ Event.uncut db'.events ∧ db'.refusals = 0 := by
    induction assigned with
    | nil => exact fun _ h huncut hrefusals ↦ ⟨h, huncut, hrefusals⟩
    | cons p assigned ih =>
        exact fun db h huncut hrefusals ↦ ih _ (h.set p.1.1 p.1.2 p.2) huncut hrefusals
  exact hset _ (.initial R c w) rfl rfl

/-- A database with the same limit on which the same values were assigned, and nothing was read,
knows nothing that the database after the history does not know. -/
theorem Between.alongside {c : Configuration} {db : Database Q K V W} (h : Between R c db)
    (hacyclic : Acyclic R db.store.inputs) (hpanics : NoPanics R db.store.inputs)
    (huncut : Event.uncut db.events) {assigned : List ((Q × K) × V)} (hassigned : db.Lists assigned)
    (w : W) : Alongside R [] db (freshWith c w assigned) := by
  obtain ⟨hpoised, hgrounded⟩ := h.poised hacyclic hpanics huncut
  obtain ⟨hfresh, huncut', _⟩ := between_freshWith R c w assigned
  have hinputs : (freshWith c w assigned : Database Q K V W).store.inputs = db.store.inputs := by
    rw [freshWith_eq]
    exact inputs_fresh hassigned w
  obtain ⟨hpoised', _⟩ :=
    hfresh.poised (hinputs.symm ▸ hacyclic) (hinputs.symm ▸ hpanics) huncut'
  have hbare : ∀ key v c' w' reads, (freshWith c w assigned : Database Q K V W).store.memo? key ≠
      some (.derived v c' w' reads) := by
    rw [freshWith_eq]
    exact (bare_fresh R w assigned).bare
  refine ⟨hpoised, hpoised', .of_idle h.idle, .of_idle hfresh.idle,
    h.configuration.trans hfresh.configuration.symm, hinputs.symm, hgrounded,
    fun key m hm ↦ ?_, fun x ⟨key, hname, m, hm, hcurrent⟩ ↦ ?_⟩
  · cases m with
    | input => trivial
    | derived => exact absurd hm (hbare key _ _ _ _)
  · cases m with
    | derived => exact absurd hm (hbare key _ _ _ _)
    | input v c' =>
        have hx := Store.inputs_of_input hpoised'.sound.store.indexed hname hm
        rw [hinputs] at hx
        obtain ⟨key', c'', hkey, hm⟩ := Store.inputs_eq_some_iff.mp hx
        exact ⟨key', Store.named?_of_lookup? hkey, _, hm, trivial⟩

/-- The depth at which a value was computed makes no difference, unless a value was kept by an
evaluation in which a read was refused: then after any history of reads, assignments and clearings
without circles and panics, a query ends as it does on a fresh database with the same limit and the
same assigned values, if no read is refused there. -/
theorem query_after_refusals [BEq V] {limit : Configuration} {w w' : W}
    {ops : List (Operation Q K V)} {replies : List (Except String (Reply V))}
    {db db₀ : Database Q K V W} {assigned : List ((Q × K) × V)} (hP : P.Obeys R)
    (hsingle : ∀ op ∈ ops, op.Single ∧ ¬ op.Removes)
    (hops : performAll P fuel ops { configuration := limit, outside := w } = some (replies, db))
    (hclean : ∀ s ∈ asked P fuel ops { configuration := limit, outside := w },
      Acyclic R s.store.inputs ∧ NoPanics R s.store.inputs)
    (huncut : Event.uncut db.events) (hassigned : db.Lists assigned)
    (hfresh : query P fuel' q k (freshWith limit w' assigned) = some (o, db₀))
    (hrefusals : db₀.refusals = 0) : ∃ n db', ∀ m ≥ n, query P m q k db = some (o, db') := by
  obtain ⟨hdb, hacyclic, hpanics⟩ := history_keeps (Between R limit)
    (fun s ↦ Acyclic R s.store.inputs ∧ NoPanics R s.store.inputs) (fun _ ↦ True)
    (fun op hop s r s' hs hC _ h ↦ hs.single hP (hsingle op hop).1 (hsingle op hop).2 hC h)
    hclean (fun _ _ ↦ trivial) (.initial R limit w) hops
  have halongside := hdb.alongside hacyclic hpanics huncut hassigned w'
  obtain ⟨_, _, hnone⟩ := between_freshWith R limit w' assigned
  obtain ⟨n, db', hquery, _⟩ :=
    halongside.exists_query hP hfresh (hrefusals.trans hnone.symm)
  exact ⟨n, db', fun m hm ↦ query_mono hm hquery⟩

end Database

/-- Water from a source, and how far it is led from there. -/
inductive Conduit
  | source
  | spring
  | basin
  | fountain
  | garden
  deriving DecidableEq

open Database

namespace Conduit

/-- The basin stays empty where the spring gives nothing. -/
def logic : Conduit → Option (Recipe Conduit Unit Nat)
  | source => none
  | spring => some (.get (source, ()) fun v ↦ .done (.value v))
  | basin => some (.getOr (spring, ()) 0)
  | fountain => some (.get (basin, ()) fun v ↦ .done (.value v))
  | garden => some (.get (fountain, ()) fun v ↦ .done (.value v))

def program : Program Conduit Unit Nat Unit := .ofRecipes (fun _ ↦ "") logic

abbrev recipe : Conduit × Unit → Recipe Conduit Unit Nat := recipes (fun _ ↦ "") logic

def rank : Conduit → Nat
  | source => 0
  | spring => 1
  | basin => 2
  | fountain => 3
  | garden => 4

theorem clean (I : Inputs Conduit Unit Nat) : Acyclic recipe I ∧ NoPanics recipe I := by
  constructor
  · refine .of_rank (fun x ↦ rank x.1) ?_
    rintro ⟨q, k⟩
    cases q <;> simp [recipe, recipes, logic, rank]
  · refine .of_calm ?_
    rintro ⟨q, k⟩
    cases q <;> simp [recipe, recipes, logic, Recipe.Calm]

/-- Two evaluations may be nested: those of the fountain and the basin leave none to the spring. -/
def shallow : List (Operation Conduit Unit Nat) :=
  [.act (.edit (.set source () 5)), .act (.inquire (.query fountain ()))]

/-- The same, but then all is cleared, and the spring is there before the fountain is asked for. Of
what is asked for the garden afterwards, the basin is refused and nothing is kept. -/
def refilled : List (Operation Conduit Unit Nat) :=
  shallow ++ [.clearCache, .act (.inquire (.query spring ())),
    .act (.inquire (.query fountain ())), .act (.edit (.set source () 6)),
    .act (.inquire (.query garden ()))]

/-- What was refused before does not show in the basin. -/
theorem query_basin_refilled :
    ∃ replies, ∃ db : Database Conduit Unit Nat Unit,
      performAll program 9 refilled { configuration := ⟨some 2⟩, outside := () } =
        some (replies, db) ∧ 0 < db.refusals ∧
      ∃ n db', ∀ m ≥ n, query program m basin () db = some (.value 6, db') := by
  have hrun : (performAll program 9 refilled { configuration := ⟨some 2⟩, outside := () }).map
      (fun p ↦ ([source, spring, basin, fountain, garden].map (p.2.input? · ()),
        Event.uncut p.2.events, p.2.refusals)) =
      some ([some 6, none, none, none, none], true, 2) := by
    decide +kernel
  have hfresh : (query program 9 basin () (freshWith ⟨some 2⟩ () [((source, ()), 6)])).map
      (fun p ↦ (p.1, p.2.refusals)) = some (.value 6, 0) := by
    decide +kernel
  obtain ⟨⟨replies, db⟩, hops, hend⟩ := Option.map_eq_some_iff.mp hrun
  obtain ⟨⟨o, db₀⟩, hfresh, hend₀⟩ := Option.map_eq_some_iff.mp hfresh
  obtain ⟨rfl, hrefusals⟩ := Prod.mk.inj hend₀
  simp only [List.map_cons, List.map_nil, Prod.mk.injEq, List.cons.injEq, and_true] at hend
  obtain ⟨hinputs, huncut, hrefused⟩ := hend
  refine ⟨replies, db, hops, hrefused ▸ Nat.two_pos, query_after_refusals
    (Program.ofRecipes_obeys _ _) ?_ hops (fun s _ ↦ clean s.store.inputs) huncut ?_ hfresh
    hrefusals⟩
  · simp [refilled, shallow, Operation.Single, Operation.Removes]
  · rintro q ⟨⟩ v
    cases q <;> simp [hinputs, eq_comm]

/-- Nothing is removed, no evaluation reads in a circle or panics, and a fresh database with the
same limit fills the basin without a refusal; but it has stayed empty since it was read too deep. -/
theorem query_basin_shallow :
    (∀ op ∈ shallow, op.Single ∧ ¬ op.Removes) ∧ (∀ I, Acyclic recipe I ∧ NoPanics recipe I) ∧
      ∃ replies, ∃ db db' db₀ : Database Conduit Unit Nat Unit,
        performAll program 9 shallow { configuration := ⟨some 2⟩, outside := () } =
          some (replies, db) ∧
        db.Lists [((source, ()), 5)] ∧
        query program 9 basin () (freshWith ⟨some 2⟩ () [((source, ()), 5)]) =
          some (.value 5, db₀) ∧ db₀.refusals = 0 ∧
        query program 9 basin () db = some (.value 0, db') := by
  have hrun : (performAll program 9 shallow { configuration := ⟨some 2⟩, outside := () }).map
      (fun p ↦ ([source, spring, basin, fountain, garden].map (p.2.input? · ()),
        (query program 9 basin () p.2).map Prod.fst)) =
      some ([some 5, none, none, none, none], some (.value 0)) := by
    decide +kernel
  have hfresh : (query program 9 basin () (freshWith ⟨some 2⟩ () [((source, ()), 5)])).map
      (fun p ↦ (p.1, p.2.refusals)) = some (.value 5, 0) := by
    decide +kernel
  obtain ⟨⟨replies, db⟩, hops, hend⟩ := Option.map_eq_some_iff.mp hrun
  obtain ⟨hinputs, hquery⟩ := Prod.mk.inj hend
  obtain ⟨⟨o, db'⟩, hquery, rfl⟩ := Option.map_eq_some_iff.mp hquery
  obtain ⟨⟨o, db₀⟩, hfresh, hend₀⟩ := Option.map_eq_some_iff.mp hfresh
  obtain ⟨rfl, hrefusals⟩ := Prod.mk.inj hend₀
  simp only [List.map_cons, List.map_nil, List.cons.injEq, and_true] at hinputs
  refine ⟨?_, clean, replies, db, db', db₀, hops, ?_, hfresh, hrefusals, hquery⟩
  · simp [shallow, Operation.Single, Operation.Removes]
  · rintro q ⟨⟩ v
    cases q <;> simp [hinputs, eq_comm]

end Conduit

end Incremental
