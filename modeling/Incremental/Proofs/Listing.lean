import Incremental.Proofs.Recall

/-!
# What an evaluation lists

The list of an evaluation is filled on two ways. A read that is not refused notes its handle, and
an evaluation that was begun for it hands over its own list when it ends, unless it panics. The
two happen to different frames, with any number of evaluations in between. Together they make the
list of what the body's own reads add in turn, each handle where it came first; and nothing is
handed over, through however many levels, that is being computed further out.
-/

namespace Incremental

variable {Q K V W : Type}

namespace Frame

/-- What was noted is what the frame lists, each handle where it was noted first. -/
def Notes (frame : Frame) (noted : List Handle) : Prop := frame.reads = noted.eraseDups

theorem nodup_foldl_addRead {frame : Frame} (h : frame.reads.Nodup) (keys : List Handle) :
    (keys.foldl addRead frame).reads.Nodup := by
  induction keys generalizing frame with
  | nil => exact h
  | cons key keys ih => exact ih (nodup_addRead h key)

namespace Notes

variable {frame : Frame} {noted keys : List Handle}

theorem addRead (h : frame.Notes noted) (key : Handle) :
    (frame.addRead key).Notes (noted ++ [key]) := by
  have hmem : key ∈ frame.reads ↔ key ∈ noted := by rw [h, List.mem_eraseDups]
  unfold Notes at h ⊢
  rw [List.eraseDups_append, ← h]
  by_cases hkey : key ∈ noted
  · simp [Frame.addRead, hmem, hkey, List.removeAll]
  · simp [Frame.addRead, hmem, hkey, List.removeAll, List.eraseDups_cons]

theorem foldl_addRead (h : frame.Notes noted) (keys : List Handle) :
    (keys.foldl Frame.addRead frame).Notes (noted ++ keys) := by
  induction keys generalizing frame noted with
  | nil => simpa using h
  | cons key keys ih => simpa using ih (h.addRead key)

theorem nodup (h : frame.Notes noted) : frame.reads.Nodup := by
  have hnew : ({ key := frame.key } : Frame).Notes [] := rfl
  have hsame : frame.reads = (noted.foldl Frame.addRead { key := frame.key }).reads :=
    h.trans (hnew.foldl_addRead noted).symm
  rw [hsame]
  exact nodup_foldl_addRead List.nodup_nil noted

theorem addReads (h : frame.Notes noted) (hkeys : keys.Nodup) :
    (frame.addReads keys).Notes (noted ++ keys) := by
  rw [addReads_eq_foldl frame hkeys]
  exact h.foldl_addRead keys

end Notes

end Frame

/-- What was noted is what the innermost frame lists. -/
def CallStack.Notes (stack : CallStack) (noted : List Handle) : Prop :=
  ∃ frame frames active, stack = ⟨frame :: frames, active⟩ ∧ frame.Notes noted

namespace CallStack.Notes

variable {stack : CallStack} {noted noted' keys : List Handle}

theorem push (stack : CallStack) (key : Handle) : (stack.push key).Notes [] :=
  ⟨{ key }, stack.frames, key :: stack.active, rfl, rfl⟩

theorem top {frame : Frame} {frames : List Frame} {active : List Handle}
    (h : Notes ⟨frame :: frames, active⟩ noted) : frame.Notes noted := by
  obtain ⟨_, _, _, heq, h⟩ := h
  cases heq
  exact h

theorem modifyTop (h : stack.Notes noted) {g : Frame → Frame}
    (hg : ∀ frame : Frame, frame.Notes noted → (g frame).Notes noted') :
    (stack.modifyTop g).Notes noted' := by
  obtain ⟨frame, frames, active, rfl, hframe⟩ := h
  exact ⟨g frame, frames, active, rfl, hg frame hframe⟩

theorem recordRead (h : stack.Notes noted) (key : Handle) :
    (stack.recordRead key).Notes (noted ++ [key]) :=
  h.modifyTop fun _ hframe ↦ hframe.addRead key

theorem observe (h : stack.Notes noted) (r : Revision) : (stack.observe r).Notes noted :=
  h.modifyTop fun _ hframe ↦ hframe

theorem absorb (h : stack.Notes noted) (hkeys : keys.Nodup) (r : Revision) :
    (stack.absorb keys r).Notes (noted ++ keys) :=
  h.modifyTop fun _ hframe ↦ hframe.addReads hkeys

end CallStack.Notes

namespace Database

variable [DecidableEq Q] [BEq K] {P : Program Q K V W}

/-- A read of `q` at `k`, whose handle is `key`, begins the body on the database `db₀`: the read is
not refused, nothing that stands is kept, and the evaluation is not nested too deep. -/
inductive Enters (q : Q) (k : K) (db : Database Q K V W) : Handle → Database Q K V W → Prop
  | intro {fuel : Nat} {key : Handle} {db₁ db₂ : Database Q K V W}
      (hkey : db.intern q k = (key, db₁)) (hactive : db₁.stack.isActive key = false)
      (hretrieve : (db₁.recordRead key).retrieve fuel key = some (none, db₂))
      (hbroken : db₂.configuration.brokenAt db₂.stack.depth = none) :
      Enters q k db key ((db₂.note (.miss q k)).enter q k key)

/-- What a read adds to the list of its reader: nothing if it is refused, otherwise its handle,
followed by what the evaluation listed that was begun for it and ended in a value or a failure. -/
inductive Adds (P : Program Q K V W) (q : Q) (k : K) (db : Database Q K V W) :
    List Handle → Prop
  | refused {key : Handle} {db₁ : Database Q K V W} (hkey : db.intern q k = (key, db₁))
      (hactive : db₁.stack.isActive key = true) : Adds P q k db []
  | hit {fuel : Nat} {key : Handle} {db₁ db₂ : Database Q K V W} {r : V × Revision}
      (hkey : db.intern q k = (key, db₁)) (hactive : db₁.stack.isActive key = false)
      (hretrieve : (db₁.recordRead key).retrieve fuel key = some (some r, db₂)) :
      Adds P q k db [key]
  | tooDeep {fuel : Nat} {key : Handle} {db₁ db₂ : Database Q K V W} {limit : Nat}
      (hkey : db.intern q k = (key, db₁)) (hactive : db₁.stack.isActive key = false)
      (hretrieve : (db₁.recordRead key).retrieve fuel key = some (none, db₂))
      (hbroken : db₂.configuration.brokenAt db₂.stack.depth = some limit) : Adds P q k db [key]
  | panicked {fuel : Nat} {key : Handle} {db₀ db₁ : Database Q K V W} {message : String}
      (henters : db.Enters q k key db₀)
      (hrun : (P.body q k).run (query P fuel) db₀ = some (.panic message, db₁)) :
      Adds P q k db [key]
  | ended {fuel : Nat} {key : Handle} {db₀ db₁ : Database Q K V W} {o : Outcome V}
      {frame : Frame} {frames : List Frame} (henters : db.Enters q k key db₀)
      (hrun : (P.body q k).run (query P fuel) db₀ = some (o, db₁))
      (houtcome : ∀ message, o ≠ .panic message) (hframe : db₁.stack.frames = frame :: frames) :
      Adds P q k db (key :: frame.reads)

/-- What each of the body's own reads adds, in the order of the reads. -/
inductive Gathers (P : Program Q K V W) :
    Body Q K V W V → Database Q K V W → List (List Handle) → Prop
  | done {o : Outcome V} {db : Database Q K V W} : Gathers P (.done o) db []
  | read {fuel : Nat} {q : Q} {k : K} {next : Outcome V → Body Q K V W V}
      {db db₁ : Database Q K V W} {a : Outcome V} {added : List Handle}
      {lists : List (List Handle)} (hadds : Adds P q k db added)
      (hquery : query P fuel q k db = some (a, db₁)) (hnext : Gathers P (next a) db₁ lists) :
      Gathers P (.read q k next) db (added :: lists)
  | revision {next : Revision → Body Q K V W V} {db : Database Q K V W}
      {lists : List (List Handle)} (hnext : Gathers P (next db.revision) db lists) :
      Gathers P (.revision next) db lists
  | outside {change : W → W} {next : W → Body Q K V W V} {db : Database Q K V W}
      {lists : List (List Handle)}
      (hnext : Gathers P (next db.outside) { db with outside := change db.outside } lists) :
      Gathers P (.outside change next) db lists

variable {q : Q} {k : K} {b : Body Q K V W V} {db db₁ db₂ db₃ db' db₀ db₀' : Database Q K V W}
  {key key' : Handle} {fuel fuel' : Nat} {o o' : Outcome V} {added added' : List Handle}
  {lists lists' : List (List Handle)}

theorem Enters.unique (h : db.Enters q k key db₀) (h' : db.Enters q k key' db₀') :
    key = key' ∧ db₀ = db₀' := by
  obtain ⟨hkey, _, hretrieve, _⟩ := h
  obtain ⟨hkey', _, hretrieve', _⟩ := h'
  cases hkey.symm.trans hkey'
  cases retrieve_unique hretrieve hretrieve'
  exact ⟨rfl, rfl⟩

/-- Whatever a read adds, its handle goes first, unless it is refused; and the rest is there only
if a body was begun and did not panic. -/
theorem Adds.cases (h : Adds P q k db added) (hkey : db.intern q k = (key, db₁)) :
    (db₁.stack.isActive key = true ∧ added = []) ∨
    (db₁.stack.isActive key = false ∧ added = [key] ∧
      ∀ fuel db₀ o db₂, db.Enters q k key db₀ →
        (P.body q k).run (query P fuel) db₀ = some (o, db₂) → ∃ message, o = .panic message) ∨
    (db₁.stack.isActive key = false ∧ ∃ fuel db₀ o db₂ frame frames, db.Enters q k key db₀ ∧
      (P.body q k).run (query P fuel) db₀ = some (o, db₂) ∧ (∀ message, o ≠ .panic message) ∧
      db₂.stack.frames = frame :: frames ∧ added = key :: frame.reads) := by
  cases h with
  | refused hkey' hactive =>
      cases hkey.symm.trans hkey'
      exact .inl ⟨hactive, rfl⟩
  | hit hkey' hactive hretrieve =>
      cases hkey.symm.trans hkey'
      refine .inr (.inl ⟨hactive, rfl, ?_⟩)
      rintro fuel db₀ o db₂ ⟨hkey', _, hretrieve', _⟩ _
      cases hkey.symm.trans hkey'
      cases retrieve_unique hretrieve hretrieve'
  | tooDeep hkey' hactive hretrieve hbroken =>
      cases hkey.symm.trans hkey'
      refine .inr (.inl ⟨hactive, rfl, ?_⟩)
      rintro fuel db₀ o db₂ ⟨hkey', _, hretrieve', hbroken'⟩ _
      cases hkey.symm.trans hkey'
      cases retrieve_unique hretrieve hretrieve'
      cases hbroken.symm.trans hbroken'
  | panicked henters hrun =>
      obtain ⟨hkey', hactive, hretrieve, hbroken⟩ := henters
      cases hkey.symm.trans hkey'
      refine .inr (.inl ⟨hactive, rfl, fun fuel db₀ o db₂ henters' hrun' ↦ ?_⟩)
      obtain ⟨_, rfl⟩ := henters'.unique ⟨hkey, hactive, hretrieve, hbroken⟩
      exact ⟨_, congrArg Prod.fst (run_unique hrun' hrun)⟩
  | ended henters hrun houtcome hframe =>
      obtain ⟨hkey', hactive, hretrieve, hbroken⟩ := henters
      cases hkey.symm.trans hkey'
      exact .inr (.inr ⟨hactive, _, _, _, _, _, _, ⟨hkey, hactive, hretrieve, hbroken⟩, hrun,
        houtcome, hframe, rfl⟩)

/-- What a read adds is determined by the database it is made on. -/
theorem Adds.unique (h : Adds P q k db added) (h' : Adds P q k db added') : added = added' := by
  obtain ⟨key, db₁, hkey⟩ : ∃ key db₁, db.intern q k = (key, db₁) := ⟨_, _, rfl⟩
  obtain ⟨hactive, rfl⟩ | ⟨hactive, rfl, hpanics⟩ | ⟨hactive, _, db₀, _, _, frame, _, henters, hrun,
    houtcome, hframe, rfl⟩ := h.cases hkey
  · obtain ⟨_, rfl⟩ | ⟨hactive', _⟩ | ⟨hactive', _⟩ := h'.cases hkey
    · rfl
    · cases hactive.symm.trans hactive'
    · cases hactive.symm.trans hactive'
  · obtain ⟨hactive', _⟩ | ⟨_, rfl, _⟩ | ⟨_, _, _, _, _, _, _, henters, hrun, houtcome, _⟩ :=
      h'.cases hkey
    · cases hactive.symm.trans hactive'
    · rfl
    · obtain ⟨message, hpanic⟩ := hpanics _ _ _ _ henters hrun
      exact absurd hpanic (houtcome message)
  · obtain ⟨hactive', _⟩ | ⟨_, rfl, hpanics⟩ | ⟨_, _, _, _, _, _, _, henters', hrun', _, hframe',
      rfl⟩ := h'.cases hkey
    · cases hactive.symm.trans hactive'
    · obtain ⟨message, hpanic⟩ := hpanics _ _ _ _ henters hrun
      exact absurd hpanic (houtcome message)
    · obtain ⟨_, rfl⟩ := henters.unique henters'
      obtain ⟨_, rfl⟩ := Prod.mk.inj (run_unique hrun hrun')
      cases hframe.symm.trans hframe'
      rfl

theorem Gathers.unique (h : Gathers P b db lists) (h' : Gathers P b db lists') :
    lists = lists' := by
  induction h generalizing lists' with
  | done =>
      cases h'
      rfl
  | read hadds hquery _ ih =>
      cases h' with
      | read hadds' hquery' hnext' =>
          cases query_unique hquery hquery'
          rw [hadds.unique hadds', ih hnext']
  | revision _ ih =>
      cases h' with
      | revision hnext' => exact ih hnext'
  | outside _ ih =>
      cases h' with
      | outside hnext' => exact ih hnext'

/-- What a read adds is noted by its reader, and nothing in it is being computed. -/
structure Listed (P : Program Q K V W) (q : Q) (k : K) (db db' : Database Q K V W)
    (added : List Handle) : Prop where
  adds : Adds P q k db added
  idle : ∀ d ∈ added, d ∉ db.stack.active
  notes : ∀ noted, db.stack.Notes noted → db'.stack.Notes (noted ++ added)

/-- What the reads of a body add is noted in its frame, and nothing in it is being computed. -/
structure Gathered (P : Program Q K V W) (b : Body Q K V W V) (db db' : Database Q K V W)
    (lists : List (List Handle)) : Prop where
  grows : db.stack.Grows db'.stack
  gathers : Gathers P b db lists
  idle : ∀ d ∈ lists.flatten, d ∉ db.stack.active
  notes : ∀ noted, db.stack.Notes noted → db'.stack.Notes (noted ++ lists.flatten)

namespace Gathered

theorem done (o : Outcome V) (db : Database Q K V W) : Gathered P (.done o) db db [] :=
  ⟨.refl _, .done, by simp, fun _ h ↦ by simpa using h⟩

theorem read {next : Outcome V → Body Q K V W V} {a : Outcome V}
    (hnext : Gathered P (next a) db₁ db' lists) (hquery : query P fuel q k db = some (a, db₁))
    (hread : Listed P q k db db₁ added) :
    Gathered P (.read q k next) db db' (added :: lists) := by
  have hgrows := query_grows hquery
  refine ⟨hgrows.trans hnext.grows, .read hread.adds hquery hnext.gathers, fun d hd ↦ ?_,
    fun noted hnoted ↦ ?_⟩
  · rcases List.mem_append.mp (List.flatten_cons ▸ hd) with hd | hd
    · exact hread.idle d hd
    · exact hgrows.active_eq ▸ hnext.idle d hd
  · rw [List.flatten_cons, ← List.append_assoc]
    exact hnext.notes _ (hread.notes noted hnoted)

theorem revision {next : Revision → Body Q K V W V}
    (h : Gathered P (next db.revision) db db' lists) : Gathered P (.revision next) db db' lists :=
  ⟨h.grows, .revision h.gathers, h.idle, h.notes⟩

theorem outside {change : W → W} {next : W → Body Q K V W V}
    (h : Gathered P (next db.outside) { db with outside := change db.outside } db' lists) :
    Gathered P (.outside change next) db db' lists :=
  ⟨h.grows, .outside h.gathers, h.idle, h.notes⟩

/-- When a body ends, its frame lists what its reads added, and is the only one that was pushed. -/
theorem frame_notes (h : Gathered P b db db' lists) (stack : CallStack)
    (hstack : db.stack = stack.push key) : ∃ frame : Frame, frame.key = key ∧
      db'.stack = ⟨frame :: stack.frames, key :: stack.active⟩ ∧ frame.Notes lists.flatten ∧
      ∀ d ∈ frame.reads, d ≠ key ∧ d ∉ stack.active := by
  obtain ⟨frame, hkey, htop⟩ := (hstack ▸ h.grows).of_push
  have hnotes : frame.Notes lists.flatten := by
    have hnotes := h.notes [] (hstack ▸ .push stack key)
    rw [htop] at hnotes
    exact hnotes.top
  refine ⟨frame, hkey, htop, hnotes, fun d hd ↦ ?_⟩
  have hidle := h.idle d (List.mem_eraseDups.1 (hnotes ▸ hd))
  rw [hstack] at hidle
  simpa [CallStack.push] using hidle

end Gathered

/-- To look for what is kept for a read notes its handle. -/
theorem notes_of_retrieve {r : Option (V × Revision)} {noted : List Handle}
    (hkey : db.intern q k = (key, db₁))
    (hretrieve : (db₁.recordRead key).retrieve fuel key = some (r, db₂))
    (h : db.stack.Notes noted) : db₂.stack.Notes (noted ++ [key]) := by
  rw [stack_of_retrieve hkey hretrieve]
  exact h.recordRead key

/-- When an evaluation is left, its reader has noted the handle, and notes the list unless it
panicked. -/
theorem Gathered.leave
    (h : Gathered P (P.body q k) ((db₂.note (.miss q k)).enter q k key) db₃ lists)
    (hkey : db.intern q k = (key, db₁)) (hactive : db₁.stack.isActive key = false)
    (hretrieve : (db₁.recordRead key).retrieve fuel key = some (none, db₂))
    (hbroken : db₂.configuration.brokenAt db₂.stack.depth = none)
    (hrun : (P.body q k).run (query P fuel') ((db₂.note (.miss q k)).enter q k key) =
      some (o, db₃)) :
    ∃ added, Listed P q k db (leave key db₂.stack.depth (o, db₃)).2 added := by
  obtain ⟨frame, rfl, hstack, hframe, hidle⟩ := h.frame_notes db₂.stack rfl
  have hgrows := retrieve_grows hkey hretrieve
  have hkeyIdle := not_mem_active hkey hactive
  have hrecord {noted} (hnoted : db.stack.Notes noted) : db₂.stack.Notes (noted ++ [frame.key]) :=
    notes_of_retrieve hkey hretrieve hnoted
  have hreads : ∀ d ∈ frame.key :: frame.reads, d ∉ db.stack.active := by
    intro d hd
    rcases List.mem_cons.mp hd with rfl | hd
    · exact hkeyIdle
    · exact hgrows.active_eq ▸ (hidle d hd).2
  have henters := Enters.intro hkey hactive hretrieve hbroken
  have hframes := congrArg CallStack.frames hstack
  cases o with
  | panic message =>
      refine ⟨[frame.key], .panicked henters hrun, by simpa using hkeyIdle, fun noted hnoted ↦ ?_⟩
      rw [leave_panic hstack]
      exact hrecord hnoted
  | failure f =>
      refine ⟨_, .ended henters hrun (by simp) hframes, hreads, fun noted hnoted ↦ ?_⟩
      rw [leave_failure hstack, List.append_cons]
      exact (hrecord hnoted).absorb hframe.nodup _
  | value v =>
      refine ⟨_, .ended henters hrun (by simp) hframes, hreads, fun noted hnoted ↦ ?_⟩
      rw [leave_value hstack, List.append_cons]
      exact (hrecord hnoted).absorb hframe.nodup _

/-- Every read that is answered adds to the list of its reader what it should. -/
theorem listed_course : Course P (fun q k db _ db' ↦ ∃ added, Listed P q k db db' added)
    (fun b db _ db' ↦ ∃ lists, Gathered P b db db' lists) where
  refused := by
    intro fuel q k db key db₁ hkey hactive _
    refine ⟨[], .refused hkey hactive, by simp, fun noted hnoted ↦ ?_⟩
    rw [List.append_nil]
    exact (stack_of_intern hkey).symm ▸ hnoted
  hit := by
    intro fuel n q k db key db₁ v c db₂ hkey hactive hretrieve _
    refine ⟨[key], .hit hkey hactive hretrieve, by simpa using not_mem_active hkey hactive,
      fun noted hnoted ↦ ?_⟩
    exact (notes_of_retrieve hkey hretrieve hnoted).observe c
  tooDeep := by
    intro fuel n q k db key db₁ db₂ limit hkey hactive hretrieve hbroken _
    refine ⟨[key], .tooDeep hkey hactive hretrieve hbroken,
      by simpa using not_mem_active hkey hactive, fun noted hnoted ↦ ?_⟩
    exact (notes_of_retrieve hkey hretrieve hnoted :)
  computed := by
    intro fuel n q k db key db₁ db₂ o db₃ hkey hactive hretrieve hbroken hrun _ ⟨lists, h⟩
    exact h.leave hkey hactive hretrieve hbroken hrun
  done := fun o db ↦ ⟨[], .done o db⟩
  read := by
    intro fuel q k next db a db₁ o db₂ hquery _ ⟨added, hread⟩ ⟨lists, hnext⟩
    exact ⟨added :: lists, hnext.read hquery hread⟩
  revision := fun next db o db₁ ⟨lists, h⟩ ↦ ⟨lists, h.revision⟩
  outside := fun change next db o db₁ ⟨lists, h⟩ ↦ ⟨lists, h.outside⟩

theorem exists_gathered (h : b.run (query P fuel) db = some (o, db')) :
    ∃ lists, Gathered P b db db' lists :=
  listed_course.run h

/-- The body that a read begins, and the database that it is begun on, if it begins one. -/
def enters? (db : Database Q K V W) (fuel : Nat) (q : Q) (k : K) :
    Option (Handle × Database Q K V W) :=
  let (key, db) := db.intern q k
  if db.stack.isActive key then none
  else
    match (db.recordRead key).retrieve fuel key with
    | some (none, db) =>
      match db.configuration.brokenAt db.stack.depth with
      | some _ => none
      | none => some (key, (db.note (.miss q k)).enter q k key)
    | _ => none

theorem enters_of_enters? (h : db.enters? fuel q k = some (key, db₀)) :
    db.Enters q k key db₀ := by
  obtain ⟨key', db₁, hkey⟩ : ∃ key db₁, db.intern q k = (key, db₁) := ⟨_, _, rfl⟩
  simp only [enters?, hkey] at h
  split at h
  · cases h
  · next hactive =>
      split at h
      · next db₂ hretrieve =>
          split at h
          · cases h
          · next hbroken =>
              cases h
              exact .intro hkey (by simpa using hactive) hretrieve hbroken
      · cases h

end Database

namespace Stage

open Database

variable [DecidableEq Q] [BEq K] [EquivBEq K] [BEq V] {P : Program Q K V W} {t : Stage Q K V W}
  {q : Q} {k : K} {key : Handle} {db₀ db₁ : Database Q K V W} {fuel : Nat} {o : Outcome V}

/-- Exact lists: at every stage of every run, of whatever program, an evaluation that is begun and
ends lists what its body's own reads added, in the order of the reads, each handle where it came
first. So it lists no handle twice, neither its own nor any that is computed further out, and only
such as are named. If it ends in a value, that is the list that is kept with the value. -/
theorem reads_listed (ht : Reached P t) (henters : t.db.Enters q k key db₀)
    (hrun : (P.body q k).run (query P fuel) db₀ = some (o, db₁)) :
    ∃ frame frames lists, db₁.stack.frames = frame :: frames ∧ frame.key = key ∧
      Gathers P (P.body q k) db₀ lists ∧
      (∀ lists', Gathers P (P.body q k) db₀ lists' → lists' = lists) ∧
      frame.reads = lists.flatten.eraseDups ∧ frame.reads.Nodup ∧
      (∀ d ∈ frame.reads, d ≠ key ∧ d ∉ t.db.stack.active ∧ db₁.store.Has d) ∧
      ∀ v, o = .value v → ∃ n c db', query P n q k t.db = some (.value v, db') ∧
        db'.store.memo? key = some (.derived v c db'.revision frame.reads) := by
  obtain @⟨_, _, _, db₂, hkey, hactive, hretrieve, hbroken⟩ := henters
  obtain ⟨lists, hlists⟩ := exists_gathered hrun
  obtain ⟨frame, rfl, hstack, hframe, hidle⟩ := hlists.frame_notes db₂.stack rfl
  obtain ⟨hsound, _⟩ := ht.sound.ran hkey hretrieve hrun
  have hnamed := (hsound.pop hstack).2
  have hgrows := retrieve_grows hkey hretrieve
  refine ⟨frame, _, lists, congrArg CallStack.frames hstack, rfl, hlists.gathers,
    fun _ h ↦ h.unique hlists.gathers, hframe, hframe.nodup, fun d hd ↦ ?_, ?_⟩
  · obtain ⟨hne, hnot⟩ := hidle d hd
    exact ⟨hne, hgrows.active_eq ▸ hnot, hnamed.reads d hd⟩
  · rintro v rfl
    have hquery := query_of_run hkey hactive hretrieve hbroken hrun
    rw [leave_value hstack] at hquery
    exact ⟨_, _, _, hquery, Store.memo?_insert_self hnamed.key _⟩

end Stage

/-- A day of a tour, on a way that is closed here and there. -/
inductive Tour
  | paper
  | map
  | bridge
  | ferry
  | shaft
  | tunnel
  | day
  | tour
  deriving DecidableEq

open Database Stage

namespace Tour

def logic : Tour → Option (Unit → Body Tour Unit Nat Unit Nat)
  | paper => none
  | map => some fun _ ↦ .get paper ()
  | bridge => some fun _ ↦ (Body.get map ()).bind fun _ ↦ .fail (.ofMessage "closed")
  | ferry => some fun _ ↦ (Body.get paper ()).bind fun _ ↦ .panic "sunk"
  | shaft => some fun _ ↦ .get paper ()
  | tunnel => some fun _ ↦ (Body.get shaft ()).orElse fun _ ↦ .value 0
  | day => some fun _ ↦ (Body.get map ()).bind fun m ↦ (Body.get map ()).bind fun _ ↦
    ((Body.get bridge ()).orElse fun _ ↦ .value 1).bind fun a ↦
      ((Body.get ferry ()).catchPanic fun _ ↦ .value 2).bind fun b ↦
        ((Body.get tour ()).orElse fun _ ↦ .value 3).bind fun c ↦
          (Body.get tunnel ()).bind fun d ↦ .value (m + a + b + c + d)
  | tour => some fun _ ↦ .get day ()

def program : Program Tour Unit Nat Unit where
  name _ := ""
  logic := logic
  showArgument _ _ := ""
  showValue _ _ := ""

/-- The day reads the map, again from memory, the bridge that is closed, the ferry that sinks, the
tour that it is part of, and the tunnel, whose shaft is too deep. It lists the map with its paper,
the bridge, whose map is listed already, the ferry without its paper, and the tunnel with its shaft,
but not the tour. -/
theorem day_listed : ∃ t : Stage Tour Unit Nat Unit, ∃ db₀ db₁, Reached program t ∧
    t.db.Enters day () ⟨2, 0⟩ db₀ ∧
    (program.body day ()).run (query program 9) db₀ = some (.value 15, db₁) ∧
    ∃ lists, Gathers program (program.body day ()) db₀ lists ∧
      lists.flatten.eraseDups = [⟨3, 0⟩, ⟨0, 0⟩, ⟨4, 0⟩, ⟨5, 0⟩, ⟨6, 0⟩, ⟨7, 0⟩] ∧
      ∃ n c db', query program n day () t.db = some (.value 15, db') ∧
        db'.store.memo? ⟨2, 0⟩ =
          some (.derived 15 c db'.revision lists.flatten.eraseDups) := by
  have hrun : (performAll program 9 [.act (.edit (.set paper () 9))]
      { configuration := ⟨some 3⟩, outside := () }).bind (fun p ↦
        (steps? program 9 1 ⟨p.2, .get tour (), []⟩).bind fun t ↦
          (t.db.enters? 9 day ()).bind fun r ↦
            ((program.body day ()).run (query program 9) r.2).map fun r' ↦
              (r.1, r'.1, r'.2.stack.frames.head?.map Frame.reads)) =
      some (⟨2, 0⟩, .value 15, some [⟨3, 0⟩, ⟨0, 0⟩, ⟨4, 0⟩, ⟨5, 0⟩, ⟨6, 0⟩, ⟨7, 0⟩]) := by
    decide +kernel
  obtain ⟨⟨replies, db⟩, hops, hrun⟩ := Option.bind_eq_some_iff.mp hrun
  obtain ⟨t, hsteps, hrun⟩ := Option.bind_eq_some_iff.mp hrun
  obtain ⟨⟨key, db₀⟩, henters, hrun⟩ := Option.bind_eq_some_iff.mp hrun
  obtain ⟨⟨o, db₁⟩, hrun, hend⟩ := Option.map_eq_some_iff.mp hrun
  simp only [Prod.mk.injEq] at hend
  obtain ⟨rfl, rfl, hreads⟩ := hend
  have ht : Reached program t := reached_of_steps? hops hsteps
  have henters := enters_of_enters? henters
  obtain ⟨frame, frames, lists, hframe, _, hlists, _, hlisted, _, _, hkept⟩ :=
    reads_listed ht henters hrun
  rw [hframe] at hreads
  obtain ⟨n, c, db', hquery, hmemo⟩ := hkept 15 rfl
  rw [hlisted] at hmemo
  exact ⟨t, db₀, db₁, ht, henters, hrun, lists, hlists,
    hlisted.symm.trans (Option.some.inj hreads), n, c, db', hquery, hmemo⟩

end Tour

end Incremental
