import Incremental.Proofs.Nesting

/-!
# What a step does to what is kept

A step of a run looks at what is kept, keeps a value at the end of an evaluation, or makes a change
between two operations. Looking stamps some memos at most, and what it begins to evaluate is not
known to stand. The events tell which of these a step was, so they tell when a memo was replaced or
dropped.
-/

namespace Incremental

variable {Q K V W : Type}

/-- What is kept may be another after the event than before. -/
def Event.Alters : Event Q K → Prop
  | assigned .. | removed .. | cleared _ | computed _ => True
  | _ => False

namespace Memo

theorem verified_of_isCurrent {now : Revision} {m : Memo V} (h : m.IsCurrent now) :
    m.verified now = m := by
  cases m with
  | input => rfl
  | derived v c w reads =>
      obtain rfl : w = now := h
      rfl

end Memo

namespace Store

/-- Nothing that was read for the value is gone or has changed since it was last known to stand. -/
def Intact (s : Store Q K V) (key : Handle) : Prop :=
  ∀ v c w reads, s.memo? key = some (.derived v c w reads) →
    ∀ d ∈ reads, ∃ m, s.memo? d = some m ∧ m.changedAt ≤ w

/-- `s'` names what `s` names, and keeps the same, with some intact values stamped at `now`. -/
structure Stamps (now : Revision) (s s' : Store Q K V) : Prop where
  named : ∀ key x, s.named? key = some x → s'.named? key = some x
  removedAt : ∀ key, s'.removedAt key = s.removedAt key
  memo : ∀ key, s'.memo? key = s.memo? key ∨
    s.Intact key ∧ s'.memo? key = (s.memo? key).map (Memo.verified now)

namespace Stamps

variable {now : Revision} {s s' s'' : Store Q K V} {key : Handle} {m : Memo V}

theorem refl (now : Revision) (s : Store Q K V) : s.Stamps now s :=
  ⟨fun _ _ h ↦ h, fun _ ↦ rfl, fun _ ↦ .inl rfl⟩

theorem exists_memo (h : s.Stamps now s') (hm : s'.memo? key = some m) :
    ∃ m₀, s.memo? key = some m₀ ∧ m₀.changedAt = m.changedAt := by
  rcases h.memo key with heq | ⟨_, heq⟩
  · exact ⟨m, heq ▸ hm, rfl⟩
  · rw [hm] at heq
    obtain ⟨m₀, hm₀, rfl⟩ := Option.map_eq_some_iff.mp heq.symm
    exact ⟨m₀, hm₀, by simp⟩

/-- Where a value was not stamped yet, it was intact before if it is so still. -/
theorem intact (h : s.Stamps now s') (hsame : s'.memo? key = s.memo? key) (hkey : s'.Intact key) :
    s.Intact key := by
  intro v c w reads hm d hd
  obtain ⟨m, hm', hle⟩ := hkey v c w reads (hsame.trans hm) d hd
  obtain ⟨m₀, hm₀, hchanged⟩ := h.exists_memo hm'
  exact ⟨m₀, hm₀, hchanged ▸ hle⟩

theorem trans (h : s.Stamps now s') (h' : s'.Stamps now s'') : s.Stamps now s'' := by
  refine ⟨fun key x hx ↦ h'.named key x (h.named key x hx),
    fun key ↦ (h'.removedAt key).trans (h.removedAt key), fun key ↦ ?_⟩
  rcases h.memo key with heq | ⟨hintact, heq⟩ <;> rcases h'.memo key with heq' | ⟨hintact', heq'⟩
  · exact .inl (heq'.trans heq)
  · exact .inr ⟨h.intact heq hintact', heq ▸ heq'⟩
  · exact .inr ⟨hintact, heq'.trans heq⟩
  · refine .inr ⟨hintact, heq'.trans ?_⟩
    rw [heq]
    cases s.memo? key <;> simp

theorem markVerified (h : s.Stamps now s') (hkey : s.Intact key) :
    s.Stamps now (s'.markVerified key now) := by
  have hmarks := Marks.markVerified s' key now
  refine ⟨fun other x hx ↦ (hmarks.named?_eq other).trans (h.named other x hx),
    fun other ↦ (hmarks.removedAt other).trans (h.removedAt other), fun other ↦ ?_⟩
  by_cases hother : other = key
  · subst hother
    refine .inr ⟨hkey, ?_⟩
    rw [memo?_markVerified]
    rcases h.memo other with heq | ⟨_, heq⟩
    · rw [heq]
    · rw [heq]
      cases s.memo? other <;> simp
  · rw [memo?_markVerified_of_ne hother]
    exact h.memo other

/-- What is known to stand stays as it is. -/
theorem current_memo (h : s.Stamps now s') (hm : s.memo? key = some m)
    (hcurrent : m.IsCurrent now) : s'.memo? key = some m := by
  rcases h.memo key with heq | ⟨_, heq⟩
  · exact heq.trans hm
  · rw [heq, hm, Option.map_some, Memo.verified_of_isCurrent hcurrent]

theorem input_iff (h : s.Stamps now s') {v : V} {c : Revision} :
    s'.memo? key = some (.input v c) ↔ s.memo? key = some (.input v c) := by
  rcases h.memo key with heq | ⟨_, heq⟩
  · rw [heq]
  · rw [heq]
    rcases s.memo? key with _ | _ | _ <;> simp [Memo.verified]

theorem keeps (h : s.Stamps now s') : s.Keeps s' := ⟨h.named, h.removedAt, fun _ _ _ ↦ h.input_iff⟩

theorem intern [DecidableEq Q] [BEq K] (now : Revision) (s : Store Q K V) (q : Q) (k : K) :
    s.Stamps now (s.intern q k).2 :=
  ⟨fun _ _ hx ↦ named?_intern hx q k, removedAt_intern s q k,
    fun key ↦ .inl (memo?_intern s q k key)⟩

end Stamps

variable {now : Revision} {s : Store Q K V} {key : Handle}

theorem named?_erase (s : Store Q K V) (key other : Handle) (r : Revision) :
    (s.erase key r).named? other = s.named? other :=
  named?_congr (arguments_modify s key fun _ ↦ rfl)

theorem removedAt_erase (hkey : s.Has key) (r : Revision) : (s.erase key r).removedAt key = r := by
  obtain ⟨row, hrow⟩ := named?_eq_some_iff_row?.1 hkey
  simp [removedAt, erase, row?_modify, hrow, Row.erase]

variable [DecidableEq Q] [BEq K]

theorem Regular.assign (h : s.Regular now) (hkey : s.Has key) (v : V) :
    (s.insert key (.input v (now + 1))).Regular (now + 1) := by
  have hself := memo?_insert_self hkey (.input v (now + 1))
  refine h.modify (fun _ ↦ rfl) ?_ (fun v' c hm ↦ ?_) fun v' c w reads hm ↦ ?_
  · exact Nat.le_succ_of_le (Nat.le_trans (Nat.le_of_eq (removedAt_insert ..)) (h.removedAt_le key))
  · cases hself.symm.trans hm
    exact Nat.le_refl _
  · cases hself.symm.trans hm

theorem Regular.erase (h : s.Regular now) (hkey : s.Has key) :
    (s.erase key (now + 1)).Regular (now + 1) := by
  have hself := memo?_erase s key (now + 1)
  refine h.modify (fun _ ↦ rfl) (Nat.le_of_eq (removedAt_erase hkey _)) (fun v c hm ↦ ?_)
    fun v c w reads hm ↦ ?_
  · cases hself.symm.trans hm
  · cases hself.symm.trans hm

end Store

namespace Database

variable {db db₀ db₁ db₂ db' : Database Q K V W} {key : Handle}

/-- What happened in a database since it was `db₀`, the latest first. -/
def since (db db₀ : Database Q K V W) : List (Event Q K) :=
  db.events.take (db.events.length - db₀.events.length)

theorem since_eq {recent : List (Event Q K)} (h : db.events = recent ++ db₀.events) :
    db.since db₀ = recent := by
  simp [since, h]

theorem since_append (h : db₀.events <:+ db.events) : db.events = db.since db₀ ++ db₀.events := by
  obtain ⟨recent, hrecent⟩ := h
  rw [since_eq hrecent.symm, hrecent]

theorem mem_since {e : Event Q K} {rest : List (Event Q K)} (hrest : db.events <:+ rest)
    (h : db'.events = e :: rest) : e ∈ db'.since db := by
  obtain ⟨recent, rfl⟩ := hrest
  have hevents : db'.events = (e :: recent) ++ db.events := h
  rw [since_eq hevents]
  exact List.mem_cons_self

theorem since_trans (h : db.events <:+ db₁.events) (h' : db₁.events <:+ db₂.events) :
    db₂.since db = db₂.since db₁ ++ db₁.since db := by
  refine since_eq ?_
  rw [List.append_assoc, ← since_append h, ← since_append h']

/-- From `db` to `db'` the revision does not go back, and no event and no name is lost. -/
structure Precedes (db db' : Database Q K V W) : Prop where
  revision : db.revision ≤ db'.revision
  events : db.events <:+ db'.events
  named : ∀ key x, db.store.named? key = some x → db'.store.named? key = some x

namespace Precedes

theorem refl (db : Database Q K V W) : db.Precedes db :=
  ⟨Nat.le_refl _, List.suffix_rfl, fun _ _ h ↦ h⟩

theorem trans (h : db.Precedes db₁) (h' : db₁.Precedes db₂) : db.Precedes db₂ :=
  ⟨Nat.le_trans h.revision h'.revision, h.events.trans h'.events,
    fun key x hx ↦ h'.named key x (h.named key x hx)⟩

end Precedes

/-- Nothing happened since that alters what is kept. -/
def Unaltered (db db' : Database Q K V W) : Prop :=
  ∃ recent, db'.events = recent ++ db.events ∧ ∀ e ∈ recent, ¬ e.Alters

namespace Unaltered

theorem of_eq (h : db'.events = db.events) : db.Unaltered db' := ⟨[], h, by simp⟩

theorem refl (db : Database Q K V W) : db.Unaltered db := of_eq rfl

theorem trans (h : db.Unaltered db₁) (h' : db₁.Unaltered db₂) : db.Unaltered db₂ := by
  obtain ⟨recent, heq, hrecent⟩ := h
  obtain ⟨recent', heq', hrecent'⟩ := h'
  refine ⟨recent' ++ recent, by rw [heq', heq, List.append_assoc], fun e he ↦ ?_⟩
  rcases List.mem_append.mp he with he | he
  · exact hrecent' e he
  · exact hrecent e he

theorem of_cons (event : Event Q K) (h : ¬ event.Alters) (heq : db'.events = event :: db.events) :
    db.Unaltered db' := ⟨[event], heq, by simpa using h⟩

end Unaltered

theorem verify_unaltered {fuel : Nat} {asOf : Revision} {fresh : Bool}
    (h : verify fuel key asOf db = some (fresh, db')) : db.Unaltered db' :=
  verify_keeps Unaltered .refl .trans (fun key _ ↦ .of_cons (.walked key) id rfl)
    (fun key asOf fresh _ ↦ .of_cons (.verified key asOf fresh) id rfl) (fun _ _ ↦ .of_eq rfl) h

/-- Verification stamps intact values only. What it finds to stand has not changed since. -/
theorem verify_stamps {fuel : Nat} {asOf : Revision} {fresh : Bool}
    (h : verify fuel key asOf db = some (fresh, db')) :
    db.store.Stamps db.revision db'.store ∧
      (fresh = true → ∃ m, db.store.memo? key = some m ∧ m.changedAt ≤ asOf) := by
  refine (verify_induction
    (fun key asOf db fresh db' ↦ db'.revision = db.revision ∧
      db.store.Stamps db.revision db'.store ∧
      (fresh = true → ∃ m, db.store.memo? key = some m ∧ m.changedAt ≤ asOf))
    (fun since keys db fresh db' ↦ db'.revision = db.revision ∧
      db.store.Stamps db.revision db'.store ∧
      (fresh = true → ∀ d ∈ keys, ∃ m, db.store.memo? d = some m ∧ m.changedAt ≤ since))
    ?settled ?walked ?nil ?stop ?step h).2
  case settled =>
    refine fun key asOf db fresh hglance ↦ ⟨rfl, .refl _ _, fun hfresh ↦ ?_⟩
    subst hfresh
    rcases glance_settled hglance with ⟨v, c, hm, hle⟩ | ⟨v, c, reads, hm, hle⟩
    · exact ⟨_, hm, hle⟩
    · exact ⟨_, hm, hle⟩
  case walked =>
    rintro key asOf db since reads fresh db₁ hglance ⟨hrevision, hstamps, hreads⟩
    obtain ⟨v, c, hm, hle, _⟩ := glance_undecided hglance
    change db₁.revision = db.revision at hrevision
    change db.store.Stamps db.revision db₁.store at hstamps
    cases fresh with
    | false => exact ⟨hrevision, hstamps, fun hfresh ↦ absurd hfresh (by simp)⟩
    | true =>
        have hintact : db.store.Intact key := by
          intro v' c' w' reads' hm'
          cases hm.symm.trans hm'
          exact hreads rfl
        refine ⟨hrevision, ?_, fun _ ↦ ⟨_, hm, hle⟩⟩
        change db.store.Stamps db.revision (db₁.store.markVerified key db₁.revision)
        exact hrevision ▸ hstamps.markVerified hintact
  case nil => exact fun _ db ↦ ⟨rfl, .refl _ _, by simp⟩
  case stop =>
    exact fun _ _ _ _ _ ⟨hrevision, hstamps, _⟩ ↦ ⟨hrevision, hstamps, by simp⟩
  case step =>
    rintro since key keys db db₁ fresh db₂ ⟨hrevision, hstamps, hkey⟩ ⟨hrevision', hstamps', hkeys⟩
    rw [hrevision] at hstamps' hrevision'
    refine ⟨hrevision', hstamps.trans hstamps', fun hfresh d hd ↦ ?_⟩
    rcases List.mem_cons.mp hd with rfl | hd
    · exact hkey rfl
    · obtain ⟨m, hm, hle⟩ := hkeys hfresh d hd
      obtain ⟨m₀, hm₀, hchanged⟩ := hstamps.exists_memo hm
      exact ⟨m₀, hm₀, hchanged ▸ hle⟩

theorem retrieve_looks {fuel : Nat} {r : Option (V × Revision)}
    (h : db.retrieve fuel key = some (r, db')) :
    db.Unaltered db' ∧ db.store.Stamps db.revision db'.store := by
  rcases eq_or_verify_of_retrieve h with rfl | ⟨_, hverify⟩
  · exact ⟨.refl _, .refl _ _⟩
  · exact ⟨verify_unaltered hverify, (verify_stamps hverify).1⟩

theorem Walks.looks {since : Revision} {keys : List Handle} (h : Walks since keys db db') :
    db.Unaltered db' ∧ db.store.Stamps db.revision db'.store := by
  induction h with
  | here => exact ⟨.refl _, .refl _ _⟩
  | @within _ _ key _ _ db _ _ _ ih =>
      have hwalked : db.Unaltered (db.note (.walked key)) := .of_cons (.walked key) id rfl
      exact ⟨hwalked.trans ih.1, ih.2⟩
  | ended hverify => exact ⟨verify_unaltered hverify, (verify_stamps hverify).1⟩
  | later hverify _ ih =>
      refine ⟨(verify_unaltered hverify).trans ih.1, (verify_stamps hverify).1.trans ?_⟩
      exact (verify_verifies hverify).revision_eq ▸ ih.2

variable [DecidableEq Q] [BEq K]

/-- What one step of a run may do to a database: it looks at what is kept, at most, or it keeps
the value of the innermost evaluation, which it ends, or it changes what is kept between two
operations. -/
inductive Moves (db db' : Database Q K V W) : Prop
  | looks (hrevision : db'.revision = db.revision) (hevents : db.Unaltered db')
      (hstore : db.store.Stamps db.revision db'.store)
      (hactive : ∀ key ∈ db'.stack.active, key ∈ db.stack.active ∨
        ∀ m, db.store.memo? key = some m → ¬ m.IsCurrent db.revision)
  | keeps {key : Handle} {v : V} {c : Revision} {reads : List Handle}
      (hrevision : db'.revision = db.revision) (hevents : db'.events = .computed key :: db.events)
      (hkey : db.store.Has key) (hremoved : db.store.removedAt key ≤ c)
      (hstore : db'.store = db.store.insert key (.derived v c db.revision reads))
      (hactive : db.stack.active = key :: db'.stack.active) (hidle : key ∉ db'.stack.active)
  | assigns {q : Q} {k : K} {v : V} {key : Handle} {s : Store Q K V} (hidle : db.stack = {})
      (hstore : db.store.Stamps db.revision s) (hkey : s.lookup? q k = some key)
      (h : db' = { db with
        revision := db.revision + 1
        store := s.insert key (.input v (db.revision + 1)) }.note (.assigned q k (db.revision + 1)))
  | erases {q : Q} {k : K} {key : Handle} (hidle : db.stack = {})
      (hkey : db.store.lookup? q k = some key)
      (h : db' = { db with
        revision := db.revision + 1
        store := db.store.erase key (db.revision + 1) }.note (.removed q k (db.revision + 1)))
  | clears (hidle : db.stack = {}) (h : db' = db.clearCache)

theorem Precedes.lookup? [EquivBEq K] (h : db.Precedes db') (hdb' : db'.Sound) {q : Q} {k : K}
    (hkey : db.store.lookup? q k = some key) : db'.store.lookup? q k = some key :=
  Store.lookup?_of_named hdb'.store.indexed h.named hkey

/-- Where nothing is under evaluation, only the store has to be regular. -/
theorem Sound.of_idle (hidle : db.stack = {}) (h : db.store.Regular db.revision) : db.Sound :=
  ⟨h, by simp [hidle], by simp [hidle]⟩

theorem Sound.set [ReflBEq K] (h : db.Sound) (hidle : db.stack = {}) (q : Q) (k : K) (v : V) :
    (db.set q k v).Sound := by
  obtain ⟨key, s, hkey, hfound, _, hset⟩ := db.set_eq q k v
  obtain rfl : (db.store.intern q k).2 = s := congrArg Prod.snd hkey
  rw [hset]
  exact .of_idle hidle ((h.store.intern q k).assign (Store.has_of_lookup? hfound) v)

theorem Sound.edit [BEq V] [ReflBEq K] (h : db.Sound) (hidle : db.stack = {}) (e : Edit Q K V) :
    (edit e db).2.Sound := by
  obtain heq | heq | ⟨v, heq⟩ | ⟨key, hkey, heq⟩ := edit_cases e db <;> rw [heq]
  · exact h
  · exact h.note _
  · exact h.set hidle _ _ v
  · exact .of_idle hidle (h.store.erase (Store.has_of_lookup? hkey))

theorem Moves.of_note {event : Event Q K} (h : ¬ event.Alters) (db : Database Q K V W) :
    db.Moves (db.note event) :=
  .looks rfl (.of_cons event h rfl) (.refl _ _) fun _ ↦ .inl

theorem Moves.refl (db : Database Q K V W) : db.Moves db :=
  .looks rfl (.refl db) (.refl _ _) fun _ ↦ .inl

theorem Moves.precedes (h : db.Moves db') : db.Precedes db' := by
  cases h with
  | looks hrevision hevents hstore =>
      obtain ⟨recent, hrecent, _⟩ := hevents
      exact ⟨Nat.le_of_eq hrevision.symm, ⟨recent, hrecent.symm⟩, hstore.named⟩
  | keeps hrevision hevents _ _ hstore =>
      refine ⟨Nat.le_of_eq hrevision.symm, hevents ▸ List.suffix_cons _ _, fun key x hx ↦ ?_⟩
      rw [hstore]
      exact (Store.named?_insert ..).trans hx
  | assigns _ hstore _ h =>
      rw [h]
      refine ⟨Nat.le_succ _, List.suffix_cons _ _, fun key x hx ↦ ?_⟩
      exact (Store.named?_insert ..).trans (hstore.named key x hx)
  | erases _ _ h =>
      rw [h]
      refine ⟨Nat.le_succ _, List.suffix_cons _ _, fun key x hx ↦ ?_⟩
      exact (Store.named?_erase ..).trans hx
  | clears _ h =>
      rw [h]
      exact ⟨Nat.le_refl _, List.suffix_cons _ _, db.keeps_clearCache.named⟩

theorem store_of_intern {q : Q} {k : K} (h : db.intern q k = (key, db₁)) (now : Revision) :
    db₁.revision = db.revision ∧ db₁.events = db.events ∧ db.store.Stamps now db₁.store := by
  obtain rfl := eq_of_intern h
  exact ⟨rfl, rfl, .intern now db.store q k⟩

/-- To look for what is kept for a read stamps some memos at most. -/
theorem read_looks {q : Q} {k : K} {fuel : Nat} {r : Option (V × Revision)}
    (hkey : db.intern q k = (key, db₁))
    (hretrieve : (db₁.recordRead key).retrieve fuel key = some (r, db₂)) :
    db₂.revision = db.revision ∧ db.Unaltered db₂ ∧ db.store.Stamps db.revision db₂.store := by
  obtain ⟨hrevision, hevents, hstamps⟩ := store_of_intern hkey db.revision
  obtain ⟨hunaltered, hstamps'⟩ := retrieve_looks hretrieve
  have hrecord : db.Unaltered (db₁.recordRead key) := .of_eq hevents
  refine ⟨(retrieve_verifies hretrieve).revision_eq.trans hrevision, hrecord.trans hunaltered,
    hstamps.trans ?_⟩
  exact hrevision ▸ hstamps'

theorem AnswersAtOnce.looks {P : Program Q K V W} {q : Q} {k : K} {a : Outcome V}
    (h : AnswersAtOnce P q k db a db') : db'.revision = db.revision ∧ db.Unaltered db' ∧
      db.store.Stamps db.revision db'.store := by
  cases h with
  | @refused key db₁ hkey _ =>
      obtain ⟨hrevision, hevents, hstamps⟩ := store_of_intern hkey db.revision
      exact ⟨hrevision, (Unaltered.of_eq hevents).trans
        (.of_cons (.refused (db₁.circle P key)) id rfl), hstamps⟩
  | hit hkey _ hretrieve =>
      obtain ⟨hrevision, hevents, hstamps⟩ := read_looks hkey hretrieve
      exact ⟨hrevision, hevents.trans (.of_cons (.hit q k) id rfl), hstamps⟩
  | tooDeep hkey _ hretrieve _ =>
      obtain ⟨hrevision, hevents, hstamps⟩ := read_looks hkey hretrieve
      exact ⟨hrevision, hevents.trans (.of_cons (.miss q k) id rfl), hstamps⟩

end Database

namespace Stage

open Database

variable [DecidableEq Q] [BEq K] {P : Program Q K V W} {t t' : Stage Q K V W}
  {s : Database Q K V W}

theorem Shows.moves (h : t.Shows s) : t.db.Moves s := by
  have hactive := h.grows.active_eq
  cases h with
  | here => exact .refl _
  | @looks _ _ _ _ db _ _ _ _ _ _ _ hkey _ _ hwalks =>
      obtain ⟨hrevision, hevents, hstamps⟩ := store_of_intern hkey db.revision
      obtain ⟨hunaltered, hstamps'⟩ := hwalks.looks
      exact .looks (hwalks.verifies.revision_eq.trans hrevision)
        (.trans (.of_eq hevents) hunaltered) (hstamps.trans (hrevision ▸ hstamps'))
        fun key hkey ↦ .inl (hactive ▸ hkey)

variable [ReflBEq K]

/-- A step of an evaluation looks or keeps a value. -/
theorem Evaluates.moves (hstep : Evaluates P t t') (hdb : t.db.Sound)
    (hserves : t.db.stack.Serves t.calls) : t.db.Moves t'.db := by
  cases hstep with
  | answers hanswers =>
      obtain ⟨fuel, hquery⟩ := hanswers.exists_query
      obtain ⟨hrevision, hevents, hstamps⟩ := hanswers.looks
      exact .looks hrevision hevents hstamps fun other hother ↦
        .inl ((query_grows hquery).active_eq ▸ hother)
  | @enters q k next calls fuel db db₁ db₂ key hkey hactive hretrieve _ =>
      obtain ⟨hrevision, hevents, hstamps⟩ := read_looks hkey hretrieve
      have hmiss : db₂.Unaltered (db₂.note (.miss q k)) := .of_cons (.miss q k) id rfl
      have hstarted : (db₂.note (.miss q k)).Unaltered ((db₂.note (.miss q k)).enter q k key) :=
        .of_cons (.started q k key) id rfl
      refine .looks hrevision ((hevents.trans hmiss).trans hstarted) hstamps fun other hother ↦ ?_
      rcases List.mem_cons.mp hother with rfl | hother
      · refine .inr fun m hm hcurrent ↦ ?_
        obtain ⟨hrecord, hf⟩ := hdb.record hkey
        have hm₁ : (db₁.recordRead other).store.memo? other = some m :=
          (memo?_of_intern hkey other).trans hm
        rcases not_current_of_retrieve_none hrecord.store hretrieve with
          hnone | ⟨v, c, w, reads, hm', hw⟩
        · cases hm₁.symm.trans hnone
        · cases hm₁.symm.trans hm'
          exact hw (hf.revision ▸ hcurrent)
      · exact .inl ((retrieve_grows hkey hretrieve).active_eq ▸ hother)
  | @leaves o call calls db =>
      obtain ⟨frame, rest, hkey, hdepth, hstack, hidle, _⟩ := hserves.exists_top
      dsimp only at hstack ⊢
      rw [← hkey, hdepth]
      have hactive : db.stack.active = frame.key :: rest.active := by rw [hstack]
      cases o with
      | panic message =>
          rw [leave_panic hstack]
          refine .looks rfl (.of_cons (.discarded 1) id rfl) (.refl _ _) fun other hother ↦ .inl ?_
          exact hactive ▸ List.mem_cons_of_mem _ hother
      | failure f =>
          rw [leave_failure hstack]
          refine .looks rfl (.of_eq rfl) (.refl _ _) fun other hother ↦ .inl ?_
          rw [hactive]
          exact List.mem_cons_of_mem _ (CallStack.active_modifyTop _ rest ▸ hother)
      | value v =>
          rw [leave_value hstack]
          have habsorb := CallStack.Grows.absorb rest frame.reads
            (max frame.newest (db.store.removedAt frame.key))
          refine .keeps rfl rfl (hdb.pop hstack).2.key (Nat.le_max_right _ _) rfl ?_ ?_
          · exact hactive.trans (congrArg _ habsorb.active_eq.symm)
          · exact habsorb.active_eq ▸ hidle
  | revision => exact .refl _
  | outside => exact .looks rfl (.of_eq rfl) (.refl _ _) fun _ ↦ .inl

theorem Evaluates.sound (hstep : Evaluates P t t') (hdb : t.db.Sound)
    (hserves : t.db.stack.Serves t.calls) : t'.db.Sound := by
  cases hstep with
  | answers hanswers =>
      obtain ⟨fuel, hquery⟩ := hanswers.exists_query
      exact (hdb.query hquery).1
  | enters hkey _ hretrieve _ => exact hdb.enter_of_miss hkey hretrieve
  | leaves =>
      obtain ⟨frame, rest, hkey, hdepth, hstack, _, _⟩ := hserves.exists_top
      rw [← hkey, hdepth]
      exact hdb.ended hstack _
  | revision => exact hdb
  | outside => exact hdb.of_eq rfl rfl rfl

/-- What is shown at a sound stage is sound. -/
theorem Shows.sound (ht : t.db.Sound) (h : t.Shows s) : s.Sound := by
  cases h with
  | here => exact ht
  | looks hkey _ _ hwalks => exact (ht.record hkey).1.verifies hwalks.verifies

variable [BEq V]

theorem Step.moves (hstep : Step P t t') (hdb : t.db.Sound) (hserves : t.db.stack.Serves t.calls) :
    t.db.Moves t'.db := by
  cases hstep with
  | evaluates hstep => exact hstep.moves hdb hserves
  | asks q k => exact .refl _
  | @edits db o e =>
      have hidle : db.stack = {} := hserves.eq_empty
      obtain heq | heq | ⟨v, heq⟩ | ⟨key, hkey, heq⟩ := edit_cases e db <;> dsimp only <;> rw [heq]
      · exact .refl _
      · exact .of_note id db
      · obtain ⟨key, s, hkey, hfound, _, hset⟩ := db.set_eq e.target.1 e.target.2 v
        obtain rfl : (db.store.intern _ _).2 = s := congrArg Prod.snd hkey
        exact .assigns hidle (.intern ..) hfound hset
      · exact .erases hidle hkey rfl
  | clears => exact .clears hserves.eq_empty rfl
  | reports => exact .of_note id _

theorem Step.sound (hstep : Step P t t') (hdb : t.db.Sound) (hserves : t.db.stack.Serves t.calls) :
    t'.db.Sound := by
  cases hstep with
  | evaluates hstep => exact hstep.sound hdb hserves
  | asks q k => exact hdb
  | edits e => exact hdb.edit hserves.eq_empty e
  | clears =>
      rw [clearCache_eq]
      exact .of_idle hserves.eq_empty hdb.store.dropDerived
  | reports => exact hdb.note _

/-- At every stage that is reached the database is sound. -/
theorem Reached.sound (h : Reached P t) : t.db.Sound := by
  refine (h.keeps (fun t ↦ t.db.Sound ∧ t.db.stack.Serves t.calls) ?_ ?_).1
  · exact fun configuration w o ↦ ⟨.of_idle rfl (Store.regular_empty _), .nil, rfl, List.nodup_nil⟩
  · exact fun t t' ⟨hdb, hserves⟩ hstep ↦ ⟨hstep.sound hdb hserves, hstep.serves hserves⟩

/-- Every step from a stage that is reached is a move of the database. -/
theorem Reached.moves (h : Reached P t) (hstep : Step P t t') : t.db.Moves t'.db :=
  hstep.moves h.sound h.serves

/-- What every move keeps is kept throughout a run. -/
theorem Later.keeps (kept : Database Q K V W → Prop) (h : Later P t t') (ht : Reached P t)
    (hkept : kept t.db) (hmove : ∀ db db', db.Sound → db'.Sound → t.db.Precedes db →
      db.Moves db' → kept db → kept db') : t.db.Precedes t'.db ∧ kept t'.db := by
  induction h with
  | refl => exact ⟨.refl _, hkept⟩
  | tail h hstep ih =>
      obtain ⟨hprecedes, hkept⟩ := ih
      have hs := ht.later h
      have hstep' := hs.moves hstep
      refine ⟨hprecedes.trans hstep'.precedes, ?_⟩
      exact hmove _ _ hs.sound (hs.later (.single hstep)).sound hprecedes hstep' hkept

/-- In a run the revision does not go back, and no event and no name is lost. -/
theorem Later.precedes (h : Later P t t') (ht : Reached P t) : t.db.Precedes t'.db :=
  (h.keeps (fun _ ↦ True) ht trivial fun _ _ _ _ _ _ _ ↦ trivial).1

end Stage

end Incremental
