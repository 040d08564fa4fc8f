import Incremental.Proofs.Numbering
import Incremental.Proofs.Skipping

/-!
# What is assigned

Computed values are kept in the same rows as assigned ones, and an assigned value may take the
place of a computed one on which others rest. Still the two are kept apart: what is assigned to a
key is changed by assigning to it and by removing it, and by nothing else. As long as it is there
every read of the key is given it, and the body of the key is not begun.
-/

namespace Incremental

variable {Q K V W : Type}

/-- The change was made to query `q` at `k`. -/
def Change.concerns [DecidableEq Q] [BEq K] (q : Q) (k : K) (c : Change Q K) : Bool :=
  c.assigns q k || c.removes q k

@[simp] theorem Change.concerns_assigned [DecidableEq Q] [BEq K] (q q' : Q) (k k' : K) :
    (assigned q' k').concerns q k = (decide (q' = q) && k' == k) := Bool.or_false _

@[simp] theorem Change.concerns_removed [DecidableEq Q] [BEq K] (q q' : Q) (k k' : K) :
    (removed q' k').concerns q k = (decide (q' = q) && k' == k) := Bool.false_or _

namespace Database

open Store

variable [DecidableEq Q] [BEq K]

/-- The memo of what is assigned to query `q` at `k`, if something is. -/
def assigned? (db : Database Q K V W) (q : Q) (k : K) : Option (Memo V) :=
  (db.memo? q k).filter Memo.isInput

variable {db db₁ db₂ db' s : Database Q K V W} {q : Q} {k : K} {key other : Handle} {v : V}
  {c : Revision} {fuel : Nat} {P : Program Q K V W}

theorem assigned?_eq_some_iff {m : Memo V} : db.assigned? q k = some m ↔
    ∃ key v c, m = .input v c ∧ db.store.lookup? q k = some key ∧
      db.store.memo? key = some (.input v c) := by
  simp only [assigned?, memo?, Option.filter_eq_some_iff, Option.bind_eq_some_iff]
  constructor
  · rintro ⟨⟨key, hkey, hm⟩, hinput⟩
    cases m with
    | input v c => exact ⟨key, v, c, rfl, hkey, hm⟩
    | derived => cases hinput
  · rintro ⟨key, v, c, rfl, hkey, hm⟩
    exact ⟨⟨key, hkey, hm⟩, rfl⟩

/-- What neither assigns nor removes leaves what is assigned as it is. -/
theorem assigned?_of_keeps [EquivBEq K] (hs : db.store.Indexed) (hs' : db'.store.Indexed)
    (hkeeps : db.store.Keeps db'.store) (q : Q) (k : K) :
    db'.assigned? q k = db.assigned? q k := by
  ext m
  simp only [assigned?_eq_some_iff]
  constructor
  · rintro ⟨key, v, c, rfl, hkey, hm⟩
    have hm := (hkeeps.input key v c).1 hm
    rcases hkeeps.lookup?_cases hs hs' hkey with hkey | ⟨_, hnew⟩
    · exact ⟨key, v, c, rfl, hkey, hm⟩
    · exact absurd (has_of_memo? hm) hnew
  · rintro ⟨key, v, c, rfl, hkey, hm⟩
    exact ⟨key, v, c, rfl, lookup?_of_named hs' hkeeps.named hkey, (hkeeps.input key v c).2 hm⟩

section

variable [BEq V]

/-- What an edit does, as its reply tells. -/
theorem edit_changes (e : Edit Q K V) (db : Database Q K V W) :
    (e.change? (edit e db).1 = none ∧ (edit e db).2.store = db.store) ∨
    (∃ v, e.change? (edit e db).1 = some (.assigned e.target.1 e.target.2) ∧
      (edit e db).2 = db.set e.target.1 e.target.2 v) ∨
    ∃ key, e.change? (edit e db).1 = some (.removed e.target.1 e.target.2) ∧
      db.store.lookup? e.target.1 e.target.2 = some key ∧
      (edit e db).2.store = db.store.erase key (db.revision + 1) := by
  cases e with
  | set q k v => exact .inr (.inl ⟨v, rfl, rfl⟩)
  | setIfChanged q k v =>
      by_cases hequal : (db.input? q k).any (· == v) = true
      · exact .inl (by simp [edit, Database.setIfChanged, hequal, Edit.change?, note])
      · exact .inr (.inl ⟨v, by simp [edit, Database.setIfChanged, hequal, Edit.change?,
          Edit.target]⟩)
  | remove q k =>
      cases hkey : db.store.lookup? q k with
      | none => exact .inl (by simp [edit, Database.remove, hkey, Edit.change?])
      | some key =>
          cases hm : db.store.memo? key with
          | none => exact .inl (by simp [edit, Database.remove, hkey, hm, Edit.change?])
          | some m =>
              refine .inr (.inr ⟨key, ?_, hkey, ?_⟩) <;>
                simp [edit, Database.remove, hkey, hm, Edit.change?, Edit.target, note,
                  Revision.next]

omit [BEq V] in
/-- An assignment leaves all rows but that of its target as they are. -/
theorem row?_set [ReflBEq K] (h : (db.set q k v).store.lookup? q k ≠ some other) :
    (db.set q k v).store.row? other = db.store.row? other := by
  obtain ⟨key, s, hkey, hfound, _, hset⟩ := db.set_eq q k v
  have hfound : (s.insert key (.input v (db.revision + 1))).lookup? q k = some key :=
    (lookup?_insert ..).trans hfound
  rw [hset] at h ⊢
  have hne : key ≠ other := by
    rintro rfl
    exact h hfound
  have hintern : s.row? other = db.store.row? other := by
    have hcases := db.store.intern_cases q k
    rw [hkey] at hcases
    obtain ⟨_, rfl⟩ | ⟨_, hadds⟩ := hcases
    · rfl
    · exact (hadds.row other).trans (if_neg hne.symm)
  exact (row?_modify ..).trans ((if_neg hne).trans hintern)

/-- An edit leaves all rows but that of its target as they are. -/
theorem row?_edit [ReflBEq K] (e : Edit Q K V)
    (h : (edit e db).2.store.lookup? e.target.1 e.target.2 ≠ some other) :
    (edit e db).2.store.row? other = db.store.row? other := by
  obtain ⟨_, heq⟩ | ⟨v, _, heq⟩ | ⟨key, _, hkey, heq⟩ := edit_changes e db
  · rw [heq]
  · rw [heq] at h ⊢
    exact row?_set h
  · rw [heq, lookup?_erase] at h
    rw [heq]
    have hne : key ≠ other := by
      rintro rfl
      exact h hkey
    exact (row?_modify ..).trans (if_neg hne)

/-- What is kept for a key is not changed by an edit of another one. -/
theorem memo?_edit [EquivBEq K] {e : Edit Q K V} (hdb : db.Sound)
    (hother : (decide (e.target.1 = q) && e.target.2 == k) = false) :
    (edit e db).2.memo? q k = db.memo? q k := by
  cases hkey : (edit e db).2.store.lookup? q k with
  | none =>
      have hnone : db.store.lookup? q k = none := by
        cases hfound : db.store.lookup? q k with
        | none => rfl
        | some key => cases hkey.symm.trans (lookup?_edit hfound e)
      simp [memo?, hkey, hnone]
  | some key =>
      have hrow : (edit e db).2.store.row? key = db.store.row? key := by
        refine row?_edit e fun htarget ↦ ?_
        cases hother.symm.trans ((beq_iff_of_lookup? htarget hkey).2 rfl)
      -- the row was there before, so it was found under the same name
      obtain ⟨row, hrow'⟩ := named?_eq_some_iff_row?.1 (has_of_lookup? hkey)
      obtain ⟨⟨q₀, k₀⟩, hname⟩ := named?_eq_some_iff_row?.2 ⟨row, hrow ▸ hrow'⟩
      have hfound := hdb.store.indexed key q₀ k₀ hname
      obtain ⟨rfl, hk⟩ := beq_of_lookup? (lookup?_edit hfound e) hkey
      rw [lookup?_of_beq hk] at hfound
      simp [memo?, hkey, hfound, Store.memo?, hrow]

/-- What is assigned stays assigned unless the edit removes it. -/
theorem input_edit [EquivBEq K] (e : Edit Q K V) (hkey : db.store.lookup? q k = some key)
    (hm : db.store.memo? key = some (.input v c))
    (hremoves : ∀ change ∈ e.change? (edit e db).1, change.removes q k = false) :
    ∃ v c, (edit e db).2.store.memo? key = some (.input v c) := by
  obtain ⟨_, heq⟩ | ⟨v', _, heq⟩ | ⟨key', hchange, hkey', heq⟩ := edit_changes e db
  · exact ⟨v, c, heq ▸ hm⟩
  · obtain ⟨key', s, hintern, hfound, _, hset⟩ := db.set_eq e.target.1 e.target.2 v'
    rw [heq, hset]
    by_cases hne : key' = key
    · exact ⟨v', db.revision + 1, hne ▸ memo?_insert_self (has_of_lookup? hfound) _⟩
    · obtain rfl : (db.store.intern e.target.1 e.target.2).2 = s := congrArg Prod.snd hintern
      exact ⟨v, c, (memo?_insert_of_ne _ hne _).trans ((memo?_intern ..).trans hm)⟩
  · have hne : key' ≠ key := fun hsame ↦ by
      cases (hremoves _ hchange).symm.trans ((beq_iff_of_lookup? hkey' hkey).2 hsame)
    exact ⟨v, c, heq ▸ (memo?_erase_of_ne _ hne _).trans hm⟩

/-- What is assigned to a key is not changed by an edit that does not concern it. -/
theorem assigned?_edit [EquivBEq K] (hdb : db.Sound) (e : Edit Q K V)
    (hchange : ∀ change ∈ e.change? (edit e db).1, change.concerns q k = false) :
    (edit e db).2.assigned? q k = db.assigned? q k := by
  obtain ⟨_, heq⟩ | ⟨v, hmade, _⟩ | ⟨key, hmade, _⟩ := edit_changes e db
  · simp only [assigned?, memo?, heq]
  · have hother := hchange _ hmade
    rw [Change.concerns_assigned] at hother
    rw [assigned?, memo?_edit hdb hother, assigned?]
  · have hother := hchange _ hmade
    rw [Change.concerns_removed] at hother
    rw [assigned?, memo?_edit hdb hother, assigned?]

end

omit [DecidableEq Q] [BEq K] in
theorem Walks.begun_eq {since : Revision} {keys : List Handle} (h : Walks since keys db s) :
    s.begun = db.begun := by
  induction h with
  | here => rfl
  | within _ _ ih => exact ih.trans (begun_note_of_none rfl _)
  | ended hverify => exact verify_begun hverify
  | later hverify _ ih => exact ih.trans (verify_begun hverify)

theorem begun_of_intern (hkey : db.intern q k = (key, db₁)) :
    (db₁.recordRead key).begun = db.begun :=
  begun_congr (congrArg (·.2.events) hkey).symm

theorem AnswersAtOnce.begun_eq {a : Outcome V} (h : AnswersAtOnce P q k db a db') :
    db'.begun = db.begun := by
  cases h with
  | refused hkey _ => exact (begun_note_of_none rfl _).trans (begun_of_intern hkey)
  | hit hkey _ hretrieve =>
      have hbegun := (retrieve_begun hretrieve).trans (begun_of_intern hkey)
      exact (begun_note_of_none rfl _).trans hbegun
  | tooDeep hkey _ hretrieve _ =>
      have hbegun := (retrieve_begun hretrieve).trans (begun_of_intern hkey)
      exact (begun_note_of_none rfl _).trans hbegun

/-- What is assigned is given to every read, however deep it is and whatever the limit. -/
theorem exists_query_of_input (hkey : db.store.lookup? q k = some key)
    (hm : db.store.memo? key = some (.input v c)) (hidle : key ∉ db.stack.active)
    (configuration : Configuration) (fuel : Nat) :
    ∃ db', query P (fuel + 1) q k { db with configuration } = some (.value v, db') := by
  obtain ⟨db₀, hdb₀⟩ : ∃ db₀, db₀ = { db with configuration } := ⟨_, rfl⟩
  have hintern : db₀.intern q k = (key, db₀) := by
    simp [Database.intern, hdb₀, Store.intern_of_lookup? hkey]
  have hactive : db₀.stack.isActive key = false := by
    simpa [CallStack.isActive, hdb₀] using hidle
  have hm : (db₀.recordRead key).store.memo? key = some (.input v c) := by
    rw [hdb₀]
    exact hm
  have hretrieve : (db₀.recordRead key).retrieve fuel key =
      some (some (v, c), db₀.recordRead key) := by
    simp only [retrieve, hm]
  exact hdb₀ ▸ ⟨_, query_of_hit hintern hactive hretrieve⟩

/-- From `db` to `db'` a value stayed assigned to `key`, and the body of `key` was not begun. -/
structure Pins (db db' : Database Q K V W) (key : Handle) : Prop where
  input : ∃ v c, db'.store.memo? key = some (.input v c)
  begun : ∃ recent, db'.begun = db.begun ++ recent ∧
    ∀ x ∈ recent, ∃ other, db'.store.lookup? x.1 x.2 = some other ∧ other ≠ key

theorem Pins.refl (h : ∃ v c, db.store.memo? key = some (.input v c)) : db.Pins db key :=
  ⟨h, [], by simp, by simp⟩

theorem Pins.step [EquivBEq K] (h : db.Pins db₁ key) (hprecedes : db₁.Precedes db₂)
    (hdb₂ : db₂.Sound) (hinput : ∃ v c, db₂.store.memo? key = some (.input v c))
    (hbegun : db₂.begun = db₁.begun ∨ ∃ x other, db₂.begun = db₁.begun ++ [x] ∧
      db₂.store.lookup? x.1 x.2 = some other ∧ other ≠ key) : db.Pins db₂ key := by
  obtain ⟨_, recent, hrecent, hothers⟩ := h
  have hothers : ∀ x ∈ recent, ∃ other, db₂.store.lookup? x.1 x.2 = some other ∧ other ≠ key := by
    intro x hx
    obtain ⟨other, hfound, hne⟩ := hothers x hx
    exact ⟨other, hprecedes.lookup? hdb₂ hfound, hne⟩
  rcases hbegun with hsame | ⟨x, other, hmore, hfound, hne⟩
  · exact ⟨hinput, recent, hsame.trans hrecent, hothers⟩
  · refine ⟨hinput, recent ++ [x], by rw [hmore, hrecent, List.append_assoc], fun y hy ↦ ?_⟩
    rcases List.mem_append.mp hy with hy | hy
    · exact hothers y hy
    · obtain rfl := List.mem_singleton.mp hy
      exact ⟨other, hfound, hne⟩

end Database

namespace Stage

open Database

variable [DecidableEq Q] [BEq K] {P : Program Q K V W} {t t' : Stage Q K V W}

/-- A step of an evaluation begins one body at most, and of no key to which a value is assigned. -/
theorem Evaluates.begins [EquivBEq K] (hstep : Evaluates P t t') (hdb : t.db.Sound)
    (hserves : t.db.stack.Serves t.calls) : t'.db.begun = t.db.begun ∨
      ∃ x key, t'.db.begun = t.db.begun ++ [x] ∧ t'.db.store.lookup? x.1 x.2 = some key ∧
        ∀ v c, t.db.store.memo? key ≠ some (.input v c) := by
  cases hstep with
  | answers hanswers => exact .inl hanswers.begun_eq
  | @enters q k _ _ _ db db₁ db₂ key hkey _ hretrieve _ =>
      obtain ⟨hrecord, _⟩ := hdb.record hkey
      have hv := retrieve_verifies hretrieve
      refine .inr ⟨(q, k), key, ?_, ?_, fun v c hm ↦ ?_⟩
      · have hbegun := (retrieve_begun hretrieve).trans (begun_of_intern hkey)
        exact (begun_enter _ q k key).trans
          (congrArg (· ++ [(q, k)]) ((begun_note_of_none rfl db₂).trans hbegun))
      · have hregular := hv.store.regular hrecord.store
        exact Store.lookup?_of_named hregular.indexed hv.store.advances.named
          (lookup?_of_intern hkey :)
      · have hm : (db₁.recordRead key).store.memo? key = some (.input v c) :=
          (memo?_of_intern hkey key).trans hm
        rcases not_current_of_retrieve_none hrecord.store hretrieve with
          hnone | ⟨_, _, _, _, hm', _⟩
        · cases hm.symm.trans hnone
        · cases hm.symm.trans hm'
  | leaves =>
      obtain ⟨frame, rest, hkey, hdepth, hstack, _⟩ := hserves.exists_top
      rw [← hkey, hdepth]
      exact .inl (begun_leave hstack _)
  | revision => exact .inl rfl
  | outside => exact .inl rfl

variable [BEq V] [EquivBEq K] {l : List (Change Q K)} {s : Stage Q K V W} {q : Q} {k : K}
  {key : Handle}

/-- As long as it is not removed, what is assigned stays assigned, and the body is not begun. -/
theorem Makes.pins (h : Makes P l s t) (hs : Reached P s) (hkey : s.db.store.lookup? q k = some key)
    (hinput : ∃ v c, s.db.store.memo? key = some (.input v c))
    (hremoves : ∀ change ∈ l, change.removes q k = false) : s.db.Pins t.db key := by
  induction h with
  | refl => exact .refl hinput
  | @evaluates l s t t' h hstep ih =>
      have hpins := ih hs hkey hinput hremoves
      have ht := hs.later h.later
      have ht' := ht.later (.single (.evaluates hstep))
      have hmoves := ht.moves (.evaluates hstep)
      have hkeeps := hmoves.keeps_of_revision ht.remembers.unassigned hstep.revision_eq
      obtain ⟨v, c, hm⟩ := hpins.input
      refine hpins.step hmoves.precedes ht'.sound ⟨v, c, (hkeeps.input key v c).2 hm⟩ ?_
      refine (hstep.begins ht.sound ht.serves).imp_right ?_
      rintro ⟨x, other, hbegun, hfound, hopen⟩
      refine ⟨x, other, hbegun, hfound, ?_⟩
      rintro rfl
      exact hopen v c hm
  | asks _ _ _ ih => exact ih hs hkey hinput hremoves
  | edits h e ih =>
      have hpins := ih hs hkey hinput fun change hmem ↦
        hremoves change (List.mem_append_right _ hmem)
      have ht := hs.later h.later
      have ht' := ht.later (.single (.edits e))
      obtain ⟨v, c, hm⟩ := hpins.input
      refine hpins.step (ht.moves (.edits e)).precedes ht'.sound ?_ (.inl (begun_edit e _))
      have hfound := (h.later.precedes hs).lookup? ht.sound hkey
      refine input_edit e hfound hm fun change hmem ↦ ?_
      exact hremoves change (List.mem_append_left _ (Option.mem_toList.2 hmem))
  | clears h ih =>
      have hpins := ih hs hkey hinput hremoves
      have ht := hs.later h.later
      have ht' := ht.later (.single .clears)
      obtain ⟨v, c, hm⟩ := hpins.input
      exact hpins.step (ht.moves .clears).precedes ht'.sound
        ⟨v, c, ((keeps_clearCache _).input key v c).2 hm⟩ (.inl (begun_clearCache _))
  | reports h ih =>
      have hpins := ih hs hkey hinput hremoves
      have ht := hs.later h.later
      have ht' := ht.later (.single .reports)
      exact hpins.step (ht.moves .reports).precedes ht'.sound hpins.input
        (.inl (begun_note_of_none rfl _))

/-- What is assigned to a key is changed by changes of the key only. -/
theorem Makes.assigned?_eq (h : Makes P l s t) (hs : Reached P s)
    (hothers : ∀ change ∈ l, change.concerns q k = false) :
    t.db.assigned? q k = s.db.assigned? q k := by
  induction h with
  | refl => rfl
  | @evaluates l s t t' h hstep ih =>
      have ht := hs.later h.later
      have ht' := ht.later (.single (.evaluates hstep))
      have hkeeps := (ht.moves (.evaluates hstep)).keeps_of_revision
        ht.remembers.unassigned hstep.revision_eq
      rw [← ih hs hothers]
      exact assigned?_of_keeps ht.sound.store.indexed ht'.sound.store.indexed hkeeps q k
  | asks _ _ _ ih => exact ih hs hothers
  | edits h e ih =>
      rw [← ih hs fun change hmem ↦ hothers change (List.mem_append_right _ hmem)]
      exact assigned?_edit (hs.later h.later).sound e fun change hmem ↦
        hothers change (List.mem_append_left _ (Option.mem_toList.2 hmem))
  | clears h ih =>
      have ht := hs.later h.later
      have ht' := ht.later (.single .clears)
      rw [← ih hs hothers]
      exact assigned?_of_keeps ht.sound.store.indexed ht'.sound.store.indexed
        (keeps_clearCache _) q k
  | reports _ ih => exact ih hs hothers

omit [BEq V] [EquivBEq K] in
theorem Shows.begun_eq {db : Database Q K V W} (h : t.Shows db) : db.begun = t.db.begun := by
  cases h with
  | here => rfl
  | looks hkey _ _ hwalks => exact hwalks.begun_eq.trans (begun_of_intern hkey)

/-- Assigned values belong to the edits of their keys: in every run of whatever program, whether a
value is assigned to a key, which one and since when, is not changed by steps and edits other than
those of the key. As long as it is not removed, every read of the key is given the value, however
deep it is and whatever the limit, and the body of the key is not begun. Nor is what is assigned
changed by any one read, whatever its outcome, by verification, by the adding of rows, or by the
dropping of computed values; and an edit leaves every row but that of its own key as it is. -/
theorem inputs_kept (hs : Reached P s) (hmakes : Makes P l s t) {db : Database Q K V W}
    (hshows : t.Shows db) (q : Q) (k : K) :
    ((∀ change ∈ l, change.concerns q k = false) → db.assigned? q k = s.db.assigned? q k) ∧
    (∀ v c, s.db.assigned? q k = some (.input v c) →
      (∀ change ∈ l, change.removes q k = false) →
      (∃ v' c', db.assigned? q k = some (.input v' c') ∧ ∀ configuration fuel, ∃ db',
        query P (fuel + 1) q k { db with configuration } = some (.value v', db')) ∧
      ∃ recent, db.begun = s.db.begun ++ recent ∧
        ∀ x ∈ recent, (decide (x.1 = q) && x.2 == k) = false) ∧
    (∀ db', (∃ fuel q' k' o, query P fuel q' k' db = some (o, db')) ∨
        (∃ fuel key asOf fresh, verify fuel key asOf db = some (fresh, db')) ∨
        (∃ q' k', db' = (db.intern q' k').2) ∨ db' = db.clearCache →
      db'.assigned? q k = db.assigned? q k) ∧
    ∀ e other, (edit e db).2.store.lookup? e.target.1 e.target.2 ≠ some other →
      (edit e db).2.store.row? other = db.store.row? other := by
  have ht := hs.later hmakes.later
  have hsound := hshows.sound ht.sound
  have hkeeps := (hshows.keeps ht).2
  have hsame : db.assigned? q k = t.db.assigned? q k :=
    assigned?_of_keeps ht.sound.store.indexed hsound.store.indexed hkeeps q k
  refine ⟨fun hothers ↦ hsame.trans (hmakes.assigned?_eq hs hothers), ?_, ?_,
    fun e other h ↦ row?_edit e h⟩
  · intro v c hassigned hremoves
    obtain ⟨key, _, _, _, hkey, hm⟩ := assigned?_eq_some_iff.1 hassigned
    obtain ⟨⟨v', c', hm'⟩, recent, hrecent, hothers⟩ :=
      hmakes.pins hs hkey ⟨_, _, hm⟩ hremoves
    obtain ⟨hprecedes, _⟩ :=
      hmakes.later.keeps (fun _ ↦ True) hs trivial fun _ _ _ _ _ _ _ ↦ trivial
    have hfound := hprecedes.lookup? ht.sound hkey
    have hfound' := Store.lookup?_of_named hsound.store.indexed hkeeps.named hfound
    have hinput := (hkeeps.input key v' c').2 hm'
    have hidle : key ∉ db.stack.active := fun hactive ↦
      ht.remembers.unassigned key (hshows.grows.active_eq ▸ hactive) v' c' hm'
    refine ⟨⟨v', c', assigned?_eq_some_iff.2 ⟨key, v', c', rfl, hfound', hinput⟩,
      exists_query_of_input hfound' hinput hidle⟩,
      recent, hshows.begun_eq.trans hrecent, fun x hx ↦ ?_⟩
    obtain ⟨other, hother, hne⟩ := hothers x hx
    exact Bool.eq_false_iff.2 fun hsame ↦
      hne ((Store.beq_iff_of_lookup? hother hfound).1 hsame)
  · rintro db' (⟨fuel, q', k', o, h⟩ | ⟨fuel, key, asOf, fresh, h⟩ | ⟨q', k', rfl⟩ | rfl)
    · obtain ⟨hs', hf⟩ := hsound.query h
      exact assigned?_of_keeps hsound.store.indexed hs'.store.indexed hf.store.keeps q k
    · have hv := verify_verifies h
      exact assigned?_of_keeps hsound.store.indexed (hsound.verifies hv).store.indexed
        hv.store.advances.keeps q k
    · exact assigned?_of_keeps hsound.store.indexed (hsound.intern q' k').store.indexed
        (Store.advances_intern db.revision db.store q' k').keeps q k
    · refine assigned?_of_keeps hsound.store.indexed ?_ db.keeps_clearCache q k
      rw [clearCache_eq]
      exact hsound.store.indexed.congr db.store.arguments_dropDerived

end Stage

/-- A fare that is worked out from a base, unless it is fixed, and a ticket that is sold at it. -/
inductive Fare
  | base
  | printer
  | fare
  | ticket
  deriving DecidableEq

open Database Stage

namespace Fare

def logic : Fare → Option (Unit → Body Fare Unit Nat Unit Nat)
  | base => none
  | printer => some fun _ ↦ (Body.get base ()).bind fun _ ↦ .panic "jam"
  | fare => some fun _ ↦ (Body.get base ()).bind fun v ↦ .value (2 * v)
  | ticket => some fun _ ↦
    ((Body.get printer ()).catchPanic fun _ ↦ .value 0).bind fun _ ↦ .get fare ()

def program : Program Fare Unit Nat Unit where
  name _ := ""
  logic := logic
  showArgument _ _ := ""
  showValue _ _ := ""

/-- The fare is worked out, then fixed. After another base was set, computed values were dropped and
the printer of the ticket has panicked, the fare is what it was fixed to, and was not worked out
again. -/
theorem fare_kept : ∃ s t : Stage Fare Unit Nat Unit, Reached program s ∧
    Makes program [.assigned base ()] s t ∧ t.calls.map Call.key = [⟨2, 0⟩] ∧
    s.db.assigned? fare () = some (.input 7 2) ∧ t.db.assigned? fare () = some (.input 7 2) ∧
    (∀ configuration n, ∃ db',
      query program (n + 1) fare () { t.db with configuration } = some (.value 7, db')) ∧
    ∃ recent, t.db.begun = s.db.begun ++ recent ∧
      ∀ x ∈ recent, (decide (x.1 = fare) && x.2 == ()) = false := by
  have hrun : (performAll program 9 [.act (.edit (.set base () 3)),
        .act (.inquire (.query fare ())), .act (.edit (.set fare () 7))]
      { outside := () }).bind (fun p ↦
        (steps? program 9 4 ⟨(edit (.set base () 4) p.2).2.clearCache, .get ticket (), []⟩).map
          fun t ↦ decide (t.calls.map Call.key = [⟨2, 0⟩] ∧
            p.2.assigned? fare () = some (.input 7 2))) = some true := by
    decide +kernel
  obtain ⟨⟨replies, db⟩, hops, hrun⟩ := Option.bind_eq_some_iff.mp hrun
  obtain ⟨t, hsteps, hend⟩ := Option.map_eq_some_iff.mp hrun
  obtain ⟨hcalls, hfixed⟩ := of_decide_eq_true hend
  obtain ⟨o, hs⟩ := reached_performAll hops
  have hstart : Makes program [] ⟨db, .done o, []⟩ ⟨db, .done o, []⟩ := .refl
  have hmakes : Makes program [.assigned base ()] ⟨db, .done o, []⟩ t :=
    (((hstart.edits (.set base () 4)).clears).asks ticket ()).trans_evaluates
      (evaluates_of_steps? hsteps)
  obtain ⟨hkept, hpinned, _⟩ := inputs_kept hs hmakes .here fare ()
  have hkept := hkept (by decide)
  obtain ⟨⟨v, c, hassigned, hgiven⟩, hbegun⟩ := hpinned 7 2 hfixed (by decide)
  obtain ⟨rfl, rfl⟩ : 7 = v ∧ 2 = c := by
    simpa using (hkept.trans hfixed).symm.trans hassigned
  exact ⟨_, t, hs, hmakes, hcalls, hfixed, hassigned, hgiven, hbegun⟩

end Fare

end Incremental
