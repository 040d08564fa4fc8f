import Incremental.Proofs.Changing
import Incremental.Proofs.Coherence
import Incremental.Proofs.Performing

/-!
# Changes of a consistent store

Assigning or removing a value makes outdated exactly what rests on it, by itself or through what
was read for it. So every operation leaves a database consistent.
-/

namespace Incremental

variable {Q K V W : Type}

def Edit.target : Edit Q K V → Q × K
  | set q k _ | setIfChanged q k _ | remove q k => (q, k)

namespace Store

/-- One comes from what is kept under `key` to what is kept under `d` along the lists of what was
read. -/
def Reaches (s : Store Q K V) : Handle → Handle → Prop := Relation.ReflTransGen s.Rests

/-- `s'` is `s` after what was kept under `key` was replaced or taken away at a new revision. -/
structure Changes (s s' : Store Q K V) (key : Handle) : Prop where
  others : ∀ other ≠ key, s'.memo? other = s.memo? other
  outdated : ∀ other ≠ key,
    (s'.Outdated other ↔ s.Outdated other ∨ Relation.TransGen s.Rests other key)

variable {s s' s₁ : Store Q K V} {key : Handle} {now : Revision} {f : Row K V → Row K V}

theorem Rests.exists_derived {d : Handle} (h : s.Rests key d) :
    ∃ v c w reads, s.memo? key = some (.derived v c w reads) ∧ d ∈ reads := by
  obtain ⟨m, hm, hd⟩ := h
  cases m with
  | input => simp [Memo.reads] at hd
  | derived v c w reads => exact ⟨v, c, w, reads, hm, hd⟩

theorem rests_congr (hmemo : ∀ key, s₁.memo? key = s.memo? key) : s₁.Rests = s.Rests := by
  funext key d
  simp only [Rests, hmemo]

theorem Changes.of_memo (h : s₁.Changes s' key) (hmemo : ∀ key, s₁.memo? key = s.memo? key) :
    s.Changes s' key := by
  refine ⟨fun other hne ↦ (h.others other hne).trans (hmemo other), fun other hne ↦ ?_⟩
  rw [h.outdated other hne, rests_congr hmemo]
  exact or_congr ⟨.congr fun other ↦ (hmemo other).symm, .congr hmemo⟩ Iff.rfl

variable [DecidableEq Q] [BEq K] {T : Ways Q K V}

theorem lookup?_insert (s : Store Q K V) (key : Handle) (memo : Memo V) (q : Q) (k : K) :
    (s.insert key memo).lookup? q k = s.lookup? q k :=
  lookup?_congr (arguments_modify s key fun _ ↦ rfl)

theorem lookup?_erase (s : Store Q K V) (key : Handle) (r : Revision) (q : Q) (k : K) :
    (s.erase key r).lookup? q k = s.lookup? q k :=
  lookup?_congr (arguments_modify s key fun _ ↦ rfl)

theorem Changes.of_new (hs : s.Regular now)
    (hothers : ∀ other ≠ key, s'.memo? other = s.memo? other)
    (hnew : s'.memo? key = none ∨ ∃ v, s'.memo? key = some (.input v (now + 1))) :
    s.Changes s' key := by
  have hne : ∀ {other v c w reads}, s'.memo? other = some (.derived v c w reads) → other ≠ key := by
    rintro other v c w reads hm rfl
    rcases hnew with hnone | ⟨_, hsome⟩
    · rw [hm] at hnone
      cases hnone
    · rw [hm] at hsome
      cases hsome
  -- whatever has read `key` can tell that it is gone or has changed
  have hread : ∀ {other v c w reads}, other ≠ key → s.memo? other = some (.derived v c w reads) →
      key ∈ reads → s'.Outdated other := by
    intro other v c w reads hne hm hd
    have hm' := (hothers other hne).trans hm
    rcases hnew with hnone | ⟨_, hsome⟩
    · exact .gone hm' hd hnone
    · exact .changed hm' hd hsome (Nat.lt_succ_of_le (hs.derived other v c w reads hm).2.2.1)
  refine ⟨hothers, fun other hother ↦ ⟨fun hout ↦ ?_, ?_⟩⟩
  · clear hother
    induction hout with
    | @gone other d v c w reads hm hd hnone =>
        have hm₀ := (hothers other (hne hm)).symm.trans hm
        by_cases heq : d = key
        · exact .inr (.single ⟨_, hm₀, heq ▸ hd⟩)
        · exact .inl (.gone hm₀ hd ((hothers d heq).symm.trans hnone))
    | @changed other d v c w reads m hm hd hsome hw =>
        have hm₀ := (hothers other (hne hm)).symm.trans hm
        by_cases heq : d = key
        · exact .inr (.single ⟨_, hm₀, heq ▸ hd⟩)
        · exact .inl (.changed hm₀ hd ((hothers d heq).symm.trans hsome) hw)
    | @within other d v c w reads hm hd _ ih =>
        have hm₀ := (hothers other (hne hm)).symm.trans hm
        exact ih.imp (.within hm₀ hd) (.head ⟨_, hm₀, hd⟩)
  · rintro (hout | hreach)
    · exact hout.of_others hother hothers hread
    · induction hreach using Relation.TransGen.head_induction_on with
      | single hrests =>
          obtain ⟨v, c, w, reads, hm, hd⟩ := hrests.exists_derived
          exact hread hother hm hd
      | @head other d hrests _ ih =>
          obtain ⟨v, c, w, reads, hm, hd⟩ := hrests.exists_derived
          by_cases heq : d = key
          · exact hread hother hm (heq ▸ hd)
          · exact .within ((hothers other hother).trans hm) hd (ih heq)

/-- A store stays consistent when one row is changed at a new revision and keeps no computed
value. -/
theorem Consistent.modify (hs : Consistent T now s) (hf : ∀ row, (f row).argument = row.argument)
    (hremoved : (s.modify key f).removedAt key ≤ now + 1)
    (hnew : (s.modify key f).memo? key = none ∧ (s.modify key f).removedAt key = now + 1 ∨
      ∃ v, (s.modify key f).memo? key = some (.input v (now + 1))) :
    Consistent T (now + 1) (s.modify key f) := by
  have hderived : ∀ v c w reads, (s.modify key f).memo? key ≠ some (.derived v c w reads) := by
    intro v c w reads hm
    rcases hnew with ⟨hnone, _⟩ | ⟨_, hsome⟩
    · rw [hm] at hnone
      cases hnone
    · rw [hm] at hsome
      cases hsome
  have hinput : ∀ v c, (s.modify key f).memo? key = some (.input v c) → c ≤ now + 1 := by
    intro v c hm
    rcases hnew with ⟨hnone, _⟩ | ⟨_, hsome⟩
    · rw [hm] at hnone
      cases hnone
    · cases hm.symm.trans hsome
      exact Nat.le_refl _
  have hregular := hs.toRegular.modify hf hremoved hinput hderived
  refine ⟨hregular, fun other v c w reads hm ↦ ?_, ?_⟩
  · have hne : other ≠ key := by
      rintro rfl
      exact hderived v c w reads hm
    rw [memo?_modify_of_ne hne] at hm
    have hrec := hs.recorded other v c w reads hm
    have hw : w < now + 1 := Nat.lt_succ_of_le (hs.derived other v c w reads hm).2.2.1
    refine hrec.transfer hregular (fun q k d hfound ↦ ?_) (removedAt_modify_of_ne hne) fun d hd ↦ ?_
    · exact (lookup?_congr (arguments_modify s key hf)).trans hfound
    · by_cases heq : d = key
      · subst heq
        rcases hnew with ⟨hnone, hremoved⟩ | ⟨_, hsome⟩
        · exact .gone hnone (hremoved ▸ hw)
        · exact .changed hsome hw
      · cases hd' : s.memo? d with
        | none =>
            exact hrec.fate_of_none hd hd' ((memo?_modify_of_ne heq).trans hd')
              (Nat.le_of_eq (removedAt_modify_of_ne heq).symm)
        | some m => exact .kept hd' ((memo?_modify_of_ne heq).trans hd')
  · refine Subrelation.wf ?_ hs.founded
    rintro d other ⟨hrests, m, hm, hinput⟩
    obtain ⟨v, c, w, reads, hm', hd⟩ := hrests.exists_derived
    have hother : other ≠ key := by
      rintro rfl
      exact hderived v c w reads hm'
    have hd' : d ≠ key := by
      rintro rfl
      cases m with
      | input => cases hinput
      | derived => exact hderived _ _ _ _ hm
    rw [memo?_modify_of_ne hother] at hm'
    rw [memo?_modify_of_ne hd'] at hm
    exact ⟨⟨_, hm', hd⟩, m, hm, hinput⟩

/-- Where nothing was computed, nothing has to be recorded. -/
theorem Regular.consistent (hs : s.Regular now)
    (hinputs : ∀ key v c w reads, s.memo? key ≠ some (.derived v c w reads)) :
    Consistent T now s := by
  refine ⟨hs, fun key v c w reads hm ↦ absurd hm (hinputs key v c w reads),
    ⟨fun key ↦ ⟨_, ?_⟩⟩⟩
  rintro d ⟨hrests, _⟩
  obtain ⟨v, c, w, reads, hm, _⟩ := hrests.exists_derived
  exact absurd hm (hinputs key v c w reads)

theorem Consistent.dropDerived (hs : Consistent T now s) : Consistent T now s.dropDerived :=
  hs.toRegular.dropDerived.consistent s.memo?_dropDerived_ne

omit [DecidableEq Q] [BEq K] in
theorem memo?_empty (key : Handle) : ({} : Store Q K V).memo? key = none := by
  simp [Store.memo?, Store.row?, Store.find?]

theorem regular_empty (now : Revision) : ({} : Store Q K V).Regular now := by
  refine ⟨indexed_empty, fun key ↦ ?_, fun key v c hm ↦ ?_, fun key v c w reads hm ↦ ?_⟩
  · simp [Store.removedAt, Store.row?, Store.find?, Revision.initial]
  all_goals
    rw [memo?_empty] at hm
    cases hm

theorem consistent_empty (T : Ways Q K V) (now : Revision) :
    Consistent T now ({} : Store Q K V) :=
  (regular_empty now).consistent fun key v c w reads hm ↦ by simp [memo?_empty] at hm

end Store

namespace Database

open Store

variable [DecidableEq Q] [BEq K] {T : Ways Q K V}

theorem lookup?_set {db : Database Q K V W} {q : Q} {k : K} {key : Handle}
    (h : db.store.lookup? q k = some key) (q' : Q) (k' : K) (v : V) :
    (db.set q' k' v).store.lookup? q k = some key :=
  (lookup?_insert ..).trans (lookup?_intern h q' k')

variable [BEq V]

/-- A change leaves all but the events as it is, assigns a value, or empties a row. -/
theorem edit_cases (e : Edit Q K V) (db : Database Q K V W) :
    (edit e db).2 = db ∨ (edit e db).2 = db.note (.unchanged e.target.1 e.target.2) ∨
      (∃ v, (edit e db).2 = db.set e.target.1 e.target.2 v) ∨
      ∃ key, db.store.lookup? e.target.1 e.target.2 = some key ∧ (edit e db).2 =
        { db with revision := db.revision + 1, store := db.store.erase key (db.revision + 1) }.note
          (.removed e.target.1 e.target.2 (db.revision + 1)) := by
  cases e with
  | set q k v => exact .inr (.inr (.inl ⟨v, rfl⟩))
  | setIfChanged q k v =>
      by_cases hequal : (db.input? q k).any (· == v) = true
      · exact .inr (.inl (by simp [edit, Database.setIfChanged, hequal, Edit.target]))
      · exact .inr (.inr (.inl ⟨v, by simp [edit, Database.setIfChanged, hequal, Edit.target]⟩))
  | remove q k =>
      cases hkey : db.store.lookup? q k with
      | none => exact .inl (by simp [edit, Database.remove, hkey])
      | some key =>
          cases hm : db.store.memo? key with
          | none => exact .inl (by simp [edit, Database.remove, hkey, hm])
          | some m =>
              refine .inr (.inr (.inr ⟨key, hkey, ?_⟩))
              simp only [edit, Database.remove, hkey, hm]
              rfl

theorem lookup?_edit {db : Database Q K V W} {q : Q} {k : K} {key : Handle}
    (h : db.store.lookup? q k = some key) (e : Edit Q K V) :
    (edit e db).2.store.lookup? q k = some key := by
  obtain heq | heq | ⟨v, heq⟩ | ⟨key', _, heq⟩ := edit_cases e db <;> rw [heq]
  · exact h
  · exact h
  · exact lookup?_set h _ _ v
  · exact (lookup?_erase ..).trans h

omit [BEq V]

/-- Between two operations: the store is consistent and nothing is under evaluation. -/
structure Resting (T : Ways Q K V) (db : Database Q K V W) : Prop where
  idle : db.stack = {}
  store : Consistent T db.revision db.store

namespace Resting

variable {db db' : Database Q K V W} {q : Q} {k : K} {v : V}

theorem initial (T : Ways Q K V) (configuration : Configuration) (w : W) :
    Resting T ({ configuration, outside := w } : Database Q K V W) :=
  ⟨rfl, consistent_empty T _⟩

theorem coherent (h : Resting T db) : Coherent T db :=
  ⟨⟨h.store.toRegular, by simp [h.idle], by simp [h.idle]⟩, h.store, by simp [h.idle]⟩

theorem note (h : Resting T db) (event : Event Q K) : Resting T (db.note event) :=
  ⟨h.idle, h.store⟩

theorem clearCache (h : Resting T db) : Resting T db.clearCache := by
  rw [clearCache_eq]
  exact ⟨h.idle, h.store.dropDerived⟩

theorem set [ReflBEq K] (h : Resting T db) (q : Q) (k : K) (v : V) : Resting T (db.set q k v) ∧
    ∃ key, (db.set q k v).store.lookup? q k = some key ∧
      (db.set q k v).store.memo? key = some (.input v (db.revision + 1)) ∧
      db.store.Changes (db.set q k v).store key := by
  obtain ⟨key, s, hkey, hfound, _, hset⟩ := db.set_eq q k v
  obtain rfl : (db.store.intern q k).2 = s := congrArg Prod.snd hkey
  have hs := h.store.intern q k
  have hself := memo?_insert_self (has_of_lookup? hfound) (.input v (db.revision + 1))
  have hconsistent := hs.modify (f := (·.insert (.input v (db.revision + 1)))) (fun _ ↦ rfl)
    (Nat.le_trans (Nat.le_of_eq (removedAt_insert ..)) (Nat.le_succ_of_le (hs.removedAt_le key)))
    (.inr ⟨v, hself⟩)
  rw [hset]
  refine ⟨⟨h.idle, hconsistent⟩, key, ?_, hself, ?_⟩
  · exact (lookup?_insert ..).trans hfound
  · have hchanges : (db.store.intern q k).2.Changes _ key :=
      .of_new hs.toRegular (fun other hne ↦ memo?_insert_of_ne _ hne.symm _) (.inr ⟨v, hself⟩)
    exact hchanges.of_memo (memo?_intern db.store q k)

theorem erase (h : Resting T db) {key : Handle} (hkey : db.store.Has key) :
    Resting T
      { db with revision := db.revision + 1, store := db.store.erase key (db.revision + 1) } ∧
      db.store.Changes (db.store.erase key (db.revision + 1)) key := by
  have hself := memo?_erase db.store key (db.revision + 1)
  have hremoved : (db.store.erase key (db.revision + 1)).removedAt key = db.revision + 1 := by
    obtain ⟨row, hrow⟩ := named?_eq_some_iff_row?.1 hkey
    simp [Store.removedAt, Store.erase, Store.row?_modify, hrow, Row.erase]
  refine ⟨⟨h.idle, ?_⟩, .of_new h.store.toRegular
    (fun other hne ↦ memo?_erase_of_ne _ hne.symm _) (.inl hself)⟩
  exact h.store.modify (f := (·.erase (db.revision + 1))) (fun _ ↦ rfl) (Nat.le_of_eq hremoved)
    (.inl ⟨hself, hremoved⟩)

/-- A change leaves the store as it is, or it changes what is kept for its target. -/
theorem edit [BEq V] [ReflBEq K] (h : Resting T db) (e : Edit Q K V) :
    Resting T (edit e db).2 ∧ ((Database.edit e db).2.store = db.store ∨
      ∃ key, (Database.edit e db).2.store.lookup? e.target.1 e.target.2 = some key ∧
        db.store.Changes (Database.edit e db).2.store key) := by
  obtain heq | heq | ⟨v, heq⟩ | ⟨key, hkey, heq⟩ := edit_cases e db <;> rw [heq]
  · exact ⟨h, .inl rfl⟩
  · exact ⟨h.note _, .inl rfl⟩
  · obtain ⟨hrest, key, hfound, _, hchanges⟩ := h.set e.target.1 e.target.2 v
    exact ⟨hrest, .inr ⟨key, hfound, hchanges⟩⟩
  · obtain ⟨hrest, hchanges⟩ := h.erase (has_of_lookup? hkey)
    exact ⟨hrest.note _, .inr ⟨key, (lookup?_erase ..).trans hkey, hchanges⟩⟩

variable [EquivBEq K] {P : Program Q K V W} {fuel : Nat}

theorem query (hP : P.Steady T) (h : Resting T db) {o : Outcome V}
    (hquery : query P fuel q k db = some (o, db')) : Resting T db' := by
  obtain ⟨_, hf⟩ := h.coherent.sound.query hquery
  refine ⟨?_, (query_gives hP hquery h.coherent).coherent.store⟩
  obtain ⟨g, _, hstack⟩ := hf.stack
  rw [hstack, h.idle]
  rfl

/-- Every history keeps the store consistent. -/
theorem performAll [BEq V] (hP : P.Steady T) (h : Resting T db) {ops : List (Operation Q K V)}
    {replies : List (Except String (Reply V))}
    (hops : performAll P fuel ops db = some (replies, db')) : Resting T db' :=
  performAll_keeps (Resting T) (fun _ _ _ _ _ h hop ↦
    perform_keeps (Resting T) (fun _ _ _ _ _ h hquery ↦ h.query hP hquery)
      (fun e _ _ h ↦ (h.edit e).1) (fun _ _ h ↦ h.clearCache) (fun _ h ↦ h.note _) h hop) h hops

end Resting

end Database

end Incremental
