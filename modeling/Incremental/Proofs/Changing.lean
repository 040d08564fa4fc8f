import Incremental.History
import Incremental.Proofs.Ending

/-!
# Changes of a faithful store

Between two operations a database is at rest: nothing is under evaluation, and the store is
faithful to what was assigned at each revision so far. Every change and every read leaves it at
rest, with the timeline carried on by one revision where there was a change.
-/

namespace Incremental

variable {Q K V W : Type}

/-- The timeline that goes on with `J` after `now`. -/
def Timeline.goesOn (H : Timeline Q K V) (now : Revision) (J : Inputs Q K V) : Timeline Q K V :=
  fun r ↦ if r ≤ now then H r else J

namespace Timeline

variable {H : Timeline Q K V} {now r : Revision} {J : Inputs Q K V}

theorem goesOn_of_le (h : r ≤ now) : H.goesOn now J r = H r := if_pos h

@[simp] theorem goesOn_next : H.goesOn now J (now + 1) = J := if_neg (Nat.not_succ_le_self now)

end Timeline

namespace Store

variable {s : Store Q K V} {key other : Handle}

theorem row?_dropDerived (s : Store Q K V) (key : Handle) :
    s.dropDerived.row? key = (s.row? key).map Row.dropDerived := by
  cases ht : s.tables[key.table]? with
  | none => simp [row?, find?, dropDerived, ht]
  | some t => cases hrow : t.rows[key.slot]? <;>
      simp [row?, find?, dropDerived, ht, Table.dropDerived, hrow]

theorem memo?_dropDerived (s : Store Q K V) (key : Handle) :
    s.dropDerived.memo? key = (s.memo? key).filter Memo.isInput := by
  simp only [memo?, row?_dropDerived]
  cases s.row? key <;> rfl

/-- Nothing computed is left. -/
theorem memo?_dropDerived_ne (s : Store Q K V) (key : Handle) (v : V) (c w : Revision)
    (reads : List Handle) : s.dropDerived.memo? key ≠ some (.derived v c w reads) := by
  intro hm
  rw [memo?_dropDerived, Option.filter_eq_some_iff] at hm
  exact absurd hm.2 (by simp [Memo.isInput])

theorem keeps_dropDerived (s : Store Q K V) : s.Keeps s.dropDerived := by
  refine ⟨fun key x hx ↦ (named?_congr (arguments_dropDerived s)).trans hx, fun key ↦ ?_,
    fun key v c ↦ ?_⟩
  · simp only [removedAt, row?_dropDerived]
    cases s.row? key <;> rfl
  · rw [memo?_dropDerived]
    cases s.memo? key with
    | none => simp
    | some m => cases m <;> simp [Memo.isInput, Option.filter]

section

variable {f : Row K V → Row K V}

theorem memo?_modify_of_ne (h : other ≠ key) : (s.modify key f).memo? other = s.memo? other := by
  simp [memo?, row?_modify, h.symm]

theorem removedAt_modify_of_ne (h : other ≠ key) :
    (s.modify key f).removedAt other = s.removedAt other := by
  simp [removedAt, row?_modify, h.symm]

variable [DecidableEq Q] [BEq K]

/-- A store stays regular when one row is changed at a new revision and keeps no computed value. -/
theorem Regular.modify {now : Revision} (h : s.Regular now)
    (hf : ∀ row, (f row).argument = row.argument)
    (hremoved : (s.modify key f).removedAt key ≤ now + 1)
    (hinput : ∀ v c, (s.modify key f).memo? key = some (.input v c) → c ≤ now + 1)
    (hderived : ∀ v c w reads, (s.modify key f).memo? key ≠ some (.derived v c w reads)) :
    (s.modify key f).Regular (now + 1) := by
  refine ⟨h.indexed.congr (arguments_modify s key hf), fun other ↦ ?_, fun other v c hm ↦ ?_,
    fun other v c w reads hm ↦ ?_⟩
  · by_cases hne : other = key
    · exact hne ▸ hremoved
    · rw [removedAt_modify_of_ne hne]
      exact Nat.le_succ_of_le (h.removedAt_le other)
  · by_cases hne : other = key
    · subst hne
      exact hinput v c hm
    · rw [memo?_modify_of_ne hne] at hm
      exact Nat.le_succ_of_le (h.input other v c hm)
  · have hne : other ≠ key := by
      rintro rfl
      exact hderived v c w reads hm
    rw [memo?_modify_of_ne hne] at hm
    rw [removedAt_modify_of_ne hne]
    obtain ⟨hle, hcw, hnow, hreads⟩ := h.derived other v c w reads hm
    refine ⟨hle, hcw, Nat.le_succ_of_le hnow, fun d hd ↦ ?_⟩
    obtain ⟨y, hy⟩ := hreads d hd
    exact ⟨y, (named?_congr (arguments_modify s key hf)).trans hy⟩

theorem Regular.dropDerived {now : Revision} (h : s.Regular now) : s.dropDerived.Regular now := by
  have hkeeps := s.keeps_dropDerived
  refine ⟨h.indexed.congr (arguments_dropDerived s), fun key ↦ ?_,
    fun key v c hm ↦ h.input key v c ((hkeeps.input key v c).1 hm),
    fun key v c w reads hm ↦ absurd hm (s.memo?_dropDerived_ne key v c w reads)⟩
  rw [hkeeps.removedAt]
  exact h.removedAt_le key

variable [LawfulBEq K] {x y : Q × K}

theorem modify_of_ne (hf : ∀ row, (f row).argument = row.argument)
    (hx : s.named? key = some x) (hy : y ≠ x) : (s.modify key f).inputs y = s.inputs y ∧
      (s.modify key f).lastChange y = s.lastChange y := by
  have hlookup : (s.modify key f).lookup? y.1 y.2 = s.lookup? y.1 y.2 :=
    lookup?_congr (arguments_modify s key hf)
  cases hfound : s.lookup? y.1 y.2 with
  | none => simp [inputs, lastChange, hlookup, hfound]
  | some other =>
      have hne : other ≠ key := by
        rintro rfl
        exact hy (Option.some.inj ((named?_of_lookup? hfound).symm.trans hx))
      simp [inputs, lastChange, hlookup, hfound, memo?_modify_of_ne hne, removedAt_modify_of_ne hne]

end

end Store

namespace Faithful

variable [DecidableEq Q] [BEq K] {R : Q × K → Recipe Q K V} {H : Timeline Q K V}
  {σ : Q × K → Revision} {tame : Prop} {now : Revision} {s : Store Q K V} {key : Handle} {x : Q × K}

theorem dropDerived [LawfulBEq K] (h : Faithful R H σ tame now s) :
    Faithful R H σ tame now s.dropDerived := by
  refine h.keep s.keeps_dropDerived h.regular.dropDerived ?_
  exact fun key x v c w reads _ hm ↦ absurd hm (s.memo?_dropDerived_ne key v c w reads)

/-- A store stays faithful when one row is changed at a new revision and keeps no computed value. -/
theorem modify [LawfulBEq K] (h : Faithful R H s.lastChange tame now s) (hx : s.named? key = some x)
    {f : Row K V → Row K V} (hf : ∀ row, (f row).argument = row.argument)
    (hremoved : (s.modify key f).removedAt key ≤ now + 1)
    (hinput : ∀ v c, (s.modify key f).memo? key = some (.input v c) → c ≤ now + 1)
    (hderived : ∀ v c w reads, (s.modify key f).memo? key ≠ some (.derived v c w reads))
    (hstamp : (s.modify key f).lastChange x = now + 1) :
    Faithful R (H.goesOn now (s.modify key f).inputs) (s.modify key f).lastChange tame (now + 1)
      (s.modify key f) := by
  have hnamed : ∀ d, (s.modify key f).named? d = s.named? d :=
    fun d ↦ Store.named?_congr (Store.arguments_modify s key hf)
  have hother : ∀ y, y ≠ x → (s.modify key f).inputs y = H now y ∧
      (s.modify key f).lastChange y = s.lastChange y := by
    intro y hy
    obtain ⟨hinputs, hstamps⟩ := Store.modify_of_ne hf hx hy
    exact ⟨hinputs.trans (congrFun h.inputs y), hstamps⟩
  have hmemo : ∀ other v c w reads, (s.modify key f).memo? other = some (.derived v c w reads) →
      s.memo? other = some (.derived v c w reads) := by
    intro other v c w reads hm
    have hne : other ≠ key := by
      rintro rfl
      exact hderived v c w reads hm
    rwa [Store.memo?_modify_of_ne hne] at hm
  refine ⟨h.regular.modify hf hremoved hinput hderived, ?_, fun _ ↦ Nat.le_refl _,
    fun y r hy hr ↦ ?_, fun other y v c w reads hy hm ↦ ?_⟩
  · exact Timeline.goesOn_next.symm
  · rw [Timeline.goesOn_next]
    by_cases hle : r ≤ now
    · have hne : y ≠ x := by
        rintro rfl
        rw [hstamp] at hy
        exact absurd (Nat.le_trans hy hle) (Nat.not_succ_le_self now)
      obtain ⟨hinputs, hstamps⟩ := hother y hne
      rw [hinputs, Timeline.goesOn_of_le hle]
      exact h.steady y r (hstamps ▸ hy) hle
    · rw [Timeline.goesOn, if_neg hle]
  · have hm' := hmemo other v c w reads hm
    rw [hnamed] at hy
    obtain ⟨_, _, hnow, hreads⟩ := h.regular.derived other v c w reads hm'
    rw [Timeline.goesOn_of_le hnow]
    refine ((h.kept other y v c w reads hy hm').rename (fun d z hz ↦ (hnamed d).trans hz)
      hreads).restamp fun e he ↦ (hother e ?_).2
    rintro rfl
    rw [hstamp] at he
    exact absurd (Nat.le_trans he hnow) (Nat.not_succ_le_self now)

variable [LawfulBEq K]

theorem assign (h : Faithful R H s.lastChange tame now s) (hx : s.named? key = some x) (v : V) :
    Faithful R (H.goesOn now (s.insert key (.input v (now + 1))).inputs)
      (s.insert key (.input v (now + 1))).lastChange tame (now + 1)
      (s.insert key (.input v (now + 1))) := by
  have hmemo := Store.memo?_insert_self ⟨x, hx⟩ (.input v (now + 1))
  have hindexed := h.regular.indexed.insert key (.input v (now + 1))
  have hremoved : (s.insert key (.input v (now + 1))).removedAt key ≤ now + 1 := by
    rw [Store.removedAt_insert]
    exact Nat.le_succ_of_le (h.regular.removedAt_le key)
  refine h.modify hx (f := (·.insert (.input v (now + 1)))) (fun _ ↦ rfl) hremoved ?_ ?_ ?_
  · intro v' c hm
    cases hmemo.symm.trans hm
    exact Nat.le_refl _
  · intro v' c w reads hm
    cases hmemo.symm.trans hm
  · exact Store.lastChange_of_input hindexed ((Store.named?_insert ..).trans hx) hmemo

theorem erase (h : Faithful R H s.lastChange tame now s) (hx : s.named? key = some x) :
    Faithful R (H.goesOn now (s.erase key (now + 1)).inputs) (s.erase key (now + 1)).lastChange tame
      (now + 1) (s.erase key (now + 1)) := by
  have hmemo := Store.memo?_erase s key (now + 1)
  have hindexed : (s.erase key (now + 1)).Indexed :=
    h.regular.indexed.congr (Store.arguments_modify s key fun _ ↦ rfl)
  have hname : (s.erase key (now + 1)).named? key = some x := by
    rw [← hx]
    exact Store.named?_congr (Store.arguments_modify s key fun _ ↦ rfl)
  have hremoved : (s.erase key (now + 1)).removedAt key = now + 1 := by
    obtain ⟨row, hrow⟩ := Store.named?_eq_some_iff_row?.1 ⟨_, hx⟩
    simp [Store.removedAt, Store.erase, Store.row?_modify, hrow, Row.erase]
  refine h.modify hx (f := (·.erase (now + 1))) (fun _ ↦ rfl) (Nat.le_of_eq hremoved) ?_ ?_ ?_
  · intro v' c hm
    cases hmemo.symm.trans hm
  · intro v' c w reads hm
    cases hmemo.symm.trans hm
  · exact (Store.lastChange_of_not_input hindexed hname (by simp [hmemo])).trans hremoved

end Faithful

namespace Database

variable [DecidableEq Q] [BEq K]

/-- What assigning a value does. -/
theorem set_eq [ReflBEq K] (db : Database Q K V W) (q : Q) (k : K) (v : V) :
    ∃ key s, db.store.intern q k = (key, s) ∧ s.lookup? q k = some key ∧
      db.store.Advances db.revision s ∧
      db.set q k v = { db with
        revision := db.revision + 1
        store := s.insert key (.input v (db.revision + 1)) }.note
          (.assigned q k (db.revision + 1)) := by
  obtain ⟨key, s, hkey⟩ : ∃ key s, db.store.intern q k = (key, s) := ⟨_, _, rfl⟩
  have hfound := Store.lookup?_intern_self db.store q k
  have hadvances := Store.advances_intern db.revision db.store q k
  rw [hkey] at hfound hadvances
  refine ⟨key, s, hkey, hfound, hadvances, ?_⟩
  simp [Database.set, Database.intern, hkey, Revision.next]

theorem revision_set [ReflBEq K] (db : Database Q K V W) (q : Q) (k : K) (v : V) :
    (db.set q k v).revision = db.revision + 1 := by
  obtain ⟨_, _, _, _, _, hset⟩ := db.set_eq q k v
  rw [hset]
  rfl

/-- No assignment computes anything. -/
theorem memo?_derived_of_set [ReflBEq K] {db : Database Q K V W} {q : Q} {k : K} {v v' : V}
    {key : Handle} {c w : Revision} {reads : List Handle}
    (hm : (db.set q k v).store.memo? key = some (.derived v' c w reads)) :
    db.store.memo? key = some (.derived v' c w reads) := by
  obtain ⟨other, s, hintern, hfound, _, hset⟩ := db.set_eq q k v
  rw [hset] at hm
  change (s.insert other _).memo? key = _ at hm
  by_cases hne : other = key
  · rw [hne, Store.memo?_insert_self (hne ▸ Store.has_of_lookup? hfound)] at hm
    cases hm
  · obtain rfl : (db.store.intern q k).2 = s := congrArg Prod.snd hintern
    exact (Store.memo?_intern ..).symm.trans ((Store.memo?_insert_of_ne _ hne _).symm.trans hm)

omit [DecidableEq Q] [BEq K] in
theorem keeps_clearCache (db : Database Q K V W) : db.store.Keeps db.clearCache.store := by
  rw [clearCache_eq]
  exact db.store.keeps_dropDerived

/-- Between two operations: nothing is under evaluation, nesting is not limited, and the store
is faithful to what was assigned so far. -/
structure AtRest (R : Q × K → Recipe Q K V) (H : Timeline Q K V) (tame : Prop)
    (db : Database Q K V W) : Prop where
  idle : db.stack = {}
  unlimited : db.configuration.maxDepth = none
  faithful : Faithful R H db.store.lastChange tame db.revision db.store

namespace AtRest

variable {R : Q × K → Recipe Q K V} {H : Timeline Q K V} {tame : Prop} {db : Database Q K V W}
  {q : Q} {k : K} {v : V}

theorem initial (R : Q × K → Recipe Q K V) (tame : Prop) (w : W) :
    AtRest R (fun _ _ ↦ none) tame ({ outside := w } : Database Q K V W) := by
  have hmemo : ∀ key, ({} : Store Q K V).memo? key = none := fun key ↦ by
    simp [Store.memo?, Store.row?, Store.find?]
  refine ⟨rfl, rfl, ⟨Store.indexed_empty, fun key ↦ ?_, fun key v c hm ↦ ?_,
    fun key v c w reads hm ↦ ?_⟩, rfl, fun _ ↦ Nat.le_refl _, fun _ _ _ _ ↦ rfl,
    fun key x v c w reads _ hm ↦ ?_⟩
  · simp [Store.removedAt, Store.row?, Store.find?]
  all_goals rw [hmemo] at hm; cases hm

/-- Where nothing is computed, the history of the assigned values makes no difference. -/
theorem of_inputs (R : Q × K → Recipe Q K V) (hidle : db.stack = {})
    (hunlimited : db.configuration.maxDepth = none) (hs : db.store.Regular db.revision)
    (hbare : ∀ key v c w reads, db.store.memo? key ≠ some (.derived v c w reads)) :
    AtRest R (fun _ ↦ db.store.inputs) tame db :=
  ⟨hidle, hunlimited, hs, rfl, fun _ ↦ Nat.le_refl _, fun _ _ _ _ ↦ rfl,
    fun key _ v c w reads _ hm ↦ absurd hm (hbare key v c w reads)⟩

theorem sound (h : AtRest R H tame db) : db.Sound :=
  ⟨h.faithful.regular, by simp [h.idle], by simp [h.idle]⟩

theorem inputs (h : AtRest R H tame db) : H db.revision = db.store.inputs := h.faithful.inputs.symm

theorem note (h : AtRest R H tame db) (event : Event Q K) : AtRest R H tame (db.note event) :=
  ⟨h.idle, h.unlimited, h.faithful⟩

theorem clearCache [LawfulBEq K] (h : AtRest R H tame db) : AtRest R H tame db.clearCache := by
  have hfaithful := h.faithful.dropDerived
  have hstamps := db.store.keeps_dropDerived.lastChange_eq h.faithful.regular.indexed
    hfaithful.regular.indexed
  have hrest : AtRest R H tame { db with store := db.store.dropDerived } :=
    ⟨h.idle, h.unlimited, by rwa [hstamps]⟩
  rw [clearCache_eq]
  exact hrest.note _

theorem set [LawfulBEq K] (h : AtRest R H tame db) (q : Q) (k : K) (v : V) :
    ∃ H', AtRest R H' tame (db.set q k v) := by
  obtain ⟨key, s, hkey, hfound, hadvances, hset⟩ := db.set_eq q k v
  have hname : s.named? key = some (q, k) := Store.named?_of_lookup? hfound
  have hs : Faithful R H s.lastChange tame db.revision s := by
    have hfaithful := h.faithful.intern q k
    rw [hkey] at hfaithful
    rwa [hadvances.keeps.lastChange_eq h.faithful.regular.indexed hfaithful.regular.indexed]
  have hrest : AtRest R
      (H.goesOn db.revision (s.insert key (.input v (db.revision + 1))).inputs) tame
      { db with revision := db.revision + 1, store := s.insert key (.input v (db.revision + 1)) } :=
    ⟨h.idle, h.unlimited, hs.assign hname v⟩
  exact ⟨_, hset ▸ hrest.note _⟩

theorem setIfChanged [LawfulBEq K] [BEq V] (h : AtRest R H tame db) (q : Q) (k : K) (v : V) :
    ∃ H', AtRest R H' tame (db.setIfChanged q k v).2 := by
  unfold Database.setIfChanged
  split
  · exact ⟨H, h.note _⟩
  · exact h.set q k v

theorem remove [LawfulBEq K] (h : AtRest R H tame db) (q : Q) (k : K) :
    ∃ H', AtRest R H' tame (db.remove q k).2 := by
  unfold Database.remove
  split
  · exact ⟨H, h⟩
  · next key hkey =>
      split
      · exact ⟨H, h⟩
      · have hrest : AtRest R
            (H.goesOn db.revision (db.store.erase key (db.revision + 1)).inputs) tame
            { db with
              revision := db.revision + 1
              store := db.store.erase key (db.revision + 1) } :=
          ⟨h.idle, h.unlimited, h.faithful.erase (Store.named?_of_lookup? hkey)⟩
        exact ⟨_, hrest.note _⟩

theorem edit [LawfulBEq K] [BEq V] (h : AtRest R H tame db) (e : Edit Q K V) :
    ∃ H', AtRest R H' tame (edit e db).2 := by
  cases e with
  | set q k v => exact h.set q k v
  | setIfChanged q k v => exact h.setIfChanged q k v
  | remove q k => exact h.remove q k

end AtRest

end Database

end Incremental
