import Incremental.Proofs.Recall

/-!
# Lapsed values

A computed value lapses when something that was read for it is assigned or removed after the value
was last known to stand. What was edited may be assigned again, removed again, or computed by its
own logic, from whatever is as old as it likes: what is kept for it bears the revision of that edit
at least, since a removal is remembered in its row. So a lapsed value is neither found to stand nor
given to a read, as long as it is kept.
-/

namespace Incremental

variable {Q K V W : Type}

namespace Store

/-- Whatever is kept under `d`, or will be when it is computed, has changed at `r` or later. -/
structure Touched (s : Store Q K V) (d : Handle) (r : Revision) : Prop where
  changedAt : ∀ m, s.memo? d = some m → r ≤ m.changedAt
  remembered : r ≤ s.removedAt d ∨ ∃ v c, s.memo? d = some (.input v c)

/-- A value is kept under `key` that was last known to stand at `w`, and one of `reads` was edited
after that. -/
structure Lapsed (s : Store Q K V) (key : Handle) (v : V) (c w : Revision) (reads : List Handle)
    (now : Revision) : Prop where
  memo : s.memo? key = some (.derived v c w reads)
  edited : ∃ d ∈ reads, ∃ r, s.Touched d r ∧ w < r ∧ r ≤ now

variable {s s' : Store Q K V} {key d : Handle} {v : V} {c r w now : Revision}
  {reads : List Handle}

namespace Touched

theorem congr (h : s.Touched d r) (hmemo : s'.memo? d = s.memo? d)
    (hremoved : s'.removedAt d = s.removedAt d) : s'.Touched d r :=
  ⟨hmemo ▸ h.changedAt, hmemo ▸ hremoved ▸ h.remembered⟩

theorem stamps (h : s.Touched d r) (hs : s.Stamps now s') : s'.Touched d r := by
  refine ⟨fun m hm ↦ ?_, ?_⟩
  · obtain ⟨m₀, hm₀, hchanged⟩ := hs.exists_memo hm
    exact hchanged ▸ h.changedAt m₀ hm₀
  · rw [hs.removedAt]
    exact h.remembered.imp_right fun ⟨v, c, hm⟩ ↦ ⟨v, c, hs.input_iff.2 hm⟩

theorem assign (hkey : s.Has d) (hr : r ≤ c) (v : V) : (s.insert d (.input v c)).Touched d r := by
  have hself := memo?_insert_self hkey (.input v c)
  refine ⟨fun m hm ↦ ?_, .inr ⟨v, c, hself⟩⟩
  cases hself.symm.trans hm
  exact hr

theorem erase (hkey : s.Has d) (hr : r ≤ c) : (s.erase d c).Touched d r :=
  ⟨by simp, .inl ((removedAt_erase hkey c).symm ▸ hr)⟩

theorem dropDerived (h : s.Touched d r) : s.dropDerived.Touched d r := by
  refine ⟨fun m hm ↦ ?_, ?_⟩
  · rw [memo?_dropDerived, Option.filter_eq_some_iff] at hm
    exact h.changedAt m hm.1
  · rw [s.keeps_dropDerived.removedAt]
    exact h.remembered.imp_right fun ⟨v, c, hm⟩ ↦ ⟨v, c, (s.keeps_dropDerived.input d v c).2 hm⟩

end Touched

namespace Lapsed

theorem not_intact (h : s.Lapsed key v c w reads now) : ¬ s.Intact key := by
  intro hintact
  obtain ⟨hm, d, hd, r, htouched, hw, _⟩ := h
  obtain ⟨m, hm', hle⟩ := hintact v c w reads hm d hd
  exact Nat.not_lt.2 (Nat.le_trans (htouched.changedAt m hm') hle) hw

theorem verifiedAt_lt (h : s.Lapsed key v c w reads now) : w < now := by
  obtain ⟨_, _, _, _, _, hw, hr⟩ := h
  exact Nat.lt_of_lt_of_le hw hr

theorem stamps (h : s.Lapsed key v c w reads now) (hs : s.Stamps now s') :
    s'.Lapsed key v c w reads now := by
  refine ⟨?_, h.edited.imp fun d ⟨hd, r, htouched, hr⟩ ↦ ⟨hd, r, htouched.stamps hs, hr⟩⟩
  rcases hs.memo key with heq | ⟨hintact, _⟩
  · exact heq.trans h.memo
  · exact absurd hintact h.not_intact

end Lapsed

end Store

/-- What is kept under `key` was replaced or taken away. -/
def Event.replaces [DecidableEq Q] [BEq K] (s : Store Q K V) (key : Handle) : Event Q K → Bool
  | assigned q k _ | removed q k _ => s.lookup? q k = some key
  | cleared _ => true
  | computed other => other = key
  | _ => false

theorem Event.replaces_of_lookup? [DecidableEq Q] [BEq K] {s s' : Store Q K V} {key : Handle}
    {e : Event Q K} (hlookup : ∀ q k, s.lookup? q k = some key → s'.lookup? q k = some key)
    (h : e.replaces s key = true) : e.replaces s' key = true := by
  cases e with
  | assigned q k | removed q k => exact decide_eq_true (hlookup q k (of_decide_eq_true h))
  | _ => exact h

namespace Database

variable {db db₁ db₂ db' : Database Q K V W} {key d : Handle} {q : Q} {k : K} {v : V}
  {c r w : Revision} {reads : List Handle}

/-- An edit of query `q` at `k` made revision `r`. -/
def EditedAt (db : Database Q K V W) (q : Q) (k : K) (r : Revision) : Prop :=
  .assigned q k r ∈ db.events ∨ .removed q k r ∈ db.events

/-- Nothing is assigned to what is under evaluation. -/
def Unassigned (db : Database Q K V W) : Prop :=
  ∀ key ∈ db.stack.active, ∀ v c, db.store.memo? key ≠ some (.input v c)

theorem Unassigned.of_idle (h : db.stack = {}) : db.Unassigned :=
  fun key hkey ↦ absurd hkey (by simp [h])

variable [DecidableEq Q] [BEq K]

/-- Between the two, what was kept under `key` was replaced or taken away. -/
def Replaced (db db' : Database Q K V W) (key : Handle) : Prop :=
  ∃ e ∈ db'.since db, e.replaces db'.store key = true

namespace Moves

theorem unassigned (h : db.Moves db') (hdb : db.Unassigned) : db'.Unassigned := by
  cases h with
  | looks _ _ hstore hactive =>
      intro key hkey v c hm
      have hm := hstore.input_iff.1 hm
      rcases hactive key hkey with hkey | hopen
      · exact hdb key hkey v c hm
      · exact hopen _ hm trivial
  | @keeps key _ _ _ _ _ _ _ hstore hactive hidle =>
      intro other hother v c hm
      have hne : key ≠ other := by
        rintro rfl
        exact hidle hother
      rw [hstore, Store.memo?_insert_of_ne _ hne] at hm
      exact hdb other (hactive ▸ List.mem_cons_of_mem _ hother) v c hm
  | assigns hidle _ _ h => exact .of_idle (h ▸ hidle)
  | erases hidle _ h => exact .of_idle (h ▸ hidle)
  | clears hidle h => exact .of_idle (h ▸ hidle)

/-- What has changed at `r` or later, once and for all, has done so after every move. -/
theorem touched (h : db.Moves db') (hdb : db.Unassigned) (hr : r ≤ db.revision)
    (hd : db.store.Touched d r) : db'.store.Touched d r := by
  cases h with
  | looks _ _ hstore => exact hd.stamps hstore
  | @keeps key v c reads _ _ hkey hremoved hstore hactive =>
      rw [hstore]
      by_cases hne : d = key
      · subst hne
        -- nothing is assigned to what is computed, so it was removed at `r` or later
        have hr' : r ≤ db.store.removedAt d := by
          refine hd.remembered.resolve_right fun ⟨v, c, hm⟩ ↦ ?_
          exact hdb d (by simp [hactive]) v c hm
        have hself := Store.memo?_insert_self hkey (.derived v c db.revision reads)
        refine ⟨fun m hm ↦ ?_, .inl ((Store.removedAt_insert ..).symm ▸ hr')⟩
        cases hself.symm.trans hm
        exact Nat.le_trans hr' hremoved
      · exact hd.congr (Store.memo?_insert_of_ne _ (Ne.symm hne) _) (Store.removedAt_insert ..)
  | @assigns _ _ v key s _ hstore hkey h =>
      rw [h]
      have hd := hd.stamps hstore
      by_cases hne : d = key
      · subst hne
        exact .assign (Store.has_of_lookup? hkey) (Nat.le_succ_of_le hr) v
      · exact hd.congr (Store.memo?_insert_of_ne _ (Ne.symm hne) _) (Store.removedAt_insert ..)
  | @erases _ _ key _ hkey h =>
      rw [h]
      by_cases hne : d = key
      · subst hne
        exact .erase (Store.has_of_lookup? hkey) (Nat.le_succ_of_le hr)
      · exact hd.congr (Store.memo?_erase_of_ne _ (Ne.symm hne) _)
          (Store.removedAt_modify_of_ne hne)
  | clears _ h =>
      rw [h, clearCache_eq]
      exact hd.dropDerived

/-- Every move leaves a lapsed value as it is, unless it replaces it or takes it away. -/
theorem lapsed (h : db.Moves db') (hdb : db.Unassigned)
    (hlapsed : db.store.Lapsed key v c w reads db.revision) :
    db.Replaced db' key ∨ db'.store.Lapsed key v c w reads db'.revision := by
  obtain ⟨hm, d, hd, r, htouched, hw, hr⟩ := id hlapsed
  have hedited : ∃ d ∈ reads, ∃ r, db'.store.Touched d r ∧ w < r ∧ r ≤ db'.revision :=
    ⟨d, hd, r, h.touched hdb hr htouched, hw, Nat.le_trans hr h.precedes.revision⟩
  suffices db.Replaced db' key ∨ db'.store.memo? key = some (.derived v c w reads) from
    this.imp_right (⟨·, hedited⟩)
  cases h with
  | looks _ _ hstore => exact .inr (hlapsed.stamps hstore).memo
  | @keeps other _ _ _ _ hevents _ _ hstore =>
      by_cases hne : other = key
      · exact .inl ⟨.computed other, mem_since List.suffix_rfl hevents, decide_eq_true hne⟩
      · rw [hstore, Store.memo?_insert_of_ne _ hne]
        exact .inr hm
  | @assigns q k v other s _ hstore hkey h =>
      rw [h]
      by_cases hne : other = key
      · subst hne
        refine .inl ⟨.assigned q k (db.revision + 1), mem_since List.suffix_rfl rfl, ?_⟩
        exact decide_eq_true ((Store.lookup?_insert ..).trans hkey)
      · exact .inr ((Store.memo?_insert_of_ne _ hne _).trans (hlapsed.stamps hstore).memo)
  | @erases q k other _ hkey h =>
      rw [h]
      by_cases hne : other = key
      · subst hne
        refine .inl ⟨.removed q k (db.revision + 1), mem_since List.suffix_rfl rfl, ?_⟩
        exact decide_eq_true ((Store.lookup?_erase ..).trans hkey)
      · exact .inr ((Store.memo?_erase_of_ne _ hne _).trans hm)
  | clears _ h =>
      rw [h, clearCache_eq]
      exact .inl ⟨.cleared db.store.derivedCount, mem_since List.suffix_rfl rfl, rfl⟩

end Moves

/-- What was replaced or has lapsed has done so after every move. -/
theorem Precedes.replaced_or_lapsed [EquivBEq K] (h : db.Precedes db₁) (hmove : db₁.Moves db₂)
    (hdb : db₁.Unassigned) (hdb' : db₂.Sound)
    (hlapsed : db.Replaced db₁ key ∨ db₁.store.Lapsed key v c w reads db₁.revision) :
    db.Replaced db₂ key ∨ db₂.store.Lapsed key v c w reads db₂.revision := by
  have hsince := since_trans h.events hmove.precedes.events
  rcases hlapsed with ⟨e, he, hreplaces⟩ | hlapsed
  · refine .inl ⟨e, hsince ▸ List.mem_append_right _ he, ?_⟩
    exact Event.replaces_of_lookup? (fun q k ↦ hmove.precedes.lookup? hdb') hreplaces
  · refine (hmove.lapsed hdb hlapsed).imp_left fun ⟨e, he, hreplaces⟩ ↦ ?_
    exact ⟨e, hsince ▸ List.mem_append_left _ he, hreplaces⟩

/-- Nothing is assigned to what is under evaluation, and every edit so far shows in its row. -/
structure Remembers (db : Database Q K V W) : Prop where
  unassigned : db.Unassigned
  edits : ∀ q k r, db.EditedAt q k r →
    r ≤ db.revision ∧ ∃ d, db.store.lookup? q k = some d ∧ db.store.Touched d r

theorem Moves.remembers [EquivBEq K] (h : db.Moves db') (hdb' : db'.Sound) (hdb : db.Remembers) :
    db'.Remembers := by
  have hprecedes := h.precedes
  refine ⟨h.unassigned hdb.unassigned, fun q k r hedit ↦ ?_⟩
  have hold : db.EditedAt q k r →
      r ≤ db'.revision ∧ ∃ d, db'.store.lookup? q k = some d ∧ db'.store.Touched d r := by
    intro hedit
    obtain ⟨hr, d, hd, htouched⟩ := hdb.edits q k r hedit
    exact ⟨Nat.le_trans hr hprecedes.revision, d, hprecedes.lookup? hdb' hd,
      h.touched hdb.unassigned hr htouched⟩
  cases h with
  | looks _ hevents =>
      obtain ⟨recent, hrecent, hquiet⟩ := hevents
      refine hold ?_
      rw [EditedAt, hrecent] at hedit
      exact hedit.imp (fun he ↦ (List.mem_append.mp he).resolve_left (hquiet _ · trivial))
        fun he ↦ (List.mem_append.mp he).resolve_left (hquiet _ · trivial)
  | keeps _ hevents =>
      refine hold ?_
      simpa [EditedAt, hevents] using hedit
  | @assigns _ _ v other _ _ _ hkey h =>
      rw [h] at hedit hold ⊢
      simp only [EditedAt, note, List.mem_cons, Event.assigned.injEq, reduceCtorEq, false_or]
        at hedit
      rcases hedit with (⟨rfl, rfl, rfl⟩ | hedit) | hedit
      · refine ⟨Nat.le_refl _, other, (Store.lookup?_insert ..).trans hkey, ?_⟩
        exact .assign (Store.has_of_lookup? hkey) (Nat.le_refl _) v
      · exact hold (.inl hedit)
      · exact hold (.inr hedit)
  | @erases _ _ other _ hkey h =>
      rw [h] at hedit hold ⊢
      simp only [EditedAt, note, List.mem_cons, Event.removed.injEq, reduceCtorEq, false_or]
        at hedit
      rcases hedit with hedit | ⟨rfl, rfl, rfl⟩ | hedit
      · exact hold (.inl hedit)
      · refine ⟨Nat.le_refl _, other, (Store.lookup?_erase ..).trans hkey, ?_⟩
        exact .erase (Store.has_of_lookup? hkey) (Nat.le_refl _)
      · exact hold (.inr hedit)
  | clears _ h =>
      refine hold ?_
      simpa [EditedAt, h, clearCache, note] using hedit

omit [DecidableEq Q] [BEq K] in
/-- A lapsed value is not found to stand. -/
theorem verify_lapsed {fuel : Nat} {asOf : Revision} {fresh : Bool}
    (hlapsed : db.store.Lapsed key v c w reads db.revision)
    (h : verify fuel key asOf db = some (fresh, db')) :
    fresh = false ∧ db'.store.memo? key = some (.derived v c w reads) := by
  have hm := (hlapsed.stamps (verify_stamps h).1).memo
  refine ⟨Bool.eq_false_iff.2 fun hfresh ↦ ?_, hm⟩
  subst hfresh
  obtain ⟨m, hm', hcurrent⟩ := verify_current h
  cases hm.symm.trans hm'
  exact Nat.ne_of_lt hlapsed.verifiedAt_lt hcurrent

/-- What a read is given in place of a lapsed value was computed for it, and is kept instead. -/
theorem query_lapsed [EquivBEq K] {P : Program Q K V W} {fuel : Nat} {v' : V} (hdb : db.Sound)
    (hlapsed : db.store.Lapsed key v c w reads db.revision)
    (hkey : db.store.lookup? q k = some key)
    (h : query P fuel q k db = some (.value v', db')) : .computed key ∈ db'.since db ∧
      ∃ c' reads', db'.store.memo? key = some (.derived v' c' db'.revision reads') := by
  refine query_cases (P := P)
    (fun a db' ↦ a = .value v' → .computed key ∈ db'.since db ∧
      ∃ c' reads', db'.store.memo? key = some (.derived v' c' db'.revision reads'))
    ?refused ?hit ?tooDeep ?computed h rfl
  case refused =>
    rintro key' db₁ _ _ ⟨⟩
  case hit =>
    intro n key' db₁ v₁ c₁ db₂ hintern _ hretrieve _
    simp only [Database.intern, Store.intern_of_lookup? hkey, Prod.mk.injEq] at hintern
    obtain ⟨rfl, rfl⟩ := hintern
    rcases retrieve_some hretrieve with ⟨hm, _⟩ | ⟨w₁, reads₁, hm, hverify⟩
    · cases hlapsed.memo.symm.trans hm
    · have hlapsed : (db.recordRead key).store.Lapsed key v c w reads db.revision := hlapsed
      cases (verify_lapsed hlapsed hverify).1
  case tooDeep =>
    rintro n key' db₁ db₂ limit _ _ _ _ ⟨⟩
  case computed =>
    intro n key' db₁ db₂ o db₃ _ hintern _ hretrieve _ hrun hvalue
    obtain ⟨hran, _, hevents, frame, rfl, hstack⟩ := hdb.ran hintern hretrieve hrun
    obtain rfl : o = .value v' := (leave_outcome hstack o).symm.trans hvalue
    simp only [Database.intern, Store.intern_of_lookup? hkey, Prod.mk.injEq] at hintern
    rw [leave_value hstack, hintern.1]
    refine ⟨mem_since hevents rfl, _, _, Store.memo?_insert_self ?_ _⟩
    exact hintern.1 ▸ (hran.pop hstack).2.key

end Database

namespace Stage

open Database

variable [DecidableEq Q] [BEq K] [BEq V] [EquivBEq K] {P : Program Q K V W} {t t' : Stage Q K V W}
  {s : Database Q K V W} {key d : Handle} {q : Q} {k : K} {v : V} {c r w : Revision}
  {reads : List Handle}

theorem Reached.remembers (h : Reached P t) : t.db.Remembers := by
  obtain ⟨configuration, w, o, h⟩ := h
  refine (h.keeps Database.Remembers ⟨configuration, w, o, .refl⟩ ⟨.of_idle rfl, ?_⟩
    fun db db' _ hdb' _ hmove hdb ↦ hmove.remembers hdb' hdb).2
  rintro q k r (hedit | hedit) <;> cases hedit

/-- No reader outlives an edit: in every run of whatever program, once something that was read for
a value is assigned or removed after the value was last known to stand, the value stays as it is
until it is replaced or taken away. It is not found to stand as of any revision, and what a read is
given in its place is computed anew and kept instead of it. -/
theorem reader_not_revived (ht : Reached P t)
    (hm : t.db.store.memo? key = some (.derived v c w reads)) (hd : d ∈ reads)
    (hfound : t.db.store.lookup? q k = some d) (hedit : t.db.EditedAt q k r) (hw : w < r)
    (hlater : Later P t t') (hs : t'.Shows s) :
    t.db.Replaced s key ∨ s.store.memo? key = some (.derived v c w reads) ∧
      (∀ fuel asOf fresh s', verify fuel key asOf s = some (fresh, s') →
        fresh = false ∧ s'.store.memo? key = some (.derived v c w reads)) ∧
      ∀ fuel q' k' v' s', s.store.lookup? q' k' = some key →
        query P fuel q' k' s = some (.value v', s') → .computed key ∈ s'.since s ∧
          ∃ c' reads', s'.store.memo? key = some (.derived v' c' s'.revision reads') := by
  obtain ⟨hr, d', hfound', htouched⟩ := ht.remembers.edits q k r hedit
  obtain rfl : d' = d := Option.some.inj (hfound'.symm.trans hfound)
  have hlapsed : t.db.store.Lapsed key v c w reads t.db.revision :=
    ⟨hm, d', hd, r, htouched, hw, hr⟩
  obtain ⟨hprecedes, _, hlast⟩ := hlater.keeps (fun db ↦ db.Remembers ∧
    (t.db.Replaced db key ∨ db.store.Lapsed key v c w reads db.revision)) ht
    ⟨ht.remembers, .inr hlapsed⟩ fun db db' _ hdb' hprecedes hmove ⟨hdb, hlapsed⟩ ↦
      ⟨hmove.remembers hdb' hdb,
        hprecedes.replaced_or_lapsed hmove hdb.unassigned hdb' hlapsed⟩
  have ht' := ht.later hlater
  have hsound := hs.sound ht'.sound
  refine (hprecedes.replaced_or_lapsed hs.moves ht'.remembers.unassigned hsound hlast).imp_right
    fun hlapsed ↦ ⟨hlapsed.memo, fun fuel asOf fresh s' ↦ verify_lapsed hlapsed, ?_⟩
  exact fun fuel q' k' v' s' hkey ↦ query_lapsed hsound hlapsed hkey

end Stage

/-- A list price, the price that is asked for, and a bill that is made out even without one. -/
inductive Tariff
  | list
  | price
  | bill
  deriving DecidableEq

open Database Stage

namespace Tariff

def logic : Tariff → Option (Unit → Body Tariff Unit Nat Unit Nat)
  | list => none
  | price => some fun _ ↦ .get list ()
  | bill => some fun _ ↦ (Body.get price ()).orElse fun _ ↦ .value 0

def program : Program Tariff Unit Nat Unit where
  name _ := ""
  logic := logic
  showArgument _ _ := ""
  showValue _ _ := ""

/-- The bill is made out at a price that is taken back. -/
def billed : List (Operation Tariff Unit Nat) :=
  [.act (.edit (.set list () 3)), .act (.edit (.set price () 8)),
    .act (.inquire (.query bill ())), .act (.edit (.remove price ()))]

/-- The same price is set and taken back once more, and then there is one by the list. -/
def priced : List (Operation Tariff Unit Nat) :=
  [.act (.edit (.set price () 8)), .act (.edit (.remove price ())),
    .act (.inquire (.query price ()))]

/-- The bill is not found to stand again, though there is a price, and the list is older than the
bill. -/
theorem bill_not_revived : ∃ t t' : Stage Tariff Unit Nat Unit, Reached program t ∧
    Later program t t' ∧ t.db.EditedAt price () 3 ∧
    t'.db.store.memo? ⟨0, 0⟩ = some (.input 3 1) ∧
    t'.db.store.memo? ⟨1, 0⟩ = some (.derived 3 5 5 [⟨0, 0⟩]) ∧
    t'.db.store.memo? ⟨2, 0⟩ = some (.derived 8 2 2 [⟨1, 0⟩]) ∧
    (∀ fuel asOf fresh s', verify fuel ⟨2, 0⟩ asOf t'.db = some (fresh, s') →
      fresh = false ∧ s'.store.memo? ⟨2, 0⟩ = some (.derived 8 2 2 [⟨1, 0⟩])) ∧
    ∀ fuel q k v s', t'.db.store.lookup? q k = some ⟨2, 0⟩ →
      query program fuel q k t'.db = some (.value v, s') → .computed ⟨2, 0⟩ ∈ s'.since t'.db ∧
        ∃ c reads, s'.store.memo? ⟨2, 0⟩ = some (.derived v c s'.revision reads) := by
  have hrun : (performAll program 9 billed { outside := () }).bind (fun p ↦
      (performAll program 9 priced p.2).map fun p' ↦
        decide (p.2.store.memo? ⟨2, 0⟩ = some (.derived 8 2 2 [⟨1, 0⟩]) ∧
          p.2.store.lookup? price () = some ⟨1, 0⟩ ∧ .removed price () 3 ∈ p.2.events ∧
          p'.2.store.memo? ⟨0, 0⟩ = some (.input 3 1) ∧
          p'.2.store.memo? ⟨1, 0⟩ = some (.derived 3 5 5 [⟨0, 0⟩]) ∧
          ∀ e ∈ p'.2.since p.2, e.replaces p'.2.store ⟨2, 0⟩ = false)) = some true := by
    decide +kernel
  obtain ⟨⟨replies, db⟩, hbilled, hrun⟩ := Option.bind_eq_some_iff.mp hrun
  obtain ⟨⟨replies', db'⟩, hpriced, hend⟩ := Option.map_eq_some_iff.mp hrun
  obtain ⟨hbill, hprice, hremoved, hlist, hpriced', hkept⟩ := of_decide_eq_true hend
  obtain ⟨o, ht⟩ := reached_performAll hbilled
  obtain ⟨o', hlater⟩ := later_performAll hpriced o
  obtain ⟨e, he, hreplaces⟩ | ⟨hm, hverify, hquery⟩ := reader_not_revived ht hbill
    (List.mem_singleton_self _) hprice (.inr hremoved) (by decide) hlater .here
  · exact absurd hreplaces (by simp [hkept e he])
  · exact ⟨_, _, ht, hlater, .inr hremoved, hlist, hpriced', hm, hverify, hquery⟩

end Tariff

end Incremental
