import Incremental.Proofs.Lapsing

/-!
# The numbering of changes

A journal of a run lists the changes that took effect, the latest first: assignments, those that
were asked for only if the value is another one and were made, and removals of what was there.
Every change makes the next revision, and nothing else does. So a revision other than the initial
one stands for one change, and every stamp in a store can be looked up in the journal.
-/

namespace Incremental

variable {Q K V W : Type}

/-- A change that took effect. -/
inductive Change (Q K : Type)
  | assigned (q : Q) (k : K)
  | removed (q : Q) (k : K)
  deriving DecidableEq, Repr

/-- The change that an edit made, as its reply tells. -/
def Edit.change? : Edit Q K V → Reply V → Option (Change Q K)
  | .set q k _, _ => some (.assigned q k)
  | .setIfChanged q k _, .flag true => some (.assigned q k)
  | .remove q k, .flag true => some (.removed q k)
  | _, _ => none

namespace Change

variable [DecidableEq Q] [BEq K]

def assigns (q : Q) (k : K) : Change Q K → Bool
  | assigned q' k' => decide (q' = q) && k' == k
  | removed .. => false

def removes (q : Q) (k : K) : Change Q K → Bool
  | assigned .. => false
  | removed q' k' => decide (q' = q) && k' == k

/-- The revision that was made by the latest of the listed changes that meets `p`. -/
def latest (p : Change Q K → Bool) : List (Change Q K) → Revision
  | [] => Revision.initial
  | change :: older => if p change then older.length + 1 else latest p older

/-- The change that made revision `r`. -/
def made? (r : Revision) : List (Change Q K) → Option (Change Q K)
  | [] => none
  | change :: older => if r = older.length + 1 then some change else made? r older

/-- A change has one target. -/
theorem beq_of_target [EquivBEq K] {c : Change Q K} {q q' : Q} {k k' : K}
    (h : c.assigns q k = true ∨ c.removes q k = true)
    (h' : c.assigns q' k' = true ∨ c.removes q' k' = true) :
    (decide (q = q') && k == k') = true := by
  cases c <;> simp only [assigns, removes, Bool.and_eq_true, decide_eq_true_iff, Bool.false_eq_true,
    or_false, false_or] at h h' ⊢
  all_goals
    obtain ⟨rfl, hk⟩ := h
    obtain ⟨rfl, hk'⟩ := h'
    exact ⟨rfl, PartialEquivBEq.trans (PartialEquivBEq.symm hk) hk'⟩

variable {p : Change Q K → Bool} {l l' : List (Change Q K)} {r : Revision} {c : Change Q K}

omit [DecidableEq Q] [BEq K]

theorem latest_le (p : Change Q K → Bool) (l : List (Change Q K)) : latest p l ≤ l.length := by
  induction l with
  | nil => exact Nat.le_refl _
  | cons change older ih =>
      rw [latest]
      split
      · exact Nat.le_refl _
      · exact Nat.le_succ_of_le ih

/-- The revision of the latest change that meets `p` was made by such a change. -/
theorem exists_made?_latest (h : latest p l ≠ Revision.initial) :
    ∃ c, made? (latest p l) l = some c ∧ p c = true := by
  induction l with
  | nil => exact absurd rfl h
  | cons change older ih =>
      by_cases hp : p change = true
      · exact ⟨change, by simp [latest, made?, hp], hp⟩
      · have hlatest : latest p (change :: older) = latest p older := by simp [latest, hp]
        rw [hlatest] at h ⊢
        obtain ⟨c, hmade, hc⟩ := ih h
        have hne : latest p older ≠ older.length + 1 :=
          Nat.ne_of_lt (Nat.lt_succ_of_le (latest_le ..))
        exact ⟨c, by rw [made?, if_neg hne, hmade], hc⟩

theorem le_of_made? (h : made? r l = some c) : r ≤ l.length := by
  induction l with
  | nil => cases h
  | cons change older ih =>
      rw [made?] at h
      split at h
      · next hr => exact Nat.le_of_eq hr
      · exact Nat.le_succ_of_le (ih h)

/-- Later changes have made other revisions. -/
theorem made?_append (h : made? r l = some c) (newer : List (Change Q K)) :
    made? r (newer ++ l) = some c := by
  induction newer with
  | nil => exact h
  | cons change newer ih =>
      have hr : r ≤ (newer ++ l).length :=
        Nat.le_trans (le_of_made? h) (List.length_append ▸ Nat.le_add_left _ _)
      have hne : r ≠ (newer ++ l).length + 1 := Nat.ne_of_lt (Nat.lt_succ_of_le hr)
      rw [List.cons_append, made?, if_neg hne, ih]

end Change

namespace Database

open Store

variable [DecidableEq Q] [BEq K]

/-- The stamps of a database are the numbers of the changes in its journal. -/
structure Numbered (l : List (Change Q K)) (db : Database Q K V W) : Prop where
  revision : db.revision = l.length
  removed : ∀ q k key, db.store.lookup? q k = some key →
    db.store.removedAt key = Change.latest (Change.removes q k) l
  /-- What has no row yet was never removed. -/
  unseen : ∀ q k, db.store.lookup? q k = none →
    Change.latest (Change.removes q k) l = Revision.initial
  removed_le : ∀ key m, db.store.memo? key = some m → db.store.removedAt key ≤ m.changedAt
  input : ∀ q k key v c, db.store.lookup? q k = some key →
    db.store.memo? key = some (.input v c) →
    1 ≤ c ∧ c ≤ db.revision ∧ c = Change.latest (Change.assigns q k) l
  derived : ∀ key v c w reads, db.store.memo? key = some (.derived v c w reads) →
    c ≤ w ∧ w ≤ db.revision

/-- An assignment to `key` that stands, or the last removal from it, made revision `r`. -/
def Stamped (db : Database Q K V W) (key : Handle) (r : Revision) : Prop :=
  (∃ v, db.store.memo? key = some (.input v r)) ∨
    db.store.removedAt key = r ∧ r ≠ Revision.initial

variable {db db' : Database Q K V W} {l : List (Change Q K)} {q : Q} {k : K} {key : Handle}

omit [DecidableEq Q] [BEq K] in
theorem stamped_iff_of_keeps (hkeeps : db.store.Keeps db'.store) {r : Revision} :
    db'.Stamped key r ↔ db.Stamped key r := by
  simp only [Stamped, hkeeps.removedAt, hkeeps.input]

namespace Numbered

theorem initial (configuration : Configuration) (w : W) :
    Numbered [] ({ configuration, outside := w } : Database Q K V W) := by
  have hlookup : ∀ (q : Q) (k : K), ({} : Store Q K V).lookup? q k = none := fun _ _ ↦ rfl
  refine ⟨rfl, fun q k key hkey ↦ ?_, fun _ _ _ ↦ rfl, fun key m hm ↦ ?_,
    fun q k key v c hkey _ ↦ ?_, fun key v c w reads hm ↦ ?_⟩
  · cases (hlookup q k).symm.trans hkey
  · cases (memo?_empty key).symm.trans hm
  · cases (hlookup q k).symm.trans hkey
  · cases (memo?_empty key).symm.trans hm

/-- What assigns and removes nothing needs no number. -/
theorem keeps [EquivBEq K] (h : db.Numbered l) (hdb : db.Sound) (hdb' : db'.Sound)
    (hrevision : db'.revision = db.revision) (hkeeps : db.store.Keeps db'.store) :
    db'.Numbered l := by
  have hcases : ∀ {q k key}, db'.store.lookup? q k = some key → db.store.lookup? q k = some key ∨
      db.store.lookup? q k = none ∧ ¬ db.store.Has key :=
    fun hkey ↦ hkeeps.lookup?_cases hdb.store.indexed hdb'.store.indexed hkey
  refine ⟨hrevision.trans h.revision, fun q k key hkey ↦ ?_, fun q k hnone ↦ ?_,
    fun key m hm ↦ ?_, fun q k key v c hkey hm ↦ ?_, fun key v c w reads hm ↦ ?_⟩
  · rw [hkeeps.removedAt]
    rcases hcases hkey with hold | ⟨hnone, hnew⟩
    · exact h.removed q k key hold
    · rw [removedAt_of_not_has hnew, h.unseen q k hnone]
  · cases hold : db.store.lookup? q k with
    | none => exact h.unseen q k hold
    | some key =>
        have hfound := lookup?_of_named hdb'.store.indexed hkeeps.named hold
        cases hnone.symm.trans hfound
  · cases m with
    | input v c =>
        rw [hkeeps.removedAt]
        exact h.removed_le key _ ((hkeeps.input key v c).1 hm)
    | derived v c w reads => exact (hdb'.store.derived key v c w reads hm).1
  · have hm := (hkeeps.input key v c).1 hm
    rw [hrevision]
    rcases hcases hkey with hold | ⟨_, hnew⟩
    · exact h.input q k key v c hold hm
    · exact absurd (has_of_memo? hm) hnew
  · obtain ⟨_, hcw, hle, _⟩ := hdb'.store.derived key v c w reads hm
    exact ⟨hcw, hle⟩

/-- An assignment to a row makes the next revision. -/
theorem insert [EquivBEq K] (h : db.Numbered l) (hkey : db.store.lookup? q k = some key) (v : V)
    (event : Event Q K) :
    Numbered (.assigned q k :: l) ({ db with
      revision := db.revision + 1
      store := db.store.insert key (.input v (db.revision + 1)) }.note event) := by
  have hself := memo?_insert_self (has_of_lookup? hkey) (.input v (db.revision + 1))
  have hlookup : ∀ {q' k' other},
      (db.store.insert key (.input v (db.revision + 1))).lookup? q' k' = some other →
        db.store.lookup? q' k' = some other :=
    fun hother ↦ (lookup?_insert ..).symm.trans hother
  refine ⟨congrArg (· + 1) h.revision, fun q' k' other hother ↦ ?_, fun q' k' hnone ↦ ?_,
    fun other m hm ↦ ?_, fun q' k' other v' c hother hm ↦ ?_, fun other v' c w reads hm ↦ ?_⟩
  · exact (removedAt_insert ..).trans (h.removed q' k' other (hlookup hother))
  · exact h.unseen q' k' ((lookup?_insert ..).symm.trans hnone)
  · change (db.store.insert _ _).memo? other = some m at hm
    change (db.store.insert _ _).removedAt other ≤ m.changedAt
    rw [removedAt_insert]
    by_cases hne : key = other
    · subst hne
      cases hself.symm.trans hm
      rw [h.removed q k key hkey, h.revision]
      exact Nat.le_succ_of_le (Change.latest_le ..)
    · rw [memo?_insert_of_ne _ hne] at hm
      exact h.removed_le other m hm
  · change (db.store.insert _ _).memo? other = some (.input v' c) at hm
    have hsame := beq_iff_of_lookup? hkey (hlookup hother)
    by_cases hne : key = other
    · have hassigns : Change.assigns q' k' (.assigned q k) = true := hsame.2 hne
      subst hne
      cases hself.symm.trans hm
      refine ⟨Nat.succ_pos _, Nat.le_refl _, ?_⟩
      rw [Change.latest, if_pos hassigns, h.revision]
    · have hassigns : ¬ Change.assigns q' k' (.assigned q k) = true := mt hsame.1 hne
      rw [memo?_insert_of_ne _ hne] at hm
      obtain ⟨hpos, hle, hlatest⟩ := h.input q' k' other v' c (hlookup hother) hm
      refine ⟨hpos, Nat.le_succ_of_le hle, ?_⟩
      rw [Change.latest, if_neg hassigns]
      exact hlatest
  · change (db.store.insert _ _).memo? other = some (.derived v' c w reads) at hm
    by_cases hne : key = other
    · subst hne
      cases hself.symm.trans hm
    · rw [memo?_insert_of_ne _ hne] at hm
      exact (h.derived other v' c w reads hm).imp_right Nat.le_succ_of_le

/-- So does a removal from a row, which remembers it. -/
theorem erase [EquivBEq K] (h : db.Numbered l) (hkey : db.store.lookup? q k = some key)
    (event : Event Q K) :
    Numbered (.removed q k :: l) ({ db with
      revision := db.revision + 1
      store := db.store.erase key (db.revision + 1) }.note event) := by
  have hlookup : ∀ {q' k' other},
      (db.store.erase key (db.revision + 1)).lookup? q' k' = some other →
        db.store.lookup? q' k' = some other :=
    fun hother ↦ (lookup?_erase ..).symm.trans hother
  have hmemo : ∀ {other m}, (db.store.erase key (db.revision + 1)).memo? other = some m →
      key ≠ other ∧ db.store.memo? other = some m := by
    intro other m hm
    have hne : key ≠ other := by
      rintro rfl
      rw [memo?_erase] at hm
      cases hm
    exact ⟨hne, (memo?_erase_of_ne _ hne _).symm.trans hm⟩
  refine ⟨congrArg (· + 1) h.revision, fun q' k' other hother ↦ ?_, fun q' k' hnone ↦ ?_,
    fun other m hm ↦ ?_, fun q' k' other v' c hother hm ↦ ?_, fun other v' c w reads hm ↦ ?_⟩
  · have hsame := beq_iff_of_lookup? hkey (hlookup hother)
    change (db.store.erase key (db.revision + 1)).removedAt other = _
    by_cases hne : key = other
    · have hremoves : Change.removes q' k' (.removed q k) = true := hsame.2 hne
      rw [← hne, removedAt_erase (has_of_lookup? hkey), Change.latest, if_pos hremoves, h.revision]
    · have hremoves : ¬ Change.removes q' k' (.removed q k) = true := mt hsame.1 hne
      rw [Change.latest, if_neg hremoves]
      exact (removedAt_modify_of_ne (Ne.symm hne)).trans (h.removed q' k' other (hlookup hother))
  · have hnone : db.store.lookup? q' k' = none := (lookup?_erase ..).symm.trans hnone
    have hremoves : ¬ Change.removes q' k' (.removed q k) = true := by
      intro hsame
      obtain ⟨hq, hk⟩ := Bool.and_eq_true_iff.1 hsame
      obtain rfl := of_decide_eq_true hq
      rw [lookup?_of_beq hk, hnone] at hkey
      cases hkey
    rw [Change.latest, if_neg hremoves]
    exact h.unseen q' k' hnone
  · obtain ⟨hne, hm⟩ := hmemo hm
    have hremoved : (db.store.erase key (db.revision + 1)).removedAt other =
      db.store.removedAt other := removedAt_modify_of_ne (Ne.symm hne)
    exact hremoved ▸ h.removed_le other m hm
  · obtain ⟨_, hm⟩ := hmemo hm
    obtain ⟨hpos, hle, hlatest⟩ := h.input q' k' other v' c (hlookup hother) hm
    exact ⟨hpos, Nat.le_succ_of_le hle, hlatest⟩
  · obtain ⟨_, hm⟩ := hmemo hm
    exact (h.derived other v' c w reads hm).imp_right Nat.le_succ_of_le

theorem set [EquivBEq K] (h : db.Numbered l) (hdb : db.Sound) (q : Q) (k : K) (v : V) :
    Numbered (.assigned q k :: l) (db.set q k v) := by
  obtain ⟨key, s, hkey, hfound, hadvances, hset⟩ := db.set_eq q k v
  have hs : s.Regular db.revision := by
    have hregular := hdb.store.intern q k
    rwa [hkey] at hregular
  have hnew : Numbered l { db with store := s } :=
    h.keeps hdb (hdb.of_has hs fun _ ↦ hadvances.has) rfl hadvances.keeps
  rw [hset]
  exact hnew.insert hfound v _

/-- An edit is in the journal if it took effect, and then it made the next revision. -/
theorem edit [BEq V] [EquivBEq K] (h : db.Numbered l) (hdb : db.Sound) (e : Edit Q K V) :
    Numbered ((e.change? (edit e db).1).toList ++ l) (edit e db).2 := by
  cases e with
  | set q k v => exact h.set hdb q k v
  | setIfChanged q k v =>
      by_cases hequal : (db.input? q k).any (· == v) = true
      · have hedit : Database.edit (.setIfChanged q k v) db =
            (.flag false, db.note (.unchanged q k)) := by
          simp [Database.edit, Database.setIfChanged, hequal]
        rw [hedit]
        exact h.keeps hdb (hdb.note _) rfl (Advances.refl db.revision _).keeps
      · have hedit : Database.edit (.setIfChanged q k v) db = (.flag true, db.set q k v) := by
          simp [Database.edit, Database.setIfChanged, hequal]
        rw [hedit]
        exact h.set hdb q k v
  | remove q k =>
      cases hkey : db.store.lookup? q k with
      | none =>
          have hedit : Database.edit (.remove q k) db = (.flag false, db) := by
            simp [Database.edit, Database.remove, hkey]
          rw [hedit]
          exact h
      | some key =>
          cases hm : db.store.memo? key with
          | none =>
              have hedit : Database.edit (.remove q k) db = (.flag false, db) := by
                simp [Database.edit, Database.remove, hkey, hm]
              rw [hedit]
              exact h
          | some m =>
              have hnew := h.erase hkey (.removed q k (db.revision + 1))
              simp only [Database.edit, Database.remove, hkey, hm]
              exact hnew

/-- What is stamped with a revision was the target of the change that made it. -/
theorem exists_made? [EquivBEq K] (h : db.Numbered l) (hdb : db.Sound) {r : Revision}
    (hr : db.Stamped key r) : ∃ change q k, Change.made? r l = some change ∧
      db.store.lookup? q k = some key ∧
      (change.assigns q k = true ∨ change.removes q k = true) := by
  rcases hr with ⟨v, hm⟩ | ⟨hremoved, hr⟩
  · obtain ⟨⟨q, k⟩, hname⟩ := has_of_memo? hm
    have hkey : db.store.lookup? q k = some key := hdb.store.indexed key q k hname
    obtain ⟨hpos, _, hlatest⟩ := h.input q k key v r hkey hm
    have hne : Change.latest (Change.assigns q k) l ≠ Revision.initial :=
      hlatest ▸ Nat.ne_of_gt hpos
    obtain ⟨change, hmade, hassigns⟩ := Change.exists_made?_latest hne
    exact ⟨change, q, k, hlatest ▸ hmade, hkey, .inl hassigns⟩
  · have hhas : db.store.Has key := by
      by_contra hhas
      exact hr (hremoved.symm.trans (removedAt_of_not_has hhas))
    obtain ⟨⟨q, k⟩, hname⟩ := hhas
    have hkey : db.store.lookup? q k = some key := hdb.store.indexed key q k hname
    have hlatest : r = Change.latest (Change.removes q k) l :=
      hremoved.symm.trans (h.removed q k key hkey)
    obtain ⟨change, hmade, hremoves⟩ := Change.exists_made?_latest (hlatest ▸ hr)
    exact ⟨change, q, k, hlatest ▸ hmade, hkey, .inr hremoves⟩

end Numbered

/-- A move that leaves the revision as it is assigns and removes nothing. -/
theorem Moves.keeps_of_revision (h : db.Moves db') (hdb : db.Unassigned)
    (hrevision : db'.revision = db.revision) : db.store.Keeps db'.store := by
  cases h with
  | looks _ _ hstore => exact hstore.keeps
  | @keeps key v c reads _ _ hkey _ hstore hactive =>
      rw [hstore]
      refine ⟨fun other x hx ↦ (named?_insert ..).trans hx, fun other ↦ removedAt_insert ..,
        fun other v' c' ↦ ?_⟩
      by_cases hne : key = other
      · subst hne
        have hopen := hdb key (by simp [hactive]) v' c'
        simp [memo?_insert_self hkey, hopen]
      · rw [memo?_insert_of_ne _ hne]
  | assigns _ _ _ h =>
      rw [h] at hrevision
      exact absurd hrevision (Nat.succ_ne_self _)
  | erases _ _ h =>
      rw [h] at hrevision
      exact absurd hrevision (Nat.succ_ne_self _)
  | clears _ h =>
      rw [h]
      exact db.keeps_clearCache

end Database

namespace Stage

open Database

variable [DecidableEq Q] [BEq K] {P : Program Q K V W}

theorem Evaluates.revision_eq {t t' : Stage Q K V W} (hstep : Evaluates P t t') :
    t'.db.revision = t.db.revision := by
  cases hstep with
  | answers hanswers => exact hanswers.looks.1
  | enters hkey _ hretrieve _ => exact (read_looks hkey hretrieve).1
  | @leaves o call calls db => exact (leave_fixed call.key call.depth o db).1
  | revision => rfl
  | outside => rfl

variable [BEq V]

/-- A run from one stage to another, with the journal of the changes made in it. -/
inductive Makes (P : Program Q K V W) :
    List (Change Q K) → Stage Q K V W → Stage Q K V W → Prop
  | refl {t : Stage Q K V W} : Makes P [] t t
  | evaluates {l : List (Change Q K)} {s t t' : Stage Q K V W} (h : Makes P l s t)
      (hstep : Evaluates P t t') : Makes P l s t'
  | asks {l : List (Change Q K)} {s : Stage Q K V W} {db : Database Q K V W} {o : Outcome V}
      (h : Makes P l s ⟨db, .done o, []⟩) (q : Q) (k : K) : Makes P l s ⟨db, .get q k, []⟩
  | edits {l : List (Change Q K)} {s : Stage Q K V W} {db : Database Q K V W} {o : Outcome V}
      (h : Makes P l s ⟨db, .done o, []⟩) (e : Edit Q K V) :
      Makes P ((e.change? (edit e db).1).toList ++ l) s ⟨(edit e db).2, .done o, []⟩
  | clears {l : List (Change Q K)} {s : Stage Q K V W} {db : Database Q K V W} {o : Outcome V}
      (h : Makes P l s ⟨db, .done o, []⟩) : Makes P l s ⟨db.clearCache, .done o, []⟩
  | reports {l : List (Change Q K)} {s : Stage Q K V W} {db : Database Q K V W} {o : Outcome V}
      (h : Makes P l s ⟨db, .done o, []⟩) : Makes P l s ⟨db.report P, .done o, []⟩

variable {l l' : List (Change Q K)} {s t t' : Stage Q K V W}

theorem Makes.later (h : Makes P l s t) : Later P s t := by
  induction h with
  | refl => exact .refl
  | evaluates _ hstep ih => exact .tail ih (.evaluates hstep)
  | asks _ q k ih => exact .tail ih (.asks q k)
  | edits _ e ih => exact .tail ih (.edits e)
  | clears _ ih => exact .tail ih .clears
  | reports _ ih => exact .tail ih .reports

theorem Makes.trans_evaluates (h : Makes P l s t)
    (hsteps : Relation.ReflTransGen (Evaluates P) t t') : Makes P l s t' := by
  induction hsteps with
  | refl => exact h
  | tail _ hstep ih => exact ih.evaluates hstep

/-- Every run has a journal. -/
theorem later_iff_makes : Later P s t ↔ ∃ l, Makes P l s t := by
  constructor
  · intro h
    induction h with
    | refl => exact ⟨[], .refl⟩
    | tail _ hstep ih =>
        obtain ⟨l, h⟩ := ih
        cases hstep with
        | evaluates hstep => exact ⟨l, h.evaluates hstep⟩
        | asks q k => exact ⟨l, h.asks q k⟩
        | edits e => exact ⟨_, h.edits e⟩
        | clears => exact ⟨l, h.clears⟩
        | reports => exact ⟨l, h.reports⟩
  · rintro ⟨l, h⟩
    exact h.later

theorem Makes.numbered [EquivBEq K] (h : Makes P l s t) (hs : Reached P s)
    (hnumbered : s.db.Numbered l') : t.db.Numbered (l ++ l') := by
  induction h with
  | refl => exact hnumbered
  | @evaluates l s t t' h hstep ih =>
      have ht := hs.later h.later
      have ht' := ht.later (.single (.evaluates hstep))
      have hmoves := ht.moves (.evaluates hstep)
      apply (ih hs hnumbered).keeps ht.sound ht'.sound hstep.revision_eq
      exact hmoves.keeps_of_revision ht.remembers.unassigned hstep.revision_eq
  | asks _ _ _ ih => exact ih hs hnumbered
  | edits h e ih =>
      rw [List.append_assoc]
      exact (ih hs hnumbered).edit (hs.later h.later).sound e
  | clears h ih =>
      have ht := hs.later h.later
      have ht' := ht.later (.single .clears)
      exact (ih hs hnumbered).keeps ht.sound ht'.sound rfl (keeps_clearCache _)
  | reports h ih =>
      have ht := hs.later h.later
      exact (ih hs hnumbered).keeps ht.sound (ht.sound.note _) rfl (Store.Advances.refl 0 _).keeps

theorem Shows.keeps [EquivBEq K] {db : Database Q K V W} (ht : Reached P t) (h : t.Shows db) :
    db.revision = t.db.revision ∧ t.db.store.Keeps db.store := by
  have hrevision : db.revision = t.db.revision := by
    cases h with
    | here => rfl
    | looks hkey _ _ hwalks => exact hwalks.verifies.revision_eq.trans (store_of_intern hkey 0).1
  exact ⟨hrevision, h.moves.keeps_of_revision ht.remembers.unassigned hrevision⟩

/-- Revisions number the changes: in every run of whatever program, at every stage of it and while
memos are verified there, the revision is the number of changes in the journal, and reads,
verification, batches of reads and clearings leave it as it is; what is assigned bears the revision
of the last assignment to its row, a computed value is stamped between the removals from its row and
the present, and a row remembers the last removal from it; and no revision is borne, now and later,
by assignments to or removals from two rows. -/
theorem revisions_numbered [EquivBEq K] {configuration : Configuration} {w : W} {o : Outcome V}
    (h : Makes P l ⟨{ configuration, outside := w }, .done o, []⟩ t) :
    (∀ db, t.Shows db → db.Numbered l ∧
      (∀ fuel q k o db', query P fuel q k db = some (o, db') → db'.revision = db.revision) ∧
      (∀ fuel key asOf fresh db', verify fuel key asOf db = some (fresh, db') →
        db'.revision = db.revision) ∧
      (∀ fuel inquiries r db', act P fuel (.read inquiries) db = some (r, db') →
        db'.revision = db.revision) ∧
      db.clearCache.revision = db.revision) ∧
    ∀ l' t' db db' key key' r, Makes P l' t t' → t.Shows db → t'.Shows db' →
      db.Stamped key r → db'.Stamped key' r → key = key' := by
  have hstart : Reached P ⟨{ configuration, outside := w }, .done o, []⟩ :=
    ⟨configuration, w, o, .refl⟩
  have ht : Reached P t := hstart.later h.later
  have hnumbered : t.db.Numbered l := by
    simpa using h.numbered hstart (.initial configuration w)
  constructor
  · intro db hdb
    have hsound := hdb.sound ht.sound
    obtain ⟨hrevision, hkeeps⟩ := hdb.keeps ht
    refine ⟨hnumbered.keeps ht.sound hsound hrevision hkeeps, ?_, ?_, ?_, rfl⟩
    · intro fuel q k o db' hquery
      exact (hsound.query hquery).2.revision
    · intro fuel key asOf fresh db' hverify
      exact (verify_verifies hverify).revision_eq
    · intro fuel inquiries r db' hact
      have hend := act_keeps (fun db' ↦ db'.Sound ∧ db'.revision = db.revision)
        (fun q k db₁ o db₂ ⟨hs, heq⟩ hquery ↦
          ⟨(hs.query hquery).1, (hs.query hquery).2.revision.trans heq⟩)
        (by simp [Action.edits]) ⟨hsound, rfl⟩ hact
      exact hend.2
  · intro l' t' db db' key key' r hmakes hdb hdb' hr hr'
    have ht' : Reached P t' := ht.later hmakes.later
    obtain ⟨hprecedes, _⟩ :=
      hmakes.later.keeps (fun _ ↦ True) ht trivial fun _ _ _ _ _ _ _ ↦ trivial
    -- what is looked at while a memo is verified bears the stamps of its stage
    rw [stamped_iff_of_keeps (hdb.keeps ht).2] at hr
    rw [stamped_iff_of_keeps (hdb'.keeps ht').2] at hr'
    obtain ⟨change, q, k, hmade, hkey, hchange⟩ := hnumbered.exists_made? ht.sound hr
    obtain ⟨change', q', k', hmade', hkey', hchange'⟩ :=
      (hmakes.numbered ht hnumbered).exists_made? ht'.sound hr'
    obtain rfl : change = change' :=
      Option.some.inj ((Change.made?_append hmade l').symm.trans hmade')
    have hsame := Store.beq_iff_of_lookup? (hprecedes.lookup? ht'.sound hkey) hkey'
    apply hsame.1
    exact Change.beq_of_target hchange hchange'

end Stage

/-- A stall: what its goods come to by their price and their count. -/
inductive Stall
  | price
  | count
  | total
  deriving DecidableEq

open Database Stage

namespace Stall

def logic : Stall → Option (Unit → Body Stall Unit Nat Unit Nat)
  | price | count => none
  | total => some fun _ ↦
    (Body.get price ()).bind fun m ↦ (Body.get count ()).bind fun n ↦ .value (m * n)

def program : Program Stall Unit Nat Unit where
  name _ := ""
  logic := logic
  showArgument _ _ := ""
  showValue _ _ := ""

def opened : Stage Stall Unit Nat Unit := ⟨{ outside := () }, .done (.value 0), []⟩

/-- A price that was set, set again as it was, removed twice and set once more bears the fourth
revision while the total is computed, and its row remembers the third. -/
theorem total_numbered : ∃ (l : List (Change Stall Unit)) (t : Stage Stall Unit Nat Unit),
    l = [.assigned price (), .removed price (), .assigned count (), .assigned price ()] ∧
    Makes program l opened t ∧ t.calls.map Call.key = [⟨2, 0⟩] ∧ t.db.Numbered l ∧
    t.db.revision = 4 ∧ t.db.store.memo? ⟨0, 0⟩ = some (.input 5 4) ∧
    t.db.store.removedAt ⟨0, 0⟩ = 3 ∧ ∀ key, t.db.Stamped key 3 → key = ⟨0, 0⟩ := by
  have hstart : Makes program [] opened opened := .refl
  have hedits := (((((hstart.edits (.set price () 3)).edits (.setIfChanged price () 3)).edits
    (.set count () 2)).edits (.remove price ())).edits (.remove price ())).edits
    (.setIfChanged price () 5)
  obtain ⟨l, t₀, hasks, hl, hrun⟩ : ∃ l t₀, Makes program l opened t₀ ∧
      l = [.assigned price (), .removed price (), .assigned count (), .assigned price ()] ∧
      (steps? program 9 2 t₀).map (fun t ↦ decide (t.calls.map Call.key = [⟨2, 0⟩] ∧
        t.db.store.memo? ⟨0, 0⟩ = some (.input 5 4) ∧ t.db.store.removedAt ⟨0, 0⟩ = 3)) =
        some true :=
    ⟨_, _, hedits.asks total (), by decide +kernel, by decide +kernel⟩
  obtain ⟨t, hsteps, hend⟩ := Option.map_eq_some_iff.mp hrun
  obtain ⟨hcalls, hprice, hremoved⟩ := of_decide_eq_true hend
  have hmakes : Makes program l opened t := hasks.trans_evaluates (evaluates_of_steps? hsteps)
  obtain ⟨hstamps, hdistinct⟩ := revisions_numbered hmakes
  have hnumbered := (hstamps t.db .here).1
  have hstamped : t.db.Stamped ⟨0, 0⟩ 3 := .inr ⟨hremoved, by decide⟩
  refine ⟨l, t, hl, hmakes, hcalls, hnumbered, ?_, hprice, hremoved, fun key hkey ↦ ?_⟩
  · rw [hnumbered.revision, hl]
    rfl
  · exact hdistinct [] t t.db t.db key ⟨0, 0⟩ 3 .refl .here .here hkey hstamped

end Stall

end Incremental
