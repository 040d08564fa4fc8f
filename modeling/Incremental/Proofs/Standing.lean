import Incremental.Proofs.Bookkeeping

/-!
# Values that stand

A timeline says what was assigned at each revision. A store is faithful to it if every computed
value is what its query yielded at the revision at which it was last known to stand, if it lists
what was read for it, and if no change up to then below it is newer than its stamp. Verification
keeps a store faithful, and a value that it finds to stand is what the query yields now.

Where evaluations may be cut short by refused reads (when `tame` does not hold), this is
promised only for queries that yield something.
-/

namespace Incremental

variable {Q K V W : Type}

abbrev Timeline (Q K V : Type) := Revision → Inputs Q K V

/-- What is assigned to `z` and what it yields are carried over from `I` to `J`. -/
def CarriesOver (R : Q × K → Recipe Q K V) (I J : Inputs Q K V) (z : Q × K) : Prop :=
  J z = I z ∧ ∀ o, Yields R I z o → Yields R J z o

/-- Query `x` yields `v`, and neither `x` nor anything below it has changed after `asOf`. -/
structure Stands (R : Q × K → Recipe Q K V) (I : Inputs Q K V) (σ : Q × K → Revision)
    (asOf : Revision) (x : Q × K) (v : V) : Prop where
  yields : Yields R I x (.value v)
  self : σ x ≤ asOf
  below : ∀ e, Below R I e x → σ e ≤ asOf

/-- Under `J`, each of the reads is below `x` as soon as what the ones before it yield is
carried over. -/
def LeadsUnder (R : Q × K → Recipe Q K V) (I J : Inputs Q K V) (s : Store Q K V) (x : Q × K) :
    List Handle → Prop
  | [] => True
  | d :: ds => (∀ y, s.named? d = some y → Below R J y x) ∧
      ((∀ y, s.named? d = some y → CarriesOver R I J y) → LeadsUnder R I J s x ds)

/-- Walking along the reads never leaves what is below `x`, whatever has changed meanwhile. -/
def Leads (R : Q × K → Recipe Q K V) (I : Inputs Q K V) (s : Store Q K V) (x : Q × K)
    (reads : List Handle) : Prop :=
  ∀ J : Inputs Q K V, J x = none → LeadsUnder R I J s x reads

/-- What is promised of a computed value that was last known to stand under the inputs `I` of
revision `w`. -/
structure Kept (R : Q × K → Recipe Q K V) (I : Inputs Q K V) (σ : Q × K → Revision) (tame : Prop)
    (s : Store Q K V) (x : Q × K) (v : V) (c w : Revision) (reads : List Handle) : Prop where
  right : ∀ o, Yields R I x o → o = .value v
  lists : ∀ y, ReadBy R I y x → ∃ d ∈ reads, s.named? d = some y
  shows : (∃ o, Yields R I x o) → ∀ e, Below R I e x → σ e ≤ w → σ e ≤ c
  yields : tame → ∃ o, Yields R I x o
  leads : tame → Leads R I s x reads

/-- The store is faithful to the timeline `H` up to the revision `now`, where `σ` says since
when each query has been assigned what it is assigned now, no later than the store knows. -/
structure Faithful [DecidableEq Q] [BEq K] (R : Q × K → Recipe Q K V) (H : Timeline Q K V)
    (σ : Q × K → Revision) (tame : Prop) (now : Revision) (s : Store Q K V) : Prop where
  regular : s.Regular now
  inputs : s.inputs = H now
  stamps : ∀ x, σ x ≤ s.lastChange x
  steady : ∀ x r, σ x ≤ r → r ≤ now → H r x = H now x
  kept : ∀ key x v c w reads, s.named? key = some x → s.memo? key = some (.derived v c w reads) →
    Kept R (H w) σ tame s x v c w reads

variable {R : Q × K → Recipe Q K V} {I J : Inputs Q K V} {σ : Q × K → Revision} {tame : Prop}
  {s s' : Store Q K V} {x y z : Q × K} {v : V} {c w asOf now : Revision} {reads : List Handle}

namespace Stands

theorem mono (h : Stands R I σ asOf x v) {asOf' : Revision} (hle : asOf ≤ asOf') :
    Stands R I σ asOf' x v :=
  ⟨h.yields, Nat.le_trans h.self hle, fun e he ↦ Nat.le_trans (h.below e he) hle⟩

theorem carriesOver (h : Stands R I σ asOf x v) (hJ : ∀ z, σ z ≤ asOf → J z = I z) :
    CarriesOver R I J x ∧ Yields R J x (.value v) := by
  have hyields : Yields R J x (.value v) :=
    h.yields.congr (hJ x h.self) fun e he ↦ hJ e (h.below e he)
  refine ⟨⟨hJ x h.self, fun o ho ↦ ?_⟩, hyields⟩
  rwa [ho.unique h.yields]

theorem carriesBack (h : Stands R I σ asOf x v) (hJ : ∀ z, σ z ≤ asOf → J z = I z) :
    CarriesOver R J I x := by
  refine ⟨(hJ x h.self).symm, fun o ho ↦ ?_⟩
  rw [ho.unique (h.carriesOver hJ).2]
  exact h.yields

end Stands

namespace LeadsUnder

variable {I' : Inputs Q K V}

theorem mono (h : LeadsUnder R I J s x reads)
    (hcarry : ∀ d ∈ reads, ∀ y, s.named? d = some y → CarriesOver R I' J y → CarriesOver R I J y) :
    LeadsUnder R I' J s x reads := by
  induction reads with
  | nil => exact h
  | cons d ds ih =>
      refine ⟨h.1, fun hd ↦ ih (h.2 fun y hy ↦ ?_) fun e he ↦ hcarry e (List.mem_cons_of_mem _ he)⟩
      exact hcarry d List.mem_cons_self y hy (hd y hy)

theorem rename (h : LeadsUnder R I J s x reads)
    (hs : ∀ key x, s.named? key = some x → s'.named? key = some x)
    (hreads : ∀ d ∈ reads, s.Has d) : LeadsUnder R I J s' x reads := by
  induction reads with
  | nil => exact h
  | cons d ds ih =>
      have hback : ∀ y, s'.named? d = some y → s.named? d = some y := by
        intro y hy
        obtain ⟨z, hz⟩ := hreads d List.mem_cons_self
        rwa [← hy, hs d z hz]
      refine ⟨fun y hy ↦ h.1 y (hback y hy), fun hd ↦ ?_⟩
      exact ih (h.2 fun y hy ↦ hd y (hs d y hy)) fun e he ↦ hreads e (List.mem_cons_of_mem _ he)

theorem append {more : List Handle} (h : LeadsUnder R I J s x reads)
    (hmore : (∀ d ∈ reads, ∀ y, s.named? d = some y → CarriesOver R I J y) →
      LeadsUnder R I J s x more) : LeadsUnder R I J s x (reads ++ more) := by
  induction reads with
  | nil => exact hmore (by simp)
  | cons d ds ih =>
      refine ⟨h.1, fun hd ↦ ih (h.2 hd) fun hds ↦ hmore fun e he ↦ ?_⟩
      rcases List.mem_cons.mp he with rfl | he
      · exact hd
      · exact hds e he

/-- What leads on from a read leads on from its reader, also without what was met before. -/
theorem filter (h : LeadsUnder R I J s y reads) (hy : Below R J y x) {p : Handle → Bool}
    (hp : ∀ d ∈ reads, p d = false → ∀ z, s.named? d = some z → CarriesOver R I J z) :
    LeadsUnder R I J s x (reads.filter p) := by
  induction reads with
  | nil => trivial
  | cons d ds ih =>
      have hds : (∀ z, s.named? d = some z → CarriesOver R I J z) →
          LeadsUnder R I J s x (ds.filter p) := fun hd ↦
        ih (h.2 hd) fun e he ↦ hp e (List.mem_cons_of_mem _ he)
      cases hd : p d with
      | false =>
          rw [List.filter_cons_of_neg (by simp [hd])]
          exact hds (hp d List.mem_cons_self hd)
      | true =>
          rw [List.filter_cons_of_pos hd]
          exact ⟨fun z hz ↦ (h.1 z hz).trans hy, hds⟩

end LeadsUnder

namespace Kept

theorem rename (h : Kept R I σ tame s x v c w reads)
    (hs : ∀ key x, s.named? key = some x → s'.named? key = some x) (hreads : ∀ d ∈ reads, s.Has d) :
    Kept R I σ tame s' x v c w reads := by
  refine ⟨h.right, fun y hy ↦ ?_, h.shows, h.yields,
    fun ht J hJ ↦ (h.leads ht J hJ).rename hs hreads⟩
  obtain ⟨d, hd, hname⟩ := h.lists y hy
  exact ⟨d, hd, hs d y hname⟩

/-- Changes after `w` do not matter. -/
theorem restamp (h : Kept R I σ tame s x v c w reads) {σ' : Q × K → Revision}
    (hσ : ∀ e, σ' e ≤ w → σ' e = σ e) : Kept R I σ' tame s x v c w reads := by
  refine ⟨h.right, h.lists, fun hyields e he hle ↦ ?_, h.yields, h.leads⟩
  have heq := hσ e hle
  exact heq ▸ h.shows hyields e he (heq ▸ hle)

/-- If everything that was read for a value stands since `w`, so does the value since its stamp. -/
theorem stands (h : Kept R I σ tame s x v c w reads) (hagree : ∀ z, σ z ≤ w → J z = I z)
    (hself : σ x ≤ c) (hcw : c ≤ w) (hx : I x = none)
    (hreads : ∀ d ∈ reads, ∀ y, s.named? d = some y → (tame ∨ ∃ o, Yields R J y o) →
      ∃ v', Stands R J σ w y v') :
    ((tame ∨ ∃ o, Yields R J x o) → Stands R J σ c x v) ∧ Kept R J σ tame s x v c now reads := by
  have hback : ∀ z, σ z ≤ w → I z = J z := fun z hz ↦ (hagree z hz).symm
  have hxJ : J x = none := (hagree x (Nat.le_trans hself hcw)).trans hx
  have hread : ∀ y, ReadBy R I y x → (tame ∨ ∃ o, Yields R J y o) → ∃ v', Stands R J σ w y v' := by
    intro y hy hsure
    obtain ⟨d, hd, hname⟩ := h.lists y hy
    exact hreads d hd y hname hsure
  -- along a trace under `J` every answer is also the one that was given under `I`
  have hstep : ∀ z a, ReadBy R J z x → ReadBy R I z x → Yields R J z a → Yields R I z a := by
    intro z a _ hz ha
    obtain ⟨v', hv'⟩ := hread z hz (.inr ⟨a, ha⟩)
    exact (hv'.carriesOver hback).1.2 a ha
  have hlists : ∀ y, ReadBy R J y x → ReadBy R I y x := fun y hy ↦ hy.transfer hx hstep
  have hyields : (tame ∨ ∃ o, Yields R J x o) → Yields R J x (.value v) := by
    rintro (ht | ⟨o, ho⟩)
    · obtain ⟨o, ho⟩ := h.yields ht
      have hvalue := h.right o ho
      subst hvalue
      refine ho.transfer hx hxJ fun z a hz _ ha ↦ ?_
      obtain ⟨v', hv'⟩ := hread z hz (.inl ht)
      exact (hv'.carriesBack hback).2 a ha
    · have hvalue := h.right o (ho.transfer hxJ hx hstep)
      rwa [← hvalue]
  have hstands : (tame ∨ ∃ o, Yields R J x o) → Stands R J σ c x v := by
    intro hsure
    have hx' := hyields hsure
    have hbelow : ∀ e, Below R J e x → σ e ≤ w := by
      intro e he
      cases he with
      | single he =>
          obtain ⟨v', hv'⟩ := hread e (hlists e he) (.inr (hx'.of_readBy he))
          exact hv'.self
      | tail he hy =>
          obtain ⟨v', hv'⟩ := hread _ (hlists _ hy) (.inr (hx'.of_readBy hy))
          exact hv'.below e he
    have hx'' : Yields R I x (.value v) :=
      hx'.congr (hx.trans hxJ.symm) fun e he ↦ hback e (hbelow e he)
    refine ⟨hx', hself, fun e he ↦ h.shows ⟨_, hx''⟩ e ?_ (hbelow e he)⟩
    refine he.congr hx' fun z hz ↦ ?_
    rcases hz with rfl | hz
    · exact hx.trans hxJ.symm
    · exact hback z (hbelow z hz)
  refine ⟨hstands, fun o ho ↦ ?_, fun y hy ↦ h.lists y (hlists y hy), fun hsure e he _ ↦ ?_,
    fun ht ↦ ⟨_, hyields (.inl ht)⟩, fun ht J' hJ' ↦ ?_⟩
  · exact ho.unique (hstands (.inr ⟨o, ho⟩)).yields
  · exact (hstands (.inr hsure)).below e he
  · refine (h.leads ht J' hJ').mono fun d hd z hz ⟨hinput, hcarry⟩ ↦ ?_
    obtain ⟨v', hv'⟩ := hreads d hd z hz (.inl ht)
    exact ⟨hinput.trans (hv'.carriesBack hback).1,
      fun o ho ↦ hcarry o ((hv'.carriesBack hback).2 o ho)⟩

end Kept

theorem glance_settled {m : Option (Memo V)} (h : glance now asOf m = .settled true) :
    (∃ v c, m = some (.input v c) ∧ c ≤ asOf) ∨
      ∃ v c reads, m = some (.derived v c now reads) ∧ c ≤ asOf := by
  rcases m with _ | m
  · cases h
  · cases m with
    | input v c => exact .inl ⟨v, c, rfl, by simpa [glance] using h⟩
    | derived v c w reads =>
        simp only [glance] at h
        split at h
        · cases h
        · next hc =>
            split at h
            · next hw => exact .inr ⟨v, c, reads, by rw [hw], Nat.not_lt.1 hc⟩
            · cases h

theorem glance_undecided {m : Option (Memo V)} {since : Revision}
    (h : glance now asOf m = .undecided since reads) :
    ∃ v c, m = some (.derived v c since reads) ∧ c ≤ asOf ∧ since ≠ now := by
  rcases m with _ | m
  · cases h
  · cases m with
    | input v c => cases h
    | derived v c w reads' =>
        simp only [glance] at h
        split at h
        · cases h
        · next hc =>
            split at h
            · cases h
            · next hw =>
                cases h
                exact ⟨v, c, rfl, Nat.not_lt.1 hc, hw⟩

namespace Faithful

variable [DecidableEq Q] [BEq K] {H : Timeline Q K V} {key : Handle}

theorem stamp_le (h : Faithful R H σ tame now s) (x : Q × K) : σ x ≤ now :=
  Nat.le_trans (h.stamps x) (h.regular.lastChange_le x)

theorem agree (h : Faithful R H σ tame now s) {r : Revision} (hr : r ≤ now) (hx : σ x ≤ r) :
    H r x = H now x := h.steady x r hx hr

theorem input (h : Faithful R H σ tame now s) (hx : s.named? key = some x)
    (hm : s.memo? key = some (.input v c)) : H now x = some v ∧ σ x ≤ c := by
  rw [← h.inputs]
  refine ⟨Store.inputs_of_input h.regular.indexed hx hm, ?_⟩
  exact Nat.le_trans (h.stamps x) (Nat.le_of_eq (Store.lastChange_of_input h.regular.indexed hx hm))

theorem not_input (h : Faithful R H σ tame now s) (hx : s.named? key = some x)
    (hm : ∀ v c, s.memo? key ≠ some (.input v c)) : H now x = none ∧ σ x ≤ s.removedAt key := by
  rw [← h.inputs]
  refine ⟨Store.inputs_of_not_input h.regular.indexed hx hm, ?_⟩
  exact Nat.le_trans (h.stamps x)
    (Nat.le_of_eq (Store.lastChange_of_not_input h.regular.indexed hx hm))

/-- Where a computed value is kept nothing has been assigned since its stamp. -/
theorem derived (h : Faithful R H σ tame now s) (hx : s.named? key = some x)
    (hm : s.memo? key = some (.derived v c w reads)) :
    H now x = none ∧ σ x ≤ c ∧ c ≤ w ∧ w ≤ now ∧ H w x = none := by
  obtain ⟨hnone, hσ⟩ := h.not_input hx (by simp [hm])
  obtain ⟨hremoved, hcw, hle, _⟩ := h.regular.derived key v c w reads hm
  have hself : σ x ≤ c := Nat.le_trans hσ hremoved
  exact ⟨hnone, hself, hcw, hle, (h.agree hle (Nat.le_trans hself hcw)).trans hnone⟩

theorem stands_input (h : Faithful R H σ tame now s) (hx : s.named? key = some x)
    (hm : s.memo? key = some (.input v c)) : Stands R (H now) σ c x v := by
  obtain ⟨hinput, hσ⟩ := h.input hx hm
  refine ⟨.input hinput, hσ, fun e he ↦ ?_⟩
  rw [he.isNone] at hinput
  cases hinput

theorem stands_current (h : Faithful R H σ tame now s) (hx : s.named? key = some x)
    (hm : s.memo? key = some (.derived v c now reads)) (hsure : tame ∨ ∃ o, Yields R (H now) x o) :
    Stands R (H now) σ c x v := by
  have hkept := h.kept key x v c now reads hx hm
  obtain ⟨o, ho⟩ : ∃ o, Yields R (H now) x o := hsure.elim hkept.yields id
  have hvalue := hkept.right o ho
  subst hvalue
  exact ⟨ho, (h.derived hx hm).2.1, fun e he ↦ hkept.shows ⟨_, ho⟩ e he (h.stamp_le e)⟩

variable [LawfulBEq K]

/-- Within a revision a store stays faithful if the promise is kept for every value that is new. -/
theorem keep (h : Faithful R H σ tame now s) (hs : s.Keeps s') (hregular : s'.Regular now)
    (hnew : ∀ key x v c w reads, s'.named? key = some x →
      s'.memo? key = some (.derived v c w reads) →
      s.memo? key = some (.derived v c w reads) ∨ Kept R (H w) σ tame s' x v c w reads) :
    Faithful R H σ tame now s' := by
  have hindexed := h.regular.indexed
  refine ⟨hregular, (hs.inputs_eq hindexed hregular.indexed).trans h.inputs,
    (hs.lastChange_eq hindexed hregular.indexed).symm ▸ h.stamps, h.steady,
    fun key x v c w reads hx hm ↦ ?_⟩
  rcases hnew key x v c w reads hx hm with hold | hkept
  · obtain ⟨x', hx'⟩ : s.Has key := by
      by_contra hhas
      rw [Store.memo?_of_not_has hhas] at hold
      cases hold
    obtain rfl : x' = x := Option.some.inj ((hs.named key x' hx').symm.trans hx)
    exact (h.kept key x' v c w reads hx' hold).rename hs.named
      (h.regular.derived key v c w reads hold).2.2.2
  · exact hkept

theorem intern (h : Faithful R H σ tame now s) (q : Q) (k : K) :
    Faithful R H σ tame now (s.intern q k).2 := by
  refine h.keep (Store.advances_intern now s q k).keeps (h.regular.intern q k)
    fun key x v c w reads _ hm ↦ .inl ?_
  rwa [Store.memo?_intern] at hm

/-- A store stays faithful if a value to keep takes the place of one that was computed. -/
theorem insert (h : Faithful R H σ tame now s) (hx : s.named? key = some x)
    (hinput : H now x = none) (hregular : (s.insert key (.derived v c now reads)).Regular now)
    (hkept : Kept R (H now) σ tame s x v c now reads) (hreads : ∀ d ∈ reads, s.Has d) :
    Faithful R H σ tame now (s.insert key (.derived v c now reads)) := by
  have hself := Store.memo?_insert_self ⟨x, hx⟩ (.derived v c now reads)
  have hkeeps : s.Keeps (s.insert key (.derived v c now reads)) := by
    refine ⟨fun other y hy ↦ (Store.named?_insert ..).trans hy,
      fun other ↦ Store.removedAt_insert .., fun other v' c' ↦ ?_⟩
    by_cases hkey : key = other
    · subst hkey
      rw [hself]
      refine ⟨fun hm ↦ absurd hm (by simp), fun hm ↦ ?_⟩
      rw [(h.input hx hm).1] at hinput
      cases hinput
    · rw [Store.memo?_insert_of_ne s hkey]
  refine h.keep hkeeps hregular fun other y v' c' w reads' hy hm ↦ ?_
  by_cases hkey : key = other
  · subst hkey
    obtain rfl : x = y := Option.some.inj ((hkeeps.named key x hx).symm.trans hy)
    rw [hself] at hm
    cases hm
    exact .inr (hkept.rename hkeeps.named hreads)
  · rw [Store.memo?_insert_of_ne s hkey] at hm
    exact .inl hm

theorem markVerified (h : Faithful R H σ tame now s)
    (hm : s.memo? key = some (.derived v c w reads))
    (hkept : ∀ x, s.named? key = some x → Kept R (H now) σ tame s x v c now reads) :
    Faithful R H σ tame now (s.markVerified key now) := by
  have hmarks := Store.Marks.markVerified s key now
  refine h.keep hmarks.advances.keeps (hmarks.regular h.regular)
    fun other x v' c' w' reads' hx hm' ↦ ?_
  rw [hmarks.named?_eq] at hx
  by_cases hkey : key = other
  · subst hkey
    rw [Store.memo?_markVerified, hm] at hm'
    cases hm'
    exact .inr ((hkept x hx).rename hmarks.advances.named
      (h.regular.derived key v c w reads hm).2.2.2)
  · left
    rw [← hm']
    simp [Store.memo?, Store.markVerified, Store.row?_modify, hkey]

end Faithful

namespace Database

variable [DecidableEq Q] [BEq K] [LawfulBEq K] {H : Timeline Q K V} {db db' : Database Q K V W}

/-- Verification keeps the store faithful, and what it finds to stand stands. -/
theorem verify_faithful {fuel : Nat} {key : Handle} {asOf : Revision} {fresh : Bool}
    (h : verify fuel key asOf db = some (fresh, db')) (hnow : db.revision = now)
    (hdb : Faithful R H σ tame now db.store) :
    Faithful R H σ tame now db'.store ∧ (fresh = true → ∀ x, db.store.named? key = some x →
      ∃ m, db.store.memo? key = some m ∧ m.changedAt ≤ asOf ∧
        ((tame ∨ ∃ o, Yields R (H now) x o) → Stands R (H now) σ m.changedAt x m.value)) := by
  subst hnow
  have hboth := verify_induction
    (fun key asOf db fresh db' ↦ db.Verifies db' ∧ (Faithful R H σ tame db.revision db.store →
      Faithful R H σ tame db.revision db'.store ∧
      (fresh = true → ∀ x, db.store.named? key = some x →
        ∃ m, db.store.memo? key = some m ∧ m.changedAt ≤ asOf ∧
          ((tame ∨ ∃ o, Yields R (H db.revision) x o) →
            Stands R (H db.revision) σ m.changedAt x m.value))))
    (fun since keys db fresh db' ↦ db.Verifies db' ∧ (Faithful R H σ tame db.revision db.store →
      Faithful R H σ tame db.revision db'.store ∧
      (fresh = true → ∀ d ∈ keys, ∀ y, db.store.named? d = some y →
        (tame ∨ ∃ o, Yields R (H db.revision) y o) →
          ∃ v', Stands R (H db.revision) σ since y v')))
    ?settled ?walked ?nil ?stop ?step h
  · exact hboth.2 hdb
  case settled =>
    intro key asOf db fresh hglance
    refine ⟨.note db _, fun hdb ↦ ⟨hdb, fun hfresh x hx ↦ ?_⟩⟩
    subst hfresh
    rcases glance_settled hglance with ⟨v, c, hm, hc⟩ | ⟨v, c, reads, hm, hc⟩
    · exact ⟨_, hm, hc, fun _ ↦ hdb.stands_input hx hm⟩
    · exact ⟨_, hm, hc, hdb.stands_current hx hm⟩
  case walked =>
    intro key asOf db since reads fresh db₁ hglance ⟨hverifies, hwalk⟩
    have hconclude := Verifies.conclude key asOf fresh db₁
    refine ⟨(Verifies.note db _).trans (hverifies.trans hconclude), fun hdb ↦ ?_⟩
    obtain ⟨hdb₁, hreads⟩ := hwalk hdb
    obtain ⟨v, c, hm, hc, _⟩ := glance_undecided hglance
    cases fresh with
    | false => exact ⟨hdb₁, fun hfresh ↦ absurd hfresh (by simp)⟩
    | true =>
        have hstands : ∀ x, db.store.named? key = some x →
            ((tame ∨ ∃ o, Yields R (H db.revision) x o) → Stands R (H db.revision) σ c x v) ∧
              Kept R (H db.revision) σ tame db.store x v c db.revision reads := by
          intro x hx
          obtain ⟨_, hself, hcw, hle, hnone⟩ := hdb.derived hx hm
          exact (hdb.kept key x v c since reads hx hm).stands
            (fun z hz ↦ (hdb.agree hle hz).symm) hself hcw hnone (hreads rfl)
        have hmarks : db.store.Marks db.revision db₁.store := hverifies.store
        obtain ⟨w, hm₁, _⟩ := hmarks.derived hm
        refine ⟨?_, fun _ x hx ↦ ⟨_, hm, hc, (hstands x hx).1⟩⟩
        have hrevision : db₁.revision = db.revision := hverifies.revision_eq
        have hmarked := hdb₁.markVerified hm₁ fun x hx ↦ by
          rw [hmarks.named?_eq] at hx
          exact (hstands x hx).2.rename hmarks.advances.named
            (hdb.regular.derived key v c since reads hm).2.2.2
        change Faithful R H σ tame db.revision (db₁.store.markVerified key db₁.revision)
        rwa [hrevision]
  case nil =>
    exact fun since db ↦ ⟨.refl db, fun hdb ↦ ⟨hdb, fun _ d hd ↦ absurd hd (by simp)⟩⟩
  case stop =>
    exact fun since key keys db db₁ ⟨hverifies, hkey⟩ ↦
      ⟨hverifies, fun hdb ↦ ⟨(hkey hdb).1, fun hfresh ↦ absurd hfresh (by simp)⟩⟩
  case step =>
    intro since key keys db db₁ fresh db₂ ⟨hverifies, hkey⟩ ⟨hverifies', hkeys⟩
    refine ⟨hverifies.trans hverifies', fun hdb ↦ ?_⟩
    obtain ⟨hdb₁, hverdict⟩ := hkey hdb
    rw [hverifies.revision_eq] at hkeys
    obtain ⟨hdb₂, hrest⟩ := hkeys hdb₁
    refine ⟨hdb₂, fun hfresh d hd y hy hsure ↦ ?_⟩
    rcases List.mem_cons.mp hd with rfl | hd
    · obtain ⟨m, _, hm, hstands⟩ := hverdict rfl y hy
      exact ⟨m.value, (hstands hsure).mono hm⟩
    · exact hrest hfresh d hd y (hverifies.store.advances.named d y hy) hsure

theorem retrieve_faithful {fuel : Nat} {key : Handle} {r : Option (V × Revision)}
    (h : db.retrieve fuel key = some (r, db')) (hnow : db.revision = now)
    (hdb : Faithful R H σ tame now db.store) :
    Faithful R H σ tame now db'.store ∧
      (∀ v c, r = some (v, c) → ∀ x, db.store.named? key = some x →
        (tame ∨ ∃ o, Yields R (H now) x o) → Stands R (H now) σ c x v) := by
  cases r with
  | none =>
      rcases retrieve_none h with ⟨_, rfl⟩ | ⟨v, c, w, reads, _, hverify⟩
      · exact ⟨hdb, by simp⟩
      · exact ⟨(verify_faithful hverify hnow hdb).1, by simp⟩
  | some p =>
      obtain ⟨v, c⟩ := p
      rcases retrieve_some h with ⟨hm, rfl⟩ | ⟨w, reads, hm, hverify⟩
      · refine ⟨hdb, fun v' c' heq x hx _ ↦ ?_⟩
        cases heq
        exact hdb.stands_input hx hm
      · obtain ⟨hdb', hverdict⟩ := verify_faithful hverify hnow hdb
        refine ⟨hdb', fun v' c' heq x hx hsure ↦ ?_⟩
        cases heq
        obtain ⟨m, hm', _, hstands⟩ := hverdict rfl x hx
        rw [hm] at hm'
        cases hm'
        exact hstands hsure

end Database

end Incremental
