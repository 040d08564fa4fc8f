import Incremental.Proofs.Staleness

/-!
# Renewal of a store within one revision

Within a revision a consistent store changes in three ways: it gets rows, it has values stamped
that are found to stand, and it gets values where it lacked them. None of these makes another
value outdated or saves one from being so, and the store stays consistent.
-/

namespace Incremental

variable {Q K V W : Type}

namespace Store

/-- `s'` may follow `s` within the revision `now`: what is not outdated stays, with a later stamp
or not, and what lacks goes on lacking or is computed. -/
structure Renews (now : Revision) (s s' : Store Q K V) : Prop where
  stays : ∀ key m, s.memo? key = some m → ¬ s.Outdated key →
    (s'.memo? key = some m ∨ s'.memo? key = some (m.verified now)) ∧ ¬ s'.Outdated key
  lacks : ∀ key, s.Lacks key → s'.memo? key = s.memo? key ∧ s'.Lacks key ∨
    (∃ v c reads, s'.memo? key = some (.derived v c now reads)) ∧ ¬ s'.Outdated key

variable {s s' s'' : Store Q K V} {key other : Handle} {v : V} {c w now : Revision}
  {reads : List Handle} {m : Memo V}

theorem lacks_or_stays (s : Store Q K V) (key : Handle) :
    s.Lacks key ∨ ∃ m, s.memo? key = some m ∧ ¬ s.Outdated key := by
  cases hm : s.memo? key with
  | none => exact .inl (.inl hm)
  | some m =>
      by_cases hout : s.Outdated key
      · exact .inl (.inr hout)
      · exact .inr ⟨m, rfl, hout⟩

namespace Renews

theorem refl (now : Revision) (s : Store Q K V) : s.Renews now s :=
  ⟨fun _ _ hm hout ↦ ⟨.inl hm, hout⟩, fun _ h ↦ .inl ⟨rfl, h⟩⟩

theorem trans (h : s.Renews now s') (h' : s'.Renews now s'') : s.Renews now s'' := by
  refine ⟨fun key m hm hout ↦ ?_, fun key hlacks ↦ ?_⟩
  · obtain ⟨hm', hout'⟩ := h.stays key m hm hout
    rcases hm' with hm' | hm'
    · exact h'.stays key m hm' hout'
    · obtain ⟨hm'', hout''⟩ := h'.stays key _ hm' hout'
      exact ⟨.inr (by simpa using hm''), hout''⟩
  · rcases h.lacks key hlacks with ⟨hsame, hlacks'⟩ | ⟨⟨v, c, reads, hm'⟩, hout'⟩
    · rcases h'.lacks key hlacks' with ⟨hsame', hlacks''⟩ | hnew
      · exact .inl ⟨hsame'.trans hsame, hlacks''⟩
      · exact .inr hnew
    · obtain ⟨hm'', hout''⟩ := h'.stays key _ hm' hout'
      exact .inr ⟨⟨v, c, reads, hm''.elim id id⟩, hout''⟩

/-- What is not lacked stays so. -/
theorem not_lacks (h : s.Renews now s') (hkey : ¬ s.Lacks key) : ¬ s'.Lacks key := by
  obtain ⟨m, hm, hout⟩ := (s.lacks_or_stays key).resolve_left hkey
  obtain ⟨hm', hout'⟩ := h.stays key m hm hout
  rintro (hnone | hlacks)
  · rcases hm' with hm' | hm' <;> cases hnone.symm.trans hm'
  · exact hout' hlacks

/-- A store that keeps what is outdated, and stamps at most what is not. -/
theorem of_marks (hmemo : ∀ key, s'.memo? key = s.memo? key ∨
      ¬ s.Outdated key ∧ s'.memo? key = (s.memo? key).map (Memo.verified now))
    (hout : ∀ key, s'.Outdated key ↔ s.Outdated key) : s.Renews now s' := by
  refine ⟨fun key m hm hkey ↦ ⟨?_, mt (hout key).1 hkey⟩, fun key hlacks ↦ .inl ?_⟩
  · rcases hmemo key with heq | ⟨_, heq⟩
    · exact .inl (heq.trans hm)
    · exact .inr (by rw [heq, hm]; rfl)
  · have hsame : s'.memo? key = s.memo? key := by
      rcases hmemo key with heq | ⟨hkey, heq⟩
      · exact heq
      · rw [heq, hlacks.resolve_right hkey]
        rfl
    exact ⟨hsame, hlacks.imp (hsame.trans ·) (hout key).2⟩

end Renews

theorem Marks.exists_memo (h : s.Marks now s') (hm : s'.memo? key = some m) :
    ∃ m₀, s.memo? key = some m₀ ∧ m₀.changedAt = m.changedAt ∧ m₀.reads = m.reads ∧
      m₀.isInput = m.isInput := by
  rcases h.memo key with heq | heq
  · exact ⟨m, heq ▸ hm, rfl, rfl, rfl⟩
  · rw [hm] at heq
    obtain ⟨m₀, hm₀, rfl⟩ := Option.map_eq_some_iff.mp heq.symm
    exact ⟨m₀, hm₀, by simp, by simp, by simp⟩

theorem Marks.feeds {d : Handle} (h : s.Marks now s') (hd : s'.Feeds d key) : s.Feeds d key := by
  obtain ⟨⟨m, hm, hmem⟩, m', hm', hinput⟩ := hd
  obtain ⟨m₀, hm₀, _, hreads, _⟩ := h.exists_memo hm
  obtain ⟨m₁, hm₁, _, _, hinput₁⟩ := h.exists_memo hm'
  exact ⟨⟨m₀, hm₀, hreads ▸ hmem⟩, m₁, hm₁, hinput₁.trans hinput⟩

/-- Stamping what is not outdated makes nothing outdated, nor saves anything from it. -/
theorem Marks.outdated_iff (h : s.Marks now s')
    (hle : ∀ key v c w reads, s.memo? key = some (.derived v c w reads) → w ≤ now)
    (hstamped : ∀ key, s'.memo? key = s.memo? key ∨ ¬ s.Outdated key) :
    s'.Outdated key ↔ s.Outdated key := by
  have hback : ∀ {key : Handle} {v : V} {c w : Revision} {reads : List Handle},
      s'.memo? key = some (.derived v c w reads) →
      ∃ w₀ ≤ w, s.memo? key = some (.derived v c w₀ reads) := by
    intro key v c w reads hm
    obtain ⟨w₀, hm₀, hw⟩ := h.of_derived hm
    refine ⟨w₀, ?_, hm₀⟩
    rcases hw with rfl | rfl
    · exact Nat.le_refl _
    · exact hle key v c w₀ reads hm₀
  constructor
  · intro hout
    induction hout with
    | gone hm hd hnone =>
        obtain ⟨w₀, _, hm₀⟩ := hback hm
        exact .gone hm₀ hd (h.none_iff.1 hnone)
    | changed hm hd hsome hw =>
        obtain ⟨w₀, hw₀, hm₀⟩ := hback hm
        obtain ⟨m₀, hsome₀, hc, _⟩ := h.exists_memo hsome
        exact .changed hm₀ hd hsome₀ (hc ▸ Nat.lt_of_le_of_lt hw₀ hw)
    | within hm hd _ ih =>
        obtain ⟨w₀, _, hm₀⟩ := hback hm
        exact .within hm₀ hd ih
  · intro hout
    induction hout with
    | gone hm hd hnone =>
        have hsame := (hstamped _).resolve_right (not_not_intro (.gone hm hd hnone))
        exact .gone (hsame.trans hm) hd (h.none_iff.2 hnone)
    | @changed key d v c w reads m hm hd hsome hw =>
        have hsame := (hstamped _).resolve_right (not_not_intro (.changed hm hd hsome hw))
        rcases h.memo d with heq | heq
        · exact .changed (hsame.trans hm) hd (heq.trans hsome) hw
        · rw [hsome] at heq
          exact .changed (hsame.trans hm) hd heq (by simpa using hw)
    | within hm hd hout ih =>
        have hsame := (hstamped _).resolve_right (not_not_intro (.within hm hd hout))
        exact .within (hsame.trans hm) hd ih

theorem memo?_markVerified_of_ne (h : other ≠ key) (r : Revision) :
    (s.markVerified key r).memo? other = s.memo? other := by
  simp [memo?, markVerified, row?_modify, h.symm]

variable [DecidableEq Q] [BEq K] {T : Ways Q K V}

theorem Regular.changedAt_le (hs : s.Regular now) (hm : s.memo? key = some m) :
    m.changedAt ≤ now := by
  cases m with
  | input v c => exact hs.input key v c hm
  | derived v c w reads =>
      obtain ⟨_, hcw, hle, _⟩ := hs.derived key v c w reads hm
      exact Nat.le_trans hcw hle

theorem Recorded.fate_of_none (h : Recorded T s key v c w reads) {d : Handle} (hd : d ∈ reads)
    (hnone : s.memo? d = none) (hnone' : s'.memo? d = none)
    (hremoved : s.removedAt d ≤ s'.removedAt d) : Fate s s' w d :=
  .gone hnone' (Nat.lt_of_lt_of_le (h.gone d hd hnone) hremoved)

theorem Consistent.congr (hs : Consistent T now s) (hs' : s'.Regular now)
    (hmemo : ∀ key, s'.memo? key = s.memo? key)
    (hremoved : ∀ key, s'.removedAt key = s.removedAt key)
    (hlookup : ∀ q k d, s.lookup? q k = some d → s'.lookup? q k = some d) :
    Consistent T now s' := by
  refine ⟨hs', fun key v c w reads hm ↦ ?_, ?_⟩
  · have hrec := hs.recorded key v c w reads ((hmemo key).symm.trans hm)
    refine hrec.transfer hs' hlookup (hremoved key) fun d hd ↦ ?_
    cases hm' : s.memo? d with
    | none =>
        exact hrec.fate_of_none hd hm' ((hmemo d).trans hm') (Nat.le_of_eq (hremoved d).symm)
    | some m => exact .kept hm' ((hmemo d).trans hm')
  · have hsame : s'.Feeds = s.Feeds := by
      funext d key
      simp only [Feeds, Rests, hmemo]
    rw [hsame]
    exact hs.founded

theorem Consistent.intern [ReflBEq K] (hs : Consistent T now s) (q : Q) (k : K) :
    Consistent T now (s.intern q k).2 :=
  hs.congr (hs.toRegular.intern q k) (memo?_intern s q k) (removedAt_intern s q k)
    fun _ _ _ h ↦ lookup?_intern h q k

/-- Where nothing that was read has changed since, a record holds up to `now`. -/
theorem Recorded.advance (h : Recorded T s key v c w reads)
    (hreads : ∀ d ∈ reads, ∃ m, s.memo? d = some m ∧ m.IsCurrent now ∧ m.changedAt ≤ w) :
    Recorded T s key v c now reads := by
  have hle : ∀ d ∈ reads, ∀ m, s.memo? d = some m → m.IsCurrent now ∧ m.changedAt ≤ w := by
    intro d hd m hm
    obtain ⟨m', hm', h⟩ := hreads d hd
    cases hm.symm.trans hm'
    exact h
  obtain ⟨x, ys, hx, hway, hdirect, hindirect⟩ := h.taken
  refine ⟨fun d hd hnone ↦ ?_, fun d hd v' c' w' reads' hm ↦ ?_,
    fun d hd m hm _ ↦ h.bounded d hd m hm (hle d hd m hm).2, ?_, x, ys, hx, hway,
    fun p hp ↦ ?_, fun e he ↦ ?_⟩
  · obtain ⟨m, hm, _⟩ := hreads d hd
    rw [hnone] at hm
    cases hm
  · obtain rfl : w' = now := (hle d hd _ hm).1
    exact Nat.le_refl _
  · refine h.attained.imp_right ?_
    rintro ⟨d, hd, hchanged⟩
    exact ⟨d, hd, fun m hm _ ↦ hchanged m hm (hle d hd m hm).2⟩
  · obtain ⟨d, hd, hfound, hvalue⟩ := hdirect p hp
    exact ⟨d, hd, hfound, fun m hm _ ↦ hvalue m hm (hle d hd m hm).2⟩
  · obtain ⟨p, hp, d, hd, hfound, hor⟩ := hindirect e he
    exact ⟨p, hp, d, hd, hfound, hor.imp_right fun hmem m hm _ ↦ hmem m hm (hle d hd m hm).2⟩

/-- A value is stamped after everything that was read for it was found to stand. -/
theorem Consistent.markVerified [EquivBEq K] (hs : Consistent T now s)
    (hm : s.memo? key = some (.derived v c w reads))
    (hreads : ∀ d ∈ reads, ∃ m, s.memo? d = some m ∧ m.IsCurrent now ∧ m.changedAt ≤ w) :
    Consistent T now (s.markVerified key now) ∧
      ∀ other, (s.markVerified key now).Outdated other ↔ s.Outdated other := by
  have hmarks := Marks.markVerified s key now
  have hregular := hmarks.regular hs.toRegular
  have hlookup : ∀ q k d, s.lookup? q k = some d → (s.markVerified key now).lookup? q k = some d :=
    fun q k d ↦ lookup?_of_named hregular.indexed fun other x hx ↦ (hmarks.named?_eq other).trans hx
  have hkey : ¬ s.Outdated key := (not_outdated_iff hm).2 fun d hd ↦ by
    obtain ⟨m, hm, hcurrent, hle⟩ := hreads d hd
    exact ⟨m, hm, hle, hs.not_outdated hm hcurrent⟩
  have hother : ∀ other, (s.markVerified key now).memo? other = s.memo? other ∨ other = key := by
    intro other
    by_cases heq : other = key
    · exact .inr heq
    · exact .inl (memo?_markVerified_of_ne heq now)
  refine ⟨⟨hregular, fun other v' c' w' reads' hm' ↦ ?_, ?_⟩, fun other ↦ ?_⟩
  · have hrec : Recorded T s other v' c' w' reads' ∧ w' ≤ now := by
      refine ⟨?_, (hregular.derived other v' c' w' reads' hm').2.2.1⟩
      rcases hother other with heq | rfl
      · exact hs.recorded other v' c' w' reads' (heq ▸ hm')
      · rw [memo?_markVerified, hm] at hm'
        cases hm'
        exact (hs.recorded other v c w reads hm).advance hreads
    refine hrec.1.transfer hregular hlookup (hmarks.removedAt other) fun d hd ↦ ?_
    cases hd' : s.memo? d with
    | none =>
        exact hrec.1.fate_of_none hd hd' (hmarks.none_iff.2 hd')
          (Nat.le_of_eq (hmarks.removedAt d).symm)
    | some m =>
        rcases hmarks.memo d with heq | heq
        · exact .kept hd' (heq.trans hd')
        · exact .stamped hd' (by rw [heq, hd']; rfl) hrec.2
  · exact Subrelation.wf hmarks.feeds hs.founded
  · refine hmarks.outdated_iff
      (fun key v c w reads hm ↦ (hs.derived key v c w reads hm).2.2.1) fun other ↦ ?_
    refine (hother other).imp_right ?_
    rintro rfl
    exact hkey

/-- The stamp of a value where there was none, or an outdated one, is newer than the revision at
which its readers were last known to stand. -/
theorem Consistent.newer {v' : V} {c' w' : Revision} {reads' : List Handle}
    (hs : Consistent T now s) (hlacks : s.Lacks key) (hremoved : s.removedAt key ≤ c)
    (hraise : ∀ v₀ c₀ w₀ reads₀, s.memo? key = some (.derived v₀ c₀ w₀ reads₀) → w₀ < c)
    (hm : s.memo? other = some (.derived v' c' w' reads')) (hd : key ∈ reads') : w' < c := by
  have hrec := hs.recorded other v' c' w' reads' hm
  rcases hlacks with hnone | hout
  · exact Nat.lt_of_lt_of_le (hrec.gone key hd hnone) hremoved
  · obtain ⟨v₀, c₀, w₀, reads₀, hm₀⟩ := hout.exists_derived
    exact Nat.lt_of_le_of_lt (hrec.later key hd v₀ c₀ w₀ reads₀ hm₀) (hraise v₀ c₀ w₀ reads₀ hm₀)

section

variable (hs : Consistent T now s) (hkey : s.Has key) (hlacks : s.Lacks key)
  (hreads : ∀ d ∈ reads, ∃ m, s.memo? d = some m ∧ m.IsCurrent now)
  (hremoved : s.removedAt key ≤ c)
  (hraise : ∀ v₀ c₀ w₀ reads₀, s.memo? key = some (.derived v₀ c₀ w₀ reads₀) → w₀ < c)

include hs hlacks hreads

theorem Consistent.not_mem_reads {d : Handle} (hd : d ∈ reads) : d ≠ key := by
  rintro rfl
  obtain ⟨m, hm, hcurrent⟩ := hreads d hd
  exact hs.not_current_of_lacks hlacks hm hcurrent

include hkey in
theorem Consistent.founded_insert : WellFounded (s.insert key (.derived v c now reads)).Feeds := by
  have hself := memo?_insert_self hkey (.derived v c now reads)
  have hother : ∀ {d : Handle}, d ≠ key →
      (s.insert key (.derived v c now reads)).memo? d = s.memo? d :=
    fun hne ↦ memo?_insert_of_ne s hne.symm _
  -- below what is known to stand nothing has changed, and below the new value all is known to
  have hcurrent : ∀ other, Acc s.Feeds other →
      (∃ m, s.memo? other = some m ∧ m.IsCurrent now) →
      Acc (s.insert key (.derived v c now reads)).Feeds other := by
    intro other hacc
    induction hacc with
    | intro other _ ih =>
        rintro ⟨m, hm, hcurrent⟩
        have hne : other ≠ key := by
          rintro rfl
          exact hs.not_current_of_lacks hlacks hm hcurrent
        refine ⟨_, ?_⟩
        rintro d ⟨⟨m', hm', hd⟩, m'', hm'', hinput⟩
        cases hm.symm.trans ((hother hne).symm.trans hm')
        cases m with
        | input => simp [Memo.reads] at hd
        | derived v₁ c₁ w₁ reads₁ =>
            obtain rfl : w₁ = now := hcurrent
            obtain ⟨m₁, hm₁, hcurrent₁, _⟩ := hs.current_reads hm hd
            have hne' : d ≠ key := by
              rintro rfl
              exact hs.not_current_of_lacks hlacks hm₁ hcurrent₁
            have hfeeds : s.Feeds d other :=
              ⟨⟨_, hm, hd⟩, m'', (hother hne').symm.trans hm'', hinput⟩
            exact ih d hfeeds ⟨m₁, hm₁, hcurrent₁⟩
  have hnew : Acc (s.insert key (.derived v c now reads)).Feeds key := by
    refine ⟨_, ?_⟩
    rintro d ⟨⟨m, hm, hd⟩, _⟩
    cases hself.symm.trans hm
    exact hcurrent d (hs.founded.apply d) (hreads d hd)
  refine ⟨fun other ↦ ?_⟩
  induction hs.founded.apply other with
  | intro other _ ih =>
      by_cases heq : other = key
      · exact heq ▸ hnew
      · refine ⟨_, ?_⟩
        rintro d ⟨⟨m, hm, hd⟩, m', hm', hinput⟩
        by_cases hne : d = key
        · exact hne ▸ hnew
        · exact ih d ⟨⟨m, (hother heq).symm.trans hm, hd⟩, m', (hother hne).symm.trans hm', hinput⟩

include hkey hremoved hraise

/-- A value where there was none, or an outdated one, makes nothing else outdated, nor saves
anything from it. -/
theorem Consistent.outdated_insert_iff :
    (s.insert key (.derived v c now reads)).Outdated other ↔ other ≠ key ∧ s.Outdated other := by
  have hself := memo?_insert_self hkey (.derived v c now reads)
  have hother : ∀ {d : Handle}, d ≠ key →
      (s.insert key (.derived v c now reads)).memo? d = s.memo? d :=
    fun hne ↦ memo?_insert_of_ne s hne.symm _
  constructor
  · intro hout
    induction hout with
    | @gone other d v' c' w' reads' hm hd hnone =>
        by_cases heq : other = key
        · subst heq
          cases hself.symm.trans hm
          obtain ⟨m, hm, _⟩ := hreads d hd
          rw [hother (hs.not_mem_reads hlacks hreads hd), hm] at hnone
          cases hnone
        · have hne : d ≠ key := by
            rintro rfl
            rw [hself] at hnone
            cases hnone
          exact ⟨heq, .gone (hother heq ▸ hm) hd (hother hne ▸ hnone)⟩
    | @changed other d v' c' w' reads' m hm hd hsome hw =>
        by_cases heq : other = key
        · subst heq
          cases hself.symm.trans hm
          rw [hother (hs.not_mem_reads hlacks hreads hd)] at hsome
          exact absurd hw (Nat.not_lt.2 (hs.changedAt_le hsome))
        · refine ⟨heq, ?_⟩
          rw [hother heq] at hm
          by_cases hne : d = key
          · subst hne
            rcases hlacks with hnone | hout
            · exact .gone hm hd hnone
            · exact .within hm hd hout
          · exact .changed hm hd (hother hne ▸ hsome) hw
    | @within other d v' c' w' reads' hm hd _ ih =>
        by_cases heq : other = key
        · subst heq
          cases hself.symm.trans hm
          obtain ⟨m, hm, hcurrent⟩ := hreads d hd
          exact absurd ih.2 (hs.not_outdated hm hcurrent)
        · exact ⟨heq, .within (hother heq ▸ hm) hd ih.2⟩
  · rintro ⟨hne, hout⟩
    refine hout.of_others hne (fun d hd ↦ hother hd) fun hne hm hd ↦ ?_
    exact .changed ((hother hne).trans hm) hd hself (hs.newer hlacks hremoved hraise hm hd)

theorem Renews.insert : s.Renews now (s.insert key (.derived v c now reads)) := by
  have hout : ∀ other, (s.insert key (.derived v c now reads)).Outdated other ↔
      other ≠ key ∧ s.Outdated other :=
    fun _ ↦ hs.outdated_insert_iff hkey hlacks hreads hremoved hraise
  refine ⟨fun other m hm hstays ↦ ?_, fun other hlacks' ↦ ?_⟩
  · have hne : other ≠ key := by
      rintro rfl
      rcases hlacks with hnone | hout
      · rw [hnone] at hm
        cases hm
      · exact hstays hout
    refine ⟨.inl ((memo?_insert_of_ne s hne.symm _).trans hm), fun h ↦ hstays ((hout other).1 h).2⟩
  · by_cases heq : other = key
    · subst heq
      exact .inr ⟨⟨v, c, reads, memo?_insert_self hkey _⟩, fun h ↦ ((hout other).1 h).1 rfl⟩
    · have hsame := memo?_insert_of_ne s (Ne.symm heq) (.derived v c now reads)
      exact .inl ⟨hsame, hlacks'.imp (hsame.trans ·) fun h ↦ (hout other).2 ⟨heq, h⟩⟩

/-- A consistent store stays so when a value takes the place of none, or of an outdated one. -/
theorem Consistent.insert [EquivBEq K] (hnow : c ≤ now)
    (hrecorded : Recorded T s key v c now reads) :
    Consistent T now (s.insert key (.derived v c now reads)) := by
  have hself := memo?_insert_self hkey (.derived v c now reads)
  have hother : ∀ {d : Handle}, d ≠ key →
      (s.insert key (.derived v c now reads)).memo? d = s.memo? d :=
    fun hne ↦ memo?_insert_of_ne s hne.symm _
  have hhas : ∀ d ∈ reads, s.Has d := by
    intro d hd
    obtain ⟨m, hm, _⟩ := hreads d hd
    exact has_of_memo? hm
  have hregular := hs.toRegular.insert (v := v) hremoved hnow hhas
  have hlookup : ∀ q k d, s.lookup? q k = some d →
      (s.insert key (.derived v c now reads)).lookup? q k = some d :=
    fun q k d ↦ lookup?_of_named hregular.indexed fun other x hx ↦ (named?_insert ..).trans hx
  refine ⟨hregular, fun other v' c' w' reads' hm ↦ ?_, ?_⟩
  · by_cases heq : other = key
    · subst heq
      cases hself.symm.trans hm
      refine hrecorded.transfer hregular hlookup (removedAt_insert ..) fun d hd ↦ ?_
      obtain ⟨m, hm, _⟩ := hreads d hd
      exact .kept hm ((hother (hs.not_mem_reads hlacks hreads hd)).trans hm)
    · rw [hother heq] at hm
      have hrec := hs.recorded other v' c' w' reads' hm
      refine hrec.transfer hregular hlookup (removedAt_insert ..) fun d hd ↦ ?_
      by_cases hne : d = key
      · subst hne
        exact .changed hself (hs.newer hlacks hremoved hraise hm hd)
      · cases hm' : s.memo? d with
        | none =>
            exact hrec.fate_of_none hd hm' ((hother hne).trans hm')
              (Nat.le_of_eq (removedAt_insert ..).symm)
        | some m => exact .kept hm' ((hother hne).trans hm')
  · exact hs.founded_insert hkey hlacks hreads

end

end Store

end Incremental
