import Incremental.Proofs.Renewal
import Incremental.Proofs.Settling

/-!
# Verification of a consistent store

In a consistent store verification always ends, since no computed value rests on itself, and it
finds out whether a value has changed or is outdated. It keeps the store consistent and leaves
everything outdated that was so before.
-/

namespace Incremental

variable {Q K V W : Type}

namespace Store

variable [DecidableEq Q] [BEq K] {T : Ways Q K V} {now asOf : Revision}
  {s s' s'' : Store Q K V} {key d : Handle} {v : V} {c w : Revision} {reads : List Handle}

/-- `s'` is `s` after some verification at revision `now`. -/
structure Rechecks (T : Ways Q K V) (now : Revision) (s s' : Store Q K V) : Prop where
  consistent : Consistent T now s'
  outdated : ∀ key, s'.Outdated key ↔ s.Outdated key
  kept : ∀ key, s'.memo? key = s.memo? key ∨
    ¬ s.Outdated key ∧ s'.memo? key = (s.memo? key).map (Memo.verified now)

namespace Rechecks

theorem refl (hs : Consistent T now s) : Rechecks T now s s :=
  ⟨hs, fun _ ↦ Iff.rfl, fun _ ↦ .inl rfl⟩

theorem trans (h : Rechecks T now s s') (h' : Rechecks T now s' s'') : Rechecks T now s s'' := by
  refine ⟨h'.consistent, fun key ↦ (h'.outdated key).trans (h.outdated key), fun key ↦ ?_⟩
  rcases h.kept key with heq | ⟨hout, heq⟩ <;> rcases h'.kept key with heq' | ⟨hout', heq'⟩
  · exact .inl (heq'.trans heq)
  · exact .inr ⟨mt (h.outdated key).2 hout', heq ▸ heq'⟩
  · exact .inr ⟨hout, heq'.trans heq⟩
  · refine .inr ⟨hout, heq'.trans ?_⟩
    rw [heq]
    cases s.memo? key <;> simp

theorem renews (h : Rechecks T now s s') : s.Renews now s' := .of_marks h.kept h.outdated

theorem markVerified [EquivBEq K] (hs : Consistent T now s)
    (hm : s.memo? key = some (.derived v c w reads))
    (hreads : ∀ d ∈ reads, ∃ m, s.memo? d = some m ∧ m.IsCurrent now ∧ m.changedAt ≤ w) :
    Rechecks T now s (s.markVerified key now) := by
  obtain ⟨hconsistent, houtdated⟩ := hs.markVerified hm hreads
  refine ⟨hconsistent, houtdated, fun other ↦ ?_⟩
  by_cases heq : other = key
  · subst heq
    refine .inr ⟨(not_outdated_iff hm).2 fun d hd ↦ ?_, by simp⟩
    obtain ⟨m, hm, hcurrent, hle⟩ := hreads d hd
    exact ⟨m, hm, hle, hs.not_outdated hm hcurrent⟩
  · exact .inl (memo?_markVerified_of_ne heq now)

theorem unchanged_iff (h : Rechecks T now s s') : s'.Unchanged asOf key ↔ s.Unchanged asOf key := by
  simp only [Unchanged, h.outdated]
  rcases h.kept key with heq | ⟨_, heq⟩
  · rw [heq]
  · cases hm : s.memo? key <;> simp [heq, hm]

theorem current (h : Rechecks T now s s') (hd : ∃ m, s.memo? d = some m ∧ m.IsCurrent now) :
    ∃ m, s'.memo? d = some m ∧ m.IsCurrent now := by
  obtain ⟨m, hm, hcurrent⟩ := hd
  rcases h.kept d with heq | ⟨_, heq⟩
  · exact ⟨m, heq.trans hm, hcurrent⟩
  · exact ⟨m.verified now, by rw [heq, hm]; rfl, by simp⟩

theorem derived (h : Rechecks T now s s') (hs : s.Regular now)
    (hm : s.memo? key = some (.derived v c w reads)) :
    ∃ w' ≥ w, s'.memo? key = some (.derived v c w' reads) := by
  rcases h.kept key with heq | ⟨_, heq⟩
  · exact ⟨w, Nat.le_refl w, heq.trans hm⟩
  · exact ⟨now, (hs.derived key v c w reads hm).2.2.1, by rw [heq, hm]; rfl⟩

end Rechecks

/-- What the stamps tell by themselves is right. -/
theorem Consistent.glance_iff (hs : Consistent T now s) {fresh : Bool}
    (hglance : glance now asOf (s.memo? key) = .settled fresh) :
    (fresh = true ↔ s.Unchanged asOf key) ∧
      (fresh = true → ∃ m, s.memo? key = some m ∧ m.IsCurrent now) := by
  cases fresh with
  | true =>
      rcases glance_settled hglance with ⟨v, c, hm, hc⟩ | ⟨v, c, reads, hm, hc⟩
      · exact ⟨⟨fun _ ↦ ⟨_, hm, hc, not_outdated_of_input hm⟩, fun _ ↦ rfl⟩,
          fun _ ↦ ⟨_, hm, trivial⟩⟩
      · exact ⟨⟨fun _ ↦ ⟨_, hm, hc, hs.not_outdated hm rfl⟩, fun _ ↦ rfl⟩, fun _ ↦ ⟨_, hm, rfl⟩⟩
  | false =>
      refine ⟨⟨fun h ↦ absurd h (by simp), ?_⟩, fun h ↦ absurd h (by simp)⟩
      rintro ⟨m, hm, hc, _⟩
      rw [hm] at hglance
      cases m with
      | input v c =>
          change c ≤ asOf at hc
          simp [glance, hc] at hglance
      | derived v c w reads =>
          change c ≤ asOf at hc
          simp only [glance, Nat.not_lt.2 hc, if_false] at hglance
          split at hglance <;> cases hglance

end Store

namespace Database

open Store

variable [DecidableEq Q] [BEq K] [EquivBEq K] {T : Ways Q K V} {fuel : Nat}
  {db db' : Database Q K V W} {key : Handle} {asOf : Revision}

/-- Verification finds out whether a value is unchanged. -/
theorem verify_iff {fresh : Bool} (h : verify fuel key asOf db = some (fresh, db'))
    (hs : Consistent T db.revision db.store) :
    Rechecks T db.revision db.store db'.store ∧ (fresh = true ↔ db.store.Unchanged asOf key) ∧
      (fresh = true → ∃ m, db'.store.memo? key = some m ∧ m.IsCurrent db.revision) := by
  refine (verify_induction
    (fun key asOf db fresh db' ↦ db.Verifies db' ∧ (Consistent T db.revision db.store →
      Rechecks T db.revision db.store db'.store ∧ (fresh = true ↔ db.store.Unchanged asOf key) ∧
        (fresh = true → ∃ m, db'.store.memo? key = some m ∧ m.IsCurrent db.revision)))
    (fun since keys db fresh db' ↦ db.Verifies db' ∧ (Consistent T db.revision db.store →
      Rechecks T db.revision db.store db'.store ∧
        (fresh = true ↔ ∀ d ∈ keys, db.store.Unchanged since d) ∧
        (fresh = true → ∀ d ∈ keys, ∃ m, db'.store.memo? d = some m ∧ m.IsCurrent db.revision)))
    ?settled ?walked ?nil ?stop ?step h).2 hs
  case settled =>
    exact fun key asOf db fresh hglance ↦ ⟨.note db _, fun hs ↦ ⟨.refl hs, hs.glance_iff hglance⟩⟩
  case walked =>
    rintro key asOf db since reads fresh db₁ hglance ⟨hverifies, hwalk⟩
    have hconclude := Verifies.conclude key asOf fresh db₁
    refine ⟨(Verifies.note db _).trans (hverifies.trans hconclude), fun hs ↦ ?_⟩
    obtain ⟨hrechecks, hiff, hcurrent⟩ := hwalk hs
    change Rechecks T db.revision db.store db₁.store at hrechecks
    have hrevision : db₁.revision = db.revision := hverifies.revision_eq
    obtain ⟨v, c, hm, hc, _⟩ := glance_undecided hglance
    have hverdict : fresh = true ↔ db.store.Unchanged asOf key := by
      rw [hiff]
      refine (not_outdated_iff hm).symm.trans ⟨fun hout ↦ ⟨_, hm, hc, hout⟩, ?_⟩
      rintro ⟨_, _, _, hout⟩
      exact hout
    cases fresh with
    | false => exact ⟨hrechecks, hverdict, fun h ↦ absurd h (by simp)⟩
    | true =>
        -- the walk has kept the value, with a later stamp or not
        obtain ⟨w, hw, hm₁⟩ := hrechecks.derived hs.toRegular hm
        have hmarked : Rechecks T db.revision db₁.store
            (db₁.store.markVerified key db.revision) := by
          refine .markVerified hrechecks.consistent hm₁ fun d hd ↦ ?_
          obtain ⟨m, hd', hcurrent⟩ := hcurrent rfl d hd
          obtain ⟨m', hm', hle, _⟩ := hrechecks.unchanged_iff.2 (hiff.1 rfl d hd)
          cases hd'.symm.trans hm'
          exact ⟨m, hm', hcurrent, Nat.le_trans hle hw⟩
        refine ⟨?_, hverdict, fun _ ↦ ⟨.derived v c db.revision reads, ?_, rfl⟩⟩
        · change Rechecks T db.revision db.store (db₁.store.markVerified key db₁.revision)
          exact hrevision ▸ hrechecks.trans hmarked
        · change (db₁.store.markVerified key db₁.revision).memo? key = _
          rw [memo?_markVerified, hm₁, hrevision]
          rfl
  case nil =>
    exact fun since db ↦ ⟨.refl db, fun hs ↦ ⟨.refl hs, by simp, by simp⟩⟩
  case stop =>
    rintro since key keys db db₁ ⟨hverifies, hkey⟩
    refine ⟨hverifies, fun hs ↦ ?_⟩
    obtain ⟨hrechecks, hiff, _⟩ := hkey hs
    refine ⟨hrechecks, ⟨fun h ↦ absurd h (by simp), fun h ↦ ?_⟩, fun h ↦ absurd h (by simp)⟩
    exact hiff.2 (h key List.mem_cons_self)
  case step =>
    rintro since key keys db db₁ fresh db₂ ⟨hverifies, hkey⟩ ⟨hverifies', hkeys⟩
    refine ⟨hverifies.trans hverifies', fun hs ↦ ?_⟩
    obtain ⟨hrechecks, hiff, hcurrent⟩ := hkey hs
    rw [hverifies.revision_eq] at hkeys
    obtain ⟨hrechecks', hiff', hcurrent'⟩ := hkeys hrechecks.consistent
    refine ⟨hrechecks.trans hrechecks', ?_, fun hfresh d hd ↦ ?_⟩
    · rw [hiff', List.forall_mem_cons]
      simp only [hrechecks.unchanged_iff]
      exact ⟨fun h ↦ ⟨hiff.1 rfl, h⟩, And.right⟩
    · rcases List.mem_cons.mp hd with rfl | hd
      · exact hrechecks'.current (hcurrent rfl)
      · exact hcurrent' hfresh d hd

/-- Verification of a consistent store ends. -/
theorem exists_verify (hs : Consistent T db.revision db.store) (key : Handle) (asOf : Revision) :
    ∃ fuel r, verify fuel key asOf db = some r := by
  -- along the way the store only gets stamps, so nothing feeds a value that did not before
  suffices hall : ∀ key, Acc db.store.Feeds key → ∀ asOf (db₁ : Database Q K V W),
      Consistent T db₁.revision db₁.store →
      (∀ d key, db₁.store.Feeds d key → db.store.Feeds d key) →
      ∃ fuel r, verify fuel key asOf db₁ = some r from
    hall key (hs.founded.apply key) asOf db hs fun _ _ h ↦ h
  intro key hacc
  induction hacc with
  | intro key _ ih =>
      intro asOf db₁ hs₁ hfeeds
      cases hglance : glance db₁.revision asOf (db₁.store.memo? key) with
      | settled fresh => exact ⟨1, _, by rw [verify, hglance]⟩
      | undecided since reads =>
          obtain ⟨v, c, hm, _⟩ := glance_undecided hglance
          suffices hwalk : ∃ fuel p, allReads (fun d ↦ verify fuel d since) reads
              (db₁.note (.walked key)) = some p by
            obtain ⟨fuel, p, hwalk⟩ := hwalk
            refine ⟨fuel + 1, conclude key asOf p, ?_⟩
            simp only [verify, hglance, hwalk, Option.map_some]
          refine exists_allReads reads since
            (fun ds db₂ ↦
              db₁.Verifies db₂ ∧ Consistent T db₂.revision db₂.store ∧ ∀ d ∈ ds, d ∈ reads)
            ?_ ⟨.note db₁ _, hs₁, fun _ h ↦ h⟩
          rintro d ds db₂ ⟨hverifies, hs₂, hreads⟩
          have hd : d ∈ reads := hreads d List.mem_cons_self
          obtain ⟨fuel, ⟨fresh, db₃⟩, hverify⟩ : ∃ fuel r, verify fuel d since db₂ = some r := by
            cases hm' : db₂.store.memo? d with
            | none => exact ⟨1, db₂.settle d since false, by rw [verify, hm']; rfl⟩
            | some m =>
                cases hinput : m.isInput with
                | true =>
                    cases m with
                    | derived => cases hinput
                    | input v c =>
                        exact ⟨1, db₂.settle d since (decide (c ≤ since)), by rw [verify, hm']; rfl⟩
                | false =>
                    obtain ⟨m₁, hm₁, _, _, hinput₁⟩ := hverifies.store.exists_memo hm'
                    have hfeed : db₁.store.Feeds d key :=
                      ⟨⟨_, hm, hd⟩, m₁, hm₁, hinput₁.trans hinput⟩
                    exact ih d (hfeeds d key hfeed) since db₂ hs₂ fun e other he ↦
                      hfeeds e other (hverifies.store.feeds he)
          refine ⟨fuel, fresh, db₃, hverify, fun _ ↦
            ⟨hverifies.trans (verify_verifies hverify), ?_,
              fun e he ↦ hreads e (List.mem_cons_of_mem _ he)⟩⟩
          have hrechecks := (verify_iff hverify hs₂).1
          rw [(verify_verifies hverify).revision_eq]
          exact hrechecks.consistent

end Database

end Incremental
