import Incremental.Proofs.Bookkeeping
import Incremental.Proofs.Ways

/-!
# Outdated values

A computed value is outdated if something that was read for it is gone, has changed after the value
was last known to stand, or is outdated itself. In a consistent store the stamps tell enough of how
each value came about: what is known to stand now rests on what is known to stand now, and what
was read is named by a way of the query to the value.
-/

namespace Incremental

variable {Q K V W : Type}

namespace Store

variable [DecidableEq Q] [BEq K] {s s' : Store Q K V} {key : Handle} {q : Q} {k : K}

/-- What is found was found before, or it has got a row since. -/
theorem Keeps.lookup?_cases [EquivBEq K] (h : s.Keeps s') (hs : s.Indexed) (hs' : s'.Indexed)
    (hkey : s'.lookup? q k = some key) :
    s.lookup? q k = some key ∨ s.lookup? q k = none ∧ ¬ s.Has key := by
  cases hold : s.lookup? q k with
  | some key₀ =>
      have hfound := lookup?_of_named hs' h.named hold
      exact .inl (hfound.symm.trans hkey)
  | none =>
      refine .inr ⟨rfl, ?_⟩
      rintro ⟨⟨q', k'⟩, hname⟩
      have hfound : s.lookup? q' k' = some key := hs key q' k' hname
      obtain ⟨rfl, hk⟩ := beq_of_lookup? hkey (hs' key q' k' (h.named key _ hname))
      rw [lookup?_of_beq hk, hfound] at hold
      cases hold

/-- Two rows are one if their queries are and their arguments are equal. -/
theorem beq_iff_of_lookup? [EquivBEq K] {q' : Q} {k' : K} {key' : Handle}
    (hkey : s.lookup? q k = some key) (hkey' : s.lookup? q' k' = some key') :
    (decide (q = q') && k == k') = true ↔ key = key' := by
  rw [Bool.and_eq_true, decide_eq_true_iff]
  constructor
  · rintro ⟨rfl, hk⟩
    rw [lookup?_of_beq hk, hkey'] at hkey
    exact (Option.some.inj hkey).symm
  · rintro rfl
    exact beq_of_lookup? hkey hkey'

end Store

namespace Memo

/-- Known to stand at revision `now`, as an assigned value always is. -/
def IsCurrent (now : Revision) : Memo V → Prop
  | input .. => True
  | derived _ _ verifiedAt _ => verifiedAt = now

@[simp] theorem isCurrent_verified (now : Revision) (memo : Memo V) :
    (memo.verified now).IsCurrent now := by
  cases memo
  · trivial
  · rfl

end Memo

namespace Store

/-- Some change since a computed value was last known to stand reaches it. -/
inductive Outdated (s : Store Q K V) : Handle → Prop
  | gone {key d : Handle} {v : V} {c w : Revision} {reads : List Handle}
      (hm : s.memo? key = some (.derived v c w reads)) (hd : d ∈ reads) (h : s.memo? d = none) :
      Outdated s key
  | changed {key d : Handle} {v : V} {c w : Revision} {reads : List Handle} {m : Memo V}
      (hm : s.memo? key = some (.derived v c w reads)) (hd : d ∈ reads) (h : s.memo? d = some m)
      (hw : w < m.changedAt) : Outdated s key
  | within {key d : Handle} {v : V} {c w : Revision} {reads : List Handle}
      (hm : s.memo? key = some (.derived v c w reads)) (hd : d ∈ reads) (h : Outdated s d) :
      Outdated s key

/-- Something is kept under `key` that has not changed after `asOf` and is not outdated. -/
def Unchanged (s : Store Q K V) (asOf : Revision) (key : Handle) : Prop :=
  ∃ m, s.memo? key = some m ∧ m.changedAt ≤ asOf ∧ ¬ s.Outdated key

/-- Nothing is kept under `key`, or something outdated. -/
def Lacks (s : Store Q K V) (key : Handle) : Prop := s.memo? key = none ∨ s.Outdated key

/-- What is kept under `key` lists `d` among what was read for it. -/
def Rests (s : Store Q K V) (key d : Handle) : Prop := ∃ m, s.memo? key = some m ∧ d ∈ m.reads

/-- Verification of `key` may come to `d`, and walk on from there. -/
def Feeds (s : Store Q K V) (d key : Handle) : Prop :=
  s.Rests key d ∧ ∃ m, s.memo? d = some m ∧ m.isInput = false

variable {s s' : Store Q K V} {key d : Handle} {v : V} {c w now : Revision} {reads : List Handle}
  {m : Memo V}

theorem Outdated.exists_derived (h : s.Outdated key) :
    ∃ v c w reads, s.memo? key = some (.derived v c w reads) := by
  cases h with
  | gone hm => exact ⟨_, _, _, _, hm⟩
  | changed hm => exact ⟨_, _, _, _, hm⟩
  | within hm => exact ⟨_, _, _, _, hm⟩

theorem not_outdated_of_input (hm : s.memo? key = some (.input v c)) : ¬ s.Outdated key := by
  intro h
  obtain ⟨_, _, _, _, hm'⟩ := h.exists_derived
  rw [hm] at hm'
  cases hm'

theorem not_outdated_iff (hm : s.memo? key = some (.derived v c w reads)) :
    ¬ s.Outdated key ↔ ∀ d ∈ reads, s.Unchanged w d := by
  constructor
  · intro h d hd
    cases hd' : s.memo? d with
    | none => exact absurd (.gone hm hd hd') h
    | some m =>
        refine ⟨m, hd', Nat.not_lt.1 fun hlt ↦ h (.changed hm hd hd' hlt), fun hout ↦ ?_⟩
        exact h (.within hm hd hout)
  · intro h hout
    cases hout with
    | gone hm' hd hnone =>
        cases hm.symm.trans hm'
        obtain ⟨m, hm, _⟩ := h _ hd
        rw [hnone] at hm
        cases hm
    | changed hm' hd hsome hlt =>
        cases hm.symm.trans hm'
        obtain ⟨m, hm, hle, _⟩ := h _ hd
        cases hsome.symm.trans hm
        exact absurd hlt (Nat.not_lt.2 hle)
    | within hm' hd hout =>
        cases hm.symm.trans hm'
        obtain ⟨_, _, _, hout'⟩ := h _ hd
        exact hout' hout

theorem Outdated.congr (hmemo : ∀ key, s'.memo? key = s.memo? key) (h : s.Outdated key) :
    s'.Outdated key := by
  induction h with
  | gone hm hd h => exact .gone ((hmemo _).trans hm) hd ((hmemo _).trans h)
  | changed hm hd h hw => exact .changed ((hmemo _).trans hm) hd ((hmemo _).trans h) hw
  | within hm hd _ ih => exact .within ((hmemo _).trans hm) hd ih

/-- What is outdated stays so when one row is changed, if the change outdates whatever reads it. -/
theorem Outdated.of_others {other : Handle} (h : s.Outdated other) (hne : other ≠ key)
    (hothers : ∀ d ≠ key, s'.memo? d = s.memo? d)
    (hread : ∀ {other v c w reads}, other ≠ key → s.memo? other = some (.derived v c w reads) →
      key ∈ reads → s'.Outdated other) : s'.Outdated other := by
  induction h with
  | @gone other d v c w reads hm hd hnone =>
      by_cases heq : d = key
      · exact hread hne hm (heq ▸ hd)
      · exact .gone ((hothers other hne).trans hm) hd ((hothers d heq).trans hnone)
  | @changed other d v c w reads m hm hd hsome hw =>
      by_cases heq : d = key
      · exact hread hne hm (heq ▸ hd)
      · exact .changed ((hothers other hne).trans hm) hd ((hothers d heq).trans hsome) hw
  | @within other d v c w reads hm hd _ ih =>
      by_cases heq : d = key
      · exact hread hne hm (heq ▸ hd)
      · exact .within ((hothers other hne).trans hm) hd (ih heq)

/-- What becomes of a read of a value that was last known to stand at `w`: it is gone or changes
later, or it stays, with a later stamp or not. -/
inductive Fate (s s' : Store Q K V) (w : Revision) (d : Handle) : Prop
  | gone (h : s'.memo? d = none) (hw : w < s'.removedAt d)
  | changed {m : Memo V} (h : s'.memo? d = some m) (hw : w < m.changedAt)
  | kept {m : Memo V} (h : s.memo? d = some m) (h' : s'.memo? d = some m)
  | stamped {m : Memo V} {r : Revision} (h : s.memo? d = some m)
      (h' : s'.memo? d = some (m.verified r)) (hw : w ≤ r)

section

variable [DecidableEq Q] [BEq K] {T : Ways Q K V}

/-- How a value came about that was last known to stand at `w`. Its reads were made on a way of
its query to it, by the body itself or by what it has read, and those that have not changed since
still have the values that were read. It changed with the newest of them, or with the last removal
from its row. -/
structure Recorded (T : Ways Q K V) (s : Store Q K V) (key : Handle) (v : V)
    (c w : Revision) (reads : List Handle) : Prop where
  gone : ∀ d ∈ reads, s.memo? d = none → w < s.removedAt d
  later : ∀ d ∈ reads, ∀ v' c' w' reads', s.memo? d = some (.derived v' c' w' reads') → w ≤ w'
  bounded : ∀ d ∈ reads, ∀ m, s.memo? d = some m → m.changedAt ≤ w → m.changedAt ≤ c
  attained : c = s.removedAt key ∨
    ∃ d ∈ reads, ∀ m, s.memo? d = some m → m.changedAt ≤ w → m.changedAt = c
  taken : ∃ x ys, s.lookup? x.1 x.2 = some key ∧ T x ys v ∧
    (∀ p ∈ ys, ∃ d ∈ reads, s.lookup? p.1.1 p.1.2 = some d ∧
      ∀ m, s.memo? d = some m → m.changedAt ≤ w → p.2 = .value m.value) ∧
    ∀ e ∈ reads, ∃ p ∈ ys, ∃ d ∈ reads, s.lookup? p.1.1 p.1.2 = some d ∧
      (e = d ∨ ∀ m, s.memo? d = some m → m.changedAt ≤ w → e ∈ m.reads)

/-- All computed values are recorded, and none rests on itself. -/
structure Consistent (T : Ways Q K V) (now : Revision) (s : Store Q K V) : Prop
    extends s.Regular now where
  recorded : ∀ key v c w reads, s.memo? key = some (.derived v c w reads) →
    Recorded T s key v c w reads
  founded : WellFounded s.Feeds

theorem Recorded.transfer (h : Recorded T s key v c w reads) (hs' : s'.Regular now)
    (hlookup : ∀ q k d, s.lookup? q k = some d → s'.lookup? q k = some d)
    (hremoved : s'.removedAt key = s.removedAt key)
    (hreads : ∀ d ∈ reads, Fate s s' w d) : Recorded T s' key v c w reads := by
  -- a read that has not changed since is the one that was there before
  have hsame : ∀ d ∈ reads, ∀ m', s'.memo? d = some m' → m'.changedAt ≤ w →
      ∃ m, s.memo? d = some m ∧ m.value = m'.value ∧ m.changedAt = m'.changedAt ∧
        m.reads = m'.reads := by
    intro d hd m' hm' hle
    cases hreads d hd with
    | gone hnone _ =>
        rw [hnone] at hm'
        cases hm'
    | changed hm hw =>
        cases hm.symm.trans hm'
        exact absurd hw (Nat.not_lt.2 hle)
    | kept hm hm'' =>
        cases hm''.symm.trans hm'
        exact ⟨_, hm, rfl, rfl, rfl⟩
    | @stamped m r hm hm'' _ =>
        cases hm''.symm.trans hm'
        exact ⟨m, hm, by simp, by simp, by simp⟩
  obtain ⟨x, ys, hx, hway, hdirect, hindirect⟩ := h.taken
  refine ⟨fun d hd hnone ↦ ?_, fun d hd v' c' w' reads' hm' ↦ ?_, fun d hd m' hm' hle ↦ ?_, ?_,
    x, ys, hlookup _ _ _ hx, hway, fun p hp ↦ ?_, fun e he ↦ ?_⟩
  · cases hreads d hd with
    | gone _ hw => exact hw
    | changed hm _ => simp [hnone] at hm
    | kept _ hm => simp [hnone] at hm
    | stamped _ hm _ => simp [hnone] at hm
  · cases hreads d hd with
    | gone hnone _ => simp [hnone] at hm'
    | changed hm hw =>
        cases hm.symm.trans hm'
        obtain ⟨_, hle, _⟩ := hs'.derived d v' c' w' reads' hm'
        exact Nat.le_trans (Nat.le_of_lt hw) hle
    | kept hm hm'' =>
        cases hm''.symm.trans hm'
        exact h.later d hd v' c' w' reads' hm
    | @stamped m r hm hm'' hw =>
        have heq := hm''.symm.trans hm'
        cases m with
        | input => cases heq
        | derived => cases heq; exact hw
  · obtain ⟨m, hm, _, hc, _⟩ := hsame d hd m' hm' hle
    rw [← hc] at hle ⊢
    exact h.bounded d hd m hm hle
  · refine h.attained.imp (·.trans hremoved.symm) ?_
    rintro ⟨d, hd, hchanged⟩
    refine ⟨d, hd, fun m' hm' hle ↦ ?_⟩
    obtain ⟨m, hm, _, hc, _⟩ := hsame d hd m' hm' hle
    exact hc ▸ hchanged m hm (hc ▸ hle)
  · obtain ⟨d, hd, hfound, hvalue⟩ := hdirect p hp
    refine ⟨d, hd, hlookup _ _ _ hfound, fun m' hm' hle ↦ ?_⟩
    obtain ⟨m, hm, hv, hc, _⟩ := hsame d hd m' hm' hle
    exact hv ▸ hvalue m hm (hc ▸ hle)
  · obtain ⟨p, hp, d, hd, hfound, hor⟩ := hindirect e he
    refine ⟨p, hp, d, hd, hlookup _ _ _ hfound, hor.imp_right fun hmem m' hm' hle ↦ ?_⟩
    obtain ⟨m, hm, _, hc, hr⟩ := hsame d hd m' hm' hle
    exact hr ▸ hmem m hm (hc ▸ hle)

namespace Consistent

variable (hs : Consistent T now s)

include hs

/-- What is known to stand rests on what is known to stand. -/
theorem current_reads (hm : s.memo? key = some (.derived v c now reads)) (hd : d ∈ reads) :
    ∃ m, s.memo? d = some m ∧ m.IsCurrent now ∧ m.changedAt ≤ c := by
  have hrec := hs.recorded key v c now reads hm
  cases hm' : s.memo? d with
  | none => exact absurd (hrec.gone d hd hm') (Nat.not_lt.2 (hs.removedAt_le d))
  | some m =>
      refine ⟨m, rfl, ?_⟩
      cases m with
      | input v' c' => exact ⟨trivial, hrec.bounded d hd _ hm' (hs.input d v' c' hm')⟩
      | derived v' c' w' reads' =>
          obtain ⟨_, hcw, hle, _⟩ := hs.derived d v' c' w' reads' hm'
          exact ⟨Nat.le_antisymm hle (hrec.later d hd v' c' w' reads' hm'),
            hrec.bounded d hd _ hm' (Nat.le_trans hcw hle)⟩

theorem not_outdated (hm : s.memo? key = some m) (hcurrent : m.IsCurrent now) :
    ¬ s.Outdated key := by
  intro hout
  induction hout generalizing m with
  | gone hm' hd hnone =>
      cases hm.symm.trans hm'
      obtain rfl : _ = now := hcurrent
      obtain ⟨_, hsome, _⟩ := hs.current_reads hm hd
      rw [hnone] at hsome
      cases hsome
  | changed hm' hd hsome hw =>
      cases hm.symm.trans hm'
      obtain rfl : _ = now := hcurrent
      obtain ⟨_, hsome', _, hc⟩ := hs.current_reads hm hd
      cases hsome.symm.trans hsome'
      obtain ⟨_, hcw, _⟩ := hs.derived _ _ _ _ _ hm
      exact absurd hw (Nat.not_lt.2 (Nat.le_trans hc hcw))
  | within hm' hd _ ih =>
      cases hm.symm.trans hm'
      obtain rfl : _ = now := hcurrent
      obtain ⟨_, hsome, hcurrent, _⟩ := hs.current_reads hm hd
      exact ih hsome hcurrent

theorem not_current_of_lacks (h : s.Lacks key) (hm : s.memo? key = some m) :
    ¬ m.IsCurrent now := by
  intro hcurrent
  rcases h with hnone | hout
  · rw [hnone] at hm
    cases hm
  · exact hs.not_outdated hm hcurrent hout

/-- A value that is computed anew, because the old one is outdated, rests on a change after the
revision at which the old one was last known to stand. -/
theorem raise [EquivBEq K] {x : Q × K} {ys : List ((Q × K) × Outcome V)} {v' : V} {r : Revision}
    (hguided : T.Guided) (hm : s.memo? key = some (.derived v c w reads)) (hout : s.Outdated key)
    (hx : s.lookup? x.1 x.2 = some key) (hway : T x ys v')
    (hys : ∀ p ∈ ys, ∃ d m, s.lookup? p.1.1 p.1.2 = some d ∧ s.memo? d = some m ∧
      m.IsCurrent now ∧ m.changedAt ≤ r ∧ p.2 = .value m.value) : w < r := by
  by_contra hlt
  have hle : r ≤ w := Nat.not_lt.1 hlt
  obtain ⟨⟨q, k⟩, zs, hx', hway', hdirect, hindirect⟩ := (hs.recorded key v c w reads hm).taken
  obtain ⟨rfl, hk⟩ := beq_of_lookup? hx' hx
  have hcovers := hguided hk hway' hway ?_
  · -- every read of the old way is one of the new way, so it has not changed since
    have hold : ∀ p ∈ zs, ∀ d, s.lookup? p.1.1 p.1.2 = some d →
        ∃ m, s.memo? d = some m ∧ m.IsCurrent now ∧ m.changedAt ≤ w := by
      intro p hp d hd
      obtain ⟨p', hp', hq, hk⟩ := hcovers p hp
      obtain ⟨d', m, hd', hm', hcurrent, hc, _⟩ := hys p' hp'
      rw [hq, lookup?_of_beq hk, hd'] at hd
      cases hd
      exact ⟨m, hm', hcurrent, Nat.le_trans hc hle⟩
    refine (not_outdated_iff hm).2 (fun e he ↦ ?_) hout
    obtain ⟨p, hp, d, _, hfound, hor⟩ := hindirect e he
    obtain ⟨m, hm', hcurrent, hc⟩ := hold p hp d hfound
    rcases hor with rfl | hmem
    · exact ⟨m, hm', hc, hs.not_outdated hm' hcurrent⟩
    · have he := hmem m hm' hc
      cases m with
      | input => simp [Memo.reads] at he
      | derived v₁ c₁ w₁ reads₁ =>
          obtain rfl : w₁ = now := hcurrent
          obtain ⟨m, hm'', hcurrent, hc'⟩ := hs.current_reads hm' he
          exact ⟨m, hm'', Nat.le_trans hc' hc, hs.not_outdated hm'' hcurrent⟩
  · intro p hp p' hp' hq hk
    obtain ⟨d, _, hfound, hvalue⟩ := hdirect p hp
    obtain ⟨d', m, hfound', hm', _, hc, hvalue'⟩ := hys p' hp'
    rw [hq, lookup?_of_beq hk, hfound'] at hfound
    cases hfound
    rw [hvalue', hvalue m hm' (Nat.le_trans hc hle)]

end Consistent

end

end Store

end Incremental
