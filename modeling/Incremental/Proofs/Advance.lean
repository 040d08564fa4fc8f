import Incremental.Proofs.Course
import Incremental.Proofs.Naming
import Incremental.Proofs.Scratch

/-!
# Advance of a store within one revision

Between two changes a store only learns: it gets new rows, and computed values are stamped or
replaced unless they are known to stand already. Neither the assigned values nor the revisions
of their last changes are touched.
-/

namespace Incremental

variable {Q K V W : Type}

namespace Store

def Has (s : Store Q K V) (key : Handle) : Prop := ∃ x, s.named? key = some x

theorem row?_of_not_has {s : Store Q K V} {key : Handle} (h : ¬ s.Has key) : s.row? key = none := by
  by_contra hrow
  obtain ⟨row, hrow⟩ := Option.ne_none_iff_exists'.1 hrow
  exact h (named?_eq_some_iff_row?.2 ⟨row, hrow⟩)

theorem memo?_of_not_has {s : Store Q K V} {key : Handle} (h : ¬ s.Has key) :
    s.memo? key = none := by
  simp [memo?, row?_of_not_has h]

theorem removedAt_of_not_has {s : Store Q K V} {key : Handle} (h : ¬ s.Has key) :
    s.removedAt key = Revision.initial := by
  simp [removedAt, row?_of_not_has h]

theorem has_of_memo? {s : Store Q K V} {key : Handle} {m : Memo V} (h : s.memo? key = some m) :
    s.Has key := by
  by_contra hhas
  rw [memo?_of_not_has hhas] at h
  cases h

section

variable [DecidableEq Q] [BEq K]

def inputs (s : Store Q K V) : Inputs Q K V := fun x ↦
  (((s.lookup? x.1 x.2).bind s.memo?).filter Memo.isInput).map Memo.value

/-- When a query was last assigned a value or lost what was kept for it. -/
def lastChange (s : Store Q K V) (x : Q × K) : Revision :=
  match s.lookup? x.1 x.2 with
  | none => Revision.initial
  | some key =>
    match s.memo? key with
    | some (.input _ changedAt) => changedAt
    | _ => s.removedAt key

variable {s : Store Q K V} {key : Handle} {x : Q × K}

theorem has_of_lookup? {q : Q} {k : K} (h : s.lookup? q k = some key) : s.Has key := by
  obtain ⟨l, hname, _⟩ := exists_named?_of_lookup? h
  exact ⟨_, hname⟩

theorem Indexed.lookup? (hs : s.Indexed) (hx : s.named? key = some x) :
    s.lookup? x.1 x.2 = some key := hs key x.1 x.2 hx

theorem inputs_eq (hs : s.Indexed) (hx : s.named? key = some x) :
    s.inputs x = ((s.memo? key).filter Memo.isInput).map Memo.value := by
  simp [inputs, hs.lookup? hx]

theorem inputs_of_input (hs : s.Indexed) (hx : s.named? key = some x) {v : V} {c : Revision}
    (hm : s.memo? key = some (.input v c)) : s.inputs x = some v := by
  simp [inputs_eq hs hx, hm, Memo.isInput, Memo.value]

theorem inputs_of_not_input (hs : s.Indexed) (hx : s.named? key = some x)
    (hm : ∀ v c, s.memo? key ≠ some (.input v c)) : s.inputs x = none := by
  rw [inputs_eq hs hx]
  cases hm' : s.memo? key with
  | none => rfl
  | some m => cases m with
      | input v c => exact absurd hm' (hm v c)
      | derived => rfl

theorem lastChange_of_input (hs : s.Indexed) (hx : s.named? key = some x) {v : V} {c : Revision}
    (hm : s.memo? key = some (.input v c)) : s.lastChange x = c := by
  simp [lastChange, hs.lookup? hx, hm]

theorem lastChange_of_not_input (hs : s.Indexed) (hx : s.named? key = some x)
    (hm : ∀ v c, s.memo? key ≠ some (.input v c)) : s.lastChange x = s.removedAt key := by
  simp only [lastChange, hs.lookup? hx]

end

section

variable [DecidableEq Q] [BEq K] {s : Store Q K V}

/-- The stamps of a store lie in the order in which they were set, up to the revision `now`. -/
structure Regular (s : Store Q K V) (now : Revision) : Prop where
  indexed : s.Indexed
  removedAt_le : ∀ key, s.removedAt key ≤ now
  input : ∀ key v c, s.memo? key = some (.input v c) → c ≤ now
  derived : ∀ key v c w reads, s.memo? key = some (.derived v c w reads) →
    s.removedAt key ≤ c ∧ c ≤ w ∧ w ≤ now ∧ ∀ d ∈ reads, s.Has d

theorem Regular.lastChange_le {now : Revision} (h : s.Regular now) (x : Q × K) :
    s.lastChange x ≤ now := by
  simp only [lastChange]
  split
  · exact Nat.zero_le _
  · split
    · next hm => exact h.input _ _ _ hm
    · exact h.removedAt_le _

end

/-- `s'` names what `s` names, and nothing was assigned or removed in between. -/
structure Keeps (s s' : Store Q K V) : Prop where
  named : ∀ key x, s.named? key = some x → s'.named? key = some x
  removedAt : ∀ key, s'.removedAt key = s.removedAt key
  input : ∀ key v c, s'.memo? key = some (.input v c) ↔ s.memo? key = some (.input v c)

namespace Keeps

variable {s s' : Store Q K V} {key : Handle}

theorem has (h : s.Keeps s') (hkey : s.Has key) : s'.Has key := by
  obtain ⟨x, hx⟩ := hkey
  exact ⟨x, h.named key x hx⟩

section

variable [DecidableEq Q] [BEq K] [LawfulBEq K]

/-- A query that is new to the store has neither a value nor a removal behind it. -/
theorem bare (h : s.Keeps s') (hs : s.Indexed) {x : Q × K} (hx : s.lookup? x.1 x.2 = none)
    (hx' : s'.lookup? x.1 x.2 = some key) :
    (∀ v c, s'.memo? key ≠ some (.input v c)) ∧ s'.removedAt key = Revision.initial := by
  have hnew : ¬ s.Has key := by
    rintro ⟨y, hy⟩
    have hxy : some y = some x := (h.named key y hy).symm.trans (named?_of_lookup? hx')
    cases hxy
    simp [hs.lookup? hy] at hx
  refine ⟨fun v c hm ↦ ?_, ?_⟩
  · rw [h.input, memo?_of_not_has hnew] at hm
    cases hm
  · rw [h.removedAt]
    exact removedAt_of_not_has hnew

theorem inputs_eq (h : s.Keeps s') (hs : s.Indexed) (hs' : s'.Indexed) : s'.inputs = s.inputs := by
  funext x
  cases hx : s.lookup? x.1 x.2 with
  | none =>
      have hnone : s.inputs x = none := by simp [inputs, hx]
      rw [hnone]
      cases hx' : s'.lookup? x.1 x.2 with
      | none => simp [inputs, hx']
      | some key => exact inputs_of_not_input hs' (named?_of_lookup? hx') (h.bare hs hx hx').1
  | some key =>
      have hname := named?_of_lookup? hx
      have hname' := h.named key x hname
      by_cases hm : ∃ v c, s.memo? key = some (.input v c)
      · obtain ⟨v, c, hm⟩ := hm
        rw [inputs_of_input hs hname hm, inputs_of_input hs' hname' ((h.input key v c).2 hm)]
      · have hm : ∀ v c, s.memo? key ≠ some (.input v c) := fun v c hm' ↦ hm ⟨v, c, hm'⟩
        rw [inputs_of_not_input hs hname hm, inputs_of_not_input hs' hname' fun v c hm' ↦
          hm v c ((h.input key v c).1 hm')]

theorem lastChange_eq (h : s.Keeps s') (hs : s.Indexed) (hs' : s'.Indexed) :
    s'.lastChange = s.lastChange := by
  funext x
  cases hx : s.lookup? x.1 x.2 with
  | none =>
      have hnone : s.lastChange x = Revision.initial := by simp [lastChange, hx]
      rw [hnone]
      cases hx' : s'.lookup? x.1 x.2 with
      | none => simp [lastChange, hx']
      | some key =>
          obtain ⟨hm, hremoved⟩ := h.bare hs hx hx'
          rw [lastChange_of_not_input hs' (named?_of_lookup? hx') hm, hremoved]
  | some key =>
      have hname := named?_of_lookup? hx
      have hname' := h.named key x hname
      by_cases hm : ∃ v c, s.memo? key = some (.input v c)
      · obtain ⟨v, c, hm⟩ := hm
        rw [lastChange_of_input hs hname hm,
          lastChange_of_input hs' hname' ((h.input key v c).2 hm)]
      · have hm : ∀ v c, s.memo? key ≠ some (.input v c) := fun v c hm' ↦ hm ⟨v, c, hm'⟩
        rw [lastChange_of_not_input hs hname hm, lastChange_of_not_input hs' hname' fun v c hm' ↦
          hm v c ((h.input key v c).1 hm'), h.removedAt]

end

end Keeps

/-- `s'` may follow `s` without a change in between. -/
structure Advances (now : Revision) (s s' : Store Q K V) : Prop where
  named : ∀ key x, s.named? key = some x → s'.named? key = some x
  removedAt : ∀ key, s'.removedAt key = s.removedAt key
  memo : ∀ key, s'.memo? key = s.memo? key ∨
    (∃ v c reads, s'.memo? key = some (.derived v c now reads)) ∧
      (s.memo? key = none ∨ ∃ v c w reads, s.memo? key = some (.derived v c w reads) ∧ w ≠ now)

namespace Advances

variable {now : Revision} {s s' s'' : Store Q K V} {key : Handle}

theorem refl (now : Revision) (s : Store Q K V) : s.Advances now s :=
  ⟨fun _ _ h ↦ h, fun _ ↦ rfl, fun _ ↦ .inl rfl⟩

theorem trans (h : s.Advances now s') (h' : s'.Advances now s'') : s.Advances now s'' := by
  refine ⟨fun key x hx ↦ h'.named key x (h.named key x hx),
    fun key ↦ (h'.removedAt key).trans (h.removedAt key), fun key ↦ ?_⟩
  rcases h.memo key with heq | ⟨⟨v, c, reads, hm⟩, hold⟩
  · rcases h'.memo key with heq' | ⟨hnew, hold⟩
    · exact .inl (heq'.trans heq)
    · exact .inr ⟨hnew, heq ▸ hold⟩
  · rcases h'.memo key with heq' | ⟨hnew, _⟩
    · exact .inr ⟨⟨v, c, reads, heq'.trans hm⟩, hold⟩
    · exact .inr ⟨hnew, hold⟩

/-- What is known to stand stays as it is. -/
theorem current (h : s.Advances now s') {v : V} {c : Revision} {reads : List Handle}
    (hm : s.memo? key = some (.derived v c now reads)) :
    s'.memo? key = some (.derived v c now reads) := by
  rcases h.memo key with heq | ⟨_, hold | ⟨_, _, w, _, hold, hw⟩⟩
  · exact heq.trans hm
  · rw [hm] at hold
    cases hold
  · rw [hm] at hold
    cases hold
    exact absurd rfl hw

theorem input_iff (h : s.Advances now s') {v : V} {c : Revision} :
    s'.memo? key = some (.input v c) ↔ s.memo? key = some (.input v c) := by
  rcases h.memo key with heq | ⟨⟨_, _, _, hnew⟩, hold | ⟨_, _, _, _, hold, _⟩⟩
  · rw [heq]
  · simp [hnew, hold]
  · simp [hnew, hold]

theorem keeps (h : s.Advances now s') : s.Keeps s' :=
  ⟨h.named, h.removedAt, fun _ _ _ ↦ input_iff h⟩

theorem has (h : s.Advances now s') (hkey : s.Has key) : s'.Has key := h.keeps.has hkey

end Advances

end Store

end Incremental
