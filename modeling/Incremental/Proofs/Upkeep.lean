import Incremental.Proofs.Advance

/-!
# What verification and evaluation leave as it is

Verification stamps memos and does nothing else. Evaluation advances the store within the
revision, changes no frame but the innermost, and leaves the call stack sound: what is active is
what the frames compute, and what they collected is named in the store and no newer than the
revision.
-/

namespace Incremental

variable {Q K V W : Type}

namespace Memo

@[simp] theorem verified_verified (r : Revision) (memo : Memo V) :
    (memo.verified r).verified r = memo.verified r := by
  cases memo <;> rfl

end Memo

namespace Store

/-- `s'` is `s` with some memos stamped as standing at `now`. -/
structure Marks (now : Revision) (s s' : Store Q K V) : Prop where
  arguments : s'.tables.map Table.arguments = s.tables.map Table.arguments
  removedAt : ∀ key, s'.removedAt key = s.removedAt key
  memo : ∀ key, s'.memo? key = s.memo? key ∨ s'.memo? key = (s.memo? key).map (Memo.verified now)

namespace Marks

variable {now : Revision} {s s' s'' : Store Q K V} {key : Handle}

theorem refl (now : Revision) (s : Store Q K V) : s.Marks now s :=
  ⟨rfl, fun _ ↦ rfl, fun _ ↦ .inl rfl⟩

theorem trans (h : s.Marks now s') (h' : s'.Marks now s'') : s.Marks now s'' := by
  refine ⟨h'.arguments.trans h.arguments, fun key ↦ (h'.removedAt key).trans (h.removedAt key),
    fun key ↦ ?_⟩
  rcases h.memo key with heq | heq <;> rcases h'.memo key with heq' | heq'
  · exact .inl (heq'.trans heq)
  · exact .inr (heq'.trans (by rw [heq]))
  · exact .inr (heq'.trans heq)
  · refine .inr (heq'.trans ?_)
    cases hm : s.memo? key <;> simp [heq, hm]

theorem markVerified (s : Store Q K V) (key : Handle) (now : Revision) :
    s.Marks now (s.markVerified key now) := by
  refine ⟨arguments_modify s key fun _ ↦ rfl, fun other ↦ ?_, fun other ↦ ?_⟩
  · simp only [Store.removedAt, Store.markVerified, row?_modify]
    split
    · cases s.row? other <;> rfl
    · rfl
  · by_cases hkey : key = other
    · subst hkey
      exact .inr (by simp)
    · simp [memo?, Store.markVerified, row?_modify, hkey]

theorem named?_eq (h : s.Marks now s') (key : Handle) : s'.named? key = s.named? key :=
  named?_congr h.arguments

theorem derived (h : s.Marks now s') {v : V} {c w : Revision} {reads : List Handle}
    (hm : s.memo? key = some (.derived v c w reads)) :
    ∃ w', s'.memo? key = some (.derived v c w' reads) ∧ (w' = w ∨ w' = now) := by
  rcases h.memo key with heq | heq
  · exact ⟨w, heq.trans hm, .inl rfl⟩
  · exact ⟨now, by rw [heq, hm]; rfl, .inr rfl⟩

theorem of_derived (h : s.Marks now s') {v : V} {c w : Revision} {reads : List Handle}
    (hm : s'.memo? key = some (.derived v c w reads)) :
    ∃ w', s.memo? key = some (.derived v c w' reads) ∧ (w = w' ∨ w = now) := by
  rcases h.memo key with heq | heq
  · exact ⟨w, heq ▸ hm, .inl rfl⟩
  · rw [hm] at heq
    obtain ⟨m, hold, hm⟩ := Option.map_eq_some_iff.mp heq.symm
    cases m with
    | input => cases hm
    | derived =>
        cases hm
        exact ⟨_, hold, .inr rfl⟩

theorem none_iff (h : s.Marks now s') : s'.memo? key = none ↔ s.memo? key = none := by
  rcases h.memo key with heq | heq <;> simp [heq]

theorem advances (h : s.Marks now s') : s.Advances now s' := by
  refine ⟨fun key x hx ↦ (h.named?_eq key).trans hx, h.removedAt, fun key ↦ ?_⟩
  rcases h.memo key with heq | heq
  · exact .inl heq
  · cases hm : s.memo? key with
    | none => exact .inl (by rw [heq, hm]; rfl)
    | some m => cases m with
        | input => exact .inl (by rw [heq, hm]; rfl)
        | derived v c w reads =>
            have hnew : s'.memo? key = some (.derived v c now reads) := by
              rw [heq, hm]
              rfl
            by_cases hw : w = now
            · exact .inl (by rw [hnew, hw])
            · exact .inr ⟨⟨v, c, reads, hnew⟩, .inr ⟨v, c, w, reads, rfl, hw⟩⟩

variable [DecidableEq Q] [BEq K]

theorem regular (h : s.Marks now s') (hs : s.Regular now) : s'.Regular now := by
  refine ⟨hs.indexed.congr h.arguments, fun key ↦ (h.removedAt key).symm ▸ hs.removedAt_le key,
    fun key v c hm ↦ hs.input key v c (h.advances.input_iff.1 hm), fun key v c w reads hm ↦ ?_⟩
  obtain ⟨w', hm', hw⟩ := h.of_derived hm
  obtain ⟨hremoved, hcw, hle, hreads⟩ := hs.derived key v c w' reads hm'
  have hle' : c ≤ w ∧ w ≤ now := by
    rcases hw with rfl | rfl
    · exact ⟨hcw, hle⟩
    · exact ⟨Nat.le_trans hcw hle, Nat.le_refl _⟩
  exact ⟨(h.removedAt key).symm ▸ hremoved, hle'.1, hle'.2, fun d hd ↦ h.advances.has (hreads d hd)⟩

end Marks

end Store

namespace Database

/-- `db'` is `db` after some verification. -/
structure Verifies (db db' : Database Q K V W) : Prop where
  rest : db' = { db with store := db'.store, events := db'.events }
  store : db.store.Marks db.revision db'.store
  events : db.events <:+ db'.events

namespace Verifies

variable {db db₁ db₂ : Database Q K V W}

theorem revision_eq (h : db.Verifies db₁) : db₁.revision = db.revision := by rw [h.rest]

theorem stack_eq (h : db.Verifies db₁) : db₁.stack = db.stack := by rw [h.rest]

theorem configuration_eq (h : db.Verifies db₁) : db₁.configuration = db.configuration := by
  rw [h.rest]

theorem refl (db : Database Q K V W) : db.Verifies db := ⟨rfl, .refl _ _, List.suffix_rfl⟩

theorem trans (h : db.Verifies db₁) (h' : db₁.Verifies db₂) : db.Verifies db₂ := by
  refine ⟨?_, h.store.trans (h.revision_eq ▸ h'.store), h.events.trans h'.events⟩
  rw [h'.rest, h.rest]

theorem note (db : Database Q K V W) (event : Event Q K) : db.Verifies (db.note event) :=
  ⟨rfl, .refl _ _, List.suffix_cons _ _⟩

theorem markVerified (key : Handle) (db : Database Q K V W) : db.Verifies (db.markVerified key) :=
  ⟨rfl, .markVerified _ _ _, List.suffix_rfl⟩

theorem conclude (key : Handle) (asOf : Revision) (fresh : Bool) (db : Database Q K V W) :
    db.Verifies (conclude key asOf (fresh, db)).2 := by
  cases fresh with
  | false => exact note db _
  | true => exact (markVerified key db).trans (note _ _)

end Verifies

theorem verify_verifies {fuel : Nat} {key : Handle} {asOf : Revision} {db db' : Database Q K V W}
    {fresh : Bool} (h : verify fuel key asOf db = some (fresh, db')) : db.Verifies db' :=
  verify_keeps Verifies .refl .trans (fun _ db ↦ .note db _) (fun _ _ _ db ↦ .note db _)
    .markVerified h

theorem retrieve_verifies {fuel : Nat} {key : Handle} {db db' : Database Q K V W}
    {r : Option (V × Revision)} (h : db.retrieve fuel key = some (r, db')) : db.Verifies db' := by
  rcases eq_or_verify_of_retrieve h with rfl | ⟨_, hverify⟩
  · exact .refl _
  · exact verify_verifies hverify

/-- To look for what is kept for a read only records the read. -/
theorem stack_of_retrieve [DecidableEq Q] [BEq K] {fuel : Nat} {q : Q} {k : K} {key : Handle}
    {db db₁ db₂ : Database Q K V W} {r : Option (V × Revision)} (hkey : db.intern q k = (key, db₁))
    (h : (db₁.recordRead key).retrieve fuel key = some (r, db₂)) :
    db₂.stack = db.stack.recordRead key := by
  obtain rfl := eq_of_intern hkey
  exact (retrieve_verifies h).stack_eq

end Database

end Incremental
