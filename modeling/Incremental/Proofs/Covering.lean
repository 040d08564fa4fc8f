import Incremental.Proofs.Holding

/-!
# Stores that cover each other

One store covers another if the same is assigned in both, something is kept in both for the same
queries, and the one holds whatever the other holds. The same change to both leaves it so, and so
does the assignment, to the other alone, of what is assigned already.
-/

namespace Incremental

variable {Q K V W : Type} [DecidableEq Q] [BEq K]

namespace Store

/-- `s'` is `s` after `a` was assigned to `x`, or what was kept for `x` was removed if that is none:
what reads `x` is let go of. -/
structure Assigns (R : Q × K → Recipe Q K V) (s s' : Store Q K V) (x : Q × K) (a : Option V) :
    Prop where
  input : s'.inputs x = a
  kept : s'.Stores x ↔ a ≠ none
  held : s'.Holds x ↔ a ≠ none
  inputs : ∀ z ≠ x, s'.inputs z = s.inputs z
  stores : ∀ z ≠ x, (s'.Stores z ↔ s.Stores z)
  holds : ∀ z ≠ x, (s'.Holds z ↔ s.Holds z ∧ ¬ Below R s.inputs x z)

/-- The same is assigned in both stores, both keep something for the same queries, and `s` holds
what `s'` holds. -/
structure Covers (s s' : Store Q K V) : Prop where
  inputs : s'.inputs = s.inputs
  stores : s'.Stores = s.Stores
  holds : ∀ x, s'.Holds x → s.Holds x

variable {R : Q × K → Recipe Q K V} {now : Revision} {s s' s₁ s₁' : Store Q K V}
  {key : Handle} {x : Q × K} {a : Option V} {v : V}

theorem Changes.assigns [LawfulBEq K] (h : s.Changes s' key) (hs : Consistent (.of R) now s)
    (hkey : s'.lookup? x.1 x.2 = some key)
    (hlookup : ∀ q k d, s.lookup? q k = some d → s'.lookup? q k = some d)
    (hself : s'.memo? key = a.map (.input · (now + 1))) : Assigns R s s' x a := by
  have hinput : s'.inputs x = a := by
    cases a <;> simp [Store.inputs, hkey, hself, Memo.isInput, Memo.value]
  have hkept : s'.Stores x ↔ a ≠ none := by
    rw [Store.stores_iff hkey, hself, ← Option.ne_none_iff_exists', ne_eq, Option.map_eq_none_iff]
  refine ⟨hinput, hkept, ⟨fun hx ↦ hkept.1 hx.stores, fun ha ↦ ?_⟩,
    fun z hz ↦ h.inputs_eq hkey hlookup hz hs.indexed,
    fun z hz ↦ h.stores_iff hkey hlookup hz hs.indexed, fun z hz ↦ h.holds_iff hkey hlookup hz hs⟩
  obtain ⟨v, rfl⟩ := Option.ne_none_iff_exists'.1 ha
  exact holds_of_input hinput

/-- Everything is dropped but what is assigned. -/
theorem dropDerived_iff [LawfulBEq K] (hs : s.Indexed) : s.dropDerived.inputs = s.inputs ∧
    ∀ z, (s.dropDerived.Stores z ↔ s.inputs z ≠ none) ∧
      (s.dropDerived.Holds z ↔ s.inputs z ≠ none) := by
  have hinputs : s.dropDerived.inputs = s.inputs :=
    s.keeps_dropDerived.inputs_eq hs (hs.congr (arguments_dropDerived s))
  have hstores : ∀ z, s.dropDerived.Stores z → s.inputs z ≠ none := by
    rintro z ⟨key, m, hkey, hm⟩
    have hinput := hm
    rw [memo?_dropDerived, Option.filter_eq_some_iff] at hinput
    cases m with
    | input v c => simp [← hinputs, inputs_eq_some_iff.2 ⟨key, c, hkey, hm⟩]
    | derived => cases hinput.2
  have hholds : ∀ z, s.inputs z ≠ none → s.dropDerived.Holds z := by
    intro z hz
    obtain ⟨v, hv⟩ := Option.ne_none_iff_exists'.1 hz
    rw [← hinputs] at hv
    exact holds_of_input hv
  exact ⟨hinputs, fun z ↦ ⟨⟨hstores z, fun hz ↦ (hholds z hz).stores⟩,
    fun hz ↦ hstores z hz.stores, hholds z⟩⟩

namespace Covers

theorem refl (s : Store Q K V) : s.Covers s := ⟨rfl, rfl, fun _ ↦ id⟩

theorem assigns (h : s.Covers s') (ha : Assigns R s s₁ x a) (ha' : Assigns R s' s₁' x a) :
    s₁.Covers s₁' := by
  refine ⟨funext fun z ↦ ?_, funext fun z ↦ propext ?_, fun z hz ↦ ?_⟩
  · by_cases hz : z = x
    · rw [hz, ha.input, ha'.input]
    · rw [ha.inputs z hz, ha'.inputs z hz, h.inputs]
  · by_cases hz : z = x
    · rw [hz, ha.kept, ha'.kept]
    · rw [ha.stores z hz, ha'.stores z hz, h.stores]
  · by_cases hzx : z = x
    · rw [hzx, ha'.held] at hz
      rwa [hzx, ha.held]
    · rw [ha'.holds z hzx, h.inputs] at hz
      exact (ha.holds z hzx).2 (hz.imp_left (h.holds z))

/-- What is assigned already is assigned anew in the other store. -/
theorem skip (h : s.Covers s') (hx : s.inputs x = some v) (ha' : Assigns R s' s₁' x (some v)) :
    s.Covers s₁' := by
  have hheld := holds_of_input hx
  refine ⟨funext fun z ↦ ?_, funext fun z ↦ propext ?_, fun z hz ↦ ?_⟩
  · by_cases hz : z = x
    · rw [hz, ha'.input, hx]
    · rw [ha'.inputs z hz, h.inputs]
  · by_cases hz : z = x
    · subst hz
      exact iff_of_true (ha'.kept.2 (by simp)) hheld.stores
    · rw [ha'.stores z hz, h.stores]
  · by_cases hzx : z = x
    · rwa [hzx]
    · exact h.holds z ((ha'.holds z hzx).1 hz).1

theorem dropDerived [LawfulBEq K] (h : s.Covers s') (hs : s.Indexed) (hs' : s'.Indexed) :
    s.dropDerived.Covers s'.dropDerived := by
  obtain ⟨hinputs, hiff⟩ := dropDerived_iff hs
  obtain ⟨hinputs', hiff'⟩ := dropDerived_iff hs'
  refine ⟨funext fun z ↦ ?_, funext fun z ↦ propext ?_, fun z ↦ ?_⟩
  · rw [hinputs, hinputs', h.inputs]
  · rw [(hiff z).1, (hiff' z).1, h.inputs]
  · rw [(hiff z).2, (hiff' z).2, h.inputs]
    exact id

end Covers

end Store

namespace Database

open Store

variable [LawfulBEq K] {R : Q × K → Recipe Q K V} {db : Database Q K V W} {q : Q} {k : K} {v : V}

namespace Resting

theorem assigns_set (h : Resting (.of R) db) (q : Q) (k : K) (v : V) :
    Assigns R db.store (db.set q k v).store (q, k) (some v) := by
  obtain ⟨_, key, hkey, hself, hchanges⟩ := h.set q k v
  exact hchanges.assigns h.store hkey (fun _ _ _ hd ↦ lookup?_set hd q k v) hself

/-- A removal answers whether anything was kept, and does nothing if not. -/
theorem assigns_remove (h : Resting (.of R) db) (q : Q) (k : K) :
    (¬ db.store.Stores (q, k) → db.remove q k = (false, db)) ∧
      (db.store.Stores (q, k) → ∃ db', db.remove q k = (true, db') ∧
        db'.revision = db.revision + 1 ∧ Assigns R db.store db'.store (q, k) none) := by
  cases hkey : db.store.lookup? q k with
  | none =>
      refine ⟨fun _ ↦ by simp [Database.remove, hkey], ?_⟩
      rintro ⟨key, _, hkey', _⟩
      rw [hkey] at hkey'
      cases hkey'
  | some key =>
      rw [stores_iff (x := (q, k)) hkey]
      cases hm : db.store.memo? key with
      | none => exact ⟨fun _ ↦ by simp [Database.remove, hkey, hm], by simp⟩
      | some m =>
          obtain ⟨_, hchanges⟩ := h.erase (has_of_lookup? hkey)
          have hremove : db.remove q k = (true, { db with
              revision := db.revision + 1
              store := db.store.erase key (db.revision + 1) }.note
                (.removed q k (db.revision + 1))) := by
            simp only [Database.remove, hkey, hm]
            rfl
          refine ⟨fun hnone ↦ absurd ⟨m, rfl⟩ hnone, fun _ ↦ ⟨_, hremove, rfl, ?_⟩⟩
          exact hchanges.assigns h.store ((lookup?_erase ..).trans hkey)
            (fun _ _ _ hd ↦ (lookup?_erase ..).trans hd) (memo?_erase ..)

end Resting

end Database

end Incremental
