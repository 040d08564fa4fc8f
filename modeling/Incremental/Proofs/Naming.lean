import Incremental.Store
import Mathlib.Data.List.Basic

/-!
# Handles as names

In a store whose handles are found by what they name, handles and seen arguments stand for each
other. Interning keeps this: it finds the handle of an argument that was seen, and makes one row
for an argument that was not, leaving everything else as it is.
-/

namespace Incremental

variable {Q K V : Type}

namespace Table

variable [BEq K] {t : Table Q K V} {k k' : K} {slot : Nat}

theorem argument_of_slot? (h : t.slot? k = some slot) :
    ∃ row, t.rows[slot]? = some row ∧ (row.argument == k) = true := by
  obtain ⟨hlt, hrow, _⟩ := List.findIdx?_eq_some_iff_getElem.mp h
  have hslot : slot < t.rows.size := by simpa using hlt
  refine ⟨t.rows[slot], by simp, ?_⟩
  simpa using hrow

theorem slot?_push (hk : (k == k) = true) (h : t.slot? k = none) :
    ({ t with rows := t.rows.push { argument := k } } : Table Q K V).slot? k =
      some t.rows.size := by
  simp only [slot?, Array.toList_push, List.findIdx?_append] at h ⊢
  simp [h, hk]

/-- A further row hides none of the others. -/
theorem slot?_push_of_some (h : t.slot? k' = some slot) :
    ({ t with rows := t.rows.push { argument := k } } : Table Q K V).slot? k' = some slot := by
  simp only [slot?] at h
  simp [slot?, List.findIdx?_append, h]

end Table

namespace Table

def arguments (t : Table Q K V) : Q × List K := (t.query, t.rows.toList.map Row.argument)

theorem arguments_modify (t : Table Q K V) (slot : Nat) {f : Row K V → Row K V}
    (hf : ∀ row, (f row).argument = row.argument) : (t.modify slot f).arguments = t.arguments := by
  unfold modify
  split
  · rfl
  · next row hrow =>
      obtain ⟨hlt, rfl⟩ := Array.getElem?_eq_some_iff.1 hrow
      refine Prod.ext rfl (List.ext_getElem? fun i ↦ ?_)
      by_cases hi : slot = i
      · subst hi
        simp [arguments, hlt, hf]
      · simp [arguments, hi]

theorem arguments_dropDerived (t : Table Q K V) : t.dropDerived.arguments = t.arguments := by
  simp [arguments, dropDerived, Row.dropDerived]

end Table

namespace Handle

@[simp] theorem shift_inj {key other : Handle} : key.shift = other.shift ↔ key = other := by
  cases key
  cases other
  simp [shift]

theorem shift_ne_zero {key : Handle} {slot : Nat} : key.shift ≠ ⟨0, slot⟩ := by
  simp [shift]

end Handle

namespace Store

section

variable (t : Table Q K V) (ts : List (Table Q K V)) (key : Handle) (slot : Nat)

@[simp] theorem row?_cons_shift :
    (⟨t :: ts⟩ : Store Q K V).row? key.shift = (⟨ts⟩ : Store Q K V).row? key := by
  simp [row?, find?, Handle.shift]

@[simp] theorem row?_cons_zero : (⟨t :: ts⟩ : Store Q K V).row? ⟨0, slot⟩ = t.rows[slot]? := by
  cases h : t.rows[slot]? <;> simp [row?, find?, h]

@[simp] theorem named?_cons_shift :
    (⟨t :: ts⟩ : Store Q K V).named? key.shift = (⟨ts⟩ : Store Q K V).named? key := by
  simp [named?, find?, Handle.shift]

@[simp] theorem named?_cons_zero : (⟨t :: ts⟩ : Store Q K V).named? ⟨0, slot⟩ =
    t.rows[slot]?.map fun row ↦ (t.query, row.argument) := by
  cases h : t.rows[slot]? <;> simp [named?, find?, h]

end

theorem named?_eq_some_iff_row? {s : Store Q K V} {key : Handle} :
    (∃ x, s.named? key = some x) ↔ ∃ row, s.row? key = some row := by
  simp only [named?, row?]
  cases s.find? key <;> simp

theorem eq_zero_or_shift (key : Handle) :
    (∃ slot, key = ⟨0, slot⟩) ∨ ∃ other : Handle, key = other.shift := by
  rcases key with ⟨_ | i, j⟩
  · exact .inl ⟨j, rfl⟩
  · exact .inr ⟨⟨i, j⟩, rfl⟩

theorem named?_congr {s s' : Store Q K V} {key : Handle}
    (h : s.tables.map Table.arguments = s'.tables.map Table.arguments) :
    s.named? key = s'.named? key := by
  have go : ∀ s : Store Q K V, s.named? key = ((s.tables.map Table.arguments)[key.table]?).bind
      fun t ↦ t.2[key.slot]?.map fun k ↦ (t.1, k) := by
    intro s
    cases ht : s.tables[key.table]? with
    | none => simp [named?, find?, ht]
    | some t => cases hrow : t.rows[key.slot]? <;> simp [named?, find?, ht, hrow, Table.arguments]
  rw [go s, go s', h]

theorem arguments_modify (s : Store Q K V) (key : Handle) {f : Row K V → Row K V}
    (hf : ∀ row, (f row).argument = row.argument) :
    (s.modify key f).tables.map Table.arguments = s.tables.map Table.arguments := by
  refine List.ext_getElem? fun i ↦ ?_
  by_cases hi : key.table = i
  · subst hi
    cases ht : s.tables[key.table]? <;> simp [modify, ht, Table.arguments_modify _ _ hf]
  · simp [modify, hi]

theorem arguments_dropDerived (s : Store Q K V) :
    s.dropDerived.tables.map Table.arguments = s.tables.map Table.arguments := by
  simp [dropDerived, Function.comp_def, Table.arguments_dropDerived]

theorem arguments_clearDerived (s : Store Q K V) :
    s.clearDerived.2.tables.map Table.arguments = s.tables.map Table.arguments :=
  s.clearDerived_eq ▸ s.arguments_dropDerived

variable [DecidableEq Q] [BEq K] {s s' : Store Q K V} {q : Q} {k : K} {key : Handle}

theorem lookup?_congr (h : s.tables.map Table.arguments = s'.tables.map Table.arguments) :
    s.lookup? q k = s'.lookup? q k := by
  have go : ∀ ts ts' : List (Table Q K V), ts.map Table.arguments = ts'.map Table.arguments →
      lookupAmong q k ts = lookupAmong q k ts' := by
    intro ts
    induction ts with
    | nil => intro ts' h; rw [List.map_eq_nil_iff.1 h.symm]
    | cons t ts ih =>
        intro ts' h
        obtain ⟨t', ts', rfl, ht, hts⟩ := List.map_eq_cons_iff.1 h.symm
        have hslot : t.slot? k = t'.slot? k := by
          have hrows := (Prod.mk.inj ht).2
          have hmap : ∀ t : Table Q K V,
              t.slot? k = (t.rows.toList.map Row.argument).findIdx? (· == k) := by
            intro t
            simp [Table.slot?, List.findIdx?_map, Function.comp_def]
          rw [hmap, hmap, hrows]
        simp [lookupAmong, (Prod.mk.inj ht).1, hslot, ih ts' hts.symm]
  exact go _ _ h

/-- Every handle is found by what it names. -/
def Indexed (s : Store Q K V) : Prop :=
  ∀ key q k, s.named? key = some (q, k) → s.lookup? q k = some key

theorem Indexed.inj (h : s.Indexed) {other : Handle} {x : Q × K} (hkey : s.named? key = some x)
    (hother : s.named? other = some x) : key = other := by
  have hfound := (h key x.1 x.2 hkey).symm.trans (h other x.1 x.2 hother)
  exact Option.some.inj hfound

theorem Indexed.congr (hs : s.Indexed)
    (h : s'.tables.map Table.arguments = s.tables.map Table.arguments) : s'.Indexed := by
  intro key q k hkey
  rw [named?_congr h] at hkey
  rw [lookup?_congr h]
  exact hs key q k hkey

theorem indexed_empty : (⟨[]⟩ : Store Q K V).Indexed := by
  intro key q k h
  simp [named?, find?] at h

theorem intern_of_lookup? (h : s.lookup? q k = some key) : s.intern q k = (key, s) := by
  have go : ∀ (ts : List (Table Q K V)) (key : Handle), lookupAmong q k ts = some key →
      internAmong q k ts = (key, ts) := by
    intro ts
    induction ts with
    | nil => simp [lookupAmong]
    | cons t ts ih =>
        intro key h
        by_cases hq : t.query = q
        · obtain ⟨slot, hslot, rfl⟩ :
              ∃ slot, t.slot? k = some slot ∧ (⟨0, slot⟩ : Handle) = key := by
            simpa [lookupAmong, hq] using h
          simp [internAmong, hq, Table.intern, hslot]
        · obtain ⟨other, hother, rfl⟩ : ∃ other, lookupAmong q k ts = some other ∧
              other.shift = key := by simpa [lookupAmong, hq] using h
          simp [internAmong, hq, ih other hother]
  simp [intern, go s.tables key h]

/-- `s'` has one row more than `s`: a bare one for query `q` at `k`, under `key`. -/
structure AddsRow (s s' : Store Q K V) (q : Q) (k : K) (key : Handle) : Prop where
  new : s.row? key = none
  row : ∀ other, s'.row? other = if other = key then some { argument := k } else s.row? other
  named : ∀ other, s'.named? other = if other = key then some (q, k) else s.named? other
  lookup : (k == k) = true → s'.lookup? q k = some key
  lookup_of_some : ∀ q' k' other, s.lookup? q' k' = some other → s'.lookup? q' k' = some other

namespace AddsRow

variable (h : s.AddsRow s' q k key)

include h

theorem named?_of_named? {other : Handle} {x : Q × K} (hx : s.named? other = some x) :
    s'.named? other = some x := by
  have hne : other ≠ key := by
    rintro rfl
    obtain ⟨row, hrow⟩ := named?_eq_some_iff_row?.1 ⟨x, hx⟩
    simp [h.new] at hrow
  simp [h.named, hne, hx]

theorem memo?_eq (other : Handle) : s'.memo? other = s.memo? other := by
  by_cases hkey : other = key
  · simp [memo?, h.row, hkey, h.new]
  · simp [memo?, h.row, hkey]

theorem removedAt_eq (other : Handle) : s'.removedAt other = s.removedAt other := by
  by_cases hkey : other = key
  · simp [removedAt, h.row, hkey, h.new]
  · simp [removedAt, h.row, hkey]

theorem indexed [ReflBEq K] (hs : s.Indexed) : s'.Indexed := by
  intro other q' k' hother
  rw [h.named] at hother
  split at hother
  · next hkey =>
      cases hother
      rw [hkey, h.lookup BEq.rfl]
  · exact h.lookup_of_some q' k' other (hs _ _ _ hother)

end AddsRow

/-- What is found is named by the same query, at an equal argument. -/
theorem exists_named?_of_lookup? (h : s.lookup? q k = some key) :
    ∃ k', s.named? key = some (q, k') ∧ (k' == k) = true := by
  have go : ∀ (ts : List (Table Q K V)) (key : Handle), lookupAmong q k ts = some key →
      ∃ k', (⟨ts⟩ : Store Q K V).named? key = some (q, k') ∧ (k' == k) = true := by
    intro ts
    induction ts with
    | nil => simp [lookupAmong]
    | cons t ts ih =>
        intro key h
        by_cases hq : t.query = q
        · obtain ⟨slot, hslot, rfl⟩ :
              ∃ slot, t.slot? k = some slot ∧ (⟨0, slot⟩ : Handle) = key := by
            simpa [lookupAmong, hq] using h
          obtain ⟨row, hrow, hk⟩ := Table.argument_of_slot? hslot
          exact ⟨row.argument, by simp [hrow, hq], hk⟩
        · obtain ⟨other, hother, rfl⟩ : ∃ other, lookupAmong q k ts = some other ∧
              other.shift = key := by simpa [lookupAmong, hq] using h
          simpa using ih other hother
  exact go s.tables key h

theorem addsRow_intern (h : s.lookup? q k = none) :
    s.AddsRow (s.intern q k).2 q k (s.intern q k).1 := by
  have go : ∀ ts : List (Table Q K V), lookupAmong q k ts = none →
      (⟨ts⟩ : Store Q K V).AddsRow ⟨(internAmong q k ts).2⟩ q k (internAmong q k ts).1 := by
    intro ts
    induction ts with
    | nil =>
        intro _
        refine ⟨rfl, fun other ↦ ?_, fun other ↦ ?_, fun hk ↦ ?_, fun q' k' other hother ↦ ?_⟩
        · rcases eq_zero_or_shift other with ⟨slot, rfl⟩ | ⟨other, rfl⟩
          · cases slot <;> simp [internAmong, row?, find?]
          · simp [internAmong, row?, find?, Handle.shift]
        · rcases eq_zero_or_shift other with ⟨slot, rfl⟩ | ⟨other, rfl⟩
          · cases slot <;> simp [internAmong, named?, find?]
          · simp [internAmong, named?, find?, Handle.shift]
        · simp [internAmong, lookup?, lookupAmong, Table.slot?, hk]
        · simp [lookup?, lookupAmong] at hother
    | cons t ts ih =>
        intro h
        by_cases hq : t.query = q
        · have hslot : t.slot? k = none := by simpa [lookupAmong, hq] using h
          subst hq
          have hkey : internAmong t.query k (t :: ts) = (⟨0, t.rows.size⟩,
              { t with rows := t.rows.push { argument := k } } :: ts) := by
            simp [internAmong, Table.intern, hslot]
          rw [hkey]
          refine ⟨by simp, fun other ↦ ?_, fun other ↦ ?_, fun hk ↦ ?_, fun q' k' other hother ↦ ?_⟩
          · rcases eq_zero_or_shift other with ⟨slot, rfl⟩ | ⟨other, rfl⟩
            · simp [Array.getElem?_push]
            · simp [Handle.shift_ne_zero]
          · rcases eq_zero_or_shift other with ⟨slot, rfl⟩ | ⟨other, rfl⟩
            · by_cases hs : slot = t.rows.size <;> simp [Array.getElem?_push, hs]
            · simp [Handle.shift_ne_zero]
          · simp [lookup?, lookupAmong, Table.slot?_push hk hslot]
          · by_cases hq : t.query = q'
            · subst hq
              obtain ⟨slot, hslot', rfl⟩ :
                  ∃ slot, t.slot? k' = some slot ∧ (⟨0, slot⟩ : Handle) = other := by
                simpa [lookup?, lookupAmong] using hother
              simp [lookup?, lookupAmong, Table.slot?_push_of_some hslot']
            · simpa [lookup?, lookupAmong, hq] using hother
        · have hts : lookupAmong q k ts = none := by simpa [lookupAmong, hq] using h
          have hadds := ih hts
          have hkey : internAmong q k (t :: ts) = ((internAmong q k ts).1.shift,
              t :: (internAmong q k ts).2) := by simp [internAmong, hq]
          rw [hkey]
          refine ⟨by simpa using hadds.new, fun other ↦ ?_, fun other ↦ ?_, fun hk ↦ ?_,
            fun q' k' other hother ↦ ?_⟩
          · rcases eq_zero_or_shift other with ⟨slot, rfl⟩ | ⟨other, rfl⟩
            · simp [Handle.shift_ne_zero.symm]
            · simpa [Handle.shift_inj] using hadds.row other
          · rcases eq_zero_or_shift other with ⟨slot, rfl⟩ | ⟨other, rfl⟩
            · simp [Handle.shift_ne_zero.symm]
            · simpa [Handle.shift_inj] using hadds.named other
          · have hfound := hadds.lookup hk
            simp only [lookup?] at hfound
            simp [lookup?, lookupAmong, hq, hfound]
          · by_cases hq' : t.query = q'
            · simpa [lookup?, lookupAmong, hq'] using hother
            · obtain ⟨other', hother', rfl⟩ : ∃ other', lookupAmong q' k' ts = some other' ∧
                  other'.shift = other := by simpa [lookup?, lookupAmong, hq'] using hother
              have hsame := hadds.lookup_of_some q' k' other' hother'
              simp only [lookup?] at hsame
              simp [lookup?, lookupAmong, hq', hsame]
  exact go s.tables h

/-- What interning does to a store. -/
theorem intern_cases (s : Store Q K V) (q : Q) (k : K) :
    (s.lookup? q k = some (s.intern q k).1 ∧ (s.intern q k).2 = s) ∨
      (s.lookup? q k = none ∧ s.AddsRow (s.intern q k).2 q k (s.intern q k).1) := by
  cases h : s.lookup? q k with
  | none => exact .inr ⟨rfl, addsRow_intern h⟩
  | some key =>
      rw [intern_of_lookup? h]
      exact .inl ⟨rfl, rfl⟩

theorem lookup?_intern {q' : Q} {k' : K} {other : Handle} (h : s.lookup? q' k' = some other)
    (q : Q) (k : K) : (s.intern q k).2.lookup? q' k' = some other := by
  rcases s.intern_cases q k with ⟨_, hsame⟩ | ⟨_, hadds⟩
  · rwa [hsame]
  · exact hadds.lookup_of_some q' k' other h

theorem lookup?_intern_self [ReflBEq K] (s : Store Q K V) (q : Q) (k : K) :
    (s.intern q k).2.lookup? q k = some (s.intern q k).1 := by
  rcases s.intern_cases q k with ⟨hfound, hsame⟩ | ⟨_, hadds⟩
  · rwa [hsame]
  · exact hadds.lookup BEq.rfl

theorem named?_intern {other : Handle} {x : Q × K} (hx : s.named? other = some x) (q : Q) (k : K) :
    (s.intern q k).2.named? other = some x := by
  rcases s.intern_cases q k with ⟨_, hsame⟩ | ⟨_, hadds⟩
  · rwa [hsame]
  · exact hadds.named?_of_named? hx

@[simp] theorem memo?_intern (s : Store Q K V) (q : Q) (k : K) (other : Handle) :
    (s.intern q k).2.memo? other = s.memo? other := by
  rcases s.intern_cases q k with ⟨_, hsame⟩ | ⟨_, hadds⟩
  · rw [hsame]
  · exact hadds.memo?_eq other

@[simp] theorem removedAt_intern (s : Store Q K V) (q : Q) (k : K) (other : Handle) :
    (s.intern q k).2.removedAt other = s.removedAt other := by
  rcases s.intern_cases q k with ⟨_, hsame⟩ | ⟨_, hadds⟩
  · rw [hsame]
  · exact hadds.removedAt_eq other

theorem Indexed.intern [ReflBEq K] (h : s.Indexed) (q : Q) (k : K) :
    (s.intern q k).2.Indexed := by
  rcases s.intern_cases q k with ⟨_, hsame⟩ | ⟨_, hadds⟩
  · rwa [hsame]
  · exact hadds.indexed h

section

variable [LawfulBEq K]

theorem named?_of_lookup? (h : s.lookup? q k = some key) : s.named? key = some (q, k) := by
  obtain ⟨k', hname, hk⟩ := exists_named?_of_lookup? h
  rw [hname, eq_of_beq hk]

theorem eq_of_lookup? {x y : Q × K} (hx : s.lookup? x.1 x.2 = some key)
    (hy : s.lookup? y.1 y.2 = some key) : x = y :=
  Option.some.inj ((named?_of_lookup? hx).symm.trans (named?_of_lookup? hy))

end

end Store

end Incremental
