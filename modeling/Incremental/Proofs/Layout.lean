import Incremental.Proofs.Naming

/-!
# How a store is laid out

The rows of a table lie in containers side by side: the arguments that were seen, the number of each
in a hash map, and what is kept for each of them. Another hash map tells the table of each query.
The containers are updated one after the other, by accesses that come to a row through its query
and its number, or through its handle. They agree with each other all along, and what they come to
is the store of tables of rows.
-/

namespace Incremental

variable {Q K V : Type}

/-- What is kept for an argument, without the argument. -/
structure Cell (V : Type) where
  memo : Option (Memo V) := none
  removedAt : Revision := Revision.initial

namespace Cell

def row (cell : Cell V) (k : K) : Row K V := ⟨k, cell.memo, cell.removedAt⟩

def insert (memo : Memo V) (cell : Cell V) : Cell V := { cell with memo := some memo }

def remove (r : Revision) (cell : Cell V) : Cell V :=
  if cell.memo.isSome then ⟨none, r⟩ else cell

theorem row_remove (r : Revision) (cell : Cell V) (k : K) : (cell.remove r).row k =
    if (cell.row k).memo.isSome then (cell.row k).erase r else cell.row k := by
  unfold remove
  split
  · next h => rw [if_pos (show (cell.row k).memo.isSome from h)]; rfl
  · next h => rw [if_neg (show ¬ (cell.row k).memo.isSome from h)]

def markVerified (r : Revision) (cell : Cell V) : Cell V :=
  { cell with memo := cell.memo.map (Memo.verified r) }

/-- Empties the cell if its memo was computed, and counts the memo. -/
def clearDerived (cell : Cell V) : Nat × Cell V :=
  if cell.memo.any (!·.isInput) then (1, { cell with memo := none }) else (0, cell)

theorem row_clearDerived (cell : Cell V) (k : K) :
    cell.clearDerived.2.row k = (cell.row k).dropDerived := by
  rcases cell with ⟨_ | _ | _, r⟩ <;> rfl

end Cell

/-- A table in its containers. -/
structure Columns (Q K V : Type) [BEq K] [Hashable K] where
  query : Q
  /-- The number of the table. -/
  index : Nat
  keys : Array K := #[]
  slots : Std.HashMap K Nat := {}
  cells : Array (Cell V) := #[]

namespace Columns

variable [BEq K] [Hashable K]

/-- Extends each container for a new argument. -/
def push (t : Columns Q K V) (k : K) : Columns Q K V :=
  let slot := t.keys.size
  let t := { t with keys := t.keys.push k }
  let t := { t with slots := t.slots.insert k slot }
  { t with cells := t.cells.push {} }

def intern (t : Columns Q K V) (k : K) : Handle × Columns Q K V :=
  match t.slots[k]? with
  | some slot => (⟨t.index, slot⟩, t)
  | none => (⟨t.index, t.keys.size⟩, t.push k)

def lookup? (t : Columns Q K V) (k : K) : Option Handle := t.slots[k]?.map (⟨t.index, ·⟩)

def modify (t : Columns Q K V) (slot : Nat) (f : Cell V → Cell V) : Columns Q K V :=
  { t with cells := t.cells.modify slot f }

/-- Drops what was computed, and counts it on the way. -/
def clearDerived (t : Columns Q K V) : Nat × Columns Q K V :=
  let (count, cells) := sweep Cell.clearDerived t.cells
  (count, { t with cells })

def memos (t : Columns Q K V) : List (Memo V) := t.cells.toList.filterMap Cell.memo

def table (t : Columns Q K V) : Table Q K V where
  query := t.query
  rows := Array.zipWith (fun k cell ↦ cell.row k) t.keys t.cells

/-- The containers have one size, and the map leads from each argument to its number. -/
structure Aligned (t : Columns Q K V) : Prop where
  cells : t.cells.size = t.keys.size
  size : t.slots.size = t.keys.size
  slots : ∀ (k : K) i, t.slots[k]? = some i ↔ ∃ k', t.keys[i]? = some k' ∧ (k' == k) = true

namespace Aligned

variable {t : Columns Q K V}

theorem of_empty [EquivBEq K] [LawfulHashable K] (q : Q) (index : Nat) :
    ({ query := q, index } : Columns Q K V).Aligned := by
  constructor <;> simp

theorem of_cells (h : t.Aligned) {cells : Array (Cell V)} (hcells : cells.size = t.cells.size) :
    Aligned { t with cells } :=
  ⟨hcells.trans h.cells, h.size, h.slots⟩

theorem arguments_table (h : t.Aligned) : t.table.arguments = (t.query, t.keys.toList) := by
  refine Prod.ext rfl (List.ext_getElem ?_ fun i _ _ ↦ ?_)
  · simp [Table.arguments, table, h.cells]
  · simp [Table.arguments, table, Cell.row]

/-- The map tells the first row of an argument. -/
theorem slot?_table (h : t.Aligned) (k : K) : t.table.slot? k = t.slots[k]? := by
  have hkeys : t.table.slot? k = t.keys.toList.findIdx? (· == k) := by
    have harguments := congrArg Prod.snd h.arguments_table
    simp only [Table.arguments] at harguments
    rw [← harguments, Table.slot?, List.findIdx?_map]
    rfl
  rw [hkeys]
  cases hslot : t.slots[k]? with
  | none =>
      rw [List.findIdx?_eq_none_iff]
      intro k' hk'
      obtain ⟨i, hi⟩ := List.mem_iff_getElem?.1 hk'
      by_contra hne
      have hfound := (h.slots k i).2 ⟨k', by simpa using hi, by simpa using hne⟩
      cases hslot.symm.trans hfound
  | some i =>
      obtain ⟨k', hk', heq⟩ := (h.slots k i).1 hslot
      obtain ⟨hi, rfl⟩ := Array.getElem?_eq_some_iff.1 hk'
      refine List.findIdx?_eq_some_iff_getElem.2 ⟨by simpa using hi, by simpa using heq, ?_⟩
      intro j hj hbeq
      have hfound := (h.slots k j).2 ⟨t.keys[j], by simp, by simpa using hbeq⟩
      cases hslot.symm.trans hfound
      exact Nat.lt_irrefl _ hj

variable [EquivBEq K] [LawfulHashable K] {k : K}

theorem push (h : t.Aligned) (hslot : t.slots[k]? = none) : (t.push k).Aligned := by
  have hnew : ∀ (i : Nat) k', t.keys[i]? = some k' → (k' == k) = false := by
    intro i k' hk'
    by_contra hne
    cases hslot.symm.trans ((h.slots k i).2 ⟨k', hk', by simpa using hne⟩)
  refine ⟨by simp [Columns.push, h.cells], ?_, fun k' i ↦ ?_⟩
  · have hmem : k ∉ t.slots := by simpa using hslot
    simp [Columns.push, Std.HashMap.size_insert, hmem, h.size]
  · change (t.slots.insert k t.keys.size)[k']? = some i ↔ ∃ k'', (t.keys.push k)[i]? = some k'' ∧ _
    rw [Std.HashMap.getElem?_insert]
    by_cases hk : (k == k') = true
    · rw [if_pos hk]
      constructor
      · rintro heq
        cases heq
        exact ⟨k, by simp, hk⟩
      · rintro ⟨k'', hk'', heq⟩
        by_contra hne
        have hi : i ≠ t.keys.size := fun hi ↦ hne (congrArg some hi.symm)
        rw [Array.getElem?_push, if_neg hi] at hk''
        exact Bool.false_ne_true ((hnew i k'' hk'').symm.trans (BEq.trans heq (BEq.symm hk)))
    · rw [if_neg hk, h.slots]
      refine exists_congr fun k'' ↦ and_congr_left fun heq ↦ ?_
      rw [Array.getElem?_push]
      split
      · next hi =>
          rw [hi]
          refine iff_of_false (by simp) fun heq' ↦ hk ?_
          cases heq'
          exact heq
      · exact Iff.rfl

omit [EquivBEq K] [LawfulHashable K] in
theorem table_push (h : t.Aligned) (k : K) :
    (t.push k).table = { t.table with rows := t.table.rows.push { argument := k } } := by
  have hlast : Array.zipWith (fun k (cell : Cell V) ↦ cell.row k) #[k] #[{}] =
      #[{ argument := k }] := Array.ext' (by simp [Cell.row])
  simp only [table, Columns.push, ← Array.append_singleton, Array.zipWith_append h.cells.symm,
    hlast]

theorem intern (h : t.Aligned) (k : K) : (t.intern k).2.Aligned ∧
    (t.intern k).2.query = t.query ∧ (t.intern k).2.index = t.index ∧
      (t.intern k).1 = ⟨t.index, (t.table.intern k).1⟩ ∧
      (t.intern k).2.table = (t.table.intern k).2 := by
  unfold Columns.intern Table.intern
  rw [h.slot?_table]
  cases hslot : t.slots[k]? with
  | some slot => exact ⟨h, rfl, rfl, rfl, rfl⟩
  | none =>
      have hsize : t.keys.size = t.table.rows.size := by simp [table, h.cells]
      exact ⟨h.push hslot, rfl, rfl, by rw [hsize], h.table_push k⟩

end Aligned

theorem table_modify (t : Columns Q K V) (slot : Nat) {f : Cell V → Cell V}
    {g : Row K V → Row K V} (hf : ∀ cell k, (f cell).row k = g (cell.row k)) :
    (t.modify slot f).table = t.table.modify slot g := by
  have hrows : (t.modify slot f).table.rows = (t.table.modify slot g).rows := by
    refine Array.ext_getElem? fun i ↦ ?_
    rw [Table.rows_modify]
    simp only [table, modify, Array.getElem?_zipWith, Array.getElem?_modify]
    by_cases hi : slot = i
    · subst hi
      cases t.keys[slot]? <;> cases t.cells[slot]? <;> simp [hf]
    · simp only [if_neg hi]
  have hquery : (t.modify slot f).table.query = (t.table.modify slot g).query :=
    (Table.query_modify t.table slot g).symm
  cases h : t.table.modify slot g
  rw [h] at hrows hquery
  exact congr (congrArg Table.mk hquery) hrows

theorem clearDerived_eq (t : Columns Q K V) :
    t.clearDerived = (t.memos.countP (!·.isInput),
      { t with cells := t.cells.map fun cell ↦ cell.clearDerived.2 }) := by
  have hcell : ∀ cell : Cell V, cell.clearDerived.1 = cell.memo.toList.countP (!·.isInput) := by
    rintro ⟨_ | _ | _, r⟩ <;> rfl
  rw [clearDerived, sweep_eq hcell, memos, List.filterMap_eq_flatMap_toList]

theorem Aligned.clearDerived {t : Columns Q K V} (h : t.Aligned) : t.clearDerived.2.Aligned := by
  rw [clearDerived_eq]
  exact h.of_cells Array.size_map

theorem Aligned.memos_table {t : Columns Q K V} (h : t.Aligned) : t.table.memos = t.memos := by
  have hrows : t.table.rows.toList.map Row.memo = t.cells.toList.map Cell.memo := by
    refine List.ext_getElem (by simp [table, h.cells]) fun i _ _ ↦ ?_
    simp [table, Cell.row]
  have hmemos := congrArg (List.filterMap id) hrows
  rwa [List.filterMap_map, List.filterMap_map] at hmemos

theorem dropDerived_table (t : Columns Q K V) : t.table.dropDerived = t.clearDerived.2.table := by
  rw [clearDerived_eq]
  refine congrArg (Table.mk t.query) (Array.ext_getElem? fun i ↦ ?_)
  simp only [table, Array.getElem?_map, Array.getElem?_zipWith]
  cases t.keys[i]? <;> cases t.cells[i]? <;> simp [Cell.row_clearDerived]

end Columns

namespace Store

/-- Only the row that is there counts. -/
theorem modify_congr {s : Store Q K V} {key : Handle} {f f' : Row K V → Row K V}
    (h : ∀ row, s.row? key = some row → f row = f' row) : s.modify key f = s.modify key f' := by
  simp only [modify, List.modify_eq_set_getElem?]
  cases ht : s.tables[key.table]? with
  | none => rfl
  | some t =>
      have hsame : t.modify key.slot f = t.modify key.slot f' := by
        unfold Table.modify
        split
        · rfl
        · next row hrow => rw [h row (by simp [row?, find?, ht, hrow])]
      simp [hsame]

variable [DecidableEq Q] [BEq K] {q : Q} {k : K} {ts : List (Table Q K V)} {t : Table Q K V}
  {i : Nat}

theorem lookupAmong_of_forall_ne (h : ∀ t ∈ ts, t.query ≠ q) : lookupAmong q k ts = none := by
  induction ts with
  | nil => rfl
  | cons t ts ih =>
      rw [lookupAmong, if_neg (h t List.mem_cons_self),
        ih fun t ht ↦ h t (List.mem_cons_of_mem _ ht)]
      rfl

/-- An empty table of the query at the end makes no difference. -/
theorem internAmong_append_empty (h : ∀ t ∈ ts, t.query ≠ q) :
    internAmong q k (ts ++ [{ query := q, rows := #[] }]) = internAmong q k ts := by
  induction ts with
  | nil => simp [internAmong, Table.intern, Table.slot?]
  | cons t ts ih =>
      rw [List.cons_append, internAmong, internAmong, if_neg (h t List.mem_cons_self),
        if_neg (h t List.mem_cons_self), ih fun t ht ↦ h t (List.mem_cons_of_mem _ ht)]

/-- The first table of a query is the one that is asked. -/
theorem lookupAmong_of_getElem? (ht : ts[i]? = some t) (hq : t.query = q)
    (hfirst : ∀ j < i, ∀ t', ts[j]? = some t' → t'.query ≠ q) :
    lookupAmong q k ts = (t.slot? k).map fun slot ↦ ⟨i, slot⟩ := by
  induction ts generalizing i with
  | nil => simp at ht
  | cons t' ts ih =>
      cases i with
      | zero =>
          cases ht
          rw [lookupAmong, if_pos hq]
      | succ i =>
          rw [lookupAmong, if_neg (hfirst 0 (Nat.succ_pos i) t' rfl),
            ih ht fun j hj t'' ht'' ↦ hfirst (j + 1) (Nat.succ_lt_succ hj) t'' ht'', Option.map_map]
          rfl

theorem internAmong_of_getElem? (ht : ts[i]? = some t) (hq : t.query = q)
    (hfirst : ∀ j < i, ∀ t', ts[j]? = some t' → t'.query ≠ q) :
    internAmong q k ts = (⟨i, (t.intern k).1⟩, ts.set i (t.intern k).2) := by
  induction ts generalizing i with
  | nil => simp at ht
  | cons t' ts ih =>
      cases i with
      | zero =>
          cases ht
          rw [internAmong, if_pos hq]
          rfl
      | succ i =>
          rw [internAmong, if_neg (hfirst 0 (Nat.succ_pos i) t' rfl),
            ih ht fun j hj t'' ht'' ↦ hfirst (j + 1) (Nat.succ_lt_succ hj) t'' ht'']
          rfl

end Store

/-- The tables of all queries, and the number of the table of each query. -/
structure Registry (Q K V : Type) [DecidableEq Q] [Hashable Q] [BEq K] [Hashable K] where
  tables : Array (Columns Q K V) := #[]
  indices : Std.HashMap Q Nat := {}

namespace Registry

variable [DecidableEq Q] [Hashable Q] [BEq K] [Hashable K]

/-- The number of the table of a query, which gets one if it has none. -/
def register (g : Registry Q K V) (q : Q) : Nat × Registry Q K V :=
  match g.indices[q]? with
  | some i => (i, g)
  | none =>
    let i := g.tables.size
    let g := { g with tables := g.tables.push { query := q, index := i } }
    (i, { g with indices := g.indices.insert q i })

/-- The table with a number, if it is that of the query. -/
def typed? (g : Registry Q K V) (q : Q) (i : Nat) : Option (Columns Q K V) :=
  g.tables[i]?.filter fun t ↦ t.query = q

def intern? (g : Registry Q K V) (q : Q) (k : K) : Option (Handle × Registry Q K V) :=
  let (i, g) := g.register q
  (g.typed? q i).map fun t ↦
    ((t.intern k).1, { g with tables := g.tables.setIfInBounds i (t.intern k).2 })

def lookup? (g : Registry Q K V) (q : Q) (k : K) : Option Handle :=
  g.indices[q]?.bind fun i ↦ (g.typed? q i).bind (·.lookup? k)

/-- Changes what is kept under a number in the table of a query. -/
def update? (g : Registry Q K V) (q : Q) (slot : Nat) (f : Cell V → Cell V) :
    Option (Registry Q K V) :=
  let (i, g) := g.register q
  (g.typed? q i).map fun t ↦ { g with tables := g.tables.setIfInBounds i (t.modify slot f) }

/-- Changes what is kept under a handle, of whatever query. -/
def modify (g : Registry Q K V) (key : Handle) (f : Cell V → Cell V) : Registry Q K V :=
  { g with tables := g.tables.modify key.table (·.modify key.slot f) }

/-- Drops what was computed, table by table, and adds up how much that was. -/
def clearDerived (g : Registry Q K V) : Nat × Registry Q K V :=
  let (count, tables) := sweep Columns.clearDerived g.tables
  (count, { g with tables })

/-- What a handle is described by. -/
def named? (g : Registry Q K V) (key : Handle) : Option (Q × K) :=
  g.tables[key.table]?.bind fun t ↦ t.keys[key.slot]?.map (t.query, ·)

def store (g : Registry Q K V) : Store Q K V := ⟨g.tables.toList.map Columns.table⟩

theorem clearDerived_eq (g : Registry Q K V) :
    g.clearDerived = ((g.tables.toList.flatMap Columns.memos).countP (!·.isInput),
      { g with tables := g.tables.map fun t ↦ t.clearDerived.2 }) := by
  rw [clearDerived, sweep_eq fun t ↦ congrArg Prod.fst t.clearDerived_eq]

/-- The map leads from each query to the number of its table, and the containers of each table
agree. -/
structure Aligned (g : Registry Q K V) : Prop where
  size : g.indices.size = g.tables.size
  indices : ∀ (q : Q) (i : Nat), g.indices[q]? = some i ↔ ∃ t, g.tables[i]? = some t ∧ t.query = q
  index : ∀ (i : Nat) t, g.tables[i]? = some t → t.index = i
  tables : ∀ (i : Nat) t, g.tables[i]? = some t → t.Aligned

namespace Aligned

variable {g : Registry Q K V} {q : Q} {k : K} {i : Nat} {t : Columns Q K V}

theorem empty : ({} : Registry Q K V).Aligned := by
  constructor <;> simp

theorem typed? (h : g.Aligned) (hq : g.indices[q]? = some i) :
    ∃ t, g.typed? q i = some t ∧ g.tables[i]? = some t ∧ t.query = q := by
  obtain ⟨t, ht, rfl⟩ := (h.indices q i).1 hq
  exact ⟨t, by simp [Registry.typed?, ht], ht, rfl⟩

/-- A table may be replaced by another one of the same query. -/
theorem set (h : g.Aligned) (ht : g.tables[i]? = some t) {t' : Columns Q K V}
    (hquery : t'.query = t.query) (hindex : t'.index = t.index) (ht' : t'.Aligned) :
    Aligned { g with tables := g.tables.setIfInBounds i t' } := by
  have hlt : i < g.tables.size := (Array.getElem?_eq_some_iff.1 ht).1
  have hget : ∀ j : Nat, (g.tables.setIfInBounds i t')[j]? =
      if i = j then some t' else g.tables[j]? := by
    intro j
    rw [Array.getElem?_setIfInBounds, if_pos hlt]
  have hcases : ∀ (j : Nat) u, (g.tables.setIfInBounds i t')[j]? = some u →
      i = j ∧ u = t' ∨ g.tables[j]? = some u := by
    intro j u hu
    rw [hget] at hu
    split at hu
    · next hj => exact .inl ⟨hj, (Option.some.inj hu).symm⟩
    · exact .inr hu
  refine ⟨by simp [h.size], fun q j ↦ (h.indices q j).trans ?_, fun j u hu ↦ ?_, fun j u hu ↦ ?_⟩
  · dsimp only
    rw [hget]
    split
    · next hj =>
        subst hj
        simp [ht, hquery]
    · exact Iff.rfl
  · obtain ⟨rfl, rfl⟩ | hu := hcases j u hu
    · exact hindex.trans (h.index _ t ht)
    · exact h.index j u hu
  · obtain ⟨rfl, rfl⟩ | hu := hcases j u hu
    · exact ht'
    · exact h.tables j u hu

theorem push [EquivBEq K] [LawfulHashable K] (h : g.Aligned) (hq : g.indices[q]? = none) :
    Aligned { tables := g.tables.push { query := q, index := g.tables.size }
              indices := g.indices.insert q g.tables.size } := by
  have hnew : ∀ (i : Nat) t, g.tables[i]? = some t → t.query ≠ q := by
    intro i t ht heq
    cases hq.symm.trans ((h.indices q i).2 ⟨t, ht, heq⟩)
  have hcases : ∀ (i : Nat) u,
      (g.tables.push { query := q, index := g.tables.size })[i]? = some u →
      i = g.tables.size ∧ u = { query := q, index := g.tables.size } ∨ g.tables[i]? = some u := by
    intro i u hu
    rw [Array.getElem?_push] at hu
    split at hu
    · next hi => exact .inl ⟨hi, (Option.some.inj hu).symm⟩
    · exact .inr hu
  refine ⟨?_, fun q' i ↦ ?_, fun i u hu ↦ ?_, fun i u hu ↦ ?_⟩
  · have hmem : q ∉ g.indices := by simpa using hq
    simp [Std.HashMap.size_insert, hmem, h.size]
  · dsimp only
    rw [Std.HashMap.getElem?_insert]
    by_cases hk : q = q'
    · subst hk
      rw [if_pos (by simp)]
      constructor
      · rintro heq
        cases heq
        exact ⟨_, Array.getElem?_push_size, rfl⟩
      · rintro ⟨t, ht, heq⟩
        obtain ⟨rfl, _⟩ | ht := hcases i t ht
        · rfl
        · exact absurd heq (hnew i t ht)
    · rw [if_neg (by simpa using hk), h.indices]
      constructor
      · rintro ⟨t, ht, heq⟩
        have hi : i ≠ g.tables.size := Nat.ne_of_lt (Array.getElem?_eq_some_iff.1 ht).1
        exact ⟨t, by rw [Array.getElem?_push, if_neg hi, ht], heq⟩
      · rintro ⟨t, ht, heq⟩
        obtain ⟨_, rfl⟩ | ht := hcases i t ht
        · exact absurd heq hk
        · exact ⟨t, ht, heq⟩
  · obtain ⟨rfl, rfl⟩ | hu := hcases i u hu
    · rfl
    · exact h.index i u hu
  · obtain ⟨rfl, rfl⟩ | hu := hcases i u hu
    · exact .of_empty q _
    · exact h.tables i u hu

theorem clearDerived (h : g.Aligned) : g.clearDerived.2.Aligned := by
  have hget : ∀ i : Nat, g.clearDerived.2.tables[i]? =
      g.tables[i]?.map fun t ↦ t.clearDerived.2 := by
    intro i
    rw [clearDerived_eq]
    exact Array.getElem?_map ..
  refine ⟨by simp [clearDerived_eq, h.size], fun q i ↦ ?_, fun i u hu ↦ ?_, fun i u hu ↦ ?_⟩
  · rw [hget]
    refine (h.indices q i).trans ?_
    simp [Columns.clearDerived_eq]
  all_goals
    rw [hget] at hu
    obtain ⟨t, ht, rfl⟩ := Option.map_eq_some_iff.mp hu
  · rw [Columns.clearDerived_eq]
    exact h.index i t ht
  · exact (h.tables i t ht).clearDerived

/-- The clearing of the containers counts and keeps what the clearing of the rows does. -/
theorem clearDerived_store (h : g.Aligned) :
    g.store.clearDerived = (g.clearDerived.1, g.clearDerived.2.store) := by
  have hmemos : g.store.memos = g.tables.toList.flatMap Columns.memos := by
    simp only [store, Store.memos, List.flatMap_map]
    refine List.flatMap_congr fun t ht ↦ ?_
    obtain ⟨i, ht⟩ := List.mem_iff_getElem?.1 ht
    exact (h.tables i t (Array.getElem?_toList ▸ ht)).memos_table
  have hdropped : g.store.dropDerived = g.clearDerived.2.store := by
    simp [clearDerived_eq, store, Store.dropDerived, Columns.dropDerived_table]
  rw [Store.clearDerived_eq, Store.derivedCount, hmemos, hdropped, clearDerived_eq]

theorem getElem?_store (g : Registry Q K V) (i : Nat) :
    g.store.tables[i]? = g.tables[i]?.map Columns.table := by
  simp [store]

theorem store_set (g : Registry Q K V) (i : Nat) (t : Columns Q K V) :
    store { g with tables := g.tables.setIfInBounds i t } = ⟨g.store.tables.set i t.table⟩ := by
  simp [store, List.map_set]

theorem store_modify (ht : g.tables[i]? = some t) {slot : Nat} {f : Cell V → Cell V}
    {f' : Row K V → Row K V} (hf : ∀ cell k, (f cell).row k = f' (cell.row k)) :
    g.store.modify ⟨i, slot⟩ f' = ⟨g.store.tables.set i (t.modify slot f).table⟩ := by
  rw [Store.modify, List.modify_eq_set_getElem?, getElem?_store, ht, t.table_modify slot hf]
  rfl

theorem indices_of_named? (h : g.Aligned) {key : Handle} (hkey : g.store.named? key = some (q, k)) :
    g.indices[q]? = some key.table := by
  unfold Store.named? Store.find? at hkey
  rw [getElem?_store] at hkey
  cases ht : g.tables[key.table]? with
  | none => simp [ht] at hkey
  | some t =>
      rw [ht, Option.map_some, Option.bind_some, Option.map_map] at hkey
      obtain ⟨row, _, hname⟩ := Option.map_eq_some_iff.mp hkey
      exact (h.indices q key.table).2 ⟨t, ht, congrArg Prod.fst hname⟩

/-- The table of a query is the first one of it. -/
theorem forall_ne_of_lt (h : g.Aligned) (hq : g.indices[q]? = some i) :
    ∀ j < i, ∀ t, g.store.tables[j]? = some t → t.query ≠ q := by
  rintro j hj t ht rfl
  rw [getElem?_store] at ht
  obtain ⟨u, hu, rfl⟩ := Option.map_eq_some_iff.mp ht
  cases hq.symm.trans ((h.indices u.query j).2 ⟨u, hu, rfl⟩)
  exact Nat.lt_irrefl _ hj

theorem forall_ne (h : g.Aligned) (hq : g.indices[q]? = none) :
    ∀ t ∈ g.store.tables, t.query ≠ q := by
  rintro t ht rfl
  obtain ⟨j, ht⟩ := List.mem_iff_getElem?.1 ht
  rw [getElem?_store] at ht
  obtain ⟨u, hu, rfl⟩ := Option.map_eq_some_iff.mp ht
  cases hq.symm.trans ((h.indices u.query j).2 ⟨u, hu, rfl⟩)

theorem lookup?_store (h : g.Aligned) (q : Q) (k : K) : g.store.lookup? q k = g.lookup? q k := by
  unfold Store.lookup? Registry.lookup?
  cases hq : g.indices[q]? with
  | none => exact Store.lookupAmong_of_forall_ne (h.forall_ne hq)
  | some i =>
      obtain ⟨t, htyped, ht, hquery⟩ := h.typed? hq
      have hget : g.store.tables[i]? = some t.table := by rw [getElem?_store, ht]; rfl
      rw [Store.lookupAmong_of_getElem? hget hquery (h.forall_ne_of_lt hq),
        (h.tables i t ht).slot?_table, Option.bind_some, htyped, Option.bind_some,
        Columns.lookup?, h.index i t ht]

/-- A handle is described by the row that it leads to. -/
theorem named?_store (h : g.Aligned) (key : Handle) : g.store.named? key = g.named? key := by
  unfold Store.named? Store.find? Registry.named?
  rw [getElem?_store]
  cases ht : g.tables[key.table]? with
  | none => rfl
  | some t =>
      have hcells := (h.tables key.table t ht).cells
      simp only [Option.map_some, Option.bind_some, Option.map_map, Columns.table,
        Array.getElem?_zipWith]
      cases hk : t.keys[key.slot]? with
      | none => rfl
      | some k =>
          obtain ⟨hlt, _⟩ := Array.getElem?_eq_some_iff.1 hk
          rw [Array.getElem?_eq_getElem (hcells ▸ hlt)]
          rfl

variable [EquivBEq K] [LawfulHashable K]

theorem register (h : g.Aligned) (q : Q) : (g.register q).2.Aligned ∧
    (g.register q).2.indices[q]? = some (g.register q).1 ∧
    ∀ k, (g.register q).2.store.intern q k = g.store.intern q k := by
  unfold Registry.register
  cases hq : g.indices[q]? with
  | some i => exact ⟨h, hq, fun _ ↦ rfl⟩
  | none =>
      have hpush := h.push hq
      have hfound : (g.indices.insert q g.tables.size)[q]? = some g.tables.size := by simp
      refine ⟨hpush, hfound, fun k ↦ ?_⟩
      have htables : store { tables := g.tables.push { query := q, index := g.tables.size }
                             indices := g.indices.insert q g.tables.size } =
          ⟨g.store.tables ++ [{ query := q, rows := #[] }]⟩ := by
        simp [store, Columns.table]
      unfold Store.intern
      rw [htables, Store.internAmong_append_empty (h.forall_ne hq)]

/-- Interning never comes to a table of another query, and gives the handle that it gives in a store
of rows. -/
theorem intern? (h : g.Aligned) (q : Q) (k : K) : ∃ g', g.intern? q k =
    some ((g.store.intern q k).1, g') ∧ g'.store = (g.store.intern q k).2 ∧ g'.Aligned := by
  obtain ⟨haligned, hq, hsame⟩ := h.register q
  obtain ⟨i, g₁, hregister⟩ : ∃ i g₁, g.register q = (i, g₁) := ⟨_, _, rfl⟩
  simp only [Registry.intern?, hregister] at haligned hq hsame ⊢
  rw [← hsame]
  obtain ⟨t, htyped, ht, hquery⟩ := haligned.typed? hq
  obtain ⟨ht', hquery', hindex, hkey, htable⟩ := (haligned.tables i t ht).intern k
  have hget : g₁.store.tables[i]? = some t.table := by rw [getElem?_store, ht]; rfl
  have hstore : g₁.store.intern q k =
      (⟨i, (t.table.intern k).1⟩, ⟨g₁.store.tables.set i (t.table.intern k).2⟩) := by
    unfold Store.intern
    rw [Store.internAmong_of_getElem? hget hquery (haligned.forall_ne_of_lt hq)]
  rw [htyped, hstore]
  refine ⟨_, ?_, ?_, haligned.set ht hquery' hindex ht'⟩
  · rw [Option.map_some, hkey, haligned.index i t ht]
  · rw [store_set, htable]

omit [EquivBEq K] [LawfulHashable K] in
/-- A change of what is kept for a query comes to the row that the handle names. -/
theorem update? (h : g.Aligned) {key : Handle} (hkey : g.store.named? key = some (q, k))
    (f : Cell V → Cell V) (f' : Row K V → Row K V)
    (hf : ∀ cell k, (f cell).row k = f' (cell.row k)) :
    ∃ g', g.update? q key.slot f = some g' ∧ g'.store = g.store.modify key f' ∧ g'.Aligned := by
  have hq := h.indices_of_named? hkey
  obtain ⟨t, htyped, ht, hquery⟩ := h.typed? hq
  have hregister : g.register q = (key.table, g) := by simp only [Registry.register, hq]
  simp only [Registry.update?, hregister, htyped, Option.map_some]
  refine ⟨_, rfl, ?_, h.set ht rfl rfl ((h.tables _ t ht).of_cells Array.size_modify)⟩
  rw [store_set, store_modify ht hf]

omit [EquivBEq K] [LawfulHashable K] in
theorem modify (h : g.Aligned) (key : Handle) (f : Cell V → Cell V) (f' : Row K V → Row K V)
    (hf : ∀ cell k, (f cell).row k = f' (cell.row k)) :
    (g.modify key f).store = g.store.modify key f' ∧ (g.modify key f).Aligned := by
  cases ht : g.tables[key.table]? with
  | none =>
      have hsame : g.modify key f = g := by
        refine congrArg (Registry.mk · g.indices) (Array.ext_getElem? fun j ↦ ?_)
        rw [Array.getElem?_modify]
        split
        · next hj => rw [← hj, ht]; rfl
        · rfl
      rw [hsame, Store.modify, List.modify_eq_set_getElem?, getElem?_store, ht]
      exact ⟨rfl, h⟩
  | some t =>
      have hset : g.modify key f =
          { g with tables := g.tables.setIfInBounds key.table (t.modify key.slot f) } := by
        refine congrArg (Registry.mk · g.indices) (Array.ext_getElem? fun j ↦ ?_)
        have hlt : key.table < g.tables.size := (Array.getElem?_eq_some_iff.1 ht).1
        rw [Array.getElem?_modify, Array.getElem?_setIfInBounds, if_pos hlt]
        split
        · next hj => rw [← hj, ht]; rfl
        · rfl
      rw [hset, store_set, ← store_modify ht hf]
      exact ⟨rfl, h.set ht rfl rfl ((h.tables _ t ht).of_cells Array.size_modify)⟩

end Aligned

end Registry

/-- The store `s` and the containers `g` came about by the same accesses, none of which came to a
table of another query. -/
inductive Store.Lays [DecidableEq Q] [Hashable Q] [BEq K] [Hashable K] :
    Store Q K V → Registry Q K V → Prop
  | empty : Lays {} {}
  | intern {s : Store Q K V} {g g' : Registry Q K V} {q : Q} {k : K} {key : Handle} (h : Lays s g)
      (hg : g.intern? q k = some (key, g')) : Lays (s.intern q k).2 g'
  | insert {s : Store Q K V} {g g' : Registry Q K V} {q : Q} {k : K} {key : Handle} {m : Memo V}
      (h : Lays s g) (hkey : s.named? key = some (q, k))
      (hg : g.update? q key.slot (.insert m) = some g') : Lays (s.insert key m) g'
  | erase {s : Store Q K V} {g g' : Registry Q K V} {q : Q} {k : K} {key : Handle} {m : Memo V}
      {r : Revision} (h : Lays s g) (hkey : s.named? key = some (q, k)) (hm : s.memo? key = some m)
      (hg : g.update? q key.slot (.remove r) = some g') : Lays (s.erase key r) g'
  | markVerified {s : Store Q K V} {g : Registry Q K V} {key : Handle} {r : Revision}
      (h : Lays s g) : Lays (s.markVerified key r) (g.modify key (.markVerified r))
  | clearDerived {s : Store Q K V} {g : Registry Q K V} (h : Lays s g) :
      Lays s.clearDerived.2 g.clearDerived.2

namespace Store.Lays

variable [DecidableEq Q] [Hashable Q] [BEq K] [Hashable K] [EquivBEq K] [LawfulHashable K]
  {s : Store Q K V} {g : Registry Q K V}

/-- Whatever the accesses were, the containers agree and hold what the store does. -/
theorem aligned (h : s.Lays g) : g.Aligned ∧ g.store = s := by
  induction h with
  | empty => exact ⟨.empty, rfl⟩
  | @intern s g g' q k key _ hg ih =>
      obtain ⟨haligned, rfl⟩ := ih
      obtain ⟨g₁, hg₁, hstore, haligned₁⟩ := haligned.intern? q k
      cases hg.symm.trans hg₁
      exact ⟨haligned₁, hstore⟩
  | @insert s g g' q k key m _ hkey hg ih =>
      obtain ⟨haligned, rfl⟩ := ih
      obtain ⟨g₁, hg₁, hstore, haligned₁⟩ :=
        haligned.update? hkey (.insert m) (·.insert m) fun _ _ ↦ rfl
      cases hg.symm.trans hg₁
      exact ⟨haligned₁, hstore⟩
  | @erase s g g' q k key m r _ hkey hm hg ih =>
      obtain ⟨haligned, rfl⟩ := ih
      obtain ⟨g₁, hg₁, hstore, haligned₁⟩ := haligned.update? hkey (.remove r)
        (fun row ↦ if row.memo.isSome then row.erase r else row) (Cell.row_remove r)
      cases hg.symm.trans hg₁
      refine ⟨haligned₁, hstore.trans (Store.modify_congr fun row hrow ↦ ?_)⟩
      have hsome : row.memo = some m := by simpa [Store.memo?, hrow] using hm
      rw [hsome, Option.isSome_some, if_pos rfl]
  | @markVerified s g key r _ ih =>
      obtain ⟨haligned, rfl⟩ := ih
      have h := haligned.modify key (.markVerified r) (·.markVerified r) fun _ _ ↦ rfl
      exact ⟨h.2, h.1⟩
  | clearDerived _ ih =>
      obtain ⟨haligned, rfl⟩ := ih
      exact ⟨haligned.clearDerived, (congrArg Prod.snd haligned.clearDerived_store).symm⟩

theorem exists_intern (h : s.Lays g) (q : Q) (k : K) : ∃ g', (s.intern q k).2.Lays g' := by
  obtain ⟨haligned, rfl⟩ := h.aligned
  obtain ⟨g', hg, _⟩ := haligned.intern? q k
  exact ⟨g', h.intern hg⟩

theorem exists_insert (h : s.Lays g) {key : Handle} {x : Q × K} (hkey : s.named? key = some x)
    (m : Memo V) : ∃ g', (s.insert key m).Lays g' := by
  obtain ⟨haligned, rfl⟩ := h.aligned
  obtain ⟨g', hg, _⟩ := haligned.update? hkey (.insert m) (·.insert m) fun _ _ ↦ rfl
  exact ⟨g', h.insert hkey hg⟩

theorem exists_erase (h : s.Lays g) {key : Handle} {x : Q × K} (hkey : s.named? key = some x)
    {m : Memo V} (hm : s.memo? key = some m) (r : Revision) : ∃ g', (s.erase key r).Lays g' := by
  obtain ⟨haligned, rfl⟩ := h.aligned
  obtain ⟨g', hg, _⟩ := haligned.update? hkey (.remove r)
    (fun row ↦ if row.memo.isSome then row.erase r else row) (Cell.row_remove r)
  exact ⟨g', h.erase hkey hm hg⟩

end Store.Lays

end Incremental
