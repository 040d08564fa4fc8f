import Incremental.Memo

/-!
# Stores

A store keeps one table per query, in the order in which queries were first used, and in each
table one row per argument, in the order in which arguments were first seen. Tables and rows are
only ever added, so a handle names the same query and argument for good, and the argument keeps
its first spelling.
-/

namespace Incremental

/-- What is kept for one argument of a query. -/
structure Row (K V : Type) where
  argument : K
  memo : Option (Memo V) := none
  /-- When a memo was last removed from the row. -/
  removedAt : Revision := Revision.initial

structure Table (Q K V : Type) where
  query : Q
  rows : Array (Row K V)

structure Store (Q K V : Type) where
  tables : List (Table Q K V) := []

variable {Q K V : Type}

/-- Goes through `xs` once, changes each element by `f` and adds up what `f` counts of it. -/
def sweep {α : Type} (f : α → Nat × α) (xs : Array α) : Nat × Array α :=
  xs.foldl (fun (count, ys) x ↦ let (n, y) := f x; (count + n, ys.push y)) (0, #[])

/-- If `f` counts of an element those of its parts that satisfy `p`, then so does the sweep. -/
theorem sweep_eq {α β : Type} {f : α → Nat × α} {parts : α → List β} {p : β → Bool}
    (hf : ∀ x, (f x).1 = (parts x).countP p) (xs : Array α) :
    sweep f xs = ((xs.toList.flatMap parts).countP p, xs.map fun x ↦ (f x).2) := by
  have go : ∀ (l : List α) (count : Nat) (ys : Array α),
      l.foldl (fun (count, ys) x ↦ let (n, y) := f x; (count + n, ys.push y)) (count, ys) =
        (count + (l.flatMap parts).countP p, ys ++ (l.map fun x ↦ (f x).2).toArray) := by
    intro l
    induction l with
    | nil => simp
    | cons x l ih =>
      intro count ys
      rw [List.foldl_cons, ih]
      simp [hf, Nat.add_assoc]
  rw [sweep, ← Array.foldl_toList, go]
  exact Prod.ext (Nat.zero_add _) (Array.toList_inj.1 (by simp))

namespace Row

def insert (row : Row K V) (memo : Memo V) : Row K V := { row with memo := some memo }

def erase (row : Row K V) (r : Revision) : Row K V := { row with memo := none, removedAt := r }

def markVerified (row : Row K V) (r : Revision) : Row K V :=
  { row with memo := row.memo.map (Memo.verified r) }

def dropDerived (row : Row K V) : Row K V := { row with memo := row.memo.filter Memo.isInput }

/-- Empties the row if its memo was computed, and counts the memo. -/
def clearDerived (row : Row K V) : Nat × Row K V :=
  if row.memo.any (!·.isInput) then (1, { row with memo := none }) else (0, row)

theorem clearDerived_eq (row : Row K V) :
    row.clearDerived = (row.memo.toList.countP (!·.isInput), row.dropDerived) := by
  rcases row with ⟨k, _ | _ | _, r⟩ <;> rfl

end Row

namespace Table

def slot? [BEq K] (t : Table Q K V) (k : K) : Option Nat := t.rows.toList.findIdx? (·.argument == k)

/-- The row of an argument, which is added at the end if there is none. -/
def intern [BEq K] (t : Table Q K V) (k : K) : Nat × Table Q K V :=
  match t.slot? k with
  | some slot => (slot, t)
  | none => (t.rows.size, { t with rows := t.rows.push { argument := k } })

def modify (t : Table Q K V) (slot : Nat) (f : Row K V → Row K V) : Table Q K V :=
  match t.rows[slot]? with
  | none => t
  | some row => { t with rows := t.rows.setIfInBounds slot (f row) }

def dropDerived (t : Table Q K V) : Table Q K V := { t with rows := t.rows.map Row.dropDerived }

/-- Drops what was computed, and counts it on the way. -/
def clearDerived (t : Table Q K V) : Nat × Table Q K V :=
  let (count, rows) := sweep Row.clearDerived t.rows
  (count, { t with rows })

def memos (t : Table Q K V) : List (Memo V) := t.rows.toList.filterMap Row.memo

theorem clearDerived_eq (t : Table Q K V) :
    t.clearDerived = (t.memos.countP (!·.isInput), t.dropDerived) := by
  have hrow : ∀ row : Row K V, row.clearDerived.1 = row.memo.toList.countP (!·.isInput) :=
    fun row ↦ congrArg Prod.fst row.clearDerived_eq
  have hmemos : ∀ rows : List (Row K V),
      rows.flatMap (fun row ↦ row.memo.toList) = rows.filterMap Row.memo := by
    intro rows
    induction rows with
    | nil => rfl
    | cons row rows ih => cases h : row.memo <;> simp [h, ih]
  rw [clearDerived, sweep_eq hrow, hmemos]
  simp only [Row.clearDerived_eq, memos, dropDerived]

theorem rows_modify (t : Table Q K V) (slot other : Nat) (f : Row K V → Row K V) :
    (t.modify slot f).rows[other]? =
      if slot = other then t.rows[other]?.map f else t.rows[other]? := by
  unfold modify
  split
  · next h =>
    by_cases e : slot = other
    · subst e; simp [h]
    · simp [e]
  · next row h =>
    obtain ⟨inBounds, rfl⟩ := Array.getElem?_eq_some_iff.1 h
    by_cases e : slot = other
    · subst e; simp [inBounds]
    · simp [Array.getElem?_setIfInBounds_ne e, e]

@[simp] theorem query_modify (t : Table Q K V) (slot : Nat) (f : Row K V → Row K V) :
    (t.modify slot f).query = t.query := by
  unfold modify; split <;> rfl

end Table

namespace Handle

/-- The same row, with one more table in front. -/
def shift (key : Handle) : Handle := { key with table := key.table + 1 }

end Handle

namespace Store

def lookupAmong [DecidableEq Q] [BEq K] (q : Q) (k : K) : List (Table Q K V) → Option Handle
  | [] => none
  | t :: ts =>
    if t.query = q then (t.slot? k).map fun slot ↦ ⟨0, slot⟩
    else (lookupAmong q k ts).map Handle.shift

/-- The handle of a query at an argument, if the argument was seen before. -/
def lookup? [DecidableEq Q] [BEq K] (s : Store Q K V) (q : Q) (k : K) : Option Handle :=
  lookupAmong q k s.tables

def internAmong [DecidableEq Q] [BEq K] (q : Q) (k : K) :
    List (Table Q K V) → Handle × List (Table Q K V)
  | [] => (⟨0, 0⟩, [{ query := q, rows := #[{ argument := k }] }])
  | t :: ts =>
    if t.query = q then
      let (slot, t) := t.intern k
      (⟨0, slot⟩, t :: ts)
    else
      let (key, ts) := internAmong q k ts
      (key.shift, t :: ts)

/-- The handle of a query at an argument, which gets a row if it was not seen before. -/
def intern [DecidableEq Q] [BEq K] (s : Store Q K V) (q : Q) (k : K) : Handle × Store Q K V :=
  let (key, tables) := internAmong q k s.tables
  (key, ⟨tables⟩)

def find? (s : Store Q K V) (key : Handle) : Option (Table Q K V × Row K V) :=
  s.tables[key.table]?.bind fun t ↦ t.rows[key.slot]?.map fun row ↦ (t, row)

def row? (s : Store Q K V) (key : Handle) : Option (Row K V) := (s.find? key).map Prod.snd

/-- The query and the argument that a handle names. -/
def named? (s : Store Q K V) (key : Handle) : Option (Q × K) :=
  (s.find? key).map fun (t, row) ↦ (t.query, row.argument)

def memo? (s : Store Q K V) (key : Handle) : Option (Memo V) := (s.row? key).bind Row.memo

/-- When a memo was last removed from under a handle. -/
def removedAt (s : Store Q K V) (key : Handle) : Revision :=
  ((s.row? key).map Row.removedAt).getD Revision.initial

def modify (s : Store Q K V) (key : Handle) (f : Row K V → Row K V) : Store Q K V :=
  ⟨s.tables.modify key.table (·.modify key.slot f)⟩

def insert (s : Store Q K V) (key : Handle) (memo : Memo V) : Store Q K V :=
  s.modify key (·.insert memo)

def erase (s : Store Q K V) (key : Handle) (r : Revision) : Store Q K V := s.modify key (·.erase r)

def markVerified (s : Store Q K V) (key : Handle) (r : Revision) : Store Q K V :=
  s.modify key (·.markVerified r)

def dropDerived (s : Store Q K V) : Store Q K V := ⟨s.tables.map Table.dropDerived⟩

/-- Drops what was computed, table by table, and adds up how much that was. -/
def clearDerived (s : Store Q K V) : Nat × Store Q K V :=
  let (count, tables) := sweep Table.clearDerived s.tables.toArray
  (count, ⟨tables.toList⟩)

def memos (s : Store Q K V) : List (Memo V) := s.tables.flatMap Table.memos

def inputCount (s : Store Q K V) : Nat := s.memos.countP Memo.isInput

def derivedCount (s : Store Q K V) : Nat := s.memos.countP (!·.isInput)

theorem clearDerived_eq (s : Store Q K V) : s.clearDerived = (s.derivedCount, s.dropDerived) := by
  have htable : ∀ t : Table Q K V, t.clearDerived.1 = t.memos.countP (!·.isInput) :=
    fun t ↦ congrArg Prod.fst t.clearDerived_eq
  rw [clearDerived, sweep_eq htable]
  simp [Table.clearDerived_eq, dropDerived, derivedCount, memos]

theorem row?_modify (s : Store Q K V) (key other : Handle) (f : Row K V → Row K V) :
    (s.modify key f).row? other = if key = other then (s.row? other).map f else s.row? other := by
  rcases key with ⟨i, j⟩
  rcases other with ⟨i', j'⟩
  simp only [row?, find?, modify, List.getElem?_modify, Handle.mk.injEq]
  by_cases hi : i = i'
  · subst hi
    cases h : s.tables[i]? with
    | none => simp
    | some t =>
      by_cases hj : j = j'
      · subst hj
        cases h' : t.rows[j]? <;> simp [Table.rows_modify, h']
      · cases h' : t.rows[j']? <;> simp [Table.rows_modify, hj, h']
  · cases s.tables[i']? <;> simp [hi]

@[simp] theorem memo?_insert (s : Store Q K V) (key : Handle) (memo : Memo V) :
    (s.insert key memo).memo? key = (s.row? key).map fun _ ↦ memo := by
  simp only [memo?, insert, row?_modify, if_true]
  cases s.row? key <;> rfl

theorem memo?_insert_of_ne (s : Store Q K V) {key other : Handle} (h : key ≠ other)
    (memo : Memo V) : (s.insert key memo).memo? other = s.memo? other := by
  simp [memo?, insert, row?_modify, h]

@[simp] theorem memo?_erase (s : Store Q K V) (key : Handle) (r : Revision) :
    (s.erase key r).memo? key = none := by
  simp only [memo?, erase, row?_modify, if_true]
  cases s.row? key <;> rfl

theorem memo?_erase_of_ne (s : Store Q K V) {key other : Handle} (h : key ≠ other) (r : Revision) :
    (s.erase key r).memo? other = s.memo? other := by
  simp [memo?, erase, row?_modify, h]

@[simp] theorem memo?_markVerified (s : Store Q K V) (key : Handle) (r : Revision) :
    (s.markVerified key r).memo? key = (s.memo? key).map (Memo.verified r) := by
  simp only [memo?, markVerified, row?_modify, if_true]
  cases s.row? key <;> rfl

@[simp] theorem removedAt_insert (s : Store Q K V) (key other : Handle) (memo : Memo V) :
    (s.insert key memo).removedAt other = s.removedAt other := by
  simp only [removedAt, insert, row?_modify]
  split
  · cases s.row? other <;> rfl
  · rfl

end Store

end Incremental
