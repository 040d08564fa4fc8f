import Incremental.Proofs.Bookkeeping

/-!
# What is under evaluation

The frames of a call stack name the queries under evaluation by handles. Told by their names, what
is under evaluation can be compared with that of other databases: it decides which reads are
refused, what the refusal says, and how deep evaluations are nested.
-/

namespace Incremental

variable {Q K V W : Type}

namespace CallStack

variable {stack stack' : CallStack}

theorem Fills.keys_eq (h : stack.Fills stack') : stack'.keys = stack.keys := by
  obtain ⟨g, hg, rfl⟩ := h
  rcases stack with ⟨_ | _, _⟩ <;> simp [keys, modifyTop, hg]

theorem keys_cons (frame : Frame) (frames : List Frame) (active active' : List Handle) :
    keys ⟨frame :: frames, active⟩ = keys ⟨frames, active'⟩ ++ [frame.key] := by
  simp [keys]

theorem length_keys (stack : CallStack) : stack.keys.length = stack.depth := by
  simp [keys, depth]

end CallStack

namespace Database

/-- The queries under evaluation are `active`, the outermost first. -/
def Underway (active : List (Q × K)) (db : Database Q K V W) : Prop :=
  db.stack.keys.map db.store.named? = active.map some

namespace Underway

variable {active : List (Q × K)} {db db' : Database Q K V W} {key : Handle} {x y : Q × K}

theorem of_idle (h : db.stack = {}) : Underway [] db := by
  simp [Underway, h, CallStack.keys]

theorem depth_eq (h : Underway active db) : db.stack.depth = active.length := by
  have hlength := congrArg List.length h
  simpa [CallStack.length_keys] using hlength

/-- What fills the innermost frame, and keeps the names, keeps what is under evaluation. -/
theorem fills (h : Underway active db) (hstack : db.stack.Fills db'.stack)
    (hnamed : ∀ key x, db.store.named? key = some x → db'.store.named? key = some x) :
    Underway active db' := by
  rw [Underway, hstack.keys_eq, ← h]
  apply List.map_congr_left
  intro key hkey
  have hsome : db.store.named? key ∈ active.map some := h ▸ List.mem_map_of_mem hkey
  obtain ⟨y, _, hy⟩ := List.mem_map.mp hsome
  rw [← hy]
  exact hnamed key y hy.symm

theorem follows (h : Underway active db) (hf : db.Follows db') : Underway active db' :=
  h.fills hf.stack hf.store.named

theorem enter (h : Underway active db) (hkey : db.store.named? key = some x) (q : Q) (k : K) :
    Underway (active ++ [x]) (db.enter q k key) := by
  change (CallStack.keys ⟨{ key } :: db.stack.frames, _⟩).map db.store.named? = _
  rw [CallStack.keys_cons _ _ _ db.stack.active, List.map_append, List.map_append,
    show (CallStack.keys ⟨db.stack.frames, _⟩).map db.store.named? = active.map some from h]
  simp [hkey]

theorem circle (h : Underway active db) (P : Program Q K V W)
    (hkey : db.store.named? key = some x) :
    db.circle P key = .cycle (P.label x.1 x.2) (active.map fun y ↦ P.label y.1 y.2) := by
  have hlabels : ∀ (keys : List Handle) (ys : List (Q × K)),
      keys.map db.store.named? = ys.map some →
      keys.map (db.label P) = ys.map fun y ↦ P.label y.1 y.2 := by
    intro keys
    induction keys with
    | nil =>
        intro ys hys
        rw [List.map_eq_nil_iff.1 hys.symm]
        rfl
    | cons key keys ih =>
        intro ys hys
        obtain ⟨y, ys, rfl, hy, hys⟩ := List.map_eq_cons_iff.1 hys.symm
        have hlabel : db.label P key = P.label y.1 y.2 := Store.label_of_named? P hy.symm
        rw [List.map_cons, List.map_cons, hlabel, ih ys hys.symm]
  have hlabel : db.label P key = P.label x.1 x.2 := Store.label_of_named? P hkey
  rw [Database.circle, hlabel, hlabels _ _ h]

variable [DecidableEq Q] [BEq K]

theorem isActive_iff (h : Underway active db) (hdb : db.Sound)
    (hkey : db.store.named? key = some y) : db.stack.isActive key = true ↔ y ∈ active := by
  have hmem : key ∈ db.stack.keys ↔ y ∈ active := by
    constructor
    · intro hk
      have hy : some y ∈ db.stack.keys.map db.store.named? := hkey ▸ List.mem_map_of_mem hk
      rw [h] at hy
      simpa using hy
    · intro hy
      have hy : some y ∈ active.map some := List.mem_map_of_mem hy
      rw [← h] at hy
      obtain ⟨other, hother, hname⟩ := List.mem_map.mp hy
      rwa [hdb.store.indexed.inj hkey hname]
  rw [← hmem]
  simp [CallStack.isActive, CallStack.keys, hdb.active]

section

variable [LawfulBEq K] {q : Q} {k : K}

theorem isActive_iff_of_intern (h : Underway active db) (hdb : db.Sound)
    (hkey : db.intern q k = (key, db')) : db'.stack.isActive key = true ↔ (q, k) ∈ active := by
  obtain rfl : (db.intern q k).2 = db' := congrArg Prod.snd hkey
  exact (h.follows (.intern db q k)).isActive_iff (hdb.intern q k) (named?_of_intern hkey)

theorem isActive_eq_false_of_intern (h : Underway active db) (hdb : db.Sound)
    (hkey : db.intern q k = (key, db')) : db'.stack.isActive key = false ↔ (q, k) ∉ active := by
  rw [Bool.eq_false_iff, ne_eq, h.isActive_iff_of_intern hdb hkey]

theorem circle_of_intern (h : Underway active db) (P : Program Q K V W)
    (hkey : db.intern q k = (key, db')) :
    db'.circle P key = .cycle (P.label q k) (active.map fun y ↦ P.label y.1 y.2) := by
  obtain rfl : (db.intern q k).2 = db' := congrArg Prod.snd hkey
  exact (h.follows (.intern db q k)).circle P (named?_of_intern hkey)

/-- What is not answered from memory comes to be under evaluation. -/
theorem enter_of_miss (h : Underway active db) (hdb : db.Sound) {db₁ db₂ : Database Q K V W}
    (hkey : db.intern q k = (key, db₁)) {fuel : Nat}
    (hretrieve : (db₁.recordRead key).retrieve fuel key = some (none, db₂)) :
    Underway (active ++ [(q, k)]) ((db₂.note (.miss q k)).enter q k key) := by
  obtain ⟨_, hf⟩ := hdb.record hkey
  have hv := retrieve_verifies hretrieve
  have hname : (db₁.recordRead key).store.named? key = some (q, k) := (named?_of_intern hkey :)
  have hmiss := (h.follows (hf.trans (.of_verifies hv))).follows (.note db₂ (.miss q k))
  exact hmiss.enter (hv.store.advances.named key _ hname) q k

end

end Underway

end Database

end Incremental
