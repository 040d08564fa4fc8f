import Incremental.Proofs.Stages

/-!
# The plain walk

Verification takes for granted what was found to stand at the same revision, and stamps what it
finds to stand while it goes on, so what is looked at later is compared with other stamps than were
there at first. Still it comes to the verdict of the plain walk, which looks at all that was read
each time and stamps nothing; and no verdict of the plain walk is another one afterwards.
-/

namespace Incremental

variable {Q K V W : Type}

/-- Whether all of `keys` pass the test, each of them asked. -/
def allPass (test : Handle → Option Bool) : List Handle → Option Bool
  | [] => some true
  | key :: keys => (test key).bind fun b ↦ (allPass test keys).map (b && ·)

section

variable {test test' : Handle → Option Bool} {keys : List Handle} {b : Bool}

theorem allPass_mono (htest : ∀ d b, test d = some b → test' d = some b)
    (h : allPass test keys = some b) : allPass test' keys = some b := by
  induction keys generalizing b with
  | nil => exact h
  | cons key keys ih =>
      obtain ⟨b₁, hkey, hrest⟩ := Option.bind_eq_some_iff.mp h
      obtain ⟨b₂, hkeys, hb⟩ := Option.map_eq_some_iff.mp hrest
      rw [allPass, htest key b₁ hkey, Option.bind_some, ih hkeys, Option.map_some, hb]

theorem allPass_iff {passes : Handle → Prop}
    (htest : ∀ d b, test d = some b → (b = true ↔ passes d)) (h : allPass test keys = some b) :
    b = true ↔ ∀ d ∈ keys, passes d := by
  induction keys generalizing b with
  | nil => simpa [allPass] using h.symm
  | cons key keys ih =>
      obtain ⟨b₁, hkey, hrest⟩ := Option.bind_eq_some_iff.mp h
      obtain ⟨b₂, hkeys, rfl⟩ := Option.map_eq_some_iff.mp hrest
      rw [Bool.and_eq_true, htest key b₁ hkey, ih hkeys, List.forall_mem_cons]

end

namespace Store

/-- Whether what is kept under `key` has stood still since revision `asOf`, if all that was read for
it has stood still since it was last known to stand. -/
def stoodStill? (s : Store Q K V) : Nat → Handle → Revision → Option Bool
  | 0, _, _ => none
  | n + 1, key, asOf =>
    match s.memo? key with
    | none => some false
    | some (.input _ changedAt) => some (decide (changedAt ≤ asOf))
    | some (.derived _ changedAt verifiedAt reads) =>
      (allPass (fun d ↦ s.stoodStill? n d verifiedAt) reads).map (decide (changedAt ≤ asOf) && ·)

/-- The plain walk comes to the verdict `fresh`. -/
def Judges (s : Store Q K V) (key : Handle) (asOf : Revision) (fresh : Bool) : Prop :=
  ∃ n, ∀ m ≥ n, s.stoodStill? m key asOf = some fresh

variable {s : Store Q K V} {key : Handle} {asOf w : Revision} {b : Bool} {n m : Nat}

theorem stoodStill?_succ (h : s.stoodStill? n key asOf = some b) :
    s.stoodStill? (n + 1) key asOf = some b := by
  induction n generalizing key asOf b with
  | zero => cases h
  | succ n ih =>
      rw [stoodStill?] at h ⊢
      split at h
      · exact h
      · exact h
      · obtain ⟨b', hreads, hb⟩ := Option.map_eq_some_iff.mp h
        rw [allPass_mono (fun _ _ h ↦ ih h) hreads, Option.map_some, hb]

theorem stoodStill?_mono (hle : n ≤ m) (h : s.stoodStill? n key asOf = some b) :
    s.stoodStill? m key asOf = some b := by
  induction hle with
  | refl => exact h
  | step _ ih => exact stoodStill?_succ ih

/-- What has stood still has not changed, and rests on nothing that has. -/
theorem stoodStill?_iff (h : s.stoodStill? n key asOf = some b) :
    b = true ↔ s.Unchanged asOf key := by
  induction n generalizing key asOf b with
  | zero => cases h
  | succ n ih =>
      rw [stoodStill?] at h
      split at h
      · next hm =>
          cases h
          simp [Unchanged, hm]
      · next v c hm =>
          cases h
          simp [Unchanged, hm, Memo.changedAt, not_outdated_of_input hm]
      · next v c w reads hm =>
          obtain ⟨b', hreads, rfl⟩ := Option.map_eq_some_iff.mp h
          rw [Bool.and_eq_true, allPass_iff (fun _ _ h ↦ ih h) hreads, ← not_outdated_iff hm]
          simp [Unchanged, hm, Memo.changedAt]

theorem exists_allPass {reads : List Handle}
    (h : ∀ d ∈ reads, ∃ n b, s.stoodStill? n d w = some b) :
    ∃ n b, allPass (fun d ↦ s.stoodStill? n d w) reads = some b := by
  induction reads with
  | nil => exact ⟨0, true, rfl⟩
  | cons d reads ih =>
      obtain ⟨n, b, hd⟩ := h d List.mem_cons_self
      obtain ⟨m, b', hreads⟩ := ih fun d hd ↦ h d (List.mem_cons_of_mem _ hd)
      refine ⟨max n m, b && b', ?_⟩
      rw [allPass, stoodStill?_mono (Nat.le_max_left n m) hd, Option.bind_some,
        allPass_mono (fun _ _ h ↦ stoodStill?_mono (Nat.le_max_right n m) h) hreads]
      rfl

/-- The plain walk ends where no value rests on itself. -/
theorem exists_stoodStill? (hs : WellFounded s.Feeds) (key : Handle) (asOf : Revision) :
    ∃ n b, s.stoodStill? n key asOf = some b := by
  induction key using hs.induction generalizing asOf with
  | _ key ih =>
      cases hm : s.memo? key with
      | none => exact ⟨1, false, by rw [stoodStill?, hm]⟩
      | some memo =>
          cases memo with
          | input v c => exact ⟨1, decide (c ≤ asOf), by rw [stoodStill?, hm]⟩
          | derived v c w reads =>
              have hreads : ∀ d ∈ reads, ∃ n b, s.stoodStill? n d w = some b := by
                intro d hd
                cases hm' : s.memo? d with
                | none => exact ⟨1, false, by rw [stoodStill?, hm']⟩
                | some memo =>
                    cases memo with
                    | input v c => exact ⟨1, decide (c ≤ w), by rw [stoodStill?, hm']⟩
                    | derived => exact ih d ⟨⟨_, hm, hd⟩, _, hm', rfl⟩ w
              obtain ⟨n, b, hall⟩ := exists_allPass hreads
              exact ⟨n + 1, decide (c ≤ asOf) && b, by rw [stoodStill?, hm]; simp [hall]⟩

/-- So its verdict is known from what has changed. -/
theorem judges_iff (hs : WellFounded s.Feeds) :
    s.Judges key asOf b ↔ (b = true ↔ s.Unchanged asOf key) := by
  constructor
  · rintro ⟨n, h⟩
    exact stoodStill?_iff (h n (Nat.le_refl n))
  · intro h
    obtain ⟨n, b', hb'⟩ := exists_stoodStill? hs key asOf
    have hsame : b' = b := Bool.eq_iff_iff.2 ((stoodStill?_iff hb').trans h.symm)
    exact ⟨n, fun m hm ↦ hsame ▸ stoodStill?_mono hm hb'⟩

end Store

namespace Stage

open Database

variable [DecidableEq Q] [BEq K] [EquivBEq K] [BEq V] {R : Q × K → Recipe Q K V}
  {P : Program Q K V W} {t : Stage Q K V W} {s : Database Q K V W}

theorem Reached.consistent {T : Ways Q K V} (hP : P.Steady T) (ht : Reached P t) (hs : t.Shows s) :
    Store.Consistent T s.revision s.store := by
  obtain ⟨db, ⟨configuration, w, fuel, ops, replies, hops⟩, hor⟩ := ht.exists_passes hs
  have hdb : Resting T db := (Resting.initial T configuration w).performAll hP hops
  exact hdb.consistent_within hP hor

/-- The shortcut is right: in every run of a program of pure bodies that give values only if all
their reads do, also inside a query and in the midst of a verification, verification comes to the
verdict of the plain walk, which always ends. Afterwards the plain walk comes to the same verdict on
everything as before, and all is kept as it was, but that some values that stand by the plain walk
are stamped. -/
theorem shortcut_agrees (hP : P.Pure R) (ht : Reached P t) (hs : t.Shows s) (key : Handle)
    (asOf : Revision) :
    ∃ fresh s', (∃ n, ∀ m ≥ n, verify m key asOf s = some (fresh, s')) ∧
      s.store.Judges key asOf fresh ∧
      (∀ other r, ∃ b, s.store.Judges other r b ∧ s'.store.Judges other r b) ∧
      s' = { s with store := s'.store, events := s'.events } ∧
      s'.store.tables.map Table.arguments = s.store.tables.map Table.arguments ∧
      (∀ other, s'.store.removedAt other = s.store.removedAt other) ∧
      ∀ other, s'.store.memo? other = s.store.memo? other ∨
        ∃ v c w reads, s.store.memo? other = some (.derived v c w reads) ∧
          s'.store.memo? other = some (.derived v c s.revision reads) ∧
          ∀ r ≥ c, s.store.Judges other r true := by
  have hconsistent := ht.consistent hP.steady hs
  obtain ⟨n, ⟨fresh, s'⟩, hverify⟩ := exists_verify hconsistent key asOf
  obtain ⟨hrechecks, hverdict, _⟩ := verify_iff hverify hconsistent
  have hverifies := verify_verifies hverify
  have hfounded := hconsistent.founded
  have hfounded' := hrechecks.consistent.founded
  refine ⟨fresh, s', ⟨n, fun m hm ↦ verify_mono hm hverify⟩, (Store.judges_iff hfounded).2 hverdict,
    fun other r ↦ ?_, hverifies.rest, hverifies.store.arguments, hverifies.store.removedAt,
    fun other ↦ ?_⟩
  · obtain ⟨n, b, hb⟩ := Store.exists_stoodStill? hfounded other r
    have hb := Store.stoodStill?_iff hb
    exact ⟨b, (Store.judges_iff hfounded).2 hb,
      (Store.judges_iff hfounded').2 (hb.trans hrechecks.unchanged_iff.symm)⟩
  · rcases hrechecks.kept other with hsame | ⟨hstands, hstamped⟩
    · exact .inl hsame
    · cases hm : s.store.memo? other with
      | none => exact .inl (by rw [hstamped, hm]; rfl)
      | some m =>
          cases m with
          | input v c => exact .inl (by rw [hstamped, hm]; rfl)
          | derived v c w reads =>
              refine .inr ⟨v, c, w, reads, rfl, by rw [hstamped, hm]; rfl, fun r hr ↦ ?_⟩
              exact (Store.judges_iff hfounded).2
                ⟨fun _ ↦ ⟨_, hm, hr, hstands⟩, fun _ ↦ rfl⟩

end Stage

/-- The height of a slope, worked out from the level at its foot, and one who looks up to it. -/
inductive Slope
  | level
  | rise
  | foot
  | middle
  | top
  | watcher
  deriving DecidableEq

open Database Stage

namespace Slope

def logic : Slope → Option (Recipe Slope Unit Nat)
  | foot => some (.get (level, ()) fun v ↦ .done (.value v))
  | middle => some (.get (foot, ()) fun v ↦ .get (rise, ()) fun w ↦ .done (.value (v + w)))
  | top => some (.get (foot, ()) fun v ↦ .get (middle, ()) fun w ↦ .done (.value (2 * w - v)))
  | watcher => some (.get (top, ()) fun v ↦ .done (.value v))
  | _ => none

def program : Program Slope Unit Nat Unit := .ofRecipes (fun _ ↦ "") logic

theorem program_pure : program.Pure (recipes (fun _ ↦ "") logic) := by
  refine .of_lawful (Program.ofRecipes_obeys _ _) ?_
  rintro ⟨q, k⟩
  cases q <;> simp [recipes, logic]

/-- The rise has changed when the watcher looks up. The foot is found to stand and stamped, and
taken to stand when the middle is looked at; then the rise is found to have changed, so the top does
not stand, as the plain walk says too. -/
theorem top_judged : ∃ t : Stage Slope Unit Nat Unit, Reached program t ∧
    t.calls.map Call.key = [⟨5, 0⟩] ∧ ∃ s', (∃ n, ∀ m ≥ n,
      verify m ⟨2, 0⟩ 2 t.db = some (false, s')) ∧ t.db.store.Judges ⟨2, 0⟩ 2 false ∧
      t.db.store.memo? ⟨3, 0⟩ = some (.derived 1 1 2 [⟨0, 0⟩]) ∧
      s'.store.memo? ⟨3, 0⟩ = some (.derived 1 1 3 [⟨0, 0⟩]) ∧
      ∀ r ≥ 1, t.db.store.Judges ⟨3, 0⟩ r true := by
  have hrun : (performAll program 9 [.act (.edit (.set level () 1)), .act (.edit (.set rise () 5)),
        .act (.inquire (.query top ())), .act (.edit (.set rise () 6))] { outside := () }).bind
      (fun p ↦ (steps? program 9 1 ⟨p.2, .get watcher (), []⟩).bind fun t ↦
        (verify 9 ⟨2, 0⟩ 2 t.db).map fun r ↦ decide (t.calls.map Call.key = [⟨5, 0⟩] ∧
          r.1 = false ∧ t.db.store.memo? ⟨3, 0⟩ = some (.derived 1 1 2 [⟨0, 0⟩]) ∧
          r.2.store.memo? ⟨3, 0⟩ = some (.derived 1 1 3 [⟨0, 0⟩]))) = some true := by
    decide +kernel
  obtain ⟨⟨replies, db⟩, hops, hrun⟩ := Option.bind_eq_some_iff.mp hrun
  obtain ⟨t, hsteps, hrun⟩ := Option.bind_eq_some_iff.mp hrun
  obtain ⟨⟨b, s'⟩, hverify, hend⟩ := Option.map_eq_some_iff.mp hrun
  obtain ⟨hcalls, rfl, hbefore, hafter⟩ := of_decide_eq_true hend
  have ht : Reached program t := reached_of_steps? hops hsteps
  obtain ⟨fresh, s₁, ⟨n, hends⟩, hjudges, _, _, _, _, hstamped⟩ :=
    shortcut_agrees program_pure ht .here ⟨2, 0⟩ 2
  obtain ⟨rfl, rfl⟩ : fresh = false ∧ s₁ = s' := by
    have hmax := verify_mono (Nat.le_max_right n 9) hverify
    simpa using (hends _ (Nat.le_max_left n 9)).symm.trans hmax
  refine ⟨t, ht, hcalls, s₁, ⟨n, hends⟩, hjudges, hbefore, hafter, ?_⟩
  obtain hsame | ⟨v, c, w, reads, hm, _, hstands⟩ := hstamped ⟨3, 0⟩
  · cases hafter.symm.trans (hsame.trans hbefore)
  · cases hbefore.symm.trans hm
    exact hstands

end Slope

end Incremental
