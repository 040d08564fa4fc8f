import Incremental.Proofs.Naming
import Incremental.Proofs.Recipe

/-!
# Pure programs over any keys

The equality of keys may be coarser than identity: a row is shared by all arguments that are
equal to the one it was made for. Bodies are then pure if they also do the same for equal
arguments, up to equal arguments of their reads. Nothing more is asked where equality is identity.
-/

namespace Incremental

variable {Q K V W : Type} [BEq K]

namespace Recipe

/-- The recipes ask for equal arguments and end in the same way, as long as the answers are the
same. -/
inductive Alike : Recipe Q K V → Recipe Q K V → Prop
  | done (outcome : Outcome V) : Alike (done outcome) (done outcome)
  | read {q : Q} {k k' : K} {next next' : Outcome V → Recipe Q K V} (hk : (k == k') = true)
      (h : ∀ answer, (next answer).Alike (next' answer)) :
      Alike (read (q, k) next) (read (q, k') next')

namespace Alike

variable {t t' : Recipe Q K V} {ys ys' : List ((Q × K) × Outcome V)} {o o' : Outcome V}

theorem refl [ReflBEq K] (t : Recipe Q K V) : t.Alike t := by
  induction t with
  | done outcome => exact .done outcome
  | read x next ih => exact .read BEq.rfl ih

/-- Whole traces of recipes that are alike, with the same answers to equal reads, have equal
reads. -/
theorem covers (h : t.Alike t') (ht : t.Trace ys (.done o)) (ht' : t'.Trace ys' (.done o'))
    (hagree : ∀ p ∈ ys, ∀ p' ∈ ys', p.1.1 = p'.1.1 → (p.1.2 == p'.1.2) = true → p.2 = p'.2) :
    ∀ p ∈ ys, ∃ p' ∈ ys', p.1.1 = p'.1.1 ∧ (p.1.2 == p'.1.2) = true := by
  induction h generalizing ys ys' with
  | done outcome =>
      rw [ht.eq_done.1]
      simp
  | @read q k k' next next' hk _ ih =>
      cases ht with
      | @cons _ _ answer ys _ ht =>
          cases ht' with
          | @cons _ _ answer' ys' _ ht' =>
              have hans : answer = answer' :=
                hagree _ List.mem_cons_self _ List.mem_cons_self rfl hk
              subst hans
              have hrest := ih answer ht ht' fun p hp p' hp' ↦
                hagree p (List.mem_cons_of_mem _ hp) p' (List.mem_cons_of_mem _ hp')
              intro p hp
              rcases List.mem_cons.mp hp with rfl | hp
              · exact ⟨_, List.mem_cons_self, rfl, hk⟩
              · obtain ⟨p', hp', hsame⟩ := hrest p hp
                exact ⟨p', List.mem_cons_of_mem _ hp', hsame⟩

end Alike

end Recipe

/-- All bodies do what the recipes say, the same for equal arguments, and give a value only if all
their reads do. -/
structure Program.Pure (P : Program Q K V W) (R : Q × K → Recipe Q K V) : Prop where
  obeys : P.Obeys R
  alike : ∀ q k k', (k == k') = true → (R (q, k)).Alike (R (q, k'))
  strict : ∀ x, (R x).Strict

/-- Where equality is identity, equal arguments need no further thought. -/
theorem Program.Pure.of_lawful [LawfulBEq K] {P : Program Q K V W} {R : Q × K → Recipe Q K V}
    (hP : P.Obeys R) (hR : ∀ x, (R x).Strict) : P.Pure R := by
  refine ⟨hP, fun q k k' hk ↦ ?_, hR⟩
  rw [eq_of_beq hk]
  exact .refl _

namespace Store

variable [DecidableEq Q] {s s' : Store Q K V} {q : Q} {k k' : K} {key : Handle}

theorem lookup?_of_beq [EquivBEq K] (hk : (k == k') = true) : s.lookup? q k = s.lookup? q k' := by
  have hslot : ∀ t : Table Q K V, t.slot? k = t.slot? k' := by
    intro t
    have hsame : (fun row : Row K V ↦ row.argument == k) = fun row ↦ row.argument == k' := by
      funext row
      exact BEq.congr_right hk
    simp only [Table.slot?, hsame]
  have go : ∀ ts : List (Table Q K V), lookupAmong q k ts = lookupAmong q k' ts := by
    intro ts
    induction ts with
    | nil => rfl
    | cons t ts ih => simp only [lookupAmong, hslot, ih]
  exact go s.tables

theorem beq_of_lookup? [EquivBEq K] {q' : Q} (h : s.lookup? q k = some key)
    (h' : s.lookup? q' k' = some key) : q = q' ∧ (k == k') = true := by
  obtain ⟨l, hname, hl⟩ := exists_named?_of_lookup? h
  obtain ⟨l', hname', hl'⟩ := exists_named?_of_lookup? h'
  rw [hname] at hname'
  cases hname'
  exact ⟨rfl, PartialEquivBEq.trans (PartialEquivBEq.symm hl) hl'⟩

theorem lookup?_of_named [EquivBEq K] (hs' : s'.Indexed)
    (hnamed : ∀ key x, s.named? key = some x → s'.named? key = some x)
    (h : s.lookup? q k = some key) : s'.lookup? q k = some key := by
  obtain ⟨l, hname, hl⟩ := exists_named?_of_lookup? h
  rw [← lookup?_of_beq hl]
  exact hs' key q l (hnamed key _ hname)

end Store

end Incremental
