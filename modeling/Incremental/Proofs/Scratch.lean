import Incremental.Proofs.Recipe
import Mathlib.Logic.Relation

/-!
# Evaluation from scratch

What a query yields when nothing is remembered: assigned values are taken as they are, and
everything else is computed by its recipe from what its reads yield. Only evaluations that read
in no circle yield anything. Beside what is yielded, this module says what is read below a
query, when a query reads in a circle, and how an evaluation ends that is refused to read what
is under evaluation.
-/

namespace Incremental

variable {Q K V : Type}

/-- The values assigned to queries. -/
abbrev Inputs (Q K V : Type) := Q × K → Option V

section

variable (R : Q × K → Recipe Q K V) (I : Inputs Q K V)

/-- What a query yields from scratch, without a read in a circle. -/
inductive Yields : Q × K → Outcome V → Prop
  | input {x : Q × K} {v : V} (h : I x = some v) : Yields x (.value v)
  | computed {x : Q × K} {o : Outcome V} {ys : List ((Q × K) × Outcome V)} (h : I x = none)
      (htrace : (R x).Trace ys (.done o)) (hys : ∀ p ∈ ys, Yields p.1 p.2) : Yields x o

/-- The evaluation of `x` from scratch comes to a read of `y`. -/
def ReadBy (y x : Q × K) : Prop :=
  I x = none ∧ ∃ ys next, (R x).Trace ys (.read y next) ∧ ∀ p ∈ ys, Yields R I p.1 p.2

/-- The evaluation of `x` from scratch reads `y`, by itself or through what it reads. -/
def Below : Q × K → Q × K → Prop := Relation.TransGen (ReadBy R I)

/-- The evaluation of `x` from scratch comes to something that reads itself. -/
def Circles (x : Q × K) : Prop :=
  ∃ y, Relation.ReflTransGen (ReadBy R I) y x ∧ Below R I y y

end

section

variable (R : Q × K → Recipe Q K V) (I : Inputs Q K V)

/-- The stamp of `z` reaches the evaluation of `x`: it is handed on from reads to readers, but a
failure hands on no stamp of its own, and a panic hands on nothing. -/
inductive Shows : Q × K → Q × K → Prop
  | value {z x : Q × K} {v : V} (h : ReadBy R I z x) (hz : Yields R I z (.value v)) : Shows z x
  | through {z y x : Q × K} {o : Outcome V} (h : ReadBy R I y x) (hy : Yields R I y o)
      (ho : ¬ o.IsPanic) (hz : Shows z y) : Shows z x

/-- How the evaluation of a query ends while `active` is under evaluation, the outermost first.
What is active is refused. -/
inductive Ends (label : Q × K → String) : List (Q × K) → Q × K → Outcome V → Prop
  | refused {active : List (Q × K)} {x : Q × K} (h : x ∈ active) :
      Ends label active x (.failure (.cycle (label x) (active.map label)))
  | input {active : List (Q × K)} {x : Q × K} {v : V} (h : x ∉ active) (hx : I x = some v) :
      Ends label active x (.value v)
  | computed {active : List (Q × K)} {x : Q × K} {o : Outcome V} {ys : List ((Q × K) × Outcome V)}
      (h : x ∉ active) (hx : I x = none) (htrace : (R x).Trace ys (.done o))
      (hys : ∀ p ∈ ys, Ends label (active ++ [x]) p.1 p.2) : Ends label active x o

end

variable {R : Q × K → Recipe Q K V} {I J : Inputs Q K V} {x y z : Q × K} {o o' : Outcome V}

theorem ReadBy.first {next : Outcome V → Recipe Q K V} (hx : I x = none) (hR : R x = .read y next) :
    ReadBy R I y x := by
  refine ⟨hx, [], next, ?_, by simp⟩
  rw [hR]
  exact .nil _

namespace Yields

theorem unique (h : Yields R I x o) (h' : Yields R I x o') : o = o' := by
  induction h generalizing o' with
  | input hx =>
      cases h' with
      | input hx' => rw [hx] at hx'; cases hx'; rfl
      | computed hx' => rw [hx] at hx'; cases hx'
  | computed hx htrace _ ih =>
      cases h' with
      | input hx' => rw [hx] at hx'; cases hx'
      | computed _ htrace' hys' =>
          obtain ⟨ws, rfl, hws⟩ :=
            htrace.prefix_of_done htrace' (fun p hp answer ↦ ih p hp) hys'
          cases hws
          rfl

theorem readBy_iff {ys : List ((Q × K) × Outcome V)} (hx : I x = none)
    (htrace : (R x).Trace ys (.done o)) (hys : ∀ p ∈ ys, Yields R I p.1 p.2) :
    ReadBy R I y x ↔ y ∈ ys.map Prod.fst := by
  constructor
  · rintro ⟨_, zs, next, hread, hzs⟩
    obtain ⟨ws, rfl, hws⟩ :=
      htrace.prefix_of_done hread (fun p hp answer h ↦ (hys p hp).unique h) hzs
    cases hws
    simp
  · intro hy
    obtain ⟨⟨y, answer⟩, hp, rfl⟩ := List.mem_map.mp hy
    obtain ⟨pre, post, rfl⟩ := List.append_of_mem hp
    obtain ⟨next, hread, _⟩ := htrace.split_cons
    exact ⟨hx, pre, next, hread, fun p hp ↦ hys p (List.mem_append_left _ hp)⟩

theorem exists_trace (h : Yields R I x o) (hx : I x = none) :
    ∃ ys, (R x).Trace ys (.done o) ∧ ∀ p ∈ ys, Yields R I p.1 p.2 := by
  cases h with
  | input h => rw [hx] at h; cases h
  | computed _ htrace hys => exact ⟨_, htrace, hys⟩

theorem of_readBy (h : Yields R I x o) (hy : ReadBy R I y x) : ∃ a, Yields R I y a := by
  obtain ⟨ys, htrace, hys⟩ := h.exists_trace hy.1
  obtain ⟨⟨y, answer⟩, hp, rfl⟩ := List.mem_map.mp ((readBy_iff hy.1 htrace hys).1 hy)
  exact ⟨answer, hys _ hp⟩

theorem of_below (h : Yields R I x o) (hy : Below R I y x) : ∃ a, Yields R I y a := by
  induction hy using Relation.TransGen.head_induction_on with
  | single hy => exact h.of_readBy hy
  | head hy _ ih => exact ih.choose_spec.of_readBy hy

/-- What yields something reads in no circle, so one can argue by induction on its reads. -/
theorem acc (h : Yields R I x o) : Acc (ReadBy R I) x := by
  induction h with
  | input hx => exact ⟨_, fun y hy ↦ absurd hy.1 (by simp [hx])⟩
  | computed hx htrace hys ih =>
      refine ⟨_, fun y hy ↦ ?_⟩
      obtain ⟨p, hp, rfl⟩ := List.mem_map.mp ((readBy_iff hx htrace hys).1 hy)
      exact ih p hp

theorem not_below_self (h : Yields R I x o) : ¬ Below R I x x := by
  have hacc : Acc (Below R I) x := acc_transGen_iff.mpr h.acc
  clear h
  induction hacc with
  | intro x _ ih => exact fun hx ↦ ih x hx hx

theorem not_circles (h : Yields R I x o) : ¬ Circles R I x := by
  rintro ⟨y, hyx, hyy⟩
  rcases hyx.cases_head with rfl | ⟨z, hyz, hzx⟩
  · exact h.not_below_self hyy
  · obtain ⟨a, ha⟩ := h.of_below (Relation.TransGen.head' hyz hzx)
    exact ha.not_below_self hyy

theorem congr (h : Yields R I x o) (hx : J x = I x) (hbelow : ∀ y, Below R I y x → J y = I y) :
    Yields R J x o := by
  induction h with
  | input hv => exact .input (hx.trans hv)
  | @computed x o ys hn htrace hys ih =>
      refine .computed (hx.trans hn) htrace fun p hp ↦ ih p hp ?_ fun y hy ↦ ?_
      · exact hbelow _ (.single ((readBy_iff hn htrace hys).2 (List.mem_map_of_mem hp)))
      · exact hbelow _ (hy.tail ((readBy_iff hn htrace hys).2 (List.mem_map_of_mem hp)))

/-- What a query yields is carried over to other inputs if what its reads yield is. -/
theorem transfer (h : Yields R I x o) (hI : I x = none) (hJ : J x = none)
    (step : ∀ z a, ReadBy R I z x → ReadBy R J z x → Yields R I z a → Yields R J z a) :
    Yields R J x o := by
  obtain ⟨ys, htrace, hys⟩ := h.exists_trace hI
  exact .computed hJ htrace (htrace.forall_of_step hys fun zs z next hread hzs hzs' a ha ↦
    step z a ⟨hI, zs, next, hread, hzs⟩ ⟨hJ, zs, next, hread, hzs'⟩ ha)

theorem isValue_of_readBy (hR : ∀ x, (R x).Strict) {v : V} (h : Yields R I x (.value v))
    (hy : ReadBy R I y x) : ∃ w, Yields R I y (.value w) := by
  obtain ⟨ys, htrace, hys⟩ := h.exists_trace hy.1
  obtain ⟨⟨y, answer⟩, hp, rfl⟩ := List.mem_map.mp ((readBy_iff hy.1 htrace hys).1 hy)
  obtain ⟨w, rfl⟩ := hR x ys v htrace _ hp
  exact ⟨w, hys _ hp⟩

/-- What goes on with the value of a read gives a value only if the read does. -/
theorem value_of_get {v : V} {next : V → Recipe Q K V} (h : Yields R I x (.value v))
    (hx : I x = none) (hR : R x = .get y next) : ReadBy R I y x ∧ ∃ w, Yields R I y (.value w) := by
  obtain ⟨ys, htrace, hys⟩ := h.exists_trace hx
  rw [hR] at htrace
  cases htrace with
  | @cons _ _ answer ys _ htrace =>
      have hanswer : Yields R I y answer := hys (y, answer) List.mem_cons_self
      cases answer with
      | value w => exact ⟨.first hx hR, w, hanswer⟩
      | failure f => cases htrace
      | panic message => cases htrace

end Yields

namespace ReadBy

theorem below (h : ReadBy R I y x) : Below R I y x := .single h

theorem transfer (h : ReadBy R I y x) (hJ : J x = none)
    (step : ∀ z a, ReadBy R I z x → ReadBy R J z x → Yields R I z a → Yields R J z a) :
    ReadBy R J y x := by
  obtain ⟨hI, ys, next, hread, hys⟩ := h
  exact ⟨hJ, ys, next, hread, hread.forall_of_step hys fun zs z next hread hzs hzs' a ha ↦
    step z a ⟨hI, zs, next, hread, hzs⟩ ⟨hJ, zs, next, hread, hzs'⟩ ha⟩

end ReadBy

theorem Below.isNone (h : Below R I y x) : I x = none := by
  cases h with
  | single h => exact h.1
  | tail _ h => exact h.1

/-- What is read below a query is the same if the inputs there are. -/
theorem Below.congr (h : Below R I y x) (hx : Yields R I x o)
    (hJ : ∀ z, z = x ∨ Below R I z x → J z = I z) : Below R J y x := by
  have step : ∀ {y x : Q × K} {o : Outcome V}, Yields R I x o →
      (∀ z, z = x ∨ Below R I z x → J z = I z) → ReadBy R I y x → ReadBy R J y x := by
    intro y x o hx hJ hy
    refine hy.transfer ((hJ x (.inl rfl)).trans hy.1) fun z a hz _ ha ↦ ?_
    exact ha.congr (hJ z (.inr hz.below)) fun w hw ↦ hJ w (.inr (hw.tail hz))
  induction h generalizing o with
  | single h => exact .single (step hx hJ h)
  | @tail z x hyz hzx ih =>
      obtain ⟨a, ha⟩ := hx.of_readBy hzx
      refine (ih ha fun w hw ↦ hJ w (.inr ?_)).tail (step hx hJ hzx)
      rcases hw with rfl | hw
      · exact hzx.below
      · exact hw.tail hzx

theorem Shows.isBelow (h : Shows R I z x) : Below R I z x := by
  induction h with
  | value h _ => exact .single h
  | through h _ _ _ ih => exact ih.tail h

/-- A value shows in what is computed from it, unless a panic lies between. -/
theorem Below.shows_or_panics {v : V} (h : Below R I z x) (hx : Yields R I x o)
    (hv : Yields R I z (.value v)) :
    Shows R I z x ∨ ∃ y message, Below R I z y ∧ Below R I y x ∧ Yields R I y (.panic message) := by
  induction h generalizing o with
  | single h => exact .inl (.value h hv)
  | @tail y x hzy hy ih =>
      obtain ⟨a, ha⟩ := hx.of_readBy hy
      by_cases hpanic : a.IsPanic
      · obtain ⟨message, rfl⟩ := hpanic
        exact .inr ⟨y, message, hzy, hy.below, ha⟩
      · rcases ih ha with hshows | ⟨y', message, hzy', hy', hpanics⟩
        · exact .inl (.through hy ha hpanic hshows)
        · exact .inr ⟨y', message, hzy', hy'.tail hy, hpanics⟩

theorem Below.shows (hR : ∀ x, (R x).Strict) {v : V} (h : Below R I y x)
    (hx : Yields R I x (.value v)) : Shows R I y x := by
  induction h generalizing v with
  | single h =>
      obtain ⟨w, hw⟩ := hx.isValue_of_readBy hR h
      exact .value h hw
  | tail _ h ih =>
      obtain ⟨w, hw⟩ := hx.isValue_of_readBy hR h
      exact .through h hw (by simp) (ih hw)

namespace Circles

theorem of_readBy (h : Circles R I y) (hy : ReadBy R I y x) : Circles R I x := by
  obtain ⟨z, hzy, hz⟩ := h
  exact ⟨z, hzy.tail hy, hz⟩

theorem of_below (h : Circles R I y) (hy : Below R I y x) : Circles R I x := by
  induction hy with
  | single hy => exact h.of_readBy hy
  | tail _ hy ih => exact ih.of_readBy hy

theorem of_below_self (h : Below R I x x) : Circles R I x := ⟨x, .refl, h⟩

end Circles

namespace Ends

variable {label : Q × K → String} {active : List (Q × K)}

theorem unique (h : Ends R I label active x o) (h' : Ends R I label active x o') : o = o' := by
  induction h generalizing o' with
  | refused hx => cases h' with
      | refused => rfl
      | input hx' => exact absurd hx hx'
      | computed hx' => exact absurd hx hx'
  | input hx hv => cases h' with
      | refused hx' => exact absurd hx' hx
      | input _ hv' => rw [hv] at hv'; cases hv'; rfl
      | computed _ hv' => rw [hv] at hv'; cases hv'
  | computed hx hn htrace _ ih => cases h' with
      | refused hx' => exact absurd hx' hx
      | input _ hv' => rw [hn] at hv'; cases hv'
      | computed _ _ htrace' hys' =>
          obtain ⟨ws, rfl, hws⟩ :=
            htrace.prefix_of_done htrace' (fun p hp answer ↦ ih p hp) hys'
          cases hws
          rfl

end Ends

/-- What a query yields is how it ends, whatever is active elsewhere. -/
theorem Yields.ends (label : Q × K → String) (h : Yields R I x o) {active : List (Q × K)}
    (hactive : ∀ s ∈ active, s ≠ x ∧ ¬ Below R I s x) : Ends R I label active x o := by
  induction h generalizing active with
  | input hx => exact .input (fun hmem ↦ (hactive _ hmem).1 rfl) hx
  | @computed x o ys hx htrace hys ih =>
      refine .computed (fun hmem ↦ (hactive _ hmem).1 rfl) hx htrace fun p hp ↦ ih p hp ?_
      have hp' : ReadBy R I p.1 x := (readBy_iff hx htrace hys).2 (List.mem_map_of_mem hp)
      have hself : ¬ Below R I x x := (Yields.computed hx htrace hys).not_below_self
      intro s hs
      rcases List.mem_append.mp hs with hs | hs
      · refine ⟨?_, fun hsp ↦ (hactive s hs).2 (hsp.tail hp')⟩
        rintro rfl
        exact (hactive _ hs).2 hp'.below
      · obtain rfl := List.mem_singleton.mp hs
        refine ⟨?_, fun hsp ↦ hself (hsp.tail hp')⟩
        intro heq
        exact hself (heq ▸ hp'.below)

end Incremental
