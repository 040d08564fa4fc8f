import Incremental.Proofs.Scratch

/-!
# The work of an evaluation

Which bodies are begun when queries are read in turn depends on what is remembered at the outset.
What is remembered is worth a body only as long as it is closed under reads; then to remember more
saves work and costs none.
-/

namespace Incremental

variable {Q K V : Type}

section

variable (R : Q × K → Recipe Q K V) (I : Inputs Q K V)

/-- The query yields a value. -/
def Valued (x : Q × K) : Prop := ∃ v, Yields R I x (.value v)

/-- What is remembered after the bodies `l` were run: those that end in a value leave it behind. -/
def Grown (kept : Q × K → Prop) (l : List (Q × K)) : Q × K → Prop :=
  fun x ↦ kept x ∨ x ∈ l ∧ Valued R I x

/-- To answer reads of `xs` in turn, while `active` is under evaluation and what is `kept` is
remembered, the bodies `l` are begun. -/
inductive Begins (label : Q × K → String) :
    List (Q × K) → (Q × K → Prop) → List (Q × K) → List (Q × K) → Prop
  | nil {active : List (Q × K)} {kept : Q × K → Prop} : Begins label active kept [] []
  | refused {active xs l : List (Q × K)} {kept : Q × K → Prop} {x : Q × K} (h : x ∈ active)
      (rest : Begins label active kept xs l) : Begins label active kept (x :: xs) l
  | kept {active xs l : List (Q × K)} {kept : Q × K → Prop} {x : Q × K} (h : x ∉ active)
      (hkept : kept x) (rest : Begins label active kept xs l) : Begins label active kept (x :: xs) l
  | computed {active xs l l' : List (Q × K)} {kept : Q × K → Prop} {x : Q × K} {o : Outcome V}
      {ys : List ((Q × K) × Outcome V)} (h : x ∉ active) (hkept : ¬ kept x)
      (hx : I x = none) (htrace : (R x).Trace ys (.done o))
      (hys : ∀ p ∈ ys, Ends R I label (active ++ [x]) p.1 p.2)
      (hright : ∀ o', Yields R I x o' → o = o')
      (body : Begins label (active ++ [x]) kept (ys.map Prod.fst) l)
      (rest : Begins label active (Grown R I kept (x :: l)) xs l') :
      Begins label active kept (x :: xs) (x :: l ++ l')

/-- What is remembered yields values, and so is everything that is read for it. -/
structure Closed (kept : Q × K → Prop) : Prop where
  valued : ∀ x, kept x → Valued R I x
  reads : ∀ x y, kept x → ReadBy R I y x → kept y

end

variable {R : Q × K → Recipe Q K V} {I : Inputs Q K V} {label : Q × K → String}
  {active xs xs' l l' l₁ l₂ : List (Q × K)} {kept kept₁ kept₂ : Q × K → Prop} {x y : Q × K}
  {o : Outcome V} {ys : List ((Q × K) × Outcome V)}

@[simp] theorem grown_nil (kept : Q × K → Prop) : Grown R I kept [] = kept := by
  funext x
  simp [Grown]

theorem grown_append (kept : Q × K → Prop) (l l' : List (Q × K)) :
    Grown R I (Grown R I kept l) l' = Grown R I kept (l ++ l') := by
  funext x
  simp only [Grown, List.mem_append, or_and_right, or_assoc]

theorem Grown.of_kept (h : kept x) (l : List (Q × K)) : Grown R I kept l x := .inl h

theorem Grown.mono (h : Grown R I kept l x) (hl : l ⊆ l') : Grown R I kept l' x :=
  h.imp_right (And.imp_left fun hx ↦ hl hx)

/-- A value that an evaluation ends in is what the query yields, if values come from values. -/
theorem Ends.yields (hR : ∀ x, (R x).Strict) {v : V} (h : Ends R I label active x (.value v)) :
    Yields R I x (.value v) := by
  generalize ho : Outcome.value v = o at h
  induction h generalizing v with
  | refused => cases ho
  | input _ hx =>
      cases ho
      exact .input hx
  | @computed active x o ys _ hx htrace _ ih =>
      refine .computed hx htrace fun p hp ↦ ?_
      subst ho
      obtain ⟨w, hw⟩ := hR x ys v htrace p hp
      exact hw ▸ ih p hp hw.symm

theorem Ends.isValue_iff (hR : ∀ x, (R x).Strict) (h : Ends R I label active x o)
    (hright : ∀ o', Yields R I x o' → o = o') : o.IsValue ↔ Valued R I x := by
  constructor
  · rintro ⟨v, rfl⟩
    exact ⟨v, h.yields hR⟩
  · rintro ⟨v, hv⟩
    exact ⟨v, hright _ hv⟩

/-- Where the evaluation of what yields a value ends in it, its reads are those from scratch. -/
theorem Valued.reads (hR : ∀ x, (R x).Strict) (h : Valued R I x) (hx : I x = none)
    (htrace : (R x).Trace ys (.done o)) (hys : ∀ p ∈ ys, Ends R I label (active ++ [x]) p.1 p.2)
    (hright : ∀ o', Yields R I x o' → o = o') :
    (∀ p ∈ ys, p.1 ∉ active ++ [x] ∧ Valued R I p.1) ∧
      ∀ y, ReadBy R I y x ↔ y ∈ ys.map Prod.fst := by
  obtain ⟨v, hv⟩ := h
  obtain rfl := hright _ hv
  have hvalue : ∀ p ∈ ys, ∃ w, p.2 = .value w := hR x ys v htrace
  have hyields : ∀ p ∈ ys, Yields R I p.1 p.2 := by
    intro p hp
    obtain ⟨w, hw⟩ := hvalue p hp
    exact hw ▸ Ends.yields hR (hw ▸ hys p hp)
  refine ⟨fun p hp ↦ ⟨fun hmem ↦ ?_, ?_⟩, fun y ↦ Yields.readBy_iff hx htrace hyields⟩
  · obtain ⟨w, hw⟩ := hvalue p hp
    cases (hw ▸ hys p hp).unique (.refused hmem)
  · obtain ⟨w, hw⟩ := hvalue p hp
    exact ⟨w, hw ▸ hyields p hp⟩

namespace Begins

theorem append (h : Begins R I label active kept xs l)
    (h' : Begins R I label active (Grown R I kept l) xs' l') :
    Begins R I label active kept (xs ++ xs') (l ++ l') := by
  induction h with
  | nil => simpa using h'
  | refused hx _ ih => exact .refused hx (ih h')
  | kept hx hkept _ ih => exact .kept hx hkept (ih h')
  | @computed active xs l l₁ kept x o ys hactive hkept hx htrace hys hright body _ _ ih =>
      have hrest : Begins R I label active kept (x :: (xs ++ xs')) (x :: l ++ (l₁ ++ l')) :=
        .computed hactive hkept hx htrace hys hright body (ih (by rwa [grown_append]))
      simpa only [List.cons_append, List.append_assoc] using hrest

theorem single (hactive : x ∉ active) (hkept : ¬ kept x) (hx : I x = none)
    (htrace : (R x).Trace ys (.done o)) (hys : ∀ p ∈ ys, Ends R I label (active ++ [x]) p.1 p.2)
    (hright : ∀ o', Yields R I x o' → o = o')
    (body : Begins R I label (active ++ [x]) kept (ys.map Prod.fst) l) :
    Begins R I label active kept [x] (x :: l) := by
  simpa using Begins.computed hactive hkept hx htrace hys hright body .nil

variable (hR : ∀ x, (R x).Strict)

include hR

/-- What was read is remembered afterwards if it yields a value, with everything that was read for
it. -/
theorem closed (h : Begins R I label active kept xs l) (hclosed : Closed R I kept) :
    (∀ x ∈ xs, x ∉ active → Valued R I x → Grown R I kept l x) ∧
      Closed R I (Grown R I kept l) := by
  induction h with
  | nil => exact ⟨by simp, by simpa using hclosed⟩
  | refused hactive _ ih =>
      obtain ⟨hxs, hgrown⟩ := ih hclosed
      exact ⟨List.forall_mem_cons.mpr ⟨fun hx ↦ absurd hactive hx, hxs⟩, hgrown⟩
  | kept _ hkept _ ih =>
      obtain ⟨hxs, hgrown⟩ := ih hclosed
      exact ⟨List.forall_mem_cons.mpr ⟨fun _ _ ↦ .of_kept hkept _, hxs⟩, hgrown⟩
  | @computed active xs l l' kept x o ys _ _ hx htrace hys hright _ _ ihbody ihrest =>
      -- what is left by `x` itself was read for it just now, so it is remembered already
      obtain ⟨hreads, hbody⟩ := ihbody hclosed
      have hsub : l ⊆ x :: l := List.subset_cons_self x l
      have hself : Closed R I (Grown R I kept (x :: l)) := by
        refine ⟨fun z hz ↦ hz.elim (hclosed.valued z) And.right, fun z y hz hy ↦ ?_⟩
        by_cases hzx : z = x
        · subst hzx
          have hvalued : Valued R I z := hz.elim (hclosed.valued z) And.right
          obtain ⟨hvalues, hiff⟩ := hvalued.reads hR hx htrace hys hright
          have hmem := (hiff y).1 hy
          obtain ⟨p, hp, rfl⟩ := List.mem_map.mp hmem
          exact (hreads _ hmem (hvalues p hp).1 (hvalues p hp).2).mono hsub
        · have hz : Grown R I kept l z := hz.imp_right fun hmem ↦
            ⟨(List.mem_cons.mp hmem.1).resolve_left hzx, hmem.2⟩
          exact (hbody.reads z y hz hy).mono hsub
      obtain ⟨hxs, hgrown⟩ := ihrest hself
      rw [grown_append] at hxs hgrown
      refine ⟨List.forall_mem_cons.mpr ⟨fun _ hvalued ↦ ?_, hxs⟩, hgrown⟩
      exact .inr ⟨by simp, hvalued⟩

/-- Reads of what is in a closed set begin only bodies of what is in it. -/
theorem subset_closed (h : Begins R I label active kept xs l) (hclosed : Closed R I kept₁)
    (hxs : ∀ x ∈ xs, kept₁ x) : ∀ y ∈ l, kept₁ y := by
  induction h with
  | nil => simp
  | refused _ _ ih => exact ih fun y hy ↦ hxs y (List.mem_cons_of_mem _ hy)
  | kept _ _ _ ih => exact ih fun y hy ↦ hxs y (List.mem_cons_of_mem _ hy)
  | @computed active xs l l' kept x o ys _ _ hx htrace hys hright _ _ ihbody ihrest =>
      have hself : kept₁ x := hxs x List.mem_cons_self
      obtain ⟨_, hiff⟩ := (hclosed.valued x hself).reads hR hx htrace hys hright
      have hbody := ihbody fun y hy ↦ hclosed.reads x y hself ((hiff y).2 hy)
      have hrest := ihrest fun y hy ↦ hxs y (List.mem_cons_of_mem _ hy)
      exact List.forall_mem_append.mpr ⟨List.forall_mem_cons.mpr ⟨hself, hbody⟩, hrest⟩

/-- Who remembers more begins no more bodies, and remembers more afterwards. -/
theorem sublist (h : Begins R I label active kept₂ xs l₂) (h' : Begins R I label active kept₁ xs l₁)
    (hclosed : Closed R I kept₁) (hsub : ∀ x, kept₂ x → kept₁ x) :
    l₁.Sublist l₂ ∧ ∀ y, Grown R I kept₂ l₂ y → Grown R I kept₁ l₁ y := by
  induction h generalizing kept₁ l₁ with
  | nil =>
      cases h'
      exact ⟨.refl _, by simpa using hsub⟩
  | refused hactive _ ih =>
      cases h' with
      | refused _ rest => exact ih rest hclosed hsub
      | kept hidle => exact absurd hactive hidle
      | computed hidle => exact absurd hactive hidle
  | kept hidle hkept _ ih =>
      cases h' with
      | refused hactive => exact absurd hactive hidle
      | kept _ _ rest => exact ih rest hclosed hsub
      | computed _ hkept' => exact absurd (hsub _ hkept) hkept'
  | @computed active xs l l' kept₂ x o ys hidle hkept hx htrace hys hright body _ ihbody ihrest =>
      cases h' with
      | refused hactive => exact absurd hactive hidle
      | kept _ hkept' rest' =>
          -- all that is begun for `x` is remembered already where `x` is
          have hall : ∀ z ∈ x :: l, kept₁ z :=
            (single hidle hkept hx htrace hys hright body).subset_closed hR hclosed
              (by simpa using hkept')
          obtain ⟨hsublist, hgrown⟩ := ihrest rest' hclosed fun z hz ↦
            hz.elim (hsub z) fun hmem ↦ hall z hmem.1
          exact ⟨hsublist.trans (List.sublist_append_right _ _), grown_append kept₂ _ _ ▸ hgrown⟩
      | @computed _ _ l₁ l₁' _ _ _ ys' _ hkept' _ htrace' hys' hright' body' rest' =>
          -- both run the same body, as its reads end the same way
          obtain ⟨ws, rfl, hws⟩ :=
            htrace.prefix_of_done htrace' (fun p hp answer h ↦ (hys p hp).unique h) hys'
          cases hws
          rw [List.append_nil] at ihbody
          obtain ⟨hbody, hgrown⟩ := ihbody body' hclosed hsub
          have hclosed' := ((single hidle hkept' hx htrace' hys' hright' body').closed hR hclosed).2
          have hsub' : ∀ z, Grown R I kept₂ (x :: l) z → Grown R I kept₁ (x :: l₁) z := by
            rintro z (hz | ⟨hmem, hvalued⟩)
            · exact .of_kept (hsub z hz) _
            · rcases List.mem_cons.mp hmem with rfl | hmem
              · exact .inr ⟨List.mem_cons_self, hvalued⟩
              · exact (hgrown z (.inr ⟨hmem, hvalued⟩)).mono (List.subset_cons_self x l₁)
          obtain ⟨hrest, hgrown'⟩ := ihrest rest' hclosed' hsub'
          rw [grown_append, grown_append] at hgrown'
          exact ⟨(hbody.cons_cons x).append hrest, hgrown'⟩

end Begins

end Incremental
