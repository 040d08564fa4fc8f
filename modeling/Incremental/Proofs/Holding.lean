import Incremental.Proofs.Editing

/-!
# What a consistent store holds

A store holds what is kept in it and is not outdated. In a consistent store that is what the query
yields from scratch, the store also holds everything that is read below it, and the lists of what
was read lead exactly there.
-/

namespace Incremental

variable {Q K V W : Type} [DecidableEq Q] [BEq K]

namespace Store

/-- Something is kept for the query. -/
def Stores (s : Store Q K V) (x : Q × K) : Prop :=
  ∃ key m, s.lookup? x.1 x.2 = some key ∧ s.memo? key = some m

/-- Something is kept for the query that is not outdated. -/
def Holds (s : Store Q K V) (x : Q × K) : Prop :=
  ∃ key m, s.lookup? x.1 x.2 = some key ∧ s.memo? key = some m ∧ ¬ s.Outdated key

variable {R : Q × K → Recipe Q K V} {now : Revision} {s s' : Store Q K V} {key other : Handle}
  {x y : Q × K} {m : Memo V} {v : V} {c w : Revision} {reads : List Handle}

theorem Holds.stores (h : s.Holds x) : s.Stores x := by
  obtain ⟨key, m, hkey, hm, _⟩ := h
  exact ⟨key, m, hkey, hm⟩

theorem holds_iff (hkey : s.lookup? x.1 x.2 = some key) :
    s.Holds x ↔ ∃ m, s.memo? key = some m ∧ ¬ s.Outdated key := by
  constructor
  · rintro ⟨key', m, hkey', hm, hout⟩
    cases hkey.symm.trans hkey'
    exact ⟨m, hm, hout⟩
  · rintro ⟨m, hm, hout⟩
    exact ⟨key, m, hkey, hm, hout⟩

theorem stores_iff (hkey : s.lookup? x.1 x.2 = some key) :
    s.Stores x ↔ ∃ m, s.memo? key = some m := by
  constructor
  · rintro ⟨key', m, hkey', hm⟩
    cases hkey.symm.trans hkey'
    exact ⟨m, hm⟩
  · rintro ⟨m, hm⟩
    exact ⟨key, m, hkey, hm⟩

theorem lacks_iff_not_holds (hkey : s.lookup? x.1 x.2 = some key) :
    s.Lacks key ↔ ¬ s.Holds x := by
  rw [holds_iff hkey]
  constructor
  · rintro (hnone | hout) ⟨m, hm, hout'⟩
    · simp [hnone] at hm
    · exact hout' hout
  · intro h
    cases hm : s.memo? key with
    | none => exact .inl hm
    | some m => exact .inr (not_not.1 fun hout ↦ h ⟨m, hm, hout⟩)

theorem inputs_eq_some_iff : s.inputs x = some v ↔
    ∃ key c, s.lookup? x.1 x.2 = some key ∧ s.memo? key = some (.input v c) := by
  constructor
  · intro h
    obtain ⟨m, hm, rfl⟩ := Option.map_eq_some_iff.mp h
    obtain ⟨hm, hinput⟩ := Option.filter_eq_some_iff.mp hm
    obtain ⟨key, hkey, hm⟩ := Option.bind_eq_some_iff.mp hm
    cases m with
    | input v c => exact ⟨key, c, hkey, hm⟩
    | derived => cases hinput
  · rintro ⟨key, c, hkey, hm⟩
    simp [inputs, hkey, hm, Memo.isInput, Memo.value]

theorem holds_of_input (h : s.inputs x = some v) : s.Holds x := by
  obtain ⟨key, c, hkey, hm⟩ := inputs_eq_some_iff.1 h
  exact ⟨key, _, hkey, hm, not_outdated_of_input hm⟩

theorem holds_iff_not_lacks :
    s.Holds x ↔ ∃ key, s.lookup? x.1 x.2 = some key ∧ ¬ s.Lacks key := by
  constructor
  · intro h
    obtain ⟨key, _, hkey, _⟩ := h.stores
    exact ⟨key, hkey, fun hlacks ↦ (lacks_iff_not_holds hkey).1 hlacks h⟩
  · rintro ⟨key, hkey, hlacks⟩
    exact not_not.1 fun h ↦ hlacks ((lacks_iff_not_holds hkey).2 h)

theorem lookup?_of_memo? [LawfulBEq K] (hs : s.Indexed)
    (hlookup : ∀ q k d, s.lookup? q k = some d → s'.lookup? q k = some d)
    (hm : s.memo? key = some m) (hkey : s'.lookup? x.1 x.2 = some key) :
    s.lookup? x.1 x.2 = some key := by
  obtain ⟨y, hy⟩ := has_of_memo? hm
  have hfound := hs.lookup? hy
  obtain rfl : y = x := eq_of_lookup? (hlookup _ _ key hfound) hkey
  exact hfound

/-- Whether something is held is told by what its row lacks. -/
theorem holds_congr [LawfulBEq K] (hs : s.Indexed)
    (hlookup : ∀ q k d, s.lookup? q k = some d → s'.lookup? q k = some d)
    (hsame : ∀ d, s'.lookup? x.1 x.2 = some d →
      (s'.memo? d = none ↔ s.memo? d = none) ∧ (s'.Lacks d ↔ s.Lacks d)) :
    (s'.Holds x ↔ s.Holds x) ∧ (s'.Stores x ↔ s.Stores x) := by
  have hback : ∀ d, s'.lookup? x.1 x.2 = some d → s.memo? d ≠ none →
      s.lookup? x.1 x.2 = some d := by
    intro d hd hm
    obtain ⟨m, hm⟩ := Option.ne_none_iff_exists'.1 hm
    exact lookup?_of_memo? hs hlookup hm hd
  rw [holds_iff_not_lacks, holds_iff_not_lacks]
  refine ⟨⟨?_, ?_⟩, ?_, ?_⟩
  · rintro ⟨d, hd, hlacks⟩
    rw [(hsame d hd).2] at hlacks
    exact ⟨d, hback d hd fun hnone ↦ hlacks (.inl hnone), hlacks⟩
  · rintro ⟨d, hd, hlacks⟩
    have hd' := hlookup _ _ d hd
    exact ⟨d, hd', mt (hsame d hd').2.1 hlacks⟩
  · rintro ⟨d, m, hd, hm⟩
    have hm' : s.memo? d ≠ none := fun hnone ↦ by simp [(hsame d hd).1.2 hnone] at hm
    exact (stores_iff (hback d hd hm')).2 (Option.ne_none_iff_exists'.1 hm')
  · rintro ⟨d, m, hd, hm⟩
    have hd' := hlookup _ _ d hd
    refine (stores_iff hd').2 (Option.ne_none_iff_exists'.1 fun hnone ↦ ?_)
    simp [(hsame d hd').1.1 hnone] at hm

theorem Renews.lacks_iff (h : s.Renews now s') (hs : Consistent (.of R) now s)
    (hm : s'.memo? key = s.memo? key) : s'.Lacks key ↔ s.Lacks key := by
  constructor
  · exact not_imp_not.1 h.not_lacks
  · intro hlacks
    rcases h.lacks key hlacks with ⟨_, hlacks'⟩ | ⟨⟨v, c, reads, hnew⟩, _⟩
    · exact hlacks'
    · exact absurd rfl (hs.not_current_of_lacks hlacks (hm.symm.trans hnew))

theorem Rechecks.lacks_iff (h : Rechecks (.of R) now s s') (key : Handle) :
    (s'.memo? key = none ↔ s.memo? key = none) ∧ (s'.Lacks key ↔ s.Lacks key) := by
  have hnone : s'.memo? key = none ↔ s.memo? key = none := by
    rcases h.kept key with heq | ⟨_, heq⟩
    · rw [heq]
    · rw [heq, Option.map_eq_none_iff]
  exact ⟨hnone, or_congr hnone (h.outdated key)⟩

namespace Consistent

variable [LawfulBEq K] (hs : Consistent (.of R) now s)

include hs

theorem inputs_eq_none (hkey : s.lookup? x.1 x.2 = some key)
    (hm : s.memo? key = some (.derived v c w reads)) : s.inputs x = none := by
  refine inputs_of_not_input hs.indexed (named?_of_lookup? hkey) fun v' c' hm' ↦ ?_
  rw [hm] at hm'
  cases hm'

/-- What is held was computed from what is held. -/
theorem exists_trace (hkey : s.lookup? x.1 x.2 = some key)
    (hm : s.memo? key = some (.derived v c w reads)) (hout : ¬ s.Outdated key) :
    ∃ ys, (R x).Trace ys (.done (.value v)) ∧
      (∀ p ∈ ys, ∃ d ∈ reads, ∃ m, s.lookup? p.1.1 p.1.2 = some d ∧ s.memo? d = some m ∧
        ¬ s.Outdated d ∧ p.2 = .value m.value) ∧
      ∀ e ∈ reads, ∃ p ∈ ys, ∃ d ∈ reads, s.lookup? p.1.1 p.1.2 = some d ∧
        (e = d ∨ s.Rests d e) := by
  obtain ⟨x', ys, hx', htrace, hdirect, hindirect⟩ := (hs.recorded key v c w reads hm).taken
  obtain rfl : x' = x := eq_of_lookup? hx' hkey
  have hunchanged := (not_outdated_iff hm).1 hout
  refine ⟨ys, htrace, fun p hp ↦ ?_, fun e he ↦ ?_⟩
  · obtain ⟨d, hd, hfound, hvalue⟩ := hdirect p hp
    obtain ⟨m, hm, hle, hout⟩ := hunchanged d hd
    exact ⟨d, hd, m, hfound, hm, hout, hvalue m hm hle⟩
  · obtain ⟨p, hp, d, hd, hfound, hor⟩ := hindirect e he
    obtain ⟨m, hm, hle, _⟩ := hunchanged d hd
    exact ⟨p, hp, d, hd, hfound, hor.imp_right fun hmem ↦ ⟨m, hm, hmem m hm hle⟩⟩

/-- What is held is what the query yields. -/
theorem yields (hkey : s.lookup? x.1 x.2 = some key) (hm : s.memo? key = some m)
    (hout : ¬ s.Outdated key) : Yields R s.inputs x (.value m.value) := by
  induction hs.founded.apply key generalizing x m with
  | intro key _ ih =>
      have hinput : ∀ {x key v c}, s.lookup? x.1 x.2 = some key →
          s.memo? key = some (.input v c) → Yields R s.inputs x (.value v) :=
        fun hkey hm ↦ .input (inputs_of_input hs.indexed (named?_of_lookup? hkey) hm)
      cases m with
      | input v c => exact hinput hkey hm
      | derived v c w reads =>
          obtain ⟨ys, htrace, hdirect, _⟩ := hs.exists_trace hkey hm hout
          refine .computed (hs.inputs_eq_none hkey hm) htrace fun p hp ↦ ?_
          obtain ⟨d, hd, m', hfound, hm', hout', heq⟩ := hdirect p hp
          rw [heq]
          cases m' with
          | input v' c' => exact hinput hfound hm'
          | derived => exact ih d ⟨⟨_, hm, hd⟩, _, hm', rfl⟩ hfound hm' hout'

theorem holds_yields (h : s.Holds x) : ∃ v, Yields R s.inputs x (.value v) := by
  obtain ⟨key, m, hkey, hm, hout⟩ := h
  exact ⟨m.value, hs.yields hkey hm hout⟩

/-- Every read of what is held is listed and held. -/
theorem rests_of_readBy (hkey : s.lookup? x.1 x.2 = some key) (hm : s.memo? key = some m)
    (hout : ¬ s.Outdated key) (hy : ReadBy R s.inputs y x) :
    ∃ d m', s.lookup? y.1 y.2 = some d ∧ s.memo? d = some m' ∧ ¬ s.Outdated d ∧
      s.Rests key d := by
  cases m with
  | input v c =>
      have hinput := inputs_of_input hs.indexed (named?_of_lookup? hkey) hm
      rw [hy.1] at hinput
      cases hinput
  | derived v c w reads =>
      obtain ⟨ys, htrace, hdirect, _⟩ := hs.exists_trace hkey hm hout
      have hyields : ∀ p ∈ ys, Yields R s.inputs p.1 p.2 := by
        intro p hp
        obtain ⟨d, _, m', hfound, hm', hout', heq⟩ := hdirect p hp
        exact heq ▸ hs.yields hfound hm' hout'
      obtain ⟨p, hp, rfl⟩ := List.mem_map.mp ((Yields.readBy_iff hy.1 htrace hyields).1 hy)
      obtain ⟨d, hd, m', hfound, hm', hout', _⟩ := hdirect p hp
      exact ⟨d, m', hfound, hm', hout', _, hm, hd⟩

theorem holds_of_readBy (h : s.Holds x) (hy : ReadBy R s.inputs y x) : s.Holds y := by
  obtain ⟨key, m, hkey, hm, hout⟩ := h
  obtain ⟨d, m', hfound, hm', hout', _⟩ := hs.rests_of_readBy hkey hm hout hy
  exact ⟨d, m', hfound, hm', hout'⟩

theorem holds_of_below (h : s.Holds x) (hy : Below R s.inputs y x) : s.Holds y := by
  induction hy using Relation.TransGen.head_induction_on with
  | single hy => exact hs.holds_of_readBy h hy
  | head hy _ ih => exact hs.holds_of_readBy ih hy

/-- What is listed by what is held is read below it. -/
theorem below_of_rests (hkey : s.lookup? x.1 x.2 = some key) (hout : ¬ s.Outdated key)
    (hd : s.Rests key other) : ∃ y, s.lookup? y.1 y.2 = some other ∧ ¬ s.Outdated other ∧
      Below R s.inputs y x := by
  induction hs.founded.apply key generalizing x other with
  | intro key _ ih =>
      obtain ⟨v, c, w, reads, hm, he⟩ := hd.exists_derived
      obtain ⟨ys, htrace, hdirect, hindirect⟩ := hs.exists_trace hkey hm hout
      have hread : ∀ p ∈ ys, ReadBy R s.inputs p.1 x := by
        intro p hp
        refine (Yields.readBy_iff (hs.inputs_eq_none hkey hm) htrace fun p hp ↦ ?_).2
          (List.mem_map_of_mem hp)
        obtain ⟨d, _, m', hfound, hm', hout', heq⟩ := hdirect p hp
        exact heq ▸ hs.yields hfound hm' hout'
      obtain ⟨p, hp, d, hd, hfound, hor⟩ := hindirect other he
      obtain ⟨d', _, m', hfound', hm', hout', _⟩ := hdirect p hp
      cases hfound.symm.trans hfound'
      rcases hor with rfl | hrests
      · exact ⟨p.1, hfound, hout', (hread p hp).below⟩
      · obtain ⟨_, _, _, _, hm'', _⟩ := hrests.exists_derived
        obtain ⟨y, hy, hout'', hbelow⟩ :=
          ih d ⟨⟨_, hm, hd⟩, _, hm'', rfl⟩ hfound hout' hrests
        exact ⟨y, hy, hout'', hbelow.tail (hread p hp)⟩

theorem below_of_transGen (hkey : s.lookup? x.1 x.2 = some key) (hout : ¬ s.Outdated key)
    (h : Relation.TransGen s.Rests key other) :
    ∃ y, s.lookup? y.1 y.2 = some other ∧ Below R s.inputs y x := by
  induction h using Relation.TransGen.head_induction_on generalizing x with
  | single hrests =>
      obtain ⟨y, hy, _, hbelow⟩ := hs.below_of_rests hkey hout hrests
      exact ⟨y, hy, hbelow⟩
  | head hrests _ ih =>
      obtain ⟨z, hz, hout', hbelow⟩ := hs.below_of_rests hkey hout hrests
      obtain ⟨y, hy, hbelow'⟩ := ih hz hout'
      exact ⟨y, hy, hbelow'.trans hbelow⟩

theorem transGen_of_below (hkey : s.lookup? x.1 x.2 = some key) (hm : s.memo? key = some m)
    (hout : ¬ s.Outdated key) (hother : s.lookup? y.1 y.2 = some other)
    (h : Below R s.inputs y x) : Relation.TransGen s.Rests key other := by
  induction h generalizing key m with
  | single hy =>
      obtain ⟨d, _, hfound, _, _, hrests⟩ := hs.rests_of_readBy hkey hm hout hy
      cases hfound.symm.trans hother
      exact .single hrests
  | tail _ hz ih =>
      obtain ⟨d, m', hfound, hm', hout', hrests⟩ := hs.rests_of_readBy hkey hm hout hz
      exact .head hrests (ih hfound hm' hout')

end Consistent

namespace Changes

variable [LawfulBEq K] (h : s.Changes s' key) (hkey : s'.lookup? x.1 x.2 = some key)
  (hlookup : ∀ q k d, s.lookup? q k = some d → s'.lookup? q k = some d) {z : Q × K} (hz : z ≠ x)

include hkey hz

omit h hlookup in
theorem ne_of_lookup? {d : Handle} (hd : s'.lookup? z.1 z.2 = some d) : d ≠ key := by
  rintro rfl
  exact hz (eq_of_lookup? hd hkey)

include h hlookup

theorem kept_iff (hs : s.Indexed) {d : Handle} :
    s'.lookup? z.1 z.2 = some d ∧ s'.memo? d = some m ↔
      s.lookup? z.1 z.2 = some d ∧ s.memo? d = some m := by
  constructor
  · rintro ⟨hd, hm⟩
    rw [h.others d (ne_of_lookup? hkey hz hd)] at hm
    exact ⟨lookup?_of_memo? hs hlookup hm hd, hm⟩
  · rintro ⟨hd, hm⟩
    have hd' := hlookup _ _ d hd
    exact ⟨hd', (h.others d (ne_of_lookup? hkey hz hd')).trans hm⟩

theorem stores_iff (hs : s.Indexed) : s'.Stores z ↔ s.Stores z :=
  exists₂_congr fun _ _ ↦ h.kept_iff hkey hlookup hz hs

theorem inputs_eq (hs : s.Indexed) : s'.inputs z = s.inputs z := by
  refine Option.ext fun v ↦ ?_
  rw [inputs_eq_some_iff, inputs_eq_some_iff]
  exact exists₂_congr fun _ _ ↦ h.kept_iff hkey hlookup hz hs

/-- A change lets go of what reads the changed query, by itself or through what it reads. -/
theorem holds_iff (hs : Consistent (.of R) now s) :
    s'.Holds z ↔ s.Holds z ∧ ¬ Below R s.inputs x z := by
  have hkept := fun d m ↦ h.kept_iff hkey hlookup hz hs.indexed (d := d) (m := m)
  constructor
  · rintro ⟨d, m, hd, hm, hout⟩
    have hne := ne_of_lookup? hkey hz hd
    obtain ⟨hd', hm'⟩ := (hkept d m).1 ⟨hd, hm⟩
    rw [h.outdated d hne, not_or] at hout
    refine ⟨⟨d, m, hd', hm', hout.1⟩, fun hbelow ↦ hout.2 ?_⟩
    obtain ⟨key', _, hkey', _⟩ := hs.holds_of_below ⟨d, m, hd', hm', hout.1⟩ hbelow
    cases hkey.symm.trans (hlookup _ _ key' hkey')
    exact hs.transGen_of_below hd' hm' hout.1 hkey' hbelow
  · rintro ⟨⟨d, m, hd, hm, hout⟩, hbelow⟩
    obtain ⟨hd', hm'⟩ := (hkept d m).2 ⟨hd, hm⟩
    refine ⟨d, m, hd', hm', fun hout' ↦ ?_⟩
    rcases (h.outdated d (ne_of_lookup? hkey hz hd')).1 hout' with hout' | hreach
    · exact hout hout'
    · obtain ⟨y, hy, hyz⟩ := hs.below_of_transGen hd hout hreach
      obtain rfl : y = x := eq_of_lookup? (hlookup _ _ key hy) hkey
      exact hbelow hyz

end Changes

end Store

end Incremental
