import Incremental.Proofs.Alone
import Incremental.Proofs.Coherence
import Incremental.Proofs.Recall

/-!
# What is known with a value

A value that is known to stand was computed or verified at the current revision, and so was what
it was computed from. So, unless a read was refused meanwhile, everything below it that gives a
value is known to stand as well. That is not told by the lists of what was read alone: what fails
keeps no list.
-/

namespace Incremental

variable {Q K V W : Type}

namespace Database

/-- What is kept under `key` is known to stand. -/
def Attests (db : Database Q K V W) (key : Handle) : Prop :=
  ∃ m, db.store.memo? key = some m ∧ m.IsCurrent db.revision

/-- What is kept for `x` is known to stand. -/
def Knows (db : Database Q K V W) (x : Q × K) : Prop :=
  ∃ key, db.store.named? key = some x ∧ db.Attests key

/-- All that is kept is known to stand. -/
def KnowsKept (db : Database Q K V W) : Prop :=
  ∀ key m, db.store.memo? key = some m → m.IsCurrent db.revision

/-- What has come to be known to stand between `db` and `db'` rests on what is. -/
def Affirms (db db' : Database Q K V W) : Prop :=
  ∀ key m, db'.store.memo? key = some m → m.IsCurrent db'.revision →
    db.Attests key ∨ ∀ d ∈ m.reads, db'.Attests d

variable {db db₁ db₂ db' : Database Q K V W} {key : Handle} {fuel : Nat} {x : Q × K}

theorem Attests.verifies (h : db.Attests key) (hv : db.Verifies db') : db'.Attests key := by
  obtain ⟨m, hm, hcurrent⟩ := h
  exact ⟨m, hv.store.advances.current_memo hm hcurrent, hv.revision_eq ▸ hcurrent⟩

namespace Affirms

theorem refl (db : Database Q K V W) : db.Affirms db := fun _ m hm hcurrent ↦ .inl ⟨m, hm, hcurrent⟩

theorem trans (h : db.Affirms db₁) (h' : db₁.Affirms db₂) (hv : db₁.Verifies db₂) :
    db.Affirms db₂ := by
  intro key m hm hcurrent
  rcases h' key m hm hcurrent with ⟨m₁, hm₁, hcurrent₁⟩ | hreads
  · obtain rfl : m₁ = m :=
      Option.some.inj ((hv.store.advances.current_memo hm₁ hcurrent₁).symm.trans hm)
    exact (h key m₁ hm₁ hcurrent₁).imp_right fun hreads d hd ↦ (hreads d hd).verifies hv
  · exact .inr hreads

end Affirms

/-- Verification affirms only what rests on what it has found to stand. -/
theorem verify_affirms {asOf : Revision} {fresh : Bool}
    (h : verify fuel key asOf db = some (fresh, db')) : db.Affirms db' := by
  refine verify_induction
    (fun key _ db fresh db' ↦ db.Verifies db' ∧ (fresh = true → db'.Attests key) ∧ db.Affirms db')
    (fun _ keys db fresh db' ↦ db.Verifies db' ∧ (fresh = true → ∀ d ∈ keys, db'.Attests d) ∧
      db.Affirms db') ?settled ?walked ?nil ?stop ?step h |>.2.2
  case settled =>
    refine fun key asOf db fresh hglance ↦ ⟨.note db _, fun hfresh ↦ ?_, .refl db⟩
    subst hfresh
    rcases glance_settled hglance with ⟨v, c, hm, _⟩ | ⟨v, c, reads, hm, _⟩
    · exact ⟨_, hm, trivial⟩
    · exact ⟨_, hm, rfl⟩
  case walked =>
    intro key asOf db since reads fresh db₁ hglance ⟨hverifies, hstand, haffirms⟩
    have hconclude := Verifies.conclude key asOf fresh db₁
    have hwalked : db.Verifies db₁ := (Verifies.note db (.walked key)).trans hverifies
    cases fresh with
    | false => exact ⟨hwalked.trans hconclude, by simp, haffirms⟩
    | true =>
        obtain ⟨v, c, hm, _⟩ := glance_undecided hglance
        obtain ⟨w, hm₁, _⟩ := hwalked.store.derived hm
        have hself : (conclude key asOf (true, db₁)).2.store.memo? key =
            some (.derived v c db₁.revision reads) := by
          change (db₁.store.markVerified key db₁.revision).memo? key = _
          rw [Store.memo?_markVerified, hm₁]
          rfl
        refine ⟨hwalked.trans hconclude, fun _ ↦ ⟨_, hself, rfl⟩, fun other m hm' hcurrent ↦ ?_⟩
        by_cases hother : other = key
        · subst hother
          cases hself.symm.trans hm'
          exact .inr fun d hd ↦ (hstand rfl d hd).verifies hconclude
        · have hsame : db₁.store.memo? other = some m := by
            rw [← hm']
            exact (Store.memo?_modify_of_ne hother).symm
          exact (haffirms other m hsame hcurrent).imp_right
            fun hreads d hd ↦ (hreads d hd).verifies hconclude
  case nil => exact fun _ db ↦ ⟨.refl db, by simp, .refl db⟩
  case stop => exact fun _ _ _ _ _ ⟨hverifies, _, haffirms⟩ ↦ ⟨hverifies, by simp, haffirms⟩
  case step =>
    intro since key keys db db₁ fresh db₂ ⟨hverifies, hkey, haffirms⟩ ⟨hverifies', hkeys, haffirms'⟩
    refine ⟨hverifies.trans hverifies', fun hfresh d hd ↦ ?_, haffirms.trans haffirms' hverifies'⟩
    rcases List.mem_cons.mp hd with rfl | hd
    · exact (hkey rfl).verifies hverifies'
    · exact hkeys hfresh d hd

theorem retrieve_affirms {r : Option (V × Revision)} (h : db.retrieve fuel key = some (r, db')) :
    db.Affirms db' := by
  rcases eq_or_verify_of_retrieve h with rfl | ⟨_, hverify⟩
  · exact .refl _
  · exact verify_affirms hverify

section

variable [DecidableEq Q] [BEq K]

/-- Whatever gives a value is known, of `x` and of what is below it. -/
def KnowsBelow (R : Q × K → Recipe Q K V) (db : Database Q K V W) (x : Q × K) : Prop :=
  ∀ z v, (z = x ∨ Below R db.store.inputs z x) → Yields R db.store.inputs z (.value v) → db.Knows z

/-- With each value everything below it is known. -/
def Grounded (R : Q × K → Recipe Q K V) (db : Database Q K V W) : Prop :=
  ∀ x, db.Knows x → db.KnowsBelow R x

/-- From `db` to `db'` nothing has come to be known but what is in the scope `p`, with everything
below it. -/
structure Learns (R : Q × K → Recipe Q K V) (p : Q × K → Prop) (db db' : Database Q K V W) :
    Prop where
  inputs : db'.store.inputs = db.store.inputs
  knows : ∀ x, db.Knows x → db'.Knows x
  kept : db.KnowsKept → db'.KnowsKept
  grounded : db.Grounded R → db'.Grounded R
  scope : db.KnowsKept → ∀ x, db'.Knows x → db.Knows x ∨ p x

variable {R : Q × K → Recipe Q K V} {p p' : Q × K → Prop} {y : Q × K} {v : V} {m : Memo V}

omit [DecidableEq Q] [BEq K] in
theorem Attests.knows (h : db.Attests key)
    (hnamed : ∀ key x, db.store.named? key = some x → db'.store.named? key = some x)
    (hx : db'.store.named? key = some x) : db.Knows x := by
  obtain ⟨m, hm, hcurrent⟩ := h
  obtain ⟨y, hy⟩ := Store.has_of_memo? hm
  obtain rfl : y = x := Option.some.inj ((hnamed key y hy).symm.trans hx)
  exact ⟨key, hy, m, hm, hcurrent⟩

theorem KnowsBelow.congr (h : db.KnowsBelow R x) (hinputs : db'.store.inputs = db.store.inputs)
    (hknows : ∀ x, db.Knows x → db'.Knows x) : db'.KnowsBelow R x := by
  intro z v hz hv
  rw [hinputs] at hz hv
  exact hknows z (h z v hz hv)

namespace Learns

theorem refl (R : Q × K → Recipe Q K V) (p : Q × K → Prop) (db : Database Q K V W) :
    Learns R p db db :=
  ⟨rfl, fun _ ↦ id, id, id, fun _ _ ↦ .inl⟩

theorem trans (h : Learns R p db db₁) (h' : Learns R p db₁ db₂) : Learns R p db db₂ := by
  refine ⟨h'.inputs.trans h.inputs, fun x hx ↦ h'.knows x (h.knows x hx), h'.kept ∘ h.kept,
    h'.grounded ∘ h.grounded, fun hkept x hx ↦ ?_⟩
  rcases h'.scope (h.kept hkept) x hx with hx | hx
  · exact h.scope hkept x hx
  · exact .inr hx

theorem mono (h : Learns R p db db') (hp : ∀ x, p x → p' x) : Learns R p' db db' :=
  ⟨h.inputs, h.knows, h.kept, h.grounded, fun hkept x hx ↦ (h.scope hkept x hx).imp_right (hp x)⟩

theorem of_knows_iff (hinputs : db'.store.inputs = db.store.inputs)
    (hknows : ∀ x, db'.Knows x ↔ db.Knows x) (hkept : db.KnowsKept → db'.KnowsKept) :
    Learns R p db db' :=
  ⟨hinputs, fun x ↦ (hknows x).2, hkept, fun h x hx ↦
    (h x ((hknows x).1 hx)).congr hinputs fun x ↦ (hknows x).2, fun _ x hx ↦ .inl ((hknows x).1 hx)⟩

theorem of_eq (hstore : db'.store = db.store) (hrevision : db'.revision = db.revision) :
    Learns R p db db' := by
  refine .of_knows_iff (by rw [hstore]) (fun x ↦ ?_) fun h key m hm ↦ ?_
  · simp only [Knows, Attests, hstore, hrevision]
  · rw [hstore] at hm
    rw [hrevision]
    exact h key m hm

end Learns

namespace Poised

/-- What is known to stand is what the query yields. -/
theorem yields_of_knows (h : Poised R db) (hx : db.Knows x) :
    ∃ v, Yields R db.store.inputs x (.value v) := by
  obtain ⟨key, hname, m, hm, hcurrent⟩ := hx
  obtain ⟨H, _, _, hfaithful⟩ := h.atRest
  change Faithful R H db.store.lastChange True db.revision db.store at hfaithful
  rw [hfaithful.inputs]
  cases m with
  | input v c => exact ⟨v, (hfaithful.stands_input hname hm).yields⟩
  | derived v c w reads =>
      obtain rfl : w = db.revision := hcurrent
      exact ⟨v, (hfaithful.stands_current hname hm (.inl trivial)).yields⟩

/-- A value lists its reads. -/
theorem knows_of_readBy (h : Poised R db) (hx : db.store.named? key = some x)
    (hm : db.store.memo? key = some m) (hcurrent : m.IsCurrent db.revision)
    (hreads : ∀ d ∈ m.reads, db.Attests d) (hy : ReadBy R db.store.inputs y x) : db.Knows y := by
  obtain ⟨H, _, _, hfaithful⟩ := h.atRest
  change Faithful R H db.store.lastChange True db.revision db.store at hfaithful
  rw [hfaithful.inputs] at hy
  cases m with
  | input v c => cases (hfaithful.input hx hm).1.symm.trans hy.1
  | derived v c w reads =>
      obtain rfl : w = db.revision := hcurrent
      obtain ⟨d, hd, hname⟩ := (hfaithful.kept key x v c _ reads hx hm).lists y hy
      exact ⟨d, hname, hreads d hd⟩

/-- What is affirmed makes known what is below it, one read after the other. -/
theorem grounded (h : Poised R db') (hnamed : ∀ key x, db.store.named? key = some x →
      db'.store.named? key = some x) (hinputs : db'.store.inputs = db.store.inputs)
    (hknows : ∀ x, db.Knows x → db'.Knows x) (haffirms : db.Affirms db') (hdb : db.Grounded R) :
    db'.Grounded R := by
  intro x hx z v hz hv
  rcases hz with rfl | hz
  · exact hx
  · have hcases : ∀ x, db'.Knows x → db.Knows x ∨
        ∀ y, ReadBy R db'.store.inputs y x → db'.Knows y := by
      rintro x ⟨key, hname, m, hm, hcurrent⟩
      rcases haffirms key m hm hcurrent with hkey | hreads
      · exact .inl (hkey.knows hnamed hname)
      · exact .inr fun y ↦ h.knows_of_readBy hname hm hcurrent hreads
    have hold : ∀ {x}, db.Knows x → Below R db'.store.inputs z x → db'.Knows z := by
      intro x hx hz
      rw [hinputs] at hz hv
      exact hknows z (hdb x hx z v (.inr hz) hv)
    induction hz with
    | single hz =>
        rcases hcases _ hx with hx | hreads
        · exact hold hx hz.below
        · exact hreads z hz
    | tail hzy hy ih =>
        rcases hcases _ hx with hx | hreads
        · exact hold hx (hzy.tail hy)
        · exact ih (hreads _ hy)

end Poised

namespace Learns

variable [LawfulBEq K] {q : Q} {k : K}

theorem intern (h : Poised R db) (hkey : db.intern q k = (key, db₁)) :
    Learns R p db (db₁.recordRead key) := by
  have hmemo : ∀ other, (db₁.recordRead key).store.memo? other = db.store.memo? other :=
    (memo?_of_intern hkey :)
  have hf := (h.sound.record hkey).2
  have hattests : ∀ other, (db₁.recordRead key).Attests other ↔ db.Attests other := fun other ↦ by
    simp only [Attests, hmemo, hf.revision]
  refine .of_knows_iff (h.record hkey).2 (fun x ↦ ⟨?_, ?_⟩) fun hkept other m hm ↦ ?_
  · rintro ⟨other, hname, hother⟩
    exact ((hattests other).1 hother).knows hf.store.named hname
  · rintro ⟨other, hname, hother⟩
    exact ⟨other, hf.store.named other x hname, (hattests other).2 hother⟩
  · rw [hmemo] at hm
    rw [hf.revision]
    exact hkept other m hm

theorem retrieve {r : Option (V × Revision)} (h : Poised R db)
    (hretrieve : db.retrieve fuel key = some (r, db')) : Learns R p db db' := by
  obtain ⟨h', hinputs⟩ := h.retrieve hretrieve
  have hv := retrieve_verifies hretrieve
  have hnamed := hv.store.advances.named
  have hknows : ∀ x, db.Knows x → db'.Knows x := by
    rintro x ⟨other, hname, hother⟩
    exact ⟨other, hnamed other x hname, hother.verifies hv⟩
  refine ⟨hinputs, hknows, fun hkept other m hm ↦ ?_,
    h'.grounded hnamed hinputs hknows (retrieve_affirms hretrieve), fun hkept x hx ↦ .inl ?_⟩
  · rw [hv.revision_eq]
    rcases hv.store.memo other with heq | heq
    · exact hkept other m (heq ▸ hm)
    · rw [hm] at heq
      obtain ⟨m₀, _, rfl⟩ := Option.map_eq_some_iff.mp heq.symm
      exact Memo.isCurrent_verified _ _
  · obtain ⟨other, hname, m, hm, _⟩ := hx
    cases hm₀ : db.store.memo? other with
    | none => cases (hv.store.none_iff.2 hm₀).symm.trans hm
    | some m₀ => exact Attests.knows ⟨m₀, hm₀, hkept other m₀ hm₀⟩ hnamed hname

theorem read {r : Option (V × Revision)} (h : Poised R db) (hkey : db.intern q k = (key, db₁))
    (hretrieve : (db₁.recordRead key).retrieve fuel key = some (r, db₂)) : Learns R p db db₂ :=
  (intern h hkey).trans (retrieve (h.record hkey).1 hretrieve)

theorem enter (h : Poised R db) (hkey : db.intern q k = (key, db₁))
    (hretrieve : (db₁.recordRead key).retrieve fuel key = some (none, db₂)) :
    Learns R p db ((db₂.note (.miss q k)).enter q k key) :=
  (read h hkey hretrieve).trans (.of_eq rfl rfl)

end Learns

end

section

variable {stack : CallStack} {frame : Frame}

theorem knows_leave (hstack : db.stack = ⟨frame :: stack.frames, frame.key :: stack.active⟩)
    (hx : db.store.named? frame.key = some x) (o : Outcome V) (y : Q × K) :
    (leave frame.key stack.depth (o, db)).2.Knows y ↔ db.Knows y ∨ y = x ∧ o.IsValue := by
  cases o with
  | panic message =>
      rw [leave_panic hstack]
      exact (or_iff_left (by simp)).symm
  | failure f =>
      rw [leave_failure hstack]
      exact (or_iff_left (by simp)).symm
  | value v =>
      rw [leave_value hstack]
      obtain ⟨m, hm, hself⟩ : ∃ m, m = Memo.derived v
          (max frame.newest (db.store.removedAt frame.key)) db.revision frame.reads ∧
          (db.store.insert frame.key m).memo? frame.key = some m :=
        ⟨_, rfl, Store.memo?_insert_self ⟨x, hx⟩ _⟩
      have hcurrent : m.IsCurrent db.revision := by
        rw [hm]
        rfl
      rw [← hm]
      change Knows { db with store := db.store.insert frame.key m } y ↔ _
      constructor
      · rintro ⟨key, hname, m', hm', hcurrent'⟩
        replace hname := (Store.named?_insert ..).symm.trans hname
        by_cases hkey : frame.key = key
        · subst hkey
          exact .inr ⟨Option.some.inj (hname.symm.trans hx), Outcome.isValue_value v⟩
        · exact .inl ⟨key, hname, m', (Store.memo?_insert_of_ne _ hkey m).symm.trans hm', hcurrent'⟩
      · rintro (⟨key, hname, m', hm', hcurrent'⟩ | ⟨rfl, _⟩)
        · refine ⟨key, (Store.named?_insert ..).trans hname, ?_⟩
          by_cases hkey : frame.key = key
          · subst hkey
            exact ⟨m, hself, hcurrent⟩
          · exact ⟨m', (Store.memo?_insert_of_ne _ hkey m).trans hm', hcurrent'⟩
        · exact ⟨frame.key, (Store.named?_insert ..).trans hx, m, hself, hcurrent⟩

theorem kept_leave (hstack : db.stack = ⟨frame :: stack.frames, frame.key :: stack.active⟩)
    (hx : db.store.named? frame.key = some x) (o : Outcome V) (h : db.KnowsKept) :
    (leave frame.key stack.depth (o, db)).2.KnowsKept := by
  cases o with
  | panic message =>
      rw [leave_panic hstack]
      exact h
  | failure f =>
      rw [leave_failure hstack]
      exact h
  | value v =>
      rw [leave_value hstack]
      intro key m hm
      change (db.store.insert frame.key _).memo? key = some m at hm
      by_cases hkey : frame.key = key
      · subst hkey
        rw [Store.memo?_insert_self ⟨x, hx⟩] at hm
        cases hm
        rfl
      · rw [Store.memo?_insert_of_ne _ hkey] at hm
        exact h key m hm

variable [DecidableEq Q] [BEq K] {R : Q × K → Recipe Q K V}

/-- At the end of an evaluation its value is known, with everything below it if that was, and
nothing else is new. -/
theorem Learns.leave {p : Q × K → Prop} (h : Learns R p db₁ db)
    (hstack : db.stack = ⟨frame :: stack.frames, frame.key :: stack.active⟩)
    (hx : db.store.named? frame.key = some x) {o : Outcome V}
    (hyields : Yields R db.store.inputs x o)
    (hinputs : (Database.leave frame.key stack.depth (o, db)).2.store.inputs = db.store.inputs)
    (hbelow : db₁.Grounded R → ∀ z v, Below R db.store.inputs z x →
      Yields R db.store.inputs z (.value v) → db.Knows z) :
    Learns R (fun z ↦ z = x ∨ p z) db₁ (Database.leave frame.key stack.depth (o, db)).2 ∧
      (db₁.Grounded R → (Database.leave frame.key stack.depth (o, db)).2.KnowsBelow R x) := by
  have hknows := knows_leave hstack hx o
  have hself : db₁.Grounded R →
      (Database.leave frame.key stack.depth (o, db)).2.KnowsBelow R x := by
    intro hgrounded z v hz hv
    rw [hinputs] at hz hv
    rcases hz with rfl | hz
    · exact (hknows _).2 (.inr ⟨rfl, hyields.unique hv ▸ Outcome.isValue_value v⟩)
    · exact (hknows z).2 (.inl (hbelow hgrounded z v hz hv))
  refine ⟨⟨hinputs.trans h.inputs, fun y hy ↦ (hknows y).2 (.inl (h.knows y hy)),
    fun hkept ↦ kept_leave hstack hx o (h.kept hkept), fun hgrounded y hy ↦ ?_,
    fun hkept y hy ↦ ?_⟩, hself⟩
  · rcases (hknows y).1 hy with hold | ⟨rfl, _⟩
    · exact (h.grounded hgrounded y hold).congr hinputs fun x hx ↦ (hknows x).2 (.inl hx)
    · exact hself hgrounded
  · rcases (hknows y).1 hy with hold | ⟨rfl, _⟩
    · exact (h.scope hkept y hold).imp_right .inr
    · exact .inr (.inl rfl)

end

/-- What is answered from memory is known. -/
theorem knows_of_hit [DecidableEq Q] [BEq K] [LawfulBEq K] {q : Q} {k : K} {v : V} {c : Revision}
    (hkey : db.intern q k = (key, db₁))
    (hretrieve : (db₁.recordRead key).retrieve fuel key = some (some (v, c), db₂)) :
    db₂.Knows (q, k) := by
  have hname : (db₁.recordRead key).store.named? key = some (q, k) := (named?_of_intern hkey :)
  have hv := retrieve_verifies hretrieve
  obtain ⟨m, hm, hcurrent, _⟩ := retrieve_current hretrieve
  rw [← hv.revision_eq] at hcurrent
  exact ⟨key, hv.store.advances.named key _ hname, m, hm, hcurrent⟩

/-- What is known is answered from memory. -/
theorem Knows.retrieve_ne_none [DecidableEq Q] [BEq K] (h : db.Knows x)
    (hs : db.store.Regular db.revision) (hx : db.store.named? key = some x) :
    db.retrieve fuel key ≠ some (none, db') := by
  intro hretrieve
  obtain ⟨other, hother, m, hm, hcurrent⟩ := h
  obtain rfl : key = other := hs.indexed.inj hx hother
  rcases not_current_of_retrieve_none hs hretrieve with hnone | ⟨v, c, w, reads, hm', hw⟩
  · cases hnone.symm.trans hm
  · cases hm.symm.trans hm'
    exact hw hcurrent

/-- What is below a query is one of its reads or below one of them. -/
theorem knows_of_below [DecidableEq Q] [BEq K] {R : Q × K → Recipe Q K V} {o : Outcome V} {v : V}
    {zs : List ((Q × K) × Outcome V)} {z : Q × K} (hx : db.store.inputs x = none)
    (htrace : (R x).Trace zs (.done o)) (hzs : ∀ p ∈ zs, Yields R db.store.inputs p.1 p.2)
    (hknows : ∀ p ∈ zs, db.KnowsBelow R p.1) (hz : Below R db.store.inputs z x)
    (hv : Yields R db.store.inputs z (.value v)) : db.Knows z := by
  obtain ⟨y, hy, hzy⟩ : ∃ y, ReadBy R db.store.inputs y x ∧
      (z = y ∨ Below R db.store.inputs z y) := by
    cases hz with
    | single hz => exact ⟨z, hz, .inl rfl⟩
    | tail hzy hy => exact ⟨_, hy, .inr hzy⟩
  obtain ⟨p, hp, rfl⟩ := List.mem_map.mp ((Yields.readBy_iff hx htrace hzs).1 hy)
  exact hknows p hp z v hzy hv

/-- An evaluation in which no read is refused makes known what it is for, with everything below it,
and nothing else if all that was kept is known. -/
theorem learns_course [DecidableEq Q] [BEq K] [LawfulBEq K] {P : Program Q K V W}
    {R : Q × K → Recipe Q K V} (hP : P.Obeys R) : RecipeCourse P R
    (fun q k db _ db' ↦ Poised R db → db'.refusals = db.refusals →
      Learns R (fun z ↦ z = (q, k) ∨ Below R db.store.inputs z (q, k)) db db' ∧
        (db.Grounded R → db'.KnowsBelow R (q, k)))
    (fun t db o db' ↦ ∀ x ys, (R x).Trace ys t → Poised R db → db.store.inputs x = none →
      (∀ p ∈ ys, Yields R db.store.inputs p.1 p.2) → db'.refusals = db.refusals →
      Learns R (Below R db.store.inputs · x) db db' ∧ ∃ zs, (R x).Trace zs (.done o) ∧
        (∀ p ∈ zs, Yields R db.store.inputs p.1 p.2) ∧ (db.Grounded R →
          (∀ p ∈ ys, db.KnowsBelow R p.1) → ∀ p ∈ zs, db'.KnowsBelow R p.1)) where
  refused := by
    intro fuel q k db key db₁ hkey _ _ _ hrefusals
    have hmore := refused_refusals hkey (db₁.circle P key)
    omega
  hit := by
    intro fuel n q k db key db₁ v c db₂ hkey _ hretrieve _ h _
    have hlearns : Learns R (fun z ↦ z = (q, k) ∨ Below R db.store.inputs z (q, k)) db
        ((db₂.note (.hit q k)).observe c) := (Learns.read h hkey hretrieve).trans (.of_eq rfl rfl)
    have hknows : ((db₂.note (.hit q k)).observe c).Knows (q, k) := (knows_of_hit hkey hretrieve :)
    exact ⟨hlearns, fun hgrounded ↦ hlearns.grounded hgrounded (q, k) hknows⟩
  tooDeep := by
    intro fuel n q k db key db₁ db₂ limit hkey _ hretrieve _ _ _ hrefusals
    have hmore := (miss_refusals hkey hretrieve).1
    omega
  computed := by
    intro fuel n q k db key db₁ db₂ o db₃ hkey _ hretrieve _ hrun hquery hruns h hrefusals
    obtain ⟨henter, hinputs₂, hnone⟩ := h.enter hkey hretrieve
    obtain ⟨_, hfound, _, frame, rfl, hstack⟩ := h.sound.ran hkey hretrieve hrun
    have hname := Store.named?_of_lookup? hfound
    have hstart := (miss_refusals hkey hretrieve).2
    have hend := refusals_leave hstack o
    obtain ⟨hlearns, zs, htrace, hzs, hknows⟩ := hruns (q, k) [] (.nil _) henter
      (hinputs₂ ▸ hnone :) (by simp) (by omega)
    obtain ⟨_, hinputs, hyields⟩ := h.query hP hquery hrefusals
    rw [leave_outcome hstack o] at hyields
    rw [show ((db₂.note (.miss q k)).enter q k frame.key).store.inputs = db.store.inputs
      from hinputs₂] at hlearns hzs
    have hlearns₂ : Learns R (Below R db.store.inputs · (q, k)) db _ := .enter h hkey hretrieve
    have hlearns₃ := hlearns₂.trans hlearns
    refine hlearns₃.leave hstack hname (hlearns₃.inputs ▸ hyields)
      (hinputs.trans hlearns₃.inputs.symm) fun hgrounded z v ↦ ?_
    rw [← hlearns₃.inputs] at hnone hzs
    exact knows_of_below hnone htrace hzs (hknows (hlearns₂.grounded hgrounded) (by simp))
  done := fun _ _ _ ys htrace _ _ hys _ ↦ ⟨.refl .., ys, htrace, hys, fun _ h ↦ h⟩
  read := by
    intro fuel q k _ rest db a db₁ o db₂ _ hread hrun hreads hruns x ys htrace h hnone hys hrefusals
    have hle := (Pared.exists_query hread).1
    have hle' := refusals_le_of_run hrun
    have hrefusals₁ : db₁.refusals = db.refusals := by omega
    obtain ⟨h₁, hinputs₁, hyields⟩ := h.query hP hread hrefusals₁
    obtain ⟨hlearns, hknows⟩ := hreads h hrefusals₁
    have hreadBy : ReadBy R db.store.inputs (q, k) x := ⟨hnone, ys, rest, htrace, hys⟩
    have hys₁ : ∀ p ∈ ys ++ [((q, k), a)], Yields R db.store.inputs p.1 p.2 :=
      List.forall_mem_append.mpr ⟨hys, by simpa using hyields⟩
    obtain ⟨hlearns₁, zs, htrace', hzs, hknows₁⟩ := hruns x _ (htrace.snoc a) h₁
      (hinputs₁ ▸ hnone) (hinputs₁ ▸ hys₁) (by omega)
    rw [hinputs₁] at hlearns₁ hzs
    refine ⟨(hlearns.mono ?_).trans hlearns₁, zs, htrace', hzs, fun hgrounded hbelow ↦ ?_⟩
    · rintro z (rfl | hz)
      · exact hreadBy.below
      · exact hz.tail hreadBy
    · refine hknows₁ (hlearns.grounded hgrounded) (List.forall_mem_append.mpr ⟨?_, ?_⟩)
      · exact fun p hp ↦ (hbelow p hp).congr hinputs₁ hlearns.knows
      · simpa using hknows hgrounded
  outside := by
    intro t w db o db₁ hruns x ys htrace h hnone hys hrefusals
    obtain ⟨hlearns, zs, hrest⟩ := hruns x ys htrace (h.of_eq (h.sound.of_eq rfl rfl rfl) rfl rfl)
      hnone hys hrefusals
    have hchange : Learns R (Below R db.store.inputs · x) db { db with outside := w } :=
      .of_eq rfl rfl
    exact ⟨hchange.trans hlearns, zs, hrest⟩

theorem query_learns [DecidableEq Q] [BEq K] [LawfulBEq K] {P : Program Q K V W}
    {R : Q × K → Recipe Q K V} {q : Q} {k : K} {o : Outcome V} (hP : P.Obeys R) (h : Poised R db)
    (hquery : query P fuel q k db = some (o, db')) (hrefusals : db'.refusals = db.refusals) :
    Learns R (fun z ↦ z = (q, k) ∨ Below R db.store.inputs z (q, k)) db db' ∧
      (db.Grounded R → db'.KnowsBelow R (q, k)) :=
  (learns_course hP).query hP hquery h hrefusals

end Database

end Incremental
