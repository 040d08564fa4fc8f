import Incremental.Proofs.Holding
import Incremental.Proofs.Numbering
import Incremental.Proofs.Rounds

/-!
# Stamps rise

What is held changed when the last change was made to its query or to something that is read below
it. From this alone one sees how stamps follow one another: a change that is no newer than a
revision is the same ever after, so a stamp never goes back, and what has to be computed anew has
changed since the old value was last known to stand. It does not matter what is read in between,
what is removed, or which lists of reads led to the verdict.
-/

namespace Incremental

variable {Q K V W : Type}

/-- Nothing else is read below a query if the inputs there are the same. -/
theorem Below.of_congr {R : Q × K → Recipe Q K V} {I J : Inputs Q K V} {x y : Q × K}
    {o : Outcome V} (h : Below R J y x) (hx : Yields R I x o)
    (hJ : ∀ z, z = x ∨ Below R I z x → J z = I z) : Below R I y x := by
  have step : ∀ {y x : Q × K} {o : Outcome V}, Yields R I x o →
      (∀ z, z = x ∨ Below R I z x → J z = I z) → ReadBy R J y x → ReadBy R I y x := by
    intro y x o hx hJ hy
    have hnone : I x = none := (hJ x (.inl rfl)).symm.trans hy.1
    obtain ⟨ys, htrace, hys⟩ := hx.exists_trace hnone
    have hread : ∀ p ∈ ys, ReadBy R I p.1 x :=
      fun p hp ↦ (Yields.readBy_iff hnone htrace hys).2 (List.mem_map_of_mem hp)
    have hys' : ∀ p ∈ ys, Yields R J p.1 p.2 := fun p hp ↦
      (hys p hp).congr (hJ _ (.inr (hread p hp).below)) fun w hw ↦
        hJ w (.inr (hw.tail (hread p hp)))
    exact (Yields.readBy_iff hnone htrace hys).2 ((Yields.readBy_iff hy.1 htrace hys').1 hy)
  induction h generalizing o with
  | single h => exact .single (step hx hJ h)
  | @tail z x _ hzx ih =>
      have hzx := step hx hJ hzx
      obtain ⟨a, ha⟩ := hx.of_readBy hzx
      refine (ih ha fun w hw ↦ hJ w (.inr ?_)).tail hzx
      rcases hw with rfl | hw
      · exact hzx.below
      · exact hw.tail hzx

namespace Store

variable [DecidableEq Q] [BEq K] {R : Q × K → Recipe Q K V} {now now' : Revision}
  {s s' s'' : Store Q K V} {key key' : Handle} {x y : Q × K} {m m' : Memo V} {v : V}
  {c w : Revision} {reads : List Handle}

/-- When the query and what is read below it were last changed. -/
def changesBelow (R : Q × K → Recipe Q K V) (s : Store Q K V) (x : Q × K) : Set Revision :=
  {r | ∃ y, (y = x ∨ Below R s.inputs y x) ∧ s.lastChange y = r}

theorem mem_changesBelow_self (R : Q × K → Recipe Q K V) (s : Store Q K V) (x : Q × K) :
    s.lastChange x ∈ s.changesBelow R x := ⟨x, .inl rfl, rfl⟩

theorem changesBelow_subset (h : Below R s.inputs y x) :
    s.changesBelow R y ⊆ s.changesBelow R x := by
  rintro r ⟨z, rfl | hz, hr⟩
  · exact ⟨z, .inr h, hr⟩
  · exact ⟨z, .inr (hz.trans h), hr⟩

namespace Consistent

variable [LawfulBEq K]

/-- What is held changed with the newest change to its query and below. -/
theorem isGreatest_changesBelow (hs : Consistent (.of R) now s)
    (hkey : s.lookup? x.1 x.2 = some key) (hm : s.memo? key = some m) (hout : ¬ s.Outdated key) :
    IsGreatest (s.changesBelow R x) m.changedAt := by
  have hinput : ∀ {x key v c}, s.lookup? x.1 x.2 = some key → s.memo? key = some (.input v c) →
      IsGreatest (s.changesBelow R x) c := by
    intro x key v c hkey hm
    have hname := named?_of_lookup? hkey
    have hlast := lastChange_of_input hs.indexed hname hm
    refine ⟨hlast ▸ mem_changesBelow_self R s x, ?_⟩
    rintro r ⟨y, rfl | hy, rfl⟩
    · exact Nat.le_of_eq hlast
    · have hnone := hy.isNone
      rw [inputs_of_input hs.indexed hname hm] at hnone
      cases hnone
  induction hs.founded.apply key generalizing x m with
  | intro key _ ih =>
      cases m with
      | input v c => exact hinput hkey hm
      | derived v c w reads =>
          have hlast : s.lastChange x = s.removedAt key :=
            lastChange_of_not_input hs.indexed (named?_of_lookup? hkey) (by simp [hm])
          have hrec := hs.recorded key v c w reads hm
          -- what is listed is held, below the query, and has changed no later
          have hlisted : ∀ d ∈ reads, ∃ y m', s.lookup? y.1 y.2 = some d ∧
              s.memo? d = some m' ∧ m'.changedAt ≤ w ∧ Below R s.inputs y x ∧
              IsGreatest (s.changesBelow R y) m'.changedAt := by
            intro d hd
            obtain ⟨y, hy, hout', hbelow⟩ := hs.below_of_rests hkey hout ⟨_, hm, hd⟩
            obtain ⟨m', hm', hle, _⟩ := (not_outdated_iff hm).1 hout d hd
            refine ⟨y, m', hy, hm', hle, hbelow, ?_⟩
            cases m' with
            | input v' c' => exact hinput hy hm'
            | derived => exact ih d ⟨⟨_, hm, hd⟩, _, hm', rfl⟩ hy hm' hout'
          constructor
          · rcases hrec.attained with hremoved | ⟨d, hd, hattained⟩
            · exact ⟨x, .inl rfl, hlast.trans hremoved.symm⟩
            · obtain ⟨y, m', _, hm', hle, hbelow, hgreatest⟩ := hlisted d hd
              have hsame : m'.changedAt = c := hattained m' hm' hle
              exact hsame ▸ changesBelow_subset hbelow hgreatest.1
          · rintro r ⟨z, rfl | hz, rfl⟩
            · exact hlast ▸ (hs.derived key v c w reads hm).1
            · obtain ⟨y, hzy, hy⟩ := Relation.TransGen.tail'_iff.1 hz
              obtain ⟨d, m', hfound, hm', _, hrests⟩ := hs.rests_of_readBy hkey hm hout hy
              have hd : d ∈ reads := by
                obtain ⟨m₀, hm₀, hmem⟩ := hrests
                cases hm.symm.trans hm₀
                exact hmem
              obtain ⟨y', m'', hfound', hm'', hle, _, hgreatest⟩ := hlisted d hd
              obtain rfl : y' = y := eq_of_lookup? hfound' hfound
              refine Nat.le_trans (hgreatest.2 ⟨z, ?_, rfl⟩) (hrec.bounded d hd m'' hm'' hle)
              exact (Relation.reflTransGen_iff_eq_or_transGen.1 hzy).imp Eq.symm id

/-- A value is not outdated while its query gives a value and nothing there has changed since the
value was last known to stand. -/
theorem not_outdated_of_changesBelow (hs : Consistent (.of R) now s) (hR : ∀ x, (R x).Strict)
    (hkey : s.lookup? x.1 x.2 = some key) (hm : s.memo? key = some (.derived v c w reads))
    {v' : V} (hx : Yields R s.inputs x (.value v')) (hle : ∀ r ∈ s.changesBelow R x, r ≤ w) :
    ¬ s.Outdated key := by
  induction hs.founded.apply key generalizing x v c w reads v' with
  | intro key _ ih =>
      obtain ⟨x', ys, hx', htrace, hdirect, hindirect⟩ := (hs.recorded key v c w reads hm).taken
      obtain rfl : x' = x := eq_of_lookup? hx' hkey
      have hrec := hs.recorded key v c w reads hm
      have hnone := hs.inputs_eq_none hkey hm
      -- what the value was computed from is still read, and still the same
      have hread : ∀ {y}, ReadBy R s.inputs y x' → ∀ d ∈ reads, s.lookup? y.1 y.2 = some d →
          ∃ m', s.memo? d = some m' ∧ m'.changedAt ≤ w ∧ ¬ s.Outdated d ∧
            Yields R s.inputs y (.value m'.value) := by
        intro y hy d hd hfound
        have hbelow : ∀ r ∈ s.changesBelow R y, r ≤ w :=
          fun r hr ↦ hle r (changesBelow_subset hy.below hr)
        have hlast := hbelow _ (mem_changesBelow_self R s y)
        have hname := named?_of_lookup? hfound
        obtain ⟨v₁, hv₁⟩ := hx.isValue_of_readBy hR hy
        have hgives : ∀ m', s.memo? d = some m' → ¬ s.Outdated d →
            ∃ m', s.memo? d = some m' ∧ m'.changedAt ≤ w ∧ ¬ s.Outdated d ∧
              Yields R s.inputs y (.value m'.value) := fun m' hm' hout ↦
          ⟨m', hm', hbelow _ (hs.isGreatest_changesBelow hfound hm' hout).1, hout,
            hs.yields hfound hm' hout⟩
        cases hm' : s.memo? d with
        | none =>
            rw [lastChange_of_not_input hs.indexed hname (by simp [hm'])] at hlast
            exact absurd (hrec.gone d hd hm') (Nat.not_lt.2 hlast)
        | some m' =>
            refine hm' ▸ hgives m' hm' ?_
            cases m' with
            | input v₂ c₂ => exact not_outdated_of_input hm'
            | derived v₂ c₂ w₂ reads₂ =>
                have hlater := hrec.later d hd v₂ c₂ w₂ reads₂ hm'
                exact ih d ⟨⟨_, hm, hd⟩, _, hm', rfl⟩ hfound hm' hv₁
                  fun r hr ↦ Nat.le_trans (hbelow r hr) hlater
      let listed : Q × K → Outcome V → Prop := fun y answer ↦ ∃ d ∈ reads,
        s.lookup? y.1 y.2 = some d ∧
          ∀ m, s.memo? d = some m → m.changedAt ≤ w → answer = .value m.value
      have hlisted : ∀ p ∈ ys, listed p.1 p.2 := hdirect
      have hyields : ∀ p ∈ ys, Yields R s.inputs p.1 p.2 := by
        refine htrace.forall_of_step hlisted ?_
        rintro zs y next hprefix _ hzs answer ⟨d, hd, hfound, hvalue⟩
        obtain ⟨m', hm', hchanged, _, hgives⟩ := hread ⟨hnone, zs, next, hprefix, hzs⟩ d hd hfound
        exact hvalue m' hm' hchanged ▸ hgives
      refine (not_outdated_iff hm).2 fun e he ↦ ?_
      obtain ⟨p, hp, d, hd, hfound, hor⟩ := hindirect e he
      have hp := (Yields.readBy_iff hnone htrace hyields).2 (List.mem_map_of_mem hp)
      obtain ⟨m', hm', hchanged, hout, _⟩ := hread hp d hd hfound
      rcases hor with rfl | hmem
      · exact ⟨m', hm', hchanged, hout⟩
      · -- what was read for a read has changed no later than the read has
        have he := hmem m' hm' hchanged
        cases m' with
        | input => cases he
        | derived v₁ c₁ w₁ reads₁ =>
            obtain ⟨m₁, hm₁, hle₁, hout₁⟩ := (not_outdated_iff hm').1 hout e he
            have hc := (hs.recorded d v₁ c₁ w₁ reads₁ hm').bounded e he m₁ hm₁ hle₁
            exact ⟨m₁, hm₁, Nat.le_trans hc hchanged, hout₁⟩

end Consistent

theorem lastChange_insert_input (hs : s.Indexed) (hx : s.named? key = some x) (v : V)
    (c : Revision) : (s.insert key (.input v c)).lastChange x = c :=
  lastChange_of_input (hs.insert key _) ((named?_insert ..).trans hx) (memo?_insert_self ⟨x, hx⟩ _)

theorem lastChange_erase (hs : s.Indexed) (hx : s.named? key = some x) (r : Revision) :
    (s.erase key r).lastChange x = r := by
  have hs' : (s.erase key r).Indexed := hs.congr (arguments_modify s key fun _ ↦ rfl)
  rw [lastChange_of_not_input hs' ((named?_erase ..).trans hx) (by simp)]
  exact removedAt_erase ⟨x, hx⟩ r

/-- Where a query was changed no later than `now`, it has the same value and was last changed at the
same revision as before. -/
def Resumes (now : Revision) (s s' : Store Q K V) : Prop :=
  ∀ x, s'.lastChange x ≤ now → s'.inputs x = s.inputs x ∧ s'.lastChange x = s.lastChange x

namespace Resumes

theorem refl (now : Revision) (s : Store Q K V) : s.Resumes now s := fun _ _ ↦ ⟨rfl, rfl⟩

theorem trans (h : s.Resumes now s') (h' : s'.Resumes now s'') : s.Resumes now s'' := by
  intro x hx
  obtain ⟨hinputs', hlast'⟩ := h' x hx
  obtain ⟨hinputs, hlast⟩ := h x (hlast' ▸ hx)
  exact ⟨hinputs'.trans hinputs, hlast'.trans hlast⟩

/-- Where all changes below a query are no newer than `now`, they are what they were. -/
theorem changesBelow_eq (h : s.Resumes now s') {o : Outcome V} (hx : Yields R s'.inputs x o)
    (hle : ∀ r ∈ s'.changesBelow R x, r ≤ now) :
    Yields R s.inputs x o ∧ s'.changesBelow R x = s.changesBelow R x := by
  have hsame : ∀ y, y = x ∨ Below R s'.inputs y x →
      s.inputs y = s'.inputs y ∧ s.lastChange y = s'.lastChange y := by
    intro y hy
    obtain ⟨hinputs, hlast⟩ := h y (hle _ ⟨y, hy, rfl⟩)
    exact ⟨hinputs.symm, hlast.symm⟩
  have hinputs := fun y hy ↦ (hsame y hy).1
  refine ⟨hx.congr (hinputs x (.inl rfl)) fun y hy ↦ hinputs y (.inr hy), Set.ext fun r ↦ ?_⟩
  constructor
  · rintro ⟨y, hy, rfl⟩
    exact ⟨y, hy.imp_right fun hy ↦ hy.congr hx hinputs, (hsame y hy).2⟩
  · rintro ⟨y, hy, rfl⟩
    have hy := hy.imp_right fun hy ↦ hy.of_congr hx hinputs
    exact ⟨y, hy, (hsame y hy).2.symm⟩

variable [LawfulBEq K]

theorem of_keeps (h : s.Keeps s') (hs : s.Indexed) (hs' : s'.Indexed) : s.Resumes now s' :=
  fun x _ ↦ ⟨congrFun (h.inputs_eq hs hs') x, congrFun (h.lastChange_eq hs hs') x⟩

/-- A change to one row, at a newer revision. -/
theorem of_modify {f : Row K V → Row K V} (hf : ∀ row, (f row).argument = row.argument)
    (hx : s.named? key = some x) (hnew : now < (s.modify key f).lastChange x) :
    s.Resumes now (s.modify key f) := by
  intro y hy
  refine modify_of_ne hf hx ?_
  rintro rfl
  exact Nat.not_lt.2 hy hnew

/-- What is held later has not changed earlier than what was held before. -/
theorem changedAt_le (h : s.Resumes now s') (hs : Consistent (.of R) now s)
    (hs' : Consistent (.of R) now' s') (hkey : s.lookup? x.1 x.2 = some key)
    (hm : s.memo? key = some m) (hout : ¬ s.Outdated key)
    (hkey' : s'.lookup? x.1 x.2 = some key') (hm' : s'.memo? key' = some m')
    (hout' : ¬ s'.Outdated key') : m.changedAt ≤ m'.changedAt := by
  have hgreatest := hs.isGreatest_changesBelow hkey hm hout
  have hgreatest' := hs'.isGreatest_changesBelow hkey' hm' hout'
  rcases Nat.lt_or_ge now m'.changedAt with hnew | hold
  · exact Nat.le_trans (hs.changedAt_le hm) (Nat.le_of_lt hnew)
  · obtain ⟨_, hsame⟩ := h.changesBelow_eq (hs'.yields hkey' hm' hout') fun r hr ↦
      Nat.le_trans (hgreatest'.2 hr) hold
    exact hgreatest'.2 (hsame ▸ hgreatest.1)

/-- What is held after a value was found outdated has changed since the value was last known to
stand. -/
theorem lt_changedAt (h : s.Resumes now s') (hR : ∀ x, (R x).Strict) (hs : Consistent (.of R) now s)
    (hs' : Consistent (.of R) now' s') (hkey : s.lookup? x.1 x.2 = some key)
    (hm : s.memo? key = some (.derived v c w reads)) (hout : s.Outdated key)
    (hkey' : s'.lookup? x.1 x.2 = some key') (hm' : s'.memo? key' = some m')
    (hout' : ¬ s'.Outdated key') : w < m'.changedAt := by
  by_contra hlt
  have hle := Nat.not_lt.1 hlt
  have hgreatest' := hs'.isGreatest_changesBelow hkey' hm' hout'
  have hbelow : ∀ r ∈ s'.changesBelow R x, r ≤ w := fun r hr ↦ Nat.le_trans (hgreatest'.2 hr) hle
  obtain ⟨_, _, hnow, _⟩ := hs.derived key v c w reads hm
  obtain ⟨hyields, hsame⟩ := h.changesBelow_eq (hs'.yields hkey' hm' hout') fun r hr ↦
    Nat.le_trans (hbelow r hr) hnow
  exact hs.not_outdated_of_changesBelow hR hkey hm hyields (hsame ▸ hbelow) hout

end Resumes

end Store

namespace Database

open Store

variable [DecidableEq Q] [BEq K] [LawfulBEq K] {db db' : Database Q K V W} {now : Revision}
  {key : Handle} {m : Memo V}

namespace Moves

/-- What was last changed no later than `now` is the same after every move. -/
theorem resumes (h : db.Moves db') (hdb : db.Sound) (hdb' : db'.Sound) (hopen : db.Unassigned)
    (hnow : now ≤ db.revision) : db.store.Resumes now db'.store := by
  have hsame : db'.revision = db.revision → db.store.Resumes now db'.store := fun hrevision ↦
    .of_keeps (h.keeps_of_revision hopen hrevision) hdb.store.indexed hdb'.store.indexed
  cases h with
  | looks hrevision => exact hsame hrevision
  | keeps hrevision => exact hsame hrevision
  | @assigns q k v key s _ hstore hkey h =>
      subst h
      have harguments : (s.insert key (.input v (db.revision + 1))).tables.map Table.arguments =
          s.tables.map Table.arguments := arguments_modify s key fun _ ↦ rfl
      have hs : s.Indexed := hdb'.store.indexed.congr harguments.symm
      have hname := named?_of_lookup? hkey
      refine (Resumes.of_keeps hstore.keeps hdb.store.indexed hs).trans
        (.of_modify (fun _ ↦ rfl) hname ?_)
      exact Nat.lt_of_le_of_lt hnow (Nat.lt_of_lt_of_eq (Nat.lt_succ_self _)
        (lastChange_insert_input hs hname v _).symm)
  | @erases q k key _ hkey h =>
      subst h
      have hname := named?_of_lookup? hkey
      refine .of_modify (fun _ ↦ rfl) hname ?_
      exact Nat.lt_of_le_of_lt hnow (Nat.lt_of_lt_of_eq (Nat.lt_succ_self _)
        (lastChange_erase hdb.store.indexed hname _).symm)
  | clears _ h => exact hsame (h ▸ rfl)

omit [LawfulBEq K] in
/-- What is kept after a move was kept before, changed at the same revision, or is known to
stand. -/
theorem kept_or_current (h : db.Moves db') (hm : db'.store.memo? key = some m) :
    (∃ m₀, db.store.memo? key = some m₀ ∧ m₀.changedAt = m.changedAt) ∨
      m.IsCurrent db'.revision := by
  cases h with
  | looks _ _ hstore => exact .inl (hstore.exists_memo hm)
  | @keeps other v c reads hrevision _ hkey _ hstore =>
      rw [hstore] at hm
      by_cases hne : other = key
      · subst hne
        cases (memo?_insert_self hkey _).symm.trans hm
        exact .inr hrevision.symm
      · exact .inl ⟨m, (memo?_insert_of_ne _ hne _).symm.trans hm, rfl⟩
  | @assigns q k v other s _ hstore hkey h =>
      subst h
      by_cases hne : other = key
      · subst hne
        cases (memo?_insert_self (has_of_lookup? hkey) _).symm.trans hm
        exact .inr trivial
      · exact .inl (hstore.exists_memo ((memo?_insert_of_ne _ hne _).symm.trans hm))
  | @erases q k other _ hkey h =>
      subst h
      by_cases hne : other = key
      · subst hne
        cases (memo?_erase ..).symm.trans hm
      · exact .inl ⟨m, (memo?_erase_of_ne _ hne _).symm.trans hm, rfl⟩
  | clears _ h =>
      rw [h, clearCache_eq] at hm
      have hm : (db.store.memo? key).filter Memo.isInput = some m :=
        (memo?_dropDerived db.store key).symm.trans hm
      exact .inl ⟨m, (Option.filter_eq_some_iff.mp hm).1, rfl⟩

end Moves

end Database

namespace Stage

open Database Store

variable [DecidableEq Q] [BEq K] {P : Program Q K V W} {s t t' : Stage Q K V W}
  {db db' : Database Q K V W} {key : Handle} {m m' : Memo V} {q : Q} {k : K}

/-- What is shown at a stage is what is kept there, with some stamps anew. -/
theorem Shows.stamps (h : t.Shows db) : t.db.store.Stamps t.db.revision db.store := by
  cases h with
  | here => exact .refl _ _
  | looks hkey _ _ hwalks =>
      obtain ⟨hrevision, _, hstamps⟩ := store_of_intern hkey _
      exact hstamps.trans (hrevision ▸ hwalks.looks.2)

variable [LawfulBEq K] [BEq V]

/-- What was last changed by a stage is the same at every later one. -/
theorem Later.resumes (h : Later P s t) (hs : Reached P s) :
    s.db.store.Resumes s.db.revision t.db.store := by
  refine (h.keeps (fun db ↦ db.Unassigned ∧ s.db.store.Resumes s.db.revision db.store) hs
    ⟨hs.remembers.unassigned, .refl _ _⟩ ?_).2.2
  rintro db db' hdb hdb' hprecedes hmove ⟨hopen, hresumes⟩
  exact ⟨hmove.unassigned hopen,
    hresumes.trans (hmove.resumes hdb hdb' hopen hprecedes.revision)⟩

/-- What is kept was known to stand at some stage, and has not changed since. -/
theorem Reached.exists_current (ht : Reached P t) (hm : t.db.store.memo? key = some m) :
    ∃ s m₀, Reached P s ∧ Later P s t ∧ s.db.store.memo? key = some m₀ ∧
      m₀.changedAt = m.changedAt ∧ m₀.IsCurrent s.db.revision := by
  refine (ht.keeps (fun t ↦ Reached P t ∧ ∀ m, t.db.store.memo? key = some m →
    ∃ s m₀, Reached P s ∧ Later P s t ∧ s.db.store.memo? key = some m₀ ∧
      m₀.changedAt = m.changedAt ∧ m₀.IsCurrent s.db.revision) ?_ ?_).2 m hm
  · refine fun configuration w o ↦ ⟨⟨configuration, w, o, .refl⟩, fun m hm ↦ ?_⟩
    cases (memo?_empty key).symm.trans hm
  · rintro t t' ⟨ht, hkept⟩ hstep
    have hlast : Later P t t' := .single hstep
    refine ⟨ht.later hlast, fun m hm ↦ ?_⟩
    rcases (ht.moves hstep).kept_or_current hm with ⟨m₁, hm₁, hsame⟩ | hcurrent
    · obtain ⟨s, m₀, hs, hlater, hm₀, hchanged, hcurrent⟩ := hkept m₁ hm₁
      exact ⟨s, m₀, hs, hlater.trans hlast, hm₀, hchanged.trans hsame, hcurrent⟩
    · exact ⟨t', m, ht.later hlast, .refl, hm, rfl, hcurrent⟩

variable {R : Q × K → Recipe Q K V} {db₁ : Database Q K V W} {v v' : V} {c w : Revision}
  {reads : List Handle} {call : Call Q K V W} {calls : List (Call Q K V W)}
  {next : Outcome V → Body Q K V W V} {n fuel : Nat}

/-- What is kept under a handle has not changed earlier than what was kept there before. -/
theorem Later.changedAt_le (hP : P.Pure R) (h : Later P t t') (ht : Reached P t)
    (hm : t.db.store.memo? key = some m) (hm' : t'.db.store.memo? key = some m') :
    m.changedAt ≤ m'.changedAt := by
  induction h generalizing m' with
  | refl =>
      cases hm.symm.trans hm'
      exact Nat.le_refl _
  | @tail u t' h hstep ih =>
      rcases ((ht.later h).moves hstep).kept_or_current hm' with ⟨m₁, hm₁, hsame⟩ | hcurrent'
      · exact hsame ▸ ih hm₁
      · -- both are compared where they are known to stand
        obtain ⟨s, m₀, hs, hst, hm₀, hsame, hcurrent⟩ := ht.exists_current hm
        have hlater : Later P s t' := hst.trans (h.tail hstep)
        have ht' := hs.later hlater
        have hconsistent := hs.consistent hP.steady .here
        have hconsistent' := ht'.consistent hP.steady .here
        obtain ⟨x, hx⟩ := has_of_memo? hm₀
        have hkey := hconsistent.indexed.lookup? hx
        exact hsame ▸ (hlater.resumes hs).changedAt_le hconsistent hconsistent' hkey hm₀
          (hconsistent.not_outdated hm₀ hcurrent) ((hlater.precedes hs).lookup? ht'.sound hkey) hm'
          (hconsistent'.not_outdated hm' hcurrent')

/-- What is shown for a query is kept at the stage, changed at the same revision. -/
theorem Shows.exists_memo (h : t.Shows db) (ht : Reached P t) (hm : db.memo? q k = some m) :
    ∃ key m₀, t.db.store.lookup? q k = some key ∧ t.db.store.memo? key = some m₀ ∧
      m₀.changedAt = m.changedAt := by
  obtain ⟨key, hkey, hm⟩ := Option.bind_eq_some_iff.mp hm
  obtain ⟨m₀, hm₀, hsame⟩ := h.stamps.exists_memo hm
  have hfound := lookup?_of_memo? (x := (q, k)) ht.sound.store.indexed
    (fun _ _ _ ↦ h.moves.precedes.lookup? (h.sound ht.sound)) hm₀ hkey
  exact ⟨key, m₀, hfound, hm₀, hsame⟩

/-- What is known to stand where a value was outdated has changed since the value was last known to
stand. -/
theorem Later.lt_changedAt (hP : P.Pure R) (h : Later P t t') (ht : Reached P t)
    (hm : t.db.store.memo? key = some (.derived v c w reads)) (hout : t.db.store.Outdated key)
    (hm' : t'.db.store.memo? key = some m') (hcurrent : m'.IsCurrent t'.db.revision) :
    w < m'.changedAt := by
  have ht' := ht.later h
  have hconsistent := ht.consistent hP.steady .here
  have hconsistent' := ht'.consistent hP.steady .here
  obtain ⟨x, hx⟩ := has_of_memo? hm
  have hkey := hconsistent.indexed.lookup? hx
  exact (h.resumes ht).lt_changedAt hP.strict hconsistent hconsistent' hkey hm hout
    ((h.precedes ht).lookup? ht'.sound hkey) hm' (hconsistent'.not_outdated hm' hcurrent)

/-- A value in whose place another is computed is outdated, and the other has changed since this one
was last known to stand. -/
theorem Reached.lt_of_leave (hP : P.Pure R)
    (ht : Reached P ⟨db, .done (.value v'), call :: calls⟩)
    (hm : db.store.memo? call.key = some (.derived v c w reads)) :
    db.store.Outdated call.key ∧ ∃ c' reads',
      (leave call.key call.depth (.value v', db)).2.store.memo? call.key =
        some (.derived v' c' db.revision reads') ∧ w < c' := by
  obtain ⟨frame, rest, hkey, hdepth, hstack, _, _⟩ := ht.serves.exists_top
  dsimp only at hstack
  have hlacks : db.store.Lacks frame.key := (ht.coherent hP.steady).lacks _ (by simp [hstack])
  have hout : db.store.Outdated call.key := hkey ▸ hlacks.resolve_left (by simp [hkey, hm])
  have hm' : (leave call.key call.depth (.value v', db)).2.store.memo? call.key =
      some (.derived v' (max frame.newest (db.store.removedAt frame.key)) db.revision
        frame.reads) := by
    rw [← hkey] at hm ⊢
    rw [hdepth, leave_value hstack]
    exact memo?_insert_self (has_of_memo? hm) _
  have hrevision : (leave call.key call.depth (.value v', db)).2.revision = db.revision :=
    (leave_fixed ..).1
  refine ⟨hout, _, _, hm', ?_⟩
  exact Later.lt_changedAt hP (.single (.evaluates .leaves)) ht hm hout hm' hrevision.symm

/-- What is given in place of a value that verification does not find to stand was computed, and has
changed since the value was last known to stand. -/
theorem Reached.lt_of_query (hP : P.Pure R) (ht : Reached P ⟨db, .read q k next, calls⟩)
    (hkey : db.store.lookup? q k = some key)
    (hm : db.store.memo? key = some (.derived v c w reads))
    (hverify : verify n key w (db.recordRead key) = some (false, db₁))
    (hquery : query P fuel q k db = some (.value v', db')) :
    ∃ c' reads', db'.store.memo? key = some (.derived v' c' db'.revision reads') ∧ w < c' := by
  have hconsistent := ht.consistent hP.steady .here
  have hlater : Later P ⟨db, .read q k next, calls⟩ ⟨db', next (.value v'), calls⟩ :=
    later_query hquery next calls
  obtain ⟨hsound, hfollows⟩ := ht.sound.query hquery
  obtain ⟨key', m, hkey', ⟨hm', hcurrent, _⟩, rfl⟩ := settled_of_query ht.sound hquery
  obtain rfl : key' = key :=
    Option.some.inj (hkey'.symm.trans ((hlater.precedes ht).lookup? hsound hkey))
  have hout : db.store.Outdated key' := by
    by_contra hout
    obtain ⟨_, hverdict, _⟩ := verify_iff hverify hconsistent
    obtain ⟨_, hcw, _⟩ := hconsistent.derived key' v c w reads hm
    exact absurd (hverdict.2 ⟨_, hm, hcw, hout⟩) (by simp)
  have hlt := hlater.lt_changedAt hP ht hm hout hm' hcurrent
  cases m with
  | input v₂ c₂ =>
      cases hm.symm.trans ((hfollows.store.input_iff).1 hm')
  | derived v₂ c₂ w₂ reads₂ =>
      obtain rfl : w₂ = db'.revision := hcurrent
      exact ⟨c₂, reads₂, hm', hlt⟩

/-- Stamps rise: in every run of a program of pure bodies that give values only if all their reads
do, a value is computed in place of another only where that one is outdated, and then it has changed
since the other was last known to stand, and so since any value was that was computed from it. So it
is for what a read is given where something is kept that verification does not find to stand. And
whatever is assigned, removed, computed and cleared in between, what is kept for a query has never
changed earlier than what was kept for it before. -/
theorem stamps_rise (hP : P.Pure R) (ht : Reached P t) :
    (∀ v' call calls, t.outcome? = some (.value v') → t.calls = call :: calls →
      ∀ v c w reads, t.db.store.memo? call.key = some (.derived v c w reads) →
        t.db.store.Outdated call.key ∧ ∃ c' reads',
          (leave call.key call.depth (.value v', t.db)).2.store.memo? call.key =
            some (.derived v' c' t.db.revision reads') ∧ w < c' ∧
          ∀ other v₁ c₁ w₁ reads₁, t.db.store.memo? other = some (.derived v₁ c₁ w₁ reads₁) →
            call.key ∈ reads₁ → w₁ < c') ∧
    (∀ q k key v c w reads n db₁ fuel v' db', t.reading? = some (q, k) →
      t.db.store.lookup? q k = some key → t.db.store.memo? key = some (.derived v c w reads) →
      verify n key w (t.db.recordRead key) = some (false, db₁) →
      query P fuel q k t.db = some (.value v', db') →
      ∃ c' reads', db'.store.memo? key = some (.derived v' c' db'.revision reads') ∧ w < c') ∧
    ∀ t' db db' q k m m', Later P t t' → t.Shows db → t'.Shows db' → db.memo? q k = some m →
      db'.memo? q k = some m' → m.changedAt ≤ m'.changedAt := by
  refine ⟨?replaced, ?given, ?kept⟩
  case replaced =>
    intro v' call calls houtcome hcalls v c w reads hm
    rcases t with ⟨db, _, _⟩
    obtain rfl := body_of_outcome? houtcome
    obtain rfl := hcalls
    obtain ⟨hout, c', reads', hm', hlt⟩ := ht.lt_of_leave hP hm
    refine ⟨hout, c', reads', hm', hlt, fun other v₁ c₁ w₁ reads₁ hm₁ hmem ↦ ?_⟩
    have hrec := (ht.consistent hP.steady .here).recorded other v₁ c₁ w₁ reads₁ hm₁
    exact Nat.lt_of_le_of_lt (hrec.later _ hmem v c w reads hm) hlt
  case given =>
    intro q k key v c w reads n db₁ fuel v' db' hreading
    rcases t with ⟨db, _ | _ | _ | _, calls⟩ <;> cases hreading
    exact ht.lt_of_query hP
  case kept =>
    intro t' db db' q k m m' hlater hs hs' hm hm'
    obtain ⟨key, m₀, hkey, hm₀, hsame⟩ := hs.exists_memo ht hm
    have ht' := ht.later hlater
    obtain ⟨key', m₁, hkey', hm₁, hsame'⟩ := hs'.exists_memo ht' hm'
    cases ((hlater.precedes ht).lookup? ht'.sound hkey).symm.trans hkey'
    exact hsame ▸ hsame' ▸ hlater.changedAt_le hP ht hm₀ hm₁

end Stage

/-- The tide at a gauge: the moon and the wind raise a surge, and the surge leaves a mark. -/
inductive Tide
  | moon
  | wind
  | surge
  | mark
  deriving DecidableEq

open Database Stage

namespace Tide

def logic : Tide → Option (Recipe Tide Unit Nat)
  | surge => some (.get (moon, ()) fun v ↦ .get (wind, ()) fun w ↦ .done (.value (v + w)))
  | mark => some (.get (surge, ()) fun v ↦ .done (.value v))
  | _ => none

def program : Program Tide Unit Nat Unit := .ofRecipes (fun _ ↦ "") logic

theorem program_pure : program.Pure (recipes (fun _ ↦ "") logic) := by
  refine .of_lawful (Program.ofRecipes_obeys _ _) ?_
  rintro ⟨q, k⟩
  cases q <;> simp [recipes, logic]

/-- The moon has changed since the mark was read. -/
def turned : List (Operation Tide Unit Nat) :=
  [.act (.edit (.set moon () 1)), .act (.edit (.set wind () 2)), .act (.inquire (.query mark ())),
    .act (.edit (.set moon () 4))]

/-- The surge is computed anew for the mark, and so is the mark. Then a surge is assigned, and taken
away again: what is computed next rests on the older change of the moon, but it has changed with the
removal. -/
theorem mark_rises :
    (∃ (t : Stage Tide Unit Nat Unit) (call : Call Tide Unit Nat Unit)
        (calls : List (Call Tide Unit Nat Unit)), Reached program t ∧
      t.outcome? = some (.value 6) ∧ t.calls = call :: calls ∧ call.key = ⟨3, 0⟩ ∧
      t.db.store.memo? ⟨3, 0⟩ = some (.derived 3 2 2 [⟨0, 0⟩, ⟨1, 0⟩]) ∧
      ∃ c' reads', (leave call.key call.depth (.value 6, t.db)).2.store.memo? call.key =
        some (.derived 6 c' t.db.revision reads') ∧ 2 < c') ∧
    (∃ t : Stage Tide Unit Nat Unit, Reached program t ∧ t.reading? = some (mark, ()) ∧
      t.db.store.memo? ⟨2, 0⟩ = some (.derived 3 2 2 [⟨3, 0⟩, ⟨0, 0⟩, ⟨1, 0⟩]) ∧
      ∃ db' c' reads', query program 9 mark () t.db = some (.value 6, db') ∧
        db'.store.memo? ⟨2, 0⟩ = some (.derived 6 c' db'.revision reads') ∧ 2 < c') ∧
    ∃ (t t' : Stage Tide Unit Nat Unit) (c' : Revision) (reads' : List Handle),
      Reached program t ∧ Later program t t' ∧ t.db.memo? surge () = some (.input 9 4) ∧
      t'.db.memo? surge () = some (.derived 6 c' 5 reads') ∧ 4 ≤ c' := by
  refine ⟨?replaced, ?given, ?kept⟩
  case replaced =>
    have hrun : (performAll program 9 turned { outside := () }).bind (fun p ↦
        (steps? program 9 4 ⟨p.2, .get mark (), []⟩).map fun t ↦
          decide (t.outcome? = some (.value 6) ∧ t.calls.map Call.key = [⟨3, 0⟩, ⟨2, 0⟩] ∧
            t.db.store.memo? ⟨3, 0⟩ = some (.derived 3 2 2 [⟨0, 0⟩, ⟨1, 0⟩]))) = some true := by
      decide +kernel
    obtain ⟨⟨replies, db⟩, hops, hrun⟩ := Option.bind_eq_some_iff.mp hrun
    obtain ⟨t, hsteps, hend⟩ := Option.map_eq_some_iff.mp hrun
    obtain ⟨houtcome, hkeys, hm⟩ := of_decide_eq_true hend
    obtain ⟨call, calls, hcalls, hkey, _⟩ := List.map_eq_cons_iff.1 hkeys
    have ht : Reached program t := reached_of_steps? hops hsteps
    obtain ⟨hreplaced, _⟩ := stamps_rise program_pure ht
    obtain ⟨_, c', reads', hm', hlt, _⟩ :=
      hreplaced 6 call calls houtcome hcalls 3 2 2 _ (hkey.symm ▸ hm)
    exact ⟨t, call, calls, ht, houtcome, hcalls, hkey, hm, c', reads', hm', hlt⟩
  case given =>
    have hrun : (performAll program 9 turned { outside := () }).bind (fun p ↦
        (query program 9 mark () p.2).bind fun r ↦
          (verify 9 ⟨2, 0⟩ 2 (p.2.recordRead ⟨2, 0⟩)).map fun b ↦ decide (r.1 = .value 6 ∧
            b.1 = false ∧ p.2.store.lookup? mark () = some ⟨2, 0⟩ ∧
            p.2.store.memo? ⟨2, 0⟩ = some (.derived 3 2 2 [⟨3, 0⟩, ⟨0, 0⟩, ⟨1, 0⟩]))) =
        some true := by
      decide +kernel
    obtain ⟨⟨replies, db⟩, hops, hrun⟩ := Option.bind_eq_some_iff.mp hrun
    obtain ⟨⟨a, db'⟩, hquery, hrun⟩ := Option.bind_eq_some_iff.mp hrun
    obtain ⟨⟨b, db₁⟩, hverify, hend⟩ := Option.map_eq_some_iff.mp hrun
    obtain ⟨rfl, rfl, hkey, hm⟩ := of_decide_eq_true hend
    obtain ⟨o, hreached⟩ := reached_performAll hops
    have ht : Reached program ⟨db, .get mark (), []⟩ := hreached.later (.single (.asks mark ()))
    obtain ⟨_, hgiven, _⟩ := stamps_rise program_pure ht
    obtain ⟨c', reads', hm', hlt⟩ :=
      hgiven mark () ⟨2, 0⟩ 3 2 2 _ 9 db₁ 9 6 db' rfl hkey hm hverify hquery
    exact ⟨_, ht, rfl, hm, db', c', reads', hquery, hm', hlt⟩
  case kept =>
    have hrun : (performAll program 9 (turned ++ [.act (.inquire (.query mark ())),
          .act (.edit (.set surge () 9))]) { outside := () }).bind (fun p ↦
        (performAll program 9 [.act (.inquire (.query mark ())), .act (.edit (.remove surge ())),
          .clearCache, .act (.inquire (.query mark ()))] p.2).map fun r ↦
          decide (p.2.memo? surge () = some (.input 9 4) ∧
            r.2.memo? surge () = some (.derived 6 5 5 [⟨0, 0⟩, ⟨1, 0⟩]))) = some true := by
      decide +kernel
    obtain ⟨⟨replies, db⟩, hops, hrun⟩ := Option.bind_eq_some_iff.mp hrun
    obtain ⟨⟨replies', db'⟩, hops', hend⟩ := Option.map_eq_some_iff.mp hrun
    obtain ⟨hm, hm'⟩ := of_decide_eq_true hend
    obtain ⟨o, ht⟩ := reached_performAll hops
    obtain ⟨o', hlater⟩ := later_performAll hops' o
    obtain ⟨_, _, hkept⟩ := stamps_rise program_pure ht
    have hle := hkept _ db db' surge () _ _ hlater .here .here hm hm'
    exact ⟨_, _, 5, _, ht, hlater, hm, hm', hle⟩

end Tide

end Incremental
