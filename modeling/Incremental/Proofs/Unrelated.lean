import Incremental.Proofs.Assigned
import Incremental.Proofs.Depth
import Incremental.Proofs.Removal
import Incremental.Proofs.Shortcut

/-!
# Changes of something else

A change of what a value does not rest on leaves alone all that the plain walk from it comes to, but
it makes a new revision, and then the walk decides whether the value still counts. If every read of
it, and every read of those, is found to have stood still, then it is answered from memory. A read
that had failed left nothing behind that could be found so: then the body is begun again, although
nothing that the value rests on has changed.
-/

namespace Incremental

variable {Q K V W : Type}

namespace Store

variable {s s' : Store Q K V} {key d : Handle} {asOf r w c : Revision} {v : V} {reads : List Handle}

/-- The plain walk has one verdict. -/
theorem judges_true_iff {n : Nat} {b : Bool} (h : s.stoodStill? n key asOf = some b) :
    b = true ↔ s.Judges key asOf true := by
  constructor
  · rintro rfl
    exact ⟨n, fun m hm ↦ stoodStill?_mono hm h⟩
  · rintro ⟨n', h'⟩
    have hmax := stoodStill?_mono (Nat.le_max_left n n') h
    rw [h' _ (Nat.le_max_right n n')] at hmax
    exact (Option.some.inj hmax).symm

theorem Judges.input (hm : s.memo? key = some (.input v c)) (hc : c ≤ asOf) :
    s.Judges key asOf true :=
  (judges_true_iff (n := 1) (by rw [stoodStill?, hm])).1 (decide_eq_true hc)

theorem Judges.derived (hm : s.memo? key = some (.derived v c w reads)) (hc : c ≤ asOf)
    (hreads : ∀ d ∈ reads, s.Judges d w true) : s.Judges key asOf true := by
  obtain ⟨n, b, hall⟩ := exists_allPass fun d hd ↦
    (hreads d hd).imp fun n hn ↦ ⟨true, hn n (Nat.le_refl n)⟩
  obtain rfl : b = true := (allPass_iff (fun _ _ h ↦ judges_true_iff h) hall).2 hreads
  refine (judges_true_iff (n := n + 1) (b := decide (c ≤ asOf) && true) ?_).1 (by simp [hc])
  rw [stoodStill?, hm]
  simp [hall]

/-- What the plain walk finds to have stood still has not changed, and neither has what was read. -/
theorem judges_induction (motive : Handle → Revision → Prop)
    (input : ∀ key asOf v c, s.memo? key = some (.input v c) → c ≤ asOf → motive key asOf)
    (derived : ∀ key asOf v c w reads, s.memo? key = some (.derived v c w reads) → c ≤ asOf →
      (∀ d ∈ reads, s.Judges d w true) → (∀ d ∈ reads, motive d w) → motive key asOf)
    (h : s.Judges key asOf true) : motive key asOf := by
  obtain ⟨n, h⟩ := h
  replace h := h n (Nat.le_refl n)
  induction n generalizing key asOf with
  | zero => cases h
  | succ n ih =>
      rw [stoodStill?] at h
      split at h
      · cases h
      · next v c hm => exact input key asOf v c hm (by simpa using h)
      · next v c w reads hm =>
          obtain ⟨b, hall, hb⟩ := Option.map_eq_some_iff.mp h
          obtain ⟨hc, rfl⟩ := Bool.and_eq_true_iff.1 hb
          have hstill : ∀ d ∈ reads, s.stoodStill? n d w = some true := by
            refine (allPass_iff (fun d b hd ↦ ?_) hall).1 rfl
            rw [hd, Option.some.injEq]
          exact derived key asOf v c w reads hm (of_decide_eq_true hc)
            (fun d hd ↦ (judges_true_iff (hstill d hd)).1 rfl) fun d hd ↦ ih (hstill d hd)

/-- The verdict depends only on what the walk may come to. -/
theorem judges_congr (hsame : ∀ d, s.Reaches key d → s'.memo? d = s.memo? d) :
    s.Judges key asOf true ↔ s'.Judges key asOf true := by
  have hreads : ∀ {key v c w reads}, s.memo? key = some (.derived v c w reads) →
      (∀ d, s.Reaches key d → s'.memo? d = s.memo? d) →
      ∀ d ∈ reads, ∀ e, s.Reaches d e → s'.memo? e = s.memo? e :=
    fun hm hsame d hd e he ↦ hsame e (he.head ⟨_, hm, hd⟩)
  constructor <;> intro h
  · refine judges_induction (fun key asOf ↦ (∀ d, s.Reaches key d → s'.memo? d = s.memo? d) →
      s'.Judges key asOf true) ?_ ?_ h hsame
    · exact fun key asOf v c hm hc hsame ↦ .input ((hsame key .refl).trans hm) hc
    · exact fun key asOf v c w reads hm hc _ ih hsame ↦
        .derived ((hsame key .refl).trans hm) hc fun d hd ↦ ih d hd (hreads hm hsame d hd)
  · refine judges_induction (fun key asOf ↦ (∀ d, s.Reaches key d → s'.memo? d = s.memo? d) →
      s.Judges key asOf true) ?_ ?_ h hsame
    · exact fun key asOf v c hm hc hsame ↦ .input ((hsame key .refl).symm.trans hm) hc
    · intro key asOf v c w reads hm hc _ ih hsame
      have hm := (hsame key .refl).symm.trans hm
      exact .derived hm hc fun d hd ↦ ih d hd (hreads hm hsame d hd)

theorem Judges.of_read (h : s.Judges key asOf true)
    (hm : s.memo? key = some (.derived v c w reads)) : ∀ d ∈ reads, s.Judges d w true := by
  refine judges_induction (fun key _ ↦ ∀ v c w reads, s.memo? key = some (.derived v c w reads) →
    ∀ d ∈ reads, s.Judges d w true) ?_ ?_ h v c w reads hm
  · intro key _ v c hm _ v' c' w reads hm'
    cases hm.symm.trans hm'
  · intro key _ v c w reads hm _ hreads _ v' c' w' reads' hm'
    cases hm.symm.trans hm'
    exact hreads

end Store

namespace Database

open Store

section

variable {s : Store Q K V} {db db' : Database Q K V W} {key : Handle} {asOf : Revision} {fuel : Nat}
  {fresh : Bool}

/-- A walk over what passes each time comes to its end. -/
theorem exists_allReads_true {since : Revision} {keys : List Handle} (ok : Database Q K V W → Prop)
    (h : ∀ d ∈ keys, ∀ db, ok db → ∃ fuel db', verify fuel d since db = some (true, db') ∧ ok db')
    (hdb : ok db) :
    ∃ fuel db', allReads (fun d ↦ verify fuel d since) keys db = some (true, db') := by
  induction keys generalizing db with
  | nil => exact ⟨0, db, rfl⟩
  | cons d keys ih =>
      obtain ⟨fuel, db₁, hverify, hok⟩ := h d List.mem_cons_self db hdb
      obtain ⟨fuel', db₂, hwalk⟩ := ih (fun d hd ↦ h d (List.mem_cons_of_mem _ hd)) hok
      refine ⟨max fuel fuel', db₂, ?_⟩
      rw [allReads, verify_mono (Nat.le_max_left fuel fuel') hverify]
      exact allReads_mono (fun _ _ _ h ↦ verify_mono (Nat.le_max_right fuel fuel') h) hwalk

/-- What stands by the plain walk is verified, also where some values were stamped meanwhile. -/
theorem exists_verify_of_judges (h : s.Judges key asOf true)
    (hmarks : s.Marks db.revision db.store) :
    ∃ fuel db', verify fuel key asOf db = some (true, db') := by
  refine judges_induction (fun key asOf ↦ ∀ db : Database Q K V W, s.Marks db.revision db.store →
    ∃ fuel db', verify fuel key asOf db = some (true, db')) ?_ ?_ h db hmarks
  · intro key asOf v c hm hc db hmarks
    have hm' := hmarks.advances.input_iff.2 hm
    exact ⟨1, (db.settle key asOf true).2, by rw [verify, hm', glance, decide_eq_true hc]; rfl⟩
  · intro key asOf v c w reads hm hc _ ih db hmarks
    obtain ⟨w', hm', hw⟩ := hmarks.derived hm
    by_cases hcurrent : w' = db.revision
    · exact ⟨1, (db.settle key asOf true).2, by
        rw [verify, hm', glance, if_neg (Nat.not_lt.2 hc), if_pos hcurrent]; rfl⟩
    · obtain rfl : w' = w := hw.resolve_right hcurrent
      have hstep : ∀ d ∈ reads, ∀ db₁, db.Verifies db₁ →
          ∃ fuel db₂, verify fuel d w' db₁ = some (true, db₂) ∧ db.Verifies db₂ := by
        intro d hd db₁ hverifies
        have hmarks₁ : s.Marks db₁.revision db₁.store := by
          rw [hverifies.revision_eq]
          exact hmarks.trans hverifies.store
        obtain ⟨fuel, db₂, hverify⟩ := ih d hd db₁ hmarks₁
        exact ⟨fuel, db₂, hverify, hverifies.trans (verify_verifies hverify)⟩
      obtain ⟨fuel, db', hwalk⟩ := exists_allReads_true db.Verifies hstep (.note db (.walked key))
      refine ⟨fuel + 1, (conclude key asOf (true, db')).2, ?_⟩
      rw [verify, hm', glance, if_neg (Nat.not_lt.2 hc), if_neg hcurrent]
      simp only [hwalk, Option.map_some]
      rfl

/-- Since the store was `s` some values were stamped, all of which stood by the plain walk then. -/
structure Founded (s : Store Q K V) (db : Database Q K V W) : Prop where
  marks : s.Marks db.revision db.store
  stands : ∀ d v c reads, db.store.memo? d = some (.derived v c db.revision reads) → ∀ r ≥ c,
    s.Judges d r true

theorem Founded.conclude {v : V} {c w : Revision} {reads : List Handle} (h : Founded s db)
    (hm : s.memo? key = some (.derived v c w reads)) (hreads : ∀ d ∈ reads, s.Judges d w true) :
    Founded s (conclude key asOf (true, db)).2 := by
  have hverifies := Verifies.conclude key asOf true db
  refine ⟨h.marks.trans hverifies.store, fun d v' c' reads' hm' ↦ ?_⟩
  by_cases hd : key = d
  · subst hd
    obtain ⟨w', hm'', _⟩ := (h.marks.trans hverifies.store).of_derived hm'
    cases hm.symm.trans hm''
    exact fun r hr ↦ .derived hm hr hreads
  · have hsame : (Database.conclude key asOf (true, db)).2.store.memo? d = db.store.memo? d :=
      memo?_modify_of_ne (Ne.symm hd)
    exact h.stands d v' c' reads' (hsame.symm.trans hm')

/-- What is verified stands by the plain walk. -/
theorem judges_of_verify (h : verify fuel key asOf db = some (true, db')) (hs : Founded s db) :
    s.Judges key asOf true := by
  refine (verify_induction
    (fun key asOf db fresh db' ↦ Founded s db →
      Founded s db' ∧ (fresh = true → s.Judges key asOf true))
    (fun since keys db fresh db' ↦ Founded s db →
      Founded s db' ∧ (fresh = true → ∀ d ∈ keys, s.Judges d since true))
    ?settled ?walked ?nil ?stop ?step h hs).2 rfl
  case settled =>
    intro key asOf db fresh hglance hs
    refine ⟨⟨hs.marks, hs.stands⟩, ?_⟩
    rintro rfl
    obtain ⟨v, c, hm, hc⟩ | ⟨v, c, reads, hm, hc⟩ := glance_settled hglance
    · exact .input (hs.marks.advances.input_iff.1 hm) hc
    · exact hs.stands key v c reads hm asOf hc
  case walked =>
    intro key asOf db since reads fresh db₁ hglance hwalk hs
    obtain ⟨v, c, hm, hc, hsince⟩ := glance_undecided hglance
    obtain ⟨w, hm, hw⟩ := hs.marks.of_derived hm
    obtain rfl : since = w := hw.resolve_right hsince
    obtain ⟨hs₁, hreads⟩ := hwalk ⟨hs.marks, hs.stands⟩
    cases fresh with
    | false => exact ⟨⟨hs₁.marks, hs₁.stands⟩, fun h ↦ by cases h⟩
    | true => exact ⟨hs₁.conclude hm (hreads rfl), fun _ ↦ .derived hm hc (hreads rfl)⟩
  case nil => exact fun _ _ hs ↦ ⟨hs, fun _ _ hd ↦ by cases hd⟩
  case stop => exact fun _ _ _ _ _ hfirst hs ↦ ⟨(hfirst hs).1, fun h ↦ by cases h⟩
  case step =>
    intro since key keys db db₁ fresh db₂ hfirst hrest hs
    obtain ⟨hs₁, hkey⟩ := hfirst hs
    obtain ⟨hs₂, hkeys⟩ := hrest hs₁
    exact ⟨hs₂, fun hfresh ↦ List.forall_mem_cons.2 ⟨hkey rfl, hkeys hfresh⟩⟩

end

variable [DecidableEq Q] [BEq K] {P : Program Q K V W} {db db' db₁ : Database Q K V W} {q : Q}
  {k : K} {key top d : Handle} {v : V} {c w : Revision} {reads : List Handle} {fuel : Nat}
  {o : Outcome V}

/-- What is verified is answered from memory. -/
theorem exists_query_of_verify (hidle : db.stack = {}) (hkey : db.store.lookup? q k = some key)
    (hm : db.store.memo? key = some (.derived v c w reads))
    (hverify : verify fuel key w (db.recordRead key) = some (true, db₁)) :
    ∃ n db'', (∀ m ≥ n, query P m q k db = some (.value v, db'')) ∧ db''.begun = db.begun := by
  have hintern : db.intern q k = (key, db) := by
    rw [Database.intern, intern_of_lookup? hkey]
  refine ⟨fuel + 1, (db₁.note (.hit q k)).observe c, fun m hle ↦ query_mono hle ?_, ?_⟩
  · have hactive : db.stack.isActive key = false := by simp [hidle, CallStack.isActive]
    have hm : (db.recordRead key).store.memo? key = some (.derived v c w reads) := hm
    refine query_of_hit hintern hactive ?_
    simp only [retrieve, hm, hverify, Option.map_some, if_true]
  · have hbegun : (db₁.note (.hit q k)).begun = db₁.begun := begun_note_of_none rfl _
    exact hbegun.trans ((verify_begun hverify).trans rfl)

/-- A value does not stand by the plain walk if a read of it fails when it is made now. -/
theorem not_judges_of_fails [EquivBEq K] {asOf : Revision} (hdb : db.Sound) (hidle : db.stack = {})
    (hm : db.store.memo? key = some (.derived v c w reads)) (hd : d ∈ reads)
    (hfound : db.store.lookup? q k = some d) (hquery : query P fuel q k db = some (o, db'))
    (ho : ∀ v, o ≠ .value v) : ¬ db.store.Judges key asOf true := by
  intro h
  suffices hvalue : ∃ n v db₁, query P n q k db = some (.value v, db₁) by
    obtain ⟨n, v, db₁, hvalue⟩ := hvalue
    exact ho v (congrArg Prod.fst (query_unique hquery hvalue))
  refine judges_induction (fun e r ↦ e = d → ∃ n v db₁, query P n q k db = some (.value v, db₁))
    ?_ ?_ (h.of_read hm d hd) rfl
  · rintro e r v c hm _ rfl
    have hactive : e ∉ db.stack.active := by simp [hidle]
    obtain ⟨db₁, hvalue⟩ := exists_query_of_input (P := P) hfound hm hactive db.configuration 0
    exact ⟨1, v, db₁, hvalue⟩
  · rintro e r v c w reads hm _ hreads _ rfl
    obtain ⟨_, hcw, _⟩ := hdb.store.derived e v c w reads hm
    obtain ⟨n, db₁, hverify⟩ : ∃ n db₁, verify n e w (db.recordRead e) = some (true, db₁) :=
      exists_verify_of_judges (.derived hm hcw hreads) (.refl _ _)
    obtain ⟨n, db₁, hvalue, _⟩ := exists_query_of_verify (P := P) hidle hfound hm hverify
    exact ⟨n, v, db₁, hvalue n (Nat.le_refl n)⟩

omit [DecidableEq Q] [BEq K] in
theorem exists_begun_of_suffix (h : db.events <:+ db'.events) :
    ∃ l, db'.begun = db.begun ++ l := by
  obtain ⟨events, h⟩ := h
  exact ⟨events.reverse.filterMap Event.started?, by simp [begun, ← h]⟩

/-- What does not stand has its body begun, before any other. -/
theorem begun_of_verify [ReflBEq K] (hdb : db.Sound) (hidle : db.stack = {})
    (hunlimited : db.configuration.maxDepth = none) (hkey : db.store.lookup? q k = some key)
    (hm : db.store.memo? key = some (.derived v c w reads))
    (hverify : ∀ fuel db₁, verify fuel key w (db.recordRead key) ≠ some (true, db₁))
    (hquery : query P fuel q k db = some (o, db')) :
    ∃ l, db'.begun = db.begun ++ (q, k) :: l := by
  have hintern : db.intern q k = (key, db) := by
    rw [Database.intern, intern_of_lookup? hkey]
  refine query_cases (P := P) (fun _ db' ↦ ∃ l, db'.begun = db.begun ++ (q, k) :: l)
    ?refused ?hit ?tooDeep ?computed hquery
  case refused =>
    intro key' db₁ hkey' hactive
    cases hintern.symm.trans hkey'
    simp [hidle, CallStack.isActive] at hactive
  case hit =>
    intro n key' db₁ v' c' db₂ hkey' _ hretrieve
    cases hintern.symm.trans hkey'
    obtain ⟨hm', _⟩ | ⟨w', reads', hm', htrue⟩ := retrieve_some hretrieve
    · cases hm.symm.trans hm'
    · cases hm.symm.trans hm'
      exact absurd htrue (hverify n db₂)
  case tooDeep =>
    intro n key' db₁ db₂ limit hkey' _ hretrieve hbroken
    cases hintern.symm.trans hkey'
    have hmax : db₂.configuration.maxDepth = none :=
      (retrieve_verifies hretrieve).configuration_eq ▸ hunlimited
    simp [Configuration.brokenAt, hmax] at hbroken
  case computed =>
    intro n key' db₁ db₂ o db₃ _ hkey' _ hretrieve _ hrun
    cases hintern.symm.trans hkey'
    have hfollows := ((hdb.enter_of_miss hintern hretrieve).run hrun).2
    obtain ⟨l, hl⟩ := exists_begun_of_suffix
      (hfollows.events.trans (leave_events key db₂.stack.depth o db₃))
    have hbegun : (db₂.note (.miss q k)).begun = db.begun :=
      (begun_note_of_none rfl _).trans ((retrieve_begun hretrieve).trans rfl)
    refine ⟨l, hl.trans ?_⟩
    rw [begun_enter, hbegun, List.append_assoc, List.singleton_append]

variable [BEq V] [EquivBEq K]

/-- No edit computes anything. -/
theorem memo?_derived_of_edit (e : Edit Q K V)
    (hm : (edit e db).2.store.memo? key = some (.derived v c w reads)) :
    db.store.memo? key = some (.derived v c w reads) := by
  obtain ⟨_, heq⟩ | ⟨v', _, heq⟩ | ⟨other, _, _, heq⟩ := edit_changes e db <;> rw [heq] at hm
  · exact hm
  · exact memo?_derived_of_set hm
  · by_cases hne : other = key
    · rw [hne, memo?_erase] at hm
      cases hm
    · exact (memo?_erase_of_ne _ hne _).symm.trans hm

/-- Since the store was `s`, nothing was changed that was reached from `top` then, and nothing was
computed. -/
structure Bypasses (s : Store Q K V) (top : Handle) (db : Database Q K V W) : Prop where
  lookup : ∀ q k d, s.lookup? q k = some d → db.store.lookup? q k = some d
  reached : ∀ d, s.Reaches top d → db.store.memo? d = s.memo? d
  derived : ∀ d v c w reads, db.store.memo? d = some (.derived v c w reads) →
    s.memo? d = some (.derived v c w reads)

theorem Bypasses.edit {s : Store Q K V} (h : Bypasses s top db) (hs : s.Indexed)
    (hhas : ∀ d, s.Reaches top d → s.Has d) {e : Edit Q K V}
    (he : ∀ d, s.Reaches top d → s.lookup? e.target.1 e.target.2 ≠ some d) :
    Bypasses s top (Database.edit e db).2 := by
  refine ⟨fun q k d hd ↦ lookup?_edit (h.lookup q k d hd) e, fun d hd ↦ ?_,
    fun d v c w reads hm ↦ h.derived d v c w reads (memo?_derived_of_edit e hm)⟩
  -- the row that is changed bears another name than what was reached
  obtain ⟨⟨q, k⟩, hname⟩ := hhas d hd
  have hfound := hs d q k hname
  have hrow : (Database.edit e db).2.store.row? d = db.store.row? d := by
    refine row?_edit e fun htarget ↦ ?_
    obtain ⟨hq, hk⟩ := beq_of_lookup? (lookup?_edit (h.lookup q k d hfound) e) htarget
    exact he d hd (by rw [← hq, ← lookup?_of_beq hk, hfound])
  exact (congrArg (·.bind Row.memo) hrow).trans (h.reached d hd)

omit [BEq V] [EquivBEq K] in
theorem has_of_reaches {s : Store Q K V} {r : Revision} (hs : s.Regular r) (htop : s.Has top)
    (hd : s.Reaches top d) : s.Has d := by
  induction hd with
  | refl => exact htop
  | tail _ hrests _ =>
      obtain ⟨v, c, w, reads, hm, hd⟩ := hrests.exists_derived
      exact (hs.derived _ v c w reads hm).2.2.2 _ hd

variable {w₀ : W} {before : List (Operation Q K V)} {edits : List (Edit Q K V)} {fuel' : Nat}
  {replies replies' : List (Except String (Reply V))}

/-- What is known to stand, after edits of what it does not rest on: if none of them took effect, or
if all that was read for it stands by the plain walk, it is answered from memory; otherwise its body
is begun again. -/
theorem query_after_unrelated
    (hbefore : performAll P fuel before { outside := w₀ } = some (replies, db))
    (hkey : db.store.lookup? q k = some key)
    (hmemo : db.store.memo? key = some (.derived v c db.revision reads))
    (hedits : performAll P fuel' (edits.map fun e ↦ .act (.edit e)) db = some (replies', db'))
    (hunrelated : ∀ e ∈ edits, ∀ d, db.store.Reaches key d →
      db.store.lookup? e.target.1 e.target.2 ≠ some d) :
    (db'.revision = db.revision ∨ db.store.Judges key db.revision true →
      ∃ n db'', (∀ m ≥ n, query P m q k db' = some (.value v, db'')) ∧ db''.begun = db'.begun) ∧
    (db'.revision ≠ db.revision → ¬ db.store.Judges key db.revision true →
      ∀ m o db'', query P m q k db' = some (o, db'') →
        ∃ l, db''.begun = db'.begun ++ (q, k) :: l) := by
  obtain ⟨o, hstart⟩ := Stage.later_performAll hbefore (.panic "")
  obtain ⟨o', hlater⟩ := Stage.later_performAll hedits o
  have hreached : Stage.Reached P ⟨db, .done o, []⟩ := ⟨{}, w₀, _, hstart⟩
  have hreached' : Stage.Reached P ⟨db', .done o', []⟩ := hreached.later hlater
  have hidle : db'.stack = {} := hreached'.serves.eq_empty
  have hunlimited : db'.configuration.maxDepth = none :=
    congrArg Configuration.maxDepth (hstart.trans hlater).configuration_eq
  have hregular := hreached.sound.store
  have hbypasses : Bypasses db.store key db' := by
    refine performAll_keeps (Bypasses db.store key) (fun op hop _ _ _ h hstep ↦ ?_)
      ⟨fun _ _ _ h ↦ h, fun _ _ ↦ rfl, fun _ _ _ _ _ h ↦ h⟩ hedits
    obtain ⟨e, he, rfl⟩ := List.mem_map.1 hop
    cases hstep
    exact h.edit hregular.indexed
      (fun d ↦ has_of_reaches hregular (has_of_memo? hmemo)) (hunrelated e he)
  have hkey' := hbypasses.lookup q k key hkey
  have hmemo' := (hbypasses.reached key .refl).trans hmemo
  have hsame : db.store.Judges key db.revision true ↔ db'.store.Judges key db.revision true :=
    judges_congr hbypasses.reached
  obtain ⟨_, hcw, _⟩ := hregular.derived key v c db.revision reads hmemo
  constructor
  · rintro (hstill | hjudges)
    · have hglance : glance (db'.recordRead key).revision db.revision
          ((db'.recordRead key).store.memo? key) = .settled true := by
        change glance db'.revision db.revision (db'.store.memo? key) = .settled true
        rw [hmemo', hstill, glance, if_neg (Nat.not_lt.2 hcw), if_pos rfl]
      have hverify : verify 1 key db.revision (db'.recordRead key) =
          some ((db'.recordRead key).settle key db.revision true) := by
        rw [verify, hglance]
      exact exists_query_of_verify hidle hkey' hmemo' hverify
    · obtain ⟨n, db₁, hverify⟩ :
          ∃ n db₁, verify n key db.revision (db'.recordRead key) = some (true, db₁) :=
        exists_verify_of_judges (hsame.1 hjudges) (.refl _ _)
      exact exists_query_of_verify hidle hkey' hmemo' hverify
  · intro hmoved hjudges m o db'' hquery
    refine begun_of_verify hreached'.sound hidle hunlimited hkey' hmemo' (fun n db₁ hverify ↦ ?_)
      hquery
    refine hjudges (hsame.2 (judges_of_verify hverify ⟨.refl _ _, fun d v c reads hm ↦ ?_⟩))
    -- nothing was computed at the new revision
    obtain ⟨_, _, hle, _⟩ := hregular.derived d v c _ reads (hbypasses.derived d v c _ reads hm)
    have hge : db.revision ≤ db'.revision :=
      (hlater.keeps (fun _ ↦ True) hreached trivial fun _ _ _ _ _ _ _ ↦ trivial).1.revision
    exact absurd (Nat.le_antisymm hle hge) hmoved

end Database

/-- Whoever waits for a letter at the porch answers it if it comes, and tells the hour. -/
inductive Porch
  | letter
  | lamp
  | clock
  | answer
  | hour
  deriving DecidableEq

open Database

namespace Porch

def logic : Porch → Option (Recipe Porch Unit Nat)
  | answer => some (.getOr (letter, ()) 0)
  | hour => some (.get (clock, ()) fun v ↦ .done (.value v))
  | _ => none

def program : Program Porch Unit Nat Unit := .ofRecipes (fun _ ↦ "") logic

abbrev recipe : Porch × Unit → Recipe Porch Unit Nat := recipes (fun _ ↦ "") logic

theorem clean (I : Inputs Porch Unit Nat) : Acyclic recipe I ∧ NoPanics recipe I := by
  constructor
  · refine .of_rank (fun x ↦ if logic x.1 = none then 0 else 1) ?_
    rintro ⟨q, k⟩
    cases q <;> simp [recipe, recipes, logic]
  · refine .of_calm ?_
    rintro ⟨q, k⟩
    cases q <;> simp [recipe, recipes, logic, Recipe.Calm]

/-- No letter has come. -/
def evening : List (Operation Porch Unit Nat) :=
  [.act (.edit (.set lamp () 1)), .act (.edit (.set clock () 9)),
    .act (.inquire (.query answer ())), .act (.inquire (.query hour ()))]

/-- Neither the answer nor the hour rests on the lamp. -/
theorem exists_evening : ∃ replies, ∃ db : Database Porch Unit Nat Unit,
    performAll program 8 evening { outside := () } = some (replies, db) ∧ db.revision = 2 ∧
    db.store.lookup? answer () = some ⟨2, 0⟩ ∧ db.store.lookup? hour () = some ⟨4, 0⟩ ∧
    db.store.memo? ⟨2, 0⟩ = some (.derived 0 0 db.revision [⟨3, 0⟩]) ∧
    db.store.lookup? letter () = some ⟨3, 0⟩ ∧
    (∃ db₀, query program 8 letter () db = some (.failure (.noInput "" ""), db₀)) ∧
    db.store.memo? ⟨4, 0⟩ = some (.derived 9 2 db.revision [⟨1, 0⟩]) ∧
    db.store.memo? ⟨1, 0⟩ = some (.input 9 2) ∧
    ∀ key ∈ [(⟨2, 0⟩ : Handle), ⟨4, 0⟩], ∀ d, db.store.Reaches key d →
      db.store.lookup? lamp () ≠ some d := by
  have hrun : (performAll program 8 evening { outside := () }).map (fun p ↦
      ([lamp, answer, hour, letter].map (p.2.store.lookup? · ()),
        [⟨2, 0⟩, ⟨3, 0⟩, ⟨4, 0⟩, ⟨1, 0⟩].map p.2.store.memo?, p.2.revision)) =
      some ([some ⟨0, 0⟩, some ⟨2, 0⟩, some ⟨4, 0⟩, some ⟨3, 0⟩], [some (.derived 0 0 2 [⟨3, 0⟩]),
        none, some (.derived 9 2 2 [⟨1, 0⟩]), some (.input 9 2)], 2) := by
    decide +kernel
  have hfails : ((performAll program 8 evening { outside := () }).bind fun p ↦
      (query program 8 letter () p.2).map Prod.fst) = some (.failure (.noInput "" "")) := by
    decide +kernel
  obtain ⟨⟨replies, db⟩, hbefore, hend⟩ := Option.map_eq_some_iff.mp hrun
  simp only [List.map_cons, List.map_nil, Prod.mk.injEq, List.cons.injEq, and_true] at hend
  obtain ⟨⟨hlamp, hanswer, hhour, hletter⟩, ⟨hmemo, hnone, hmemo', hclock⟩, hrevision⟩ := hend
  rw [hbefore, Option.bind_some] at hfails
  obtain ⟨⟨o, db₀⟩, hfails, rfl⟩ := Option.map_eq_some_iff.mp hfails
  refine ⟨replies, db, hbefore, hrevision, hanswer, hhour, ?_, hletter, ⟨db₀, hfails⟩, ?_, hclock,
    fun key hkey d hd ↦ ?_⟩
  · rw [hmemo, hrevision]
  · rw [hmemo', hrevision]
  · have hmem : d ∈ [(⟨2, 0⟩ : Handle), ⟨3, 0⟩, ⟨4, 0⟩, ⟨1, 0⟩] := by
      induction hd with
      | refl =>
          simp only [List.mem_cons, List.not_mem_nil, or_false] at hkey
          rcases hkey with rfl | rfl <;> simp
      | tail _ hrests ih =>
          obtain ⟨m, hm, hd⟩ := hrests
          simp only [List.mem_cons, List.not_mem_nil, or_false] at ih
          rcases ih with rfl | rfl | rfl | rfl <;> simp_all [Memo.reads]
    simp only [List.mem_cons, List.not_mem_nil, or_false] at hmem
    rcases hmem with rfl | rfl | rfl | rfl <;> simp [hlamp]

/-- The lamp is said to be lit, as it is. -/
def idleness : List (Edit Porch Unit Nat) := [.setIfChanged lamp () 1]

/-- The lamp is put out. -/
def dousing : List (Edit Porch Unit Nat) := [.set lamp () 0, .remove lamp ()]

/-- That no letter has come is remembered until anything at all changes, the hour until the clock
is set. -/
theorem answer_remembered : ∃ replies, ∃ db : Database Porch Unit Nat Unit,
    performAll program 8 evening { outside := () } = some (replies, db) ∧
    (∃ replies' db', performAll program 8 (idleness.map fun e ↦ .act (.edit e)) db =
      some (replies', db') ∧ ∃ n db'', (∀ m ≥ n, query program m .answer () db' =
        some (.value 0, db'')) ∧ db''.begun = db'.begun) ∧
    ∃ replies' db', performAll program 8 (dousing.map fun e ↦ .act (.edit e)) db =
      some (replies', db') ∧
      (∀ m o db'', query program m .answer () db' = some (o, db'') →
        ∃ l, db''.begun = db'.begun ++ (answer, ()) :: l) ∧
      ∃ n db'', (∀ m ≥ n, query program m .hour () db' = some (.value 9, db'')) ∧
        db''.begun = db'.begun := by
  obtain ⟨replies, db, hbefore, hrevision, hanswer, hhour, hmemo, hletter, ⟨_, hfails⟩, hmemo',
    hclock, hapart⟩ := exists_evening
  obtain ⟨_, hreached⟩ := Stage.reached_performAll hbefore
  have hidle : ((performAll program 8 evening { outside := () }).bind fun p ↦
      (performAll program 8 (idleness.map fun e ↦ .act (.edit e)) p.2).map (·.2.revision)) =
      some 2 := by
    decide +kernel
  have hdoused : ((performAll program 8 evening { outside := () }).bind fun p ↦
      (performAll program 8 (dousing.map fun e ↦ .act (.edit e)) p.2).map (·.2.revision)) =
      some 4 := by
    decide +kernel
  rw [hbefore, Option.bind_some] at hidle hdoused
  obtain ⟨⟨replies₁, db₁⟩, hops₁, hrevision₁⟩ := Option.map_eq_some_iff.mp hidle
  obtain ⟨⟨replies₂, db₂⟩, hops₂, hrevision₂⟩ := Option.map_eq_some_iff.mp hdoused
  have hspared : ∀ key ∈ [(⟨2, 0⟩ : Handle), ⟨4, 0⟩], ∀ e ∈ idleness ++ dousing, ∀ d,
      db.store.Reaches key d → db.store.lookup? e.target.1 e.target.2 ≠ some d := by
    simpa [idleness, dousing, Edit.target] using hapart
  refine ⟨replies, db, hbefore, ⟨replies₁, db₁, hops₁, ?_⟩, replies₂, db₂, hops₂, ?_, ?_⟩
  · refine (query_after_unrelated hbefore hanswer hmemo hops₁ fun e he ↦ ?_).1
      (.inl (hrevision₁.trans hrevision.symm))
    exact hspared _ (by simp) e (List.mem_append_left _ he)
  · refine (query_after_unrelated hbefore hanswer hmemo hops₂ fun e he ↦ ?_).2 (fun hsame ↦ ?_)
      (not_judges_of_fails hreached.sound hreached.serves.eq_empty hmemo List.mem_cons_self hletter
        hfails (by simp))
    · exact hspared _ (by simp) e (List.mem_append_right _ he)
    · have hmoved : (4 : Revision) = 2 := hrevision₂.symm.trans (hsame.trans hrevision)
      cases hmoved
  · have hle : 2 ≤ db.revision := Nat.le_of_eq hrevision.symm
    have hstands : db.store.Judges ⟨4, 0⟩ db.revision true :=
      .derived hmemo' hle (by simpa using Store.Judges.input hclock hle)
    refine (query_after_unrelated hbefore hhour hmemo' hops₂ fun e he ↦ ?_).1 (.inr hstands)
    exact hspared _ (by simp) e (List.mem_append_right _ he)

/-- No evaluation reads in a circle or panics, the answer is known to stand, having handled that
there is no letter, and the lamp is none of what was read for it; still it is computed again when
the lamp is put out. -/
theorem answer_begun_again : (∀ I, Acyclic recipe I ∧ NoPanics recipe I) ∧
    ∃ replies replies', ∃ db db₀ db' db'' : Database Porch Unit Nat Unit,
      performAll program 8 evening { outside := () } = some (replies, db) ∧
      db.store.lookup? answer () = some ⟨2, 0⟩ ∧
      db.store.memo? ⟨2, 0⟩ = some (.derived 0 0 db.revision [⟨3, 0⟩]) ∧
      db.store.lookup? letter () = some ⟨3, 0⟩ ∧
      query program 8 letter () db = some (.failure (.noInput "" ""), db₀) ∧
      (∀ d, db.store.Reaches ⟨2, 0⟩ d → db.store.lookup? lamp () ≠ some d) ∧
      performAll program 8 [.act (.edit (.set lamp () 0))] db = some (replies', db') ∧
      query program 8 answer () db' = some (.value 0, db'') ∧
      db''.begun = db'.begun ++ [(answer, ()), (letter, ())] := by
  obtain ⟨replies, db, hbefore, _, hanswer, _, hmemo, hletter, ⟨db₀, hfails⟩, _, _, hapart⟩ :=
    exists_evening
  have hbegun : ((performAll program 8 evening { outside := () }).bind fun p ↦
      (performAll program 8 [.act (.edit (.set lamp () 0))] p.2).bind fun p ↦
        (query program 8 answer () p.2).map fun r ↦
          (r.1, decide (r.2.begun = p.2.begun ++ [(answer, ()), (letter, ())]))) =
      some (.value 0, true) := by
    decide +kernel
  rw [hbefore, Option.bind_some] at hbegun
  obtain ⟨⟨replies', db'⟩, hops, hbegun⟩ := Option.bind_eq_some_iff.mp hbegun
  obtain ⟨⟨o, db''⟩, hquery, hend⟩ := Option.map_eq_some_iff.mp hbegun
  obtain ⟨rfl, hbegun⟩ := Prod.mk.inj hend
  exact ⟨clean, replies, replies', db, db₀, db', db'', hbefore, hanswer, hmemo, hletter,
    hfails, hapart _ (by simp), hops, hquery, of_decide_eq_true hbegun⟩

end Porch

end Incremental
