import Incremental.Proofs.Layout
import Incremental.Proofs.Numbering

/-!
# What handles name

A query at an argument gets a handle when it is assigned to or read for the first time, and keeps it
for good: through removals, clearings, failures and panics the handle names it by the argument as it
was spelled then, and nothing else gets that handle. So whatever a frame, the set of what is under
evaluation or a list of reads refers to is there to be found, described and kept.
-/

namespace Incremental

variable {Q K V W : Type}

/-- The query and the argument that the change interns. A removal only looks for its target. -/
def Change.interned? : Change Q K → Option (Q × K)
  | assigned q k => some (q, k)
  | removed _ _ => none

namespace Store

variable [DecidableEq Q] [BEq K] {s s' : Store Q K V} {l : List (Q × K)} {q : Q} {k : K}

/-- What is found in the store is what `l` has, as it is spelled there first. -/
def Spells (s : Store Q K V) (l : List (Q × K)) : Prop :=
  ∀ q k, (s.lookup? q k).bind s.named? = l.find? fun x ↦ decide (x.1 = q) && x.2 == k

theorem spells_empty : ({} : Store Q K V).Spells [] := fun _ _ ↦ rfl

theorem Spells.congr (h : s.Spells l)
    (harguments : s'.tables.map Table.arguments = s.tables.map Table.arguments) : s'.Spells l := by
  intro q k
  rw [← h q k, lookup?_congr harguments]
  exact congrArg _ (funext fun key ↦ named?_congr harguments)

theorem bind_named?_of_lookup? {key : Handle} (h : s.lookup? q k = some key) :
    ∃ x, (s.lookup? q k).bind s.named? = some x := by
  obtain ⟨k', hname, _⟩ := exists_named?_of_lookup? h
  exact ⟨_, by rw [h, Option.bind_some, hname]⟩

theorem Spells.exists_lookup?_iff (h : s.Spells l) (q : Q) (k : K) :
    (∃ key, s.lookup? q k = some key) ↔ ∃ x ∈ l, x.1 = q ∧ (x.2 == k) = true := by
  have hfound : (∃ key, s.lookup? q k = some key) ↔
      (l.find? fun x ↦ decide (x.1 = q) && x.2 == k).isSome := by
    rw [← h q k]
    cases hkey : s.lookup? q k with
    | none => simp
    | some key =>
        obtain ⟨x, hx⟩ := bind_named?_of_lookup? hkey
        rw [← hkey, hx, hkey]
        simp
  rw [hfound, List.find?_isSome]
  simp

variable [EquivBEq K]

/-- A new row is found under the argument that it was made for and those equal to it. -/
theorem AddsRow.lookup?_eq {key : Handle} (h : s.AddsRow s' q k key) (hs : s.Indexed) (q' : Q)
    (k' : K) : s'.lookup? q' k' =
      if decide (q = q') && k == k' then some key else s.lookup? q' k' := by
  split
  · next hsame =>
      obtain ⟨hq, hk⟩ := Bool.and_eq_true_iff.1 hsame
      obtain rfl := of_decide_eq_true hq
      rw [← lookup?_of_beq hk]
      exact h.lookup BEq.rfl
  · next hsame =>
      cases hold : s.lookup? q' k' with
      | some other => exact h.lookup_of_some q' k' other hold
      | none =>
          cases hnew : s'.lookup? q' k' with
          | none => rfl
          | some other =>
              exfalso
              obtain ⟨k'', hname, hk⟩ := exists_named?_of_lookup? hnew
              rw [h.named] at hname
              split at hname
              · cases hname
                exact hsame (by simpa using hk)
              · rw [lookup?_of_beq (BEq.symm hk), hs other q' k'' hname] at hold
                cases hold

theorem Spells.intern (h : s.Spells l) (hs : s.Indexed) (q : Q) (k : K) :
    (s.intern q k).2.Spells (l ++ [(q, k)]) := by
  intro q' k'
  rw [List.find?_append, ← h q' k']
  rcases s.intern_cases q k with ⟨hfound, hsame⟩ | ⟨hnone, hadds⟩
  · rw [hsame]
    by_cases hpair : (decide (q = q') && k == k') = true
    · -- an equal argument was found before
      obtain ⟨hq, hk⟩ := Bool.and_eq_true_iff.1 hpair
      obtain rfl := of_decide_eq_true hq
      obtain ⟨x, hx⟩ := bind_named?_of_lookup? ((lookup?_of_beq (BEq.symm hk)).trans hfound)
      rw [hx, Option.some_or]
    · simp [hpair]
  · rw [hadds.lookup?_eq hs]
    split
    · next hpair =>
        obtain ⟨hq, hk⟩ := Bool.and_eq_true_iff.1 hpair
        obtain rfl := of_decide_eq_true hq
        rw [← lookup?_of_beq hk, hnone]
        simp [hadds.named, hk]
    · next hpair =>
        cases hold : s.lookup? q' k' with
        | none => simp [hpair]
        | some other =>
            obtain ⟨k'', hname, _⟩ := exists_named?_of_lookup? hold
            simp [hname, hadds.named?_of_named? hname]

/-- What holds of a store and what was interned in it, and is kept by every access to it. -/
structure KeptByAccesses (kept : List (Q × K) → Store Q K V → Prop) : Prop where
  intern : ∀ l s q k, kept l s → kept (l ++ [(q, k)]) (s.intern q k).2
  insert : ∀ l s key m, s.Has key → kept l s → kept l (s.insert key m)
  erase : ∀ l s key m r, s.memo? key = some m → kept l s → kept l (s.erase key r)
  markVerified : ∀ l s key r, kept l s → kept l (s.markVerified key r)
  clearDerived : ∀ l s, kept l s → kept l s.clearDerived.2

/-- The accesses keep a store and its containers in step, and what is found in them. -/
theorem keptByAccesses_spells [Hashable Q] [Hashable K] [LawfulHashable K] :
    KeptByAccesses fun l (s : Store Q K V) ↦ s.Spells l ∧ s.Indexed ∧ ∃ g, s.Lays g where
  intern := by
    rintro l s q k ⟨hspells, hindexed, g, hg⟩
    exact ⟨hspells.intern hindexed q k, hindexed.intern q k, hg.exists_intern q k⟩
  insert := by
    rintro l s key m ⟨x, hx⟩ ⟨hspells, hindexed, g, hg⟩
    have harguments := arguments_modify s key (f := (·.insert m)) fun _ ↦ rfl
    exact ⟨hspells.congr harguments, hindexed.congr harguments, hg.exists_insert hx m⟩
  erase := by
    rintro l s key m r hm ⟨hspells, hindexed, g, hg⟩
    have harguments := arguments_modify s key (f := (·.erase r)) fun _ ↦ rfl
    obtain ⟨x, hx⟩ := has_of_memo? hm
    exact ⟨hspells.congr harguments, hindexed.congr harguments, hg.exists_erase hx hm r⟩
  markVerified := by
    rintro l s key r ⟨hspells, hindexed, g, hg⟩
    have harguments := arguments_modify s key (f := (·.markVerified r)) fun _ ↦ rfl
    exact ⟨hspells.congr harguments, hindexed.congr harguments, _, hg.markVerified⟩
  clearDerived := by
    rintro l s ⟨hspells, hindexed, g, hg⟩
    exact ⟨hspells.congr s.arguments_clearDerived, hindexed.congr s.arguments_clearDerived, _,
      hg.clearDerived⟩

end Store

namespace Database

open Store

variable [DecidableEq Q] [BEq K] {kept : List (Q × K) → Store Q K V → Prop}
  {db db' db₁ db₂ : Database Q K V W} {l : List (Q × K)} {fuel : Nat}

theorem verify_kept (hkept : KeptByAccesses kept) {key : Handle} {asOf : Revision} {fresh : Bool}
    (h : verify fuel key asOf db = some (fresh, db')) (hdb : kept l db.store) :
    kept l db'.store :=
  verify_keeps (fun db db' ↦ kept l db.store → kept l db'.store) (fun _ ↦ id)
    (fun h h' hdb ↦ h' (h hdb)) (fun _ _ ↦ id) (fun _ _ _ _ ↦ id)
    (fun key db ↦ hkept.markVerified l db.store key db.revision) h hdb

theorem walks_kept (hkept : KeptByAccesses kept) {since : Revision} {keys : List Handle}
    (h : Walks since keys db db') (hdb : kept l db.store) : kept l db'.store := by
  induction h with
  | here => exact hdb
  | within _ _ ih => exact ih hdb
  | ended hverify => exact verify_kept hkept hverify hdb
  | later hverify _ ih => exact ih (verify_kept hkept hverify hdb)

theorem retrieve_kept (hkept : KeptByAccesses kept) {key : Handle} {r : Option (V × Revision)}
    (h : db.retrieve fuel key = some (r, db')) (hdb : kept l db.store) : kept l db'.store := by
  rcases eq_or_verify_of_retrieve h with rfl | ⟨_, hverify⟩
  · exact hdb
  · exact verify_kept hkept hverify hdb

theorem leave_kept (hkept : KeptByAccesses kept) {key : Handle} (hkey : db.store.Has key)
    (depth : Nat) (o : Outcome V) (hdb : kept l db.store) :
    kept l (leave key depth (o, db)).2.store := by
  cases o with
  | panic message =>
      simp only [leave, discard]
      split <;> exact hdb
  | failure f =>
      simp only [leave]
      split <;> exact hdb
  | value v =>
      simp only [leave]
      split
      · exact hdb
      · exact hkept.insert _ _ _ _ hkey hdb

theorem set_kept [ReflBEq K] (hkept : KeptByAccesses kept) (q : Q) (k : K) (v : V)
    (hdb : kept l db.store) : kept (l ++ [(q, k)]) (db.set q k v).store := by
  obtain ⟨key, s, hintern, hfound, _, hset⟩ := db.set_eq q k v
  obtain rfl : (db.store.intern q k).2 = s := congrArg Prod.snd hintern
  rw [hset]
  exact hkept.insert _ _ _ _ (has_of_lookup? hfound) (hkept.intern _ _ _ _ hdb)

theorem edit_kept [BEq V] [ReflBEq K] (hkept : KeptByAccesses kept) (e : Edit Q K V)
    (hdb : kept l db.store) :
    kept (l ++ ((e.change? (edit e db).1).bind Change.interned?).toList) (edit e db).2.store := by
  cases e with
  | set q k v => exact set_kept hkept q k v hdb
  | setIfChanged q k v =>
      by_cases hequal : (db.input? q k).any (· == v) = true
      · simpa [edit, Database.setIfChanged, hequal, Edit.change?, note] using hdb
      · simpa [edit, Database.setIfChanged, hequal, Edit.change?, Change.interned?] using
          set_kept hkept q k v hdb
  | remove q k =>
      cases hkey : db.store.lookup? q k with
      | none => simpa [edit, Database.remove, hkey, Edit.change?] using hdb
      | some key =>
          cases hm : db.store.memo? key with
          | none => simpa [edit, Database.remove, hkey, hm, Edit.change?] using hdb
          | some m =>
              have herased := hkept.erase l db.store key m db.revision.next hm hdb
              simpa [edit, Database.remove, hkey, hm, Edit.change?, Change.interned?, note]
                using herased

/-- The handle is under evaluation, belongs to a frame or was read by it, or was read for what is
kept. -/
def Refers (db : Database Q K V W) (key : Handle) : Prop :=
  key ∈ db.stack.active ∨ (∃ frame ∈ db.stack.frames, key = frame.key ∨ key ∈ frame.reads) ∨
    ∃ other m, db.store.memo? other = some m ∧ key ∈ m.reads

theorem Sound.has_of_refers {key : Handle} (hdb : db.Sound) (h : db.Refers key) :
    db.store.Has key := by
  rcases h with hactive | ⟨frame, hframe, rfl | hread⟩ | ⟨other, m, hm, hread⟩
  · obtain ⟨frame, hframe, rfl⟩ := List.mem_map.1 (hdb.active ▸ hactive)
    exact (hdb.frames frame hframe).key
  · exact (hdb.frames frame hframe).key
  · exact (hdb.frames frame hframe).reads key hread
  · cases m with
    | input => cases hread
    | derived v c w reads => exact (hdb.store.derived other v c w reads hm).2.2.2 key hread

end Database

namespace Stage

open Database Store

variable [DecidableEq Q] [BEq K] {P : Program Q K V W} {s t t' : Stage Q K V W}
  {kept : List (Q × K) → Store Q K V → Prop} {l l' recent : List (Q × K)}
  {db db' : Database Q K V W}

/-- The databases at a stage, with what was interned on the way to them from its own: the
verification of a memo comes after the handle of what is read next was looked up. -/
inductive Unfolds : Stage Q K V W → List (Q × K) → Database Q K V W → Prop
  | here {t : Stage Q K V W} : Unfolds t [] t.db
  | looks {q : Q} {k : K} {next : Outcome V → Body Q K V W V} {calls : List (Call Q K V W)}
      {db db₁ s : Database Q K V W} {key : Handle} {v : V} {c w : Revision} {reads : List Handle}
      (hkey : db.intern q k = (key, db₁)) (hactive : db₁.stack.isActive key = false)
      (hm : (db₁.recordRead key).store.memo? key = some (.derived v c w reads))
      (h : Walks w [key] (db₁.recordRead key) s) : Unfolds ⟨db, .read q k next, calls⟩ [(q, k)] s

theorem shows_iff_unfolds : t.Shows db ↔ ∃ recent, t.Unfolds recent db := by
  constructor
  · rintro (_ | ⟨hkey, hactive, hm, h⟩)
    · exact ⟨[], .here⟩
    · exact ⟨_, .looks hkey hactive hm h⟩
  · rintro ⟨_, _ | ⟨hkey, hactive, hm, h⟩⟩
    · exact .here
    · exact .looks hkey hactive hm h

theorem store_of_intern_eq {q : Q} {k : K} {key : Handle} {db₁ : Database Q K V W}
    (hkey : db.intern q k = (key, db₁)) : db₁.store = (db.store.intern q k).2 :=
  (congrArg (·.2.store) hkey).symm

theorem Unfolds.keeps_accessed (h : t.Unfolds recent db) (hkept : KeptByAccesses kept)
    (ht : kept l t.db.store) : kept (l ++ recent) db.store := by
  cases h with
  | here => simpa using ht
  | looks hkey _ _ hwalks =>
      refine walks_kept hkept hwalks ?_
      exact (store_of_intern_eq hkey).symm ▸ hkept.intern _ _ _ _ ht

/-- A read interns what it reads, and nothing else does in an evaluation. -/
theorem Evaluates.keeps_accessed (hstep : Evaluates P t t') (hkept : KeptByAccesses kept)
    (hcalls : ∀ call ∈ t.calls, t.db.store.Has call.key) (ht : kept l t.db.store) :
    kept (l ++ t.reading?.toList) t'.db.store := by
  have hread : ∀ {q k key} {db db₁ db₂ : Database Q K V W} {fuel r},
      db.intern q k = (key, db₁) → (db₁.recordRead key).retrieve fuel key = some (r, db₂) →
      kept l db.store → kept (l ++ [(q, k)]) db₂.store := by
    intro q k key db db₁ db₂ fuel r hkey hretrieve hdb
    refine retrieve_kept hkept hretrieve ?_
    exact (store_of_intern_eq hkey).symm ▸ hkept.intern _ _ _ _ hdb
  cases hstep with
  | answers hanswers =>
      cases hanswers with
      | refused hkey _ => exact (store_of_intern_eq hkey).symm ▸ hkept.intern _ _ _ _ ht
      | hit hkey _ hretrieve => exact (hread hkey hretrieve ht :)
      | tooDeep hkey _ hretrieve _ => exact (hread hkey hretrieve ht :)
  | enters hkey _ hretrieve _ => exact (hread hkey hretrieve ht :)
  | @leaves o call calls db =>
      simpa [reading?] using leave_kept hkept (hcalls call List.mem_cons_self) call.depth o ht
  | revision => simpa [reading?] using ht
  | outside => simpa [reading?] using ht

variable [BEq V]

/-- A run from one stage to another, with what was interned in it, the first first. -/
inductive Interns (P : Program Q K V W) : List (Q × K) → Stage Q K V W → Stage Q K V W → Prop
  | refl {t : Stage Q K V W} : Interns P [] t t
  | evaluates {l : List (Q × K)} {s t t' : Stage Q K V W} (h : Interns P l s t)
      (hstep : Evaluates P t t') : Interns P (l ++ t.reading?.toList) s t'
  | asks {l : List (Q × K)} {s : Stage Q K V W} {db : Database Q K V W} {o : Outcome V}
      (h : Interns P l s ⟨db, .done o, []⟩) (q : Q) (k : K) : Interns P l s ⟨db, .get q k, []⟩
  | edits {l : List (Q × K)} {s : Stage Q K V W} {db : Database Q K V W} {o : Outcome V}
      (h : Interns P l s ⟨db, .done o, []⟩) (e : Edit Q K V) :
      Interns P (l ++ ((e.change? (edit e db).1).bind Change.interned?).toList) s
        ⟨(edit e db).2, .done o, []⟩
  | clears {l : List (Q × K)} {s : Stage Q K V W} {db : Database Q K V W} {o : Outcome V}
      (h : Interns P l s ⟨db, .done o, []⟩) : Interns P l s ⟨db.clearCache, .done o, []⟩
  | reports {l : List (Q × K)} {s : Stage Q K V W} {db : Database Q K V W} {o : Outcome V}
      (h : Interns P l s ⟨db, .done o, []⟩) : Interns P l s ⟨db.report P, .done o, []⟩

theorem Interns.later (h : Interns P l s t) : Later P s t := by
  induction h with
  | refl => exact .refl
  | evaluates _ hstep ih => exact .tail ih (.evaluates hstep)
  | asks _ q k ih => exact .tail ih (.asks q k)
  | edits _ e ih => exact .tail ih (.edits e)
  | clears _ ih => exact .tail ih .clears
  | reports _ ih => exact .tail ih .reports

theorem Interns.step? (h : Interns P l s t) (fuel : Nat) (hstep : (t.step? P fuel).isSome) :
    Interns P (l ++ t.reading?.toList) s ((t.step? P fuel).get hstep) :=
  h.evaluates (evaluates_of_step? (Option.some_get hstep).symm)

theorem later_iff_interns : Later P s t ↔ ∃ l, Interns P l s t := by
  constructor
  · intro h
    induction h with
    | refl => exact ⟨[], .refl⟩
    | tail _ hstep ih =>
        obtain ⟨l, h⟩ := ih
        cases hstep with
        | evaluates hstep => exact ⟨_, h.evaluates hstep⟩
        | asks q k => exact ⟨l, h.asks q k⟩
        | edits e => exact ⟨_, h.edits e⟩
        | clears => exact ⟨l, h.clears⟩
        | reports => exact ⟨l, h.reports⟩
  · rintro ⟨l, h⟩
    exact h.later

theorem Reached.has_of_mem_calls [EquivBEq K] (ht : Reached P t) :
    ∀ call ∈ t.calls, t.db.store.Has call.key := by
  intro call hcall
  have hkey : call.key ∈ t.db.stack.frames.map Frame.key :=
    ht.serves.fits.keys_eq ▸ List.mem_map_of_mem hcall
  obtain ⟨frame, hframe, heq⟩ := List.mem_map.1 hkey
  exact heq ▸ (ht.sound.frames frame hframe).key

/-- What every access keeps holds at every stage of a run. -/
theorem Interns.keeps_accessed [EquivBEq K] (h : Interns P l s t) (hs : Reached P s)
    (hkept : KeptByAccesses kept) (hinitial : kept l' s.db.store) :
    kept (l' ++ l) t.db.store := by
  induction h with
  | refl => simpa using hinitial
  | @evaluates l s t t' h hstep ih =>
      have ht := hs.later h.later
      rw [← List.append_assoc]
      refine hstep.keeps_accessed hkept ht.has_of_mem_calls (ih hs hinitial)
  | asks _ _ _ ih => exact ih hs hinitial
  | edits h e ih =>
      rw [← List.append_assoc]
      exact edit_kept hkept e (ih hs hinitial)
  | clears _ ih => exact hkept.clearDerived _ _ (ih hs hinitial)
  | reports _ ih => exact ih hs hinitial

/-- What is named while a memo is verified is named after the step. -/
theorem Unfolds.named?_of_named? (h : t.Unfolds recent db) (hprecedes : t.db.Precedes t'.db)
    (hstep : Step P t t') {key : Handle} {x : Q × K} (hx : db.store.named? key = some x) :
    t'.db.store.named? key = some x := by
  cases h with
  | here => exact hprecedes.named key x hx
  | @looks q k _ _ db db₁ _ _ _ _ _ _ hkey _ _ hwalks =>
      -- looking at what is kept under it comes after the handle was given
      have hinterned : db₁.store.named? key = some x :=
        (hwalks.verifies.store.named?_eq key).symm.trans hx
      have hread : ∀ {key' db₁' db₂ fuel r}, db.intern q k = (key', db₁') →
          (db₁'.recordRead key').retrieve fuel key' = some (r, db₂) →
          db₂.store.named? key = some x := by
        intro key' db₁' db₂ fuel r hkey' hretrieve
        cases hkey.symm.trans hkey'
        exact ((retrieve_verifies hretrieve).store.named?_eq key).trans hinterned
      cases hstep with
      | evaluates hstep =>
          cases hstep with
          | answers hanswers =>
              cases hanswers with
              | refused hkey' _ =>
                  cases hkey.symm.trans hkey'
                  exact hinterned
              | hit hkey' _ hretrieve => exact (hread hkey' hretrieve :)
              | tooDeep hkey' _ hretrieve _ => exact (hread hkey' hretrieve :)
          | enters hkey' _ hretrieve _ => exact (hread hkey' hretrieve :)

omit [BEq V] in
theorem Shows.named?_of_named? (h : t.Shows db) {key : Handle} {x : Q × K}
    (hx : t.db.store.named? key = some x) : db.store.named? key = some x :=
  h.moves.precedes.named key x hx

variable [Hashable Q] [EquivBEq K] [Hashable K] [LawfulHashable K]

/-- Interning is a stable bijection: in every run of whatever program, at every stage of it and
while memos are verified there, a query at an argument is found if it or an equal one was assigned
or read so far, under the spelling of the first of them, and two of them have one handle exactly if
they are equal; a handle is found by what it names, is described by it, takes what is kept under it,
and names the same at every later stage; whatever is under evaluation, was read for it or was read
for what is kept is named; and the containers of the store agree, whichever accesses they come from,
and no access to them comes to a table of another query. -/
theorem interning_stable {configuration : Configuration} {w : W} {o : Outcome V}
    (hrun : Interns P l ⟨{ configuration, outside := w }, .done o, []⟩ t)
    (hdb : t.Unfolds recent db) :
    db.store.Spells (l ++ recent) ∧
    (∀ q k, (∃ key, db.store.lookup? q k = some key) ↔
      ∃ x ∈ l ++ recent, x.1 = q ∧ (x.2 == k) = true) ∧
    (∀ q k q' k' key key', db.store.lookup? q k = some key → db.store.lookup? q' k' = some key' →
      (key = key' ↔ q = q' ∧ (k == k') = true)) ∧
    (∀ key x, db.store.named? key = some x → db.store.lookup? x.1 x.2 = some key ∧
      db.label P key = P.label x.1 x.2 ∧ (∀ m, (db.store.insert key m).memo? key = some m) ∧
      ∀ t' db', Relation.TransGen (Step P) t t' → t'.Shows db' →
        db'.store.named? key = some x) ∧
    (∀ key x, t.db.store.named? key = some x → db.store.named? key = some x) ∧
    (∀ key, db.Refers key → ∃ x, db.store.named? key = some x) ∧
    (∃ g : Registry Q K V, db.store.Lays g) ∧
    ∀ g : Registry Q K V, db.store.Lays g → g.Aligned ∧ g.store = db.store ∧
      (∀ q k, g.lookup? q k = db.store.lookup? q k) ∧
      (∀ q k, ∃ g', g.intern? q k = some ((db.store.intern q k).1, g')) ∧
      ∀ key q k, db.store.named? key = some (q, k) → g.named? key = some (q, k) ∧
        ∀ f : Cell V → Cell V, ∃ g', g.update? q key.slot f = some g' := by
  have ht : Reached P t := ⟨configuration, w, o, hrun.later⟩
  have hshows : t.Shows db := shows_iff_unfolds.2 ⟨recent, hdb⟩
  have hsound := hshows.sound ht.sound
  have hempty : ({} : Store Q K V).Indexed := indexed_empty
  obtain ⟨hspells, hindexed, hlays⟩ := hdb.keeps_accessed keptByAccesses_spells
    (hrun.keeps_accessed ⟨configuration, w, o, .refl⟩ keptByAccesses_spells
      ⟨spells_empty, hempty, _, .empty⟩)
  refine ⟨hspells, hspells.exists_lookup?_iff, fun q k q' k' key key' hkey hkey' ↦ ?_,
    fun key x hx ↦ ⟨hindexed.lookup? hx, label_of_named? P hx,
      memo?_insert_self ⟨x, hx⟩, fun t' db' hlater hshows' ↦ ?_⟩,
    fun key x hx ↦ hshows.named?_of_named? hx, fun key hkey ↦ hsound.has_of_refers hkey, hlays,
    fun g hg ↦ ?_⟩
  · exact (beq_iff_of_lookup? hkey hkey').symm.trans (by simp)
  · obtain ⟨t₁, hstep, hlater⟩ := Relation.TransGen.head'_iff.1 hlater
    have ht₁ : Reached P t₁ := ht.later (.single hstep)
    have hfirst := hdb.named?_of_named? (ht.moves hstep).precedes hstep hx
    obtain ⟨hprecedes, _⟩ :=
      Later.keeps (fun _ ↦ True) hlater ht₁ trivial fun _ _ _ _ _ _ _ ↦ trivial
    exact hshows'.named?_of_named? (hprecedes.named key x hfirst)
  · obtain ⟨haligned, hstore⟩ := hg.aligned
    rw [← hstore]
    refine ⟨haligned, rfl, fun q k ↦ (haligned.lookup?_store q k).symm, fun q k ↦ ?_,
      fun key q k hx ↦ ⟨?_, fun f ↦ ?_⟩⟩
    · obtain ⟨g', hintern, _⟩ := haligned.intern? q k
      exact ⟨g', hintern⟩
    · exact (haligned.named?_store key).symm.trans hx
    · obtain ⟨g', hupdate, _⟩ := haligned.update? hx f
        (fun row ↦ (f ⟨row.memo, row.removedAt⟩).row row.argument) fun _ _ ↦ rfl
      exact ⟨g', hupdate⟩

end Stage

/-- A shelf: how many copies of a title there are, and whether it is worth a line in the list. -/
inductive Shelf
  | copies
  | listed
  deriving DecidableEq, Hashable

/-- A title with or without a capital, which makes no difference to which title it is. -/
structure Title where
  letters : Nat
  capital : Bool
  deriving DecidableEq

namespace Title

instance : BEq Title := ⟨fun a b ↦ a.letters == b.letters⟩

instance : Hashable Title := ⟨fun a ↦ hash a.letters⟩

theorem beq_iff {a b : Title} : (a == b) = true ↔ a.letters = b.letters := by
  change (a.letters == b.letters) = true ↔ _
  exact beq_iff_eq

instance : EquivBEq Title where
  rfl := beq_iff.2 rfl
  symm h := beq_iff.2 (beq_iff.1 h).symm
  trans h h' := beq_iff.2 ((beq_iff.1 h).trans (beq_iff.1 h'))

instance : LawfulHashable Title where
  hash_eq a b h := by
    change hash a.letters = hash b.letters
    rw [beq_iff.1 h]

end Title

open Database Stage

namespace Shelf

def logic : Shelf → Option (Title → Body Shelf Title Nat Unit Nat)
  | copies => none
  | listed => some fun title ↦
    (Body.get copies { title with capital := false }).bind fun n ↦ .value (min n 1)

def program : Program Shelf Title Nat Unit where
  name
    | copies => "copies"
    | listed => "listed"
  logic := logic
  showArgument _ title := if title.capital then "Ink" else "ink"
  showValue _ _ := ""

def bare : Stage Shelf Title Nat Unit := ⟨{ outside := () }, .done (.value 0), []⟩

/-- A title that was assigned with a capital and is read without one keeps its capital. -/
theorem copies_spelled : ∃ (l : List (Shelf × Title)) (t : Stage Shelf Title Nat Unit),
    l = [(copies, ⟨1, true⟩), (listed, ⟨1, true⟩), (copies, ⟨1, false⟩)] ∧
    Interns program l bare t ∧ t.calls.map Call.key = [⟨1, 0⟩] ∧
    t.db.store.lookup? copies ⟨1, false⟩ = some ⟨0, 0⟩ ∧
    t.db.store.named? ⟨0, 0⟩ = some (copies, ⟨1, true⟩) ∧
    t.db.label program ⟨0, 0⟩ = program.label copies ⟨1, true⟩ ∧ t.db.Refers ⟨0, 0⟩ ∧
    (∃ g : Registry Shelf Title Nat, t.db.store.Lays g ∧ g.lookup? copies ⟨1, false⟩ =
      some ⟨0, 0⟩) ∧
    ∀ t' db', Relation.TransGen (Step program) t t' → t'.Shows db' →
      db'.store.named? ⟨0, 0⟩ = some (copies, ⟨1, true⟩) := by
  have hstart : Interns program [] bare bare := .refl
  have hasks := (hstart.edits (.set copies ⟨1, true⟩ 3)).asks listed ⟨1, true⟩
  obtain ⟨l, t, hinterns, hl, hcalls, hfound, hread⟩ : ∃ l t, Interns program l bare t ∧
      l = [(copies, ⟨1, true⟩), (listed, ⟨1, true⟩), (copies, ⟨1, false⟩)] ∧
      t.calls.map Call.key = [⟨1, 0⟩] ∧
      t.db.store.lookup? copies ⟨1, false⟩ = some ⟨0, 0⟩ ∧
      ∃ frame ∈ t.db.stack.frames, (⟨0, 0⟩ : Handle) ∈ frame.reads :=
    ⟨_, _, (hasks.step? 2 (by decide +kernel)).step? 2 (by decide +kernel), by decide +kernel,
      by decide +kernel, by decide +kernel, by decide +kernel⟩
  obtain ⟨hspells, _, _, hnamed, _, _, ⟨g, hg⟩, hlays⟩ := interning_stable hinterns .here
  have hspelled := hspells copies ⟨1, false⟩
  rw [hfound, Option.bind_some, List.append_nil, hl] at hspelled
  obtain ⟨_, hlabel, _, hkept⟩ := hnamed ⟨0, 0⟩ (copies, ⟨1, true⟩) hspelled
  obtain ⟨frame, hframe, hread⟩ := hread
  obtain ⟨_, _, hlookup, _⟩ := hlays g hg
  exact ⟨l, t, hl, hinterns, hcalls, hfound, hspelled, hlabel,
    .inr (.inl ⟨frame, hframe, .inr hread⟩), ⟨g, hg, (hlookup _ _).trans hfound⟩, hkept⟩

end Shelf

end Incremental
