import Incremental.Evaluation
import Incremental.Proofs.Recipe

/-!
# The course of verification and evaluation

What a run that ends is made of, whatever its fuel: a property of verification holds if it holds
of every verdict and is handed on along the reads, and a property of evaluation if it holds of
every way to answer a read and is handed on along the body, or along the recipe that the body
follows. More fuel changes no run that ends.
-/

namespace Incremental

variable {Q K V W : Type}

namespace Database

/-- Follows a verification that ends, with `walks` for the walk over what was read. -/
theorem verify_induction
    (verifies : Handle → Revision → Database Q K V W → Bool → Database Q K V W → Prop)
    (walks : Revision → List Handle → Database Q K V W → Bool → Database Q K V W → Prop)
    (settled : ∀ key asOf db fresh, glance db.revision asOf (db.store.memo? key) = .settled fresh →
      verifies key asOf db fresh (db.settle key asOf fresh).2)
    (walked : ∀ key asOf db since reads fresh db₁,
      glance db.revision asOf (db.store.memo? key) = .undecided since reads →
      walks since reads (db.note (.walked key)) fresh db₁ →
      verifies key asOf db fresh (conclude key asOf (fresh, db₁)).2)
    (nil : ∀ since db, walks since [] db true db)
    (stop : ∀ since key keys db db₁, verifies key since db false db₁ →
      walks since (key :: keys) db false db₁)
    (step : ∀ since key keys db db₁ fresh db₂, verifies key since db true db₁ →
      walks since keys db₁ fresh db₂ → walks since (key :: keys) db fresh db₂)
    {fuel : Nat} {key : Handle} {asOf : Revision} {db db' : Database Q K V W} {fresh : Bool}
    (h : verify fuel key asOf db = some (fresh, db')) : verifies key asOf db fresh db' := by
  induction fuel generalizing key asOf db fresh db' with
  | zero => simp [verify] at h
  | succ fuel ih =>
      have walk : ∀ since keys db fresh db', allReads (fun read ↦ verify fuel read since) keys db =
          some (fresh, db') → walks since keys db fresh db' := by
        intro since keys
        induction keys with
        | nil =>
            intro db fresh db' h
            obtain ⟨rfl, rfl⟩ : true = fresh ∧ db = db' := by simpa [allReads] using h
            exact nil since db
        | cons key keys ih' =>
            intro db fresh db' h
            rw [allReads] at h
            split at h
            · cases h
            · next db₁ htest =>
                obtain ⟨rfl, rfl⟩ : false = fresh ∧ db₁ = db' := by simpa using h
                exact stop since key keys db db₁ (ih htest)
            · next db₁ htest =>
                exact step since key keys db db₁ fresh db' (ih htest) (ih' db₁ fresh db' h)
      rw [verify] at h
      split at h
      · next b hglance =>
          obtain ⟨rfl, rfl⟩ : b = fresh ∧ (db.settle key asOf b).2 = db' := by
            simpa [settle] using h
          exact settled key asOf db b hglance
      · next since reads hglance =>
          obtain ⟨⟨b, db₁⟩, hreads, hend⟩ := Option.map_eq_some_iff.mp h
          have hb : b = fresh := by
            cases b <;> simp_all [conclude, settle]
          subst hb
          obtain rfl : (conclude key asOf (b, db₁)).2 = db' := by rw [hend]
          exact walked key asOf db since reads b db₁ hglance (walk _ _ _ _ _ hreads)

/-- Verification notes walks and verdicts and stamps memos. So it keeps what each of these keeps. -/
theorem verify_keeps (T : Database Q K V W → Database Q K V W → Prop) (refl : ∀ db, T db db)
    (trans : ∀ {db db₁ db₂}, T db db₁ → T db₁ db₂ → T db db₂)
    (walked : ∀ key db, T db (db.note (.walked key)))
    (verified : ∀ key asOf fresh db, T db (db.note (.verified key asOf fresh)))
    (stamped : ∀ key db, T db (db.markVerified key))
    {fuel : Nat} {key : Handle} {asOf : Revision} {db db' : Database Q K V W} {fresh : Bool}
    (h : verify fuel key asOf db = some (fresh, db')) : T db db' := by
  refine verify_induction (fun _ _ db _ db' ↦ T db db') (fun _ _ db _ db' ↦ T db db')
    ?settled ?walked ?nil ?stop ?step h
  case settled => exact fun key asOf db fresh _ ↦ verified key asOf fresh db
  case walked =>
    intro key asOf db since reads fresh db₁ _ hwalk
    refine trans (walked key db) (trans hwalk ?_)
    cases fresh with
    | false => exact verified key asOf false db₁
    | true => exact trans (stamped key db₁) (verified key asOf true _)
  case nil => exact fun _ db ↦ refl db
  case stop => exact fun _ _ _ _ _ h ↦ h
  case step => exact fun _ _ _ _ _ _ _ h h' ↦ trans h h'

section

variable {test test' : Handle → Database Q K V W → Option (Bool × Database Q K V W)}

theorem allReads_mono (htest : ∀ key db r, test key db = some r → test' key db = some r)
    {keys : List Handle} {db : Database Q K V W} {r : Bool × Database Q K V W}
    (h : allReads test keys db = some r) : allReads test' keys db = some r := by
  induction keys generalizing db with
  | nil => exact h
  | cons key keys ih =>
      rw [allReads] at h ⊢
      cases hkey : test key db with
      | none => simp [hkey] at h
      | some p =>
          rw [htest key db p hkey]
          rw [hkey] at h
          rcases p with ⟨_ | _, db₁⟩
          · exact h
          · exact ih h

end

theorem verify_succ {fuel : Nat} {key : Handle} {asOf : Revision} {db : Database Q K V W}
    {r : Bool × Database Q K V W} (h : verify fuel key asOf db = some r) :
    verify (fuel + 1) key asOf db = some r := by
  induction fuel generalizing key asOf db r with
  | zero => simp [verify] at h
  | succ fuel ih =>
      rw [verify] at h ⊢
      split at h
      · exact h
      · next since reads hglance =>
          obtain ⟨r₁, hreads, hend⟩ := Option.map_eq_some_iff.mp h
          rw [allReads_mono (fun key db r h ↦ ih h) hreads]
          simp [hend]

theorem verify_mono {fuel fuel' : Nat} (hle : fuel ≤ fuel') {key : Handle} {asOf : Revision}
    {db : Database Q K V W} {r : Bool × Database Q K V W} (h : verify fuel key asOf db = some r) :
    verify fuel' key asOf db = some r := by
  induction hle with
  | refl => exact h
  | step _ ih => exact verify_succ ih

/-- What is kept is retrieved as it is, or verified first. -/
theorem eq_or_verify_of_retrieve {fuel : Nat} {key : Handle} {db db' : Database Q K V W}
    {r : Option (V × Revision)} (h : retrieve fuel key db = some (r, db')) :
    db' = db ∨ ∃ asOf, verify fuel key asOf db = some (r.isSome, db') := by
  unfold retrieve at h
  split at h
  · cases h
    exact .inl rfl
  · cases h
    exact .inl rfl
  · next asOf _ _ =>
      obtain ⟨⟨fresh, db₁⟩, hverify, hend⟩ := Option.map_eq_some_iff.mp h
      cases fresh <;> cases hend
      · exact .inr ⟨asOf, hverify⟩
      · exact .inr ⟨asOf, hverify⟩

theorem retrieve_mono {fuel fuel' : Nat} (hle : fuel ≤ fuel') {key : Handle}
    {db : Database Q K V W} {r : Option (V × Revision) × Database Q K V W}
    (h : retrieve fuel key db = some r) : retrieve fuel' key db = some r := by
  unfold retrieve at h ⊢
  split at h
  · exact h
  · exact h
  · obtain ⟨p, hverify, hp⟩ := Option.map_eq_some_iff.mp h
    rw [verify_mono hle hverify, Option.map_some, hp]

theorem retrieve_unique {fuel fuel' : Nat} {key : Handle} {db : Database Q K V W}
    {r r' : Option (V × Revision) × Database Q K V W} (h : retrieve fuel key db = some r)
    (h' : retrieve fuel' key db = some r') : r = r' :=
  Option.some.inj ((retrieve_mono (Nat.le_max_left fuel fuel') h).symm.trans
    (retrieve_mono (Nat.le_max_right fuel fuel') h'))

end Database

section

variable {read read' : Q → K → Database Q K V W → Option (Outcome V × Database Q K V W)}

theorem Body.run_mono (hread : ∀ q k db r, read q k db = some r → read' q k db = some r)
    {b : Body Q K V W V} {db : Database Q K V W} {r : Outcome V × Database Q K V W}
    (h : b.run read db = some r) : b.run read' db = some r := by
  induction b generalizing db with
  | done => exact h
  | read q k next ih =>
      obtain ⟨⟨answer, db₁⟩, hanswer, hnext⟩ := Option.bind_eq_some_iff.mp h
      rw [Body.run, hread q k db _ hanswer]
      exact ih answer hnext
  | revision next ih => exact ih _ h
  | outside change next ih => exact ih _ h

end

namespace Database

variable [DecidableEq Q] [BEq K] {P : Program Q K V W}

theorem eq_of_intern {q : Q} {k : K} {key : Handle} {db db₁ : Database Q K V W}
    (hkey : db.intern q k = (key, db₁)) :
    db₁ = { db with store := (db.store.intern q k).2 } :=
  (congrArg Prod.snd hkey).symm

/-- What a read comes to after its key was interned and recorded. -/
theorem query_succ (fuel : Nat) (q : Q) (k : K) (db : Database Q K V W) {key : Handle}
    {db₁ : Database Q K V W} (hkey : db.intern q k = (key, db₁)) : query P (fuel + 1) q k db =
      if db₁.stack.isActive key then
        some (.failure (db₁.circle P key), db₁.note (.refused (db₁.circle P key)))
      else
        match (db₁.recordRead key).retrieve fuel key with
        | none => none
        | some (some (value, changedAt), db₂) =>
          some (.value value, (db₂.note (.hit q k)).observe changedAt)
        | some (none, db₂) => execute P (query P fuel) q k key (db₂.note (.miss q k)) := by
  obtain rfl : (db.intern q k).1 = key := congrArg Prod.fst hkey
  obtain rfl : (db.intern q k).2 = db₁ := congrArg Prod.snd hkey
  rfl

omit [DecidableEq Q] [BEq K] in
theorem execute_mono {read read' : Q → K → Database Q K V W → Option (Outcome V × Database Q K V W)}
    (hread : ∀ q k db r, read q k db = some r → read' q k db = some r)
    {q : Q} {k : K} {key : Handle} {db : Database Q K V W} {r : Outcome V × Database Q K V W}
    (h : execute P read q k key db = some r) : execute P read' q k key db = some r := by
  unfold execute at h ⊢
  split at h
  · exact h
  · obtain ⟨p, hrun, hp⟩ := Option.map_eq_some_iff.mp h
    rw [Body.run_mono hread hrun, Option.map_some, hp]

theorem query_fuel_succ {fuel : Nat} {q : Q} {k : K} {db : Database Q K V W}
    {r : Outcome V × Database Q K V W} (h : query P fuel q k db = some r) :
    query P (fuel + 1) q k db = some r := by
  induction fuel generalizing q k db r with
  | zero => simp [query] at h
  | succ fuel ih =>
      obtain ⟨key, db₁, hkey⟩ : ∃ key db₁, db.intern q k = (key, db₁) := ⟨_, _, rfl⟩
      rw [query_succ fuel q k db hkey] at h
      rw [query_succ (fuel + 1) q k db hkey]
      split
      · next hactive => rwa [if_pos hactive] at h
      · next hactive =>
          rw [if_neg hactive] at h
          split at h
          · cases h
          · next v c db₂ hretrieve =>
              rw [retrieve_mono (Nat.le_succ _) hretrieve]
              exact h
          · next db₂ hretrieve =>
              rw [retrieve_mono (Nat.le_succ _) hretrieve]
              exact execute_mono (fun q k db r h ↦ ih h) h

theorem query_mono {fuel fuel' : Nat} (hle : fuel ≤ fuel') {q : Q} {k : K}
    {db : Database Q K V W} {r : Outcome V × Database Q K V W} (h : query P fuel q k db = some r) :
    query P fuel' q k db = some r := by
  induction hle with
  | refl => exact h
  | step _ ih => exact query_fuel_succ ih

theorem query_unique {fuel fuel' : Nat} {q : Q} {k : K} {db : Database Q K V W}
    {r r' : Outcome V × Database Q K V W} (h : query P fuel q k db = some r)
    (h' : query P fuel' q k db = some r') : r = r' :=
  Option.some.inj ((query_mono (Nat.le_max_left fuel fuel') h).symm.trans
    (query_mono (Nat.le_max_right fuel fuel') h'))

theorem run_mono {fuel fuel' : Nat} (hle : fuel ≤ fuel') {b : Body Q K V W V}
    {db : Database Q K V W} {r : Outcome V × Database Q K V W}
    (h : b.run (query P fuel) db = some r) : b.run (query P fuel') db = some r :=
  Body.run_mono (fun _ _ _ _ ↦ query_mono hle) h

theorem run_unique {fuel fuel' : Nat} {b : Body Q K V W V} {db : Database Q K V W}
    {r r' : Outcome V × Database Q K V W} (h : b.run (query P fuel) db = some r)
    (h' : b.run (query P fuel') db = some r') : r = r' :=
  Option.some.inj ((run_mono (Nat.le_max_left fuel fuel') h).symm.trans
    (run_mono (Nat.le_max_right fuel fuel') h'))

/-- A body runs to its end if its first read is answered and the rest does. -/
theorem run_read {fuel fuel' : Nat} {q : Q} {k : K} {next : Outcome V → Body Q K V W V}
    {db db₁ : Database Q K V W} {a : Outcome V} {r : Outcome V × Database Q K V W}
    (hread : query P fuel q k db = some (a, db₁))
    (hnext : (next a).run (query P fuel') db₁ = some r) :
    (Body.read q k next).run (query P (max fuel fuel')) db = some r := by
  rw [Body.run, query_mono (Nat.le_max_left fuel fuel') hread]
  exact run_mono (Nat.le_max_right fuel fuel') hnext

section

variable {fuel fuel' : Nat} {q : Q} {k : K} {key : Handle} {db db₁ db₂ db₃ : Database Q K V W}
  (hkey : db.intern q k = (key, db₁))

include hkey

theorem query_of_active (hactive : db₁.stack.isActive key = true) (fuel : Nat) :
    query P (fuel + 1) q k db =
      some (.failure (db₁.circle P key), db₁.note (.refused (db₁.circle P key))) := by
  rw [query_succ fuel q k db hkey, if_pos hactive]

variable (hactive : db₁.stack.isActive key = false)

include hactive

theorem query_of_hit {v : V} {c : Revision}
    (hretrieve : (db₁.recordRead key).retrieve fuel key = some (some (v, c), db₂)) :
    query P (fuel + 1) q k db = some (.value v, (db₂.note (.hit q k)).observe c) := by
  rw [query_succ fuel q k db hkey, if_neg (by simp [hactive]), hretrieve]

variable (hretrieve : (db₁.recordRead key).retrieve fuel key = some (none, db₂))

include hretrieve

theorem query_of_tooDeep {limit : Nat}
    (hbroken : db₂.configuration.brokenAt db₂.stack.depth = some limit) :
    query P (fuel + 1) q k db =
      some (.failure (.tooDeep limit (db₂.label P key)), db₂.note (.miss q k)) := by
  have hbroken : (db₂.note (.miss q k)).configuration.brokenAt
    (db₂.note (.miss q k)).stack.depth = some _ := hbroken
  rw [query_succ fuel q k db hkey, if_neg (by simp [hactive]), hretrieve]
  simp only [execute, hbroken]
  rfl

/-- Where a body was begun and runs to its end, the read that asked for it is answered. -/
theorem query_of_run {o : Outcome V}
    (hbroken : db₂.configuration.brokenAt db₂.stack.depth = none)
    (hrun : (P.body q k).run (query P fuel') ((db₂.note (.miss q k)).enter q k key) =
      some (o, db₃)) :
    query P (max fuel fuel' + 1) q k db = some (leave key db₂.stack.depth (o, db₃)) := by
  have hrun := run_mono (Nat.le_max_right fuel fuel') hrun
  have hbroken : (db₂.note (.miss q k)).configuration.brokenAt
    (db₂.note (.miss q k)).stack.depth = none := hbroken
  rw [query_succ _ q k db hkey, if_neg (by simp [hactive]),
    retrieve_mono (Nat.le_max_left fuel fuel') hretrieve]
  simp only [execute, hbroken, hrun, Option.map_some]
  rfl

end

/-- The ways in which a read is answered. -/
theorem query_cases {fuel : Nat} {q : Q} {k : K} {db db' : Database Q K V W} {o : Outcome V}
    (answer : Outcome V → Database Q K V W → Prop)
    (refused : ∀ key db₁, db.intern q k = (key, db₁) → db₁.stack.isActive key = true →
      answer (.failure (db₁.circle P key)) (db₁.note (.refused (db₁.circle P key))))
    (hit : ∀ n key db₁ v c db₂, db.intern q k = (key, db₁) → db₁.stack.isActive key = false →
      (db₁.recordRead key).retrieve n key = some (some (v, c), db₂) →
      answer (.value v) ((db₂.note (.hit q k)).observe c))
    (tooDeep : ∀ n key db₁ db₂ limit, db.intern q k = (key, db₁) →
      db₁.stack.isActive key = false → (db₁.recordRead key).retrieve n key = some (none, db₂) →
      db₂.configuration.brokenAt db₂.stack.depth = some limit →
      answer (.failure (.tooDeep limit (db₂.label P key))) (db₂.note (.miss q k)))
    (computed : ∀ n key db₁ db₂ o db₃, n < fuel → db.intern q k = (key, db₁) →
      db₁.stack.isActive key = false → (db₁.recordRead key).retrieve n key = some (none, db₂) →
      db₂.configuration.brokenAt db₂.stack.depth = none →
      (P.body q k).run (query P n) ((db₂.note (.miss q k)).enter q k key) = some (o, db₃) →
      answer (leave key db₂.stack.depth (o, db₃)).1 (leave key db₂.stack.depth (o, db₃)).2)
    (h : query P fuel q k db = some (o, db')) : answer o db' := by
  cases fuel with
  | zero => simp [query] at h
  | succ n =>
      obtain ⟨key, db₁, hkey⟩ : ∃ key db₁, db.intern q k = (key, db₁) := ⟨_, _, rfl⟩
      rw [query_succ n q k db hkey] at h
      split at h
      · next hactive =>
          cases h
          exact refused key db₁ hkey hactive
      · next hactive =>
          have hactive : db₁.stack.isActive key = false := by simpa using hactive
          split at h
          · cases h
          · next v c db₂ hretrieve =>
              cases h
              exact hit n key db₁ v c db₂ hkey hactive hretrieve
          · next db₂ hretrieve =>
              unfold execute at h
              split at h
              · next limit hbroken =>
                  cases h
                  exact tooDeep n key db₁ db₂ limit hkey hactive hretrieve hbroken
              · next hbroken =>
                  obtain ⟨⟨o₃, db₃⟩, hrun, hleave⟩ := Option.map_eq_some_iff.mp h
                  have hend := computed n key db₁ db₂ o₃ db₃ (Nat.lt_succ_self n) hkey hactive
                    hretrieve hbroken hrun
                  change leave key db₂.stack.depth (o₃, db₃) = (o, db') at hleave
                  rwa [hleave] at hend

/-- `reads` holds of every answer to a read, if `ran` holds of the body that is run for it. -/
structure ReadCourse (P : Program Q K V W)
    (reads ran : Q → K → Database Q K V W → Outcome V → Database Q K V W → Prop) : Prop where
  refused : ∀ fuel q k db key db₁, db.intern q k = (key, db₁) → db₁.stack.isActive key = true →
    query P fuel q k db =
      some (.failure (db₁.circle P key), db₁.note (.refused (db₁.circle P key))) →
    reads q k db (.failure (db₁.circle P key)) (db₁.note (.refused (db₁.circle P key)))
  hit : ∀ fuel n q k db key db₁ v c db₂, db.intern q k = (key, db₁) →
    db₁.stack.isActive key = false →
    (db₁.recordRead key).retrieve n key = some (some (v, c), db₂) →
    query P fuel q k db = some (.value v, (db₂.note (.hit q k)).observe c) →
    reads q k db (.value v) ((db₂.note (.hit q k)).observe c)
  tooDeep : ∀ fuel n q k db key db₁ db₂ limit, db.intern q k = (key, db₁) →
    db₁.stack.isActive key = false →
    (db₁.recordRead key).retrieve n key = some (none, db₂) →
    db₂.configuration.brokenAt db₂.stack.depth = some limit →
    query P fuel q k db =
      some (.failure (.tooDeep limit (db₂.label P key)), db₂.note (.miss q k)) →
    reads q k db (.failure (.tooDeep limit (db₂.label P key))) (db₂.note (.miss q k))
  computed : ∀ fuel n q k db key db₁ db₂ o db₃, db.intern q k = (key, db₁) →
    db₁.stack.isActive key = false →
    (db₁.recordRead key).retrieve n key = some (none, db₂) →
    db₂.configuration.brokenAt db₂.stack.depth = none →
    (P.body q k).run (query P n) ((db₂.note (.miss q k)).enter q k key) = some (o, db₃) →
    query P fuel q k db = some ((leave key db₂.stack.depth (o, db₃)).1,
      (leave key db₂.stack.depth (o, db₃)).2) →
    ran q k ((db₂.note (.miss q k)).enter q k key) o db₃ →
    reads q k db (leave key db₂.stack.depth (o, db₃)).1 (leave key db₂.stack.depth (o, db₃)).2

/-- `reads` and `runs` are handed on along evaluation: `runs` holds of every body, if `reads` holds
of what it reads. -/
structure Course (P : Program Q K V W)
    (reads : Q → K → Database Q K V W → Outcome V → Database Q K V W → Prop)
    (runs : Body Q K V W V → Database Q K V W → Outcome V → Database Q K V W → Prop) : Prop
    extends ReadCourse P reads fun q k ↦ runs (P.body q k) where
  done : ∀ o db, runs (.done o) db o db
  read : ∀ fuel q k next db a db₁ o db₂, query P fuel q k db = some (a, db₁) →
    (next a).run (query P fuel) db₁ = some (o, db₂) → reads q k db a db₁ →
    runs (next a) db₁ o db₂ → runs (.read q k next) db o db₂
  revision : ∀ next db o db₁, runs (next db.revision) db o db₁ → runs (.revision next) db o db₁
  outside : ∀ change next db o db₁,
    runs (next db.outside) { db with outside := change db.outside } o db₁ →
    runs (.outside change next) db o db₁

namespace Course

variable {reads : Q → K → Database Q K V W → Outcome V → Database Q K V W → Prop}
  {runs : Body Q K V W V → Database Q K V W → Outcome V → Database Q K V W → Prop} {fuel : Nat}
  {q : Q} {k : K} {b : Body Q K V W V} {db db' : Database Q K V W} {o : Outcome V}

theorem run_of_query (h : Course P reads runs)
    (hreads : ∀ q k db o db', query P fuel q k db = some (o, db') → reads q k db o db')
    (hrun : b.run (query P fuel) db = some (o, db')) : runs b db o db' := by
  induction b generalizing db with
  | done outcome =>
      cases hrun
      exact h.done o _
  | read q k next ih =>
      obtain ⟨⟨a, db₁⟩, hread, hnext⟩ := Option.bind_eq_some_iff.mp hrun
      exact h.read fuel q k next db a db₁ o db' hread hnext (hreads q k db a db₁ hread)
        (ih a hnext)
  | revision next ih => exact h.revision next db o db' (ih _ hrun)
  | outside change next ih => exact h.outside change next db o db' (ih _ hrun)

/-- So `reads` holds of every read that ends, by induction along its evaluation. -/
theorem query (h : Course P reads runs) (hquery : Database.query P fuel q k db = some (o, db')) :
    reads q k db o db' := by
  induction fuel using Nat.strongRecOn generalizing q k db o db' with
  | ind fuel ih =>
      refine query_cases (P := P) (fun o db' ↦ Database.query P fuel q k db = some (o, db') →
        reads q k db o db') ?_ ?_ ?_ ?_ hquery hquery
      · exact fun key db₁ ↦ h.refused fuel q k db key db₁
      · exact fun n key db₁ v c db₂ ↦ h.hit fuel n q k db key db₁ v c db₂
      · exact fun n key db₁ db₂ limit ↦ h.tooDeep fuel n q k db key db₁ db₂ limit
      · intro n key db₁ db₂ o db₃ hlt hkey hactive hretrieve hbroken hrun hquery
        exact h.computed fuel n q k db key db₁ db₂ o db₃ hkey hactive hretrieve hbroken hrun hquery
          (h.run_of_query (fun _ _ _ _ _ hread ↦ ih n hlt hread) hrun)

/-- So `runs` holds of every body that runs to its end. -/
theorem run (h : Course P reads runs) (hrun : b.run (Database.query P fuel) db = some (o, db')) :
    runs b db o db' :=
  h.run_of_query (fun _ _ _ _ _ hread ↦ h.query hread) hrun

end Course

/-- In a pure program it is enough to hand `runs` on along the recipes: neither the revision nor the
outside state decides anything. -/
structure RecipeCourse (P : Program Q K V W) (R : Q × K → Recipe Q K V)
    (reads : Q → K → Database Q K V W → Outcome V → Database Q K V W → Prop)
    (runs : Recipe Q K V → Database Q K V W → Outcome V → Database Q K V W → Prop) : Prop
    extends ReadCourse P reads fun q k ↦ runs (R (q, k)) where
  done : ∀ o db, runs (.done o) db o db
  read : ∀ fuel q k (b : Outcome V → Body Q K V W V) next db a db₁ o db₂,
    (∀ answer, (b answer).Obeys (next answer)) → query P fuel q k db = some (a, db₁) →
    (b a).run (query P fuel) db₁ = some (o, db₂) → reads q k db a db₁ →
    runs (next a) db₁ o db₂ → runs (.read (q, k) next) db o db₂
  outside : ∀ t w db o db₁, runs t { db with outside := w } o db₁ → runs t db o db₁

namespace RecipeCourse

variable {R : Q × K → Recipe Q K V}
  {reads : Q → K → Database Q K V W → Outcome V → Database Q K V W → Prop}
  {runs : Recipe Q K V → Database Q K V W → Outcome V → Database Q K V W → Prop} {fuel : Nat}
  {q : Q} {k : K} {db db' : Database Q K V W} {o : Outcome V}

theorem course (h : RecipeCourse P R reads runs) (hP : P.Obeys R) :
    Course P reads fun b db o db' ↦ ∀ t, b.Obeys t → runs t db o db' where
  refused := h.refused
  hit := h.hit
  tooDeep := h.tooDeep
  computed := by
    intro fuel n q k db key db₁ db₂ o db₃ hkey hactive hretrieve hbroken hrun hquery hruns
    exact h.computed fuel n q k db key db₁ db₂ o db₃ hkey hactive hretrieve hbroken hrun hquery
      (hruns _ (hP q k))
  done := by
    intro o db t hobeys
    cases hobeys
    exact h.done o db
  read := by
    intro fuel q k next db a db₁ o db₂ hread hnext hreads hruns t hobeys
    cases hobeys with
    | read hobeys =>
        exact h.read fuel q k next _ db a db₁ o db₂ hobeys hread hnext hreads (hruns _ (hobeys a))
  revision := by
    intro next db o db₁ hruns t hobeys
    cases hobeys with
    | revision hobeys => exact hruns t (hobeys db.revision)
  outside := by
    intro change next db o db₁ hruns t hobeys
    cases hobeys with
    | outside hobeys => exact h.outside t _ db o db₁ (hruns t (hobeys db.outside))

theorem query (h : RecipeCourse P R reads runs) (hP : P.Obeys R)
    (hquery : Database.query P fuel q k db = some (o, db')) : reads q k db o db' :=
  (h.course hP).query hquery

end RecipeCourse

end Database

end Incremental
