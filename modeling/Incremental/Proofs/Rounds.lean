import Incremental.Proofs.Recall
import Incremental.Proofs.Shortcut

/-!
# Rounds of verification

How often what was read for one value is walked over while the revision stays the same. What
stands is stamped at the end of the first walk, so it is walked over once. What does not stand is
not stamped; it may be walked over again, but no more than once for each read that is not answered
from memory, and not after it was computed anew.
-/

namespace Incremental

variable {Q K V W : Type}

namespace Event

/-- The handle for which it had to be looked at what was read. -/
def walked? : Event Q K → Option Handle
  | walked key => some key
  | _ => none

/-- A read that was not answered from memory. -/
def isMiss : Event Q K → Bool
  | miss .. => true
  | _ => false

/-- Every walk over what was read for `key` ends in the verdict `fresh`, which is the first one on
`key` after it. The latest event comes first. -/
def WalksEnd (key : Handle) (fresh : Bool) (events : List (Event Q K)) : Prop :=
  ∀ later earlier, events = later ++ .walked key :: earlier →
    ∃ asOf after between, later = after ++ .verified key asOf fresh :: between ∧
      ∀ r b, .verified key r b ∉ between

variable {key : Handle} {fresh : Bool} {events recent : List (Event Q K)}

theorem mem_walked : key ∈ events.filterMap walked? ↔ .walked key ∈ events := by
  rw [List.mem_filterMap]
  constructor
  · rintro ⟨e, he, hkey⟩
    cases e <;> cases hkey
    exact he
  · exact fun h ↦ ⟨_, h, rfl⟩

theorem WalksEnd.of_unwalked (h : key ∉ events.filterMap walked?) : WalksEnd key fresh events := by
  rintro later earlier rfl
  exact absurd (mem_walked.2 (by simp)) h

theorem WalksEnd.append (h : WalksEnd key fresh recent) (h' : WalksEnd key fresh events) :
    WalksEnd key fresh (recent ++ events) := by
  intro later earlier heq
  rcases List.append_eq_append_iff.mp heq with ⟨rest, rfl, hevents⟩ | ⟨rest, rfl, hevents⟩
  · obtain ⟨asOf, after, between, rfl, hbetween⟩ := h' rest earlier hevents
    exact ⟨asOf, recent ++ after, between, by simp, hbetween⟩
  · cases rest with
    | nil =>
        obtain ⟨_, _, _, hnil, _⟩ := h' [] earlier hevents.symm
        simp at hnil
    | cons e rest =>
        obtain ⟨rfl, _⟩ := List.cons.inj hevents
        exact h later rest rfl

theorem WalksEnd.framed {asOf : Revision} (hwalked : .walked key ∉ recent)
    (hverified : ∀ r b, .verified key r b ∉ recent) :
    WalksEnd key fresh (.verified key asOf fresh :: (recent ++ [.walked key])) := by
  intro later earlier heq
  cases later with
  | nil => cases heq
  | cons e later =>
      obtain ⟨rfl, hrest⟩ := List.cons.inj heq
      obtain ⟨rfl, _⟩ : recent = later ∧ earlier = [] := by
        rcases List.append_eq_append_iff.mp hrest with ⟨rest, rfl, hend⟩ | ⟨rest, rfl, hend⟩
        · rcases rest with _ | ⟨_, rest⟩
          · simpa using hend.symm
          · simp at hend
        · rcases rest with _ | ⟨_, rest⟩
          · simpa using hend
          · obtain ⟨rfl, _⟩ := List.cons.inj hend
            simp at hwalked
      exact ⟨asOf, [], recent, rfl, hverified⟩

end Event

namespace Store

/-- What a verification looks at that asks about `keys` and comes to the verdict `fresh`, with `s`
before it and `s'` after it. -/
structure Surveys (now : Revision) (s s' : Store Q K V) (keys : List Handle) (fresh : Bool)
    (events : List (Event Q K)) : Prop where
  plain : ∀ e ∈ events, ∃ d, e = .walked d ∨ ∃ r b, e = .verified d r b
  reached : ∀ e ∈ events, ∀ d, (e = .walked d ∨ ∃ r b, e = .verified d r b) →
    ∃ key ∈ keys, s.Reaches key d
  waiting : ∀ d, .walked d ∈ events → ∃ v c w reads,
    s.memo? d = some (.derived v c w reads) ∧ w ≠ now
  once : (events.filterMap Event.walked?).Nodup
  stands : ∀ d, .walked d ∈ events → ¬ s.Outdated d → ∃ m, s'.memo? d = some m ∧ m.IsCurrent now
  stale : ∀ d, .walked d ∈ events → s.Outdated d → fresh = false
  ends : ∀ d b, (b = true ↔ ¬ s.Outdated d) → Event.WalksEnd d b events

variable {now : Revision} {s s' s₁ : Store Q K V} {key d : Handle} {keys : List Handle}
  {fresh : Bool} {events recent : List (Event Q K)}

theorem Surveys.of_unwalked (hplain : ∀ e ∈ events, ∃ r b, e = .verified key r b)
    (hkey : key ∈ keys) : s.Surveys now s' keys fresh events := by
  have hnot : ∀ d, .walked d ∉ events := by
    intro d hd
    obtain ⟨_, _, heq⟩ := hplain _ hd
    cases heq
  refine ⟨fun e he ↦ ⟨key, .inr (hplain e he)⟩, fun e he d hor ↦ ?_,
    fun d hd ↦ absurd hd (hnot d), ?_, fun d hd ↦ absurd hd (hnot d), fun d hd ↦ absurd hd (hnot d),
    fun d b _ ↦ .of_unwalked (mt Event.mem_walked.1 (hnot d))⟩
  · obtain ⟨r, b, rfl⟩ := hplain e he
    rcases hor with heq | ⟨_, _, heq⟩ <;> cases heq
    exact ⟨key, hkey, .refl⟩
  · have hnil : events.filterMap Event.walked? = [] := by
      refine List.eq_nil_iff_forall_not_mem.2 fun d hd ↦ hnot d (Event.mem_walked.1 hd)
    rw [hnil]
    exact List.nodup_nil

theorem Surveys.nil (now : Revision) (s s' : Store Q K V) (keys : List Handle) (fresh : Bool) :
    s.Surveys now s' keys fresh ([] : List (Event Q K)) := by
  refine ⟨by simp, by simp, by simp, by simp, by simp, by simp, fun d b _ ↦ ?_⟩
  exact .of_unwalked (by simp)

/-- One comes back to no value along the lists of what was read. -/
theorem not_transGen_rests (hs : WellFounded s.Feeds)
    (hkey : ∃ m, s.memo? key = some m ∧ m.isInput = false) :
    ¬ Relation.TransGen s.Rests key key := by
  have hfeeds : ∀ d, Relation.TransGen s.Rests d key → Relation.TransGen s.Feeds key d := by
    intro d h
    induction h using Relation.TransGen.head_induction_on with
    | single hrests => exact .single ⟨hrests, hkey⟩
    | @head d e hrests hrest ih =>
        have he : ∃ m, s.memo? e = some m ∧ m.isInput = false := by
          obtain ⟨f, hf, _⟩ := Relation.TransGen.head'_iff.mp hrest
          obtain ⟨v, c, w, reads, hm, _⟩ := hf.exists_derived
          exact ⟨_, hm, rfl⟩
        exact ih.tail ⟨hrests, he⟩
  exact fun h ↦ hs.transGen.irrefl.irrefl key (hfeeds key h)

namespace Surveys

theorem widen {more : List Handle} (h : s.Surveys now s' keys fresh events) (hkeys : keys ⊆ more) :
    s.Surveys now s' more fresh events :=
  { h with
    reached := fun e he d hor ↦
      let ⟨key, hkey, hreach⟩ := h.reached e he d hor
      ⟨key, hkeys hkey, hreach⟩ }

variable [DecidableEq Q] [BEq K] {T : Ways Q K V}

omit [DecidableEq Q] [BEq K] in
/-- The walk over what was read for `key`, between the two events that frame it. -/
theorem frame {asOf since : Revision} {reads : List Handle} (hs : WellFounded s.Feeds)
    (hglance : glance now asOf (s.memo? key) = .undecided since reads)
    (h : s.Surveys now s₁ reads fresh recent) (hverdict : fresh = true ↔ s.Unchanged asOf key)
    (hcurrent : fresh = true → ∃ m, s'.memo? key = some m ∧ m.IsCurrent now)
    (hkept : ∀ d m, s₁.memo? d = some m → m.IsCurrent now → s'.memo? d = some m) :
    s.Surveys now s' [key] fresh (.verified key asOf fresh :: (recent ++ [.walked key])) := by
  obtain ⟨v, c, hm, hc, hw⟩ := glance_undecided hglance
  have hreaches : ∀ e ∈ recent, ∀ d, (e = .walked d ∨ ∃ r b, e = .verified d r b) →
      Relation.TransGen s.Rests key d := by
    intro e he d hor
    obtain ⟨d', hd', hreach⟩ := h.reached e he d hor
    exact .head' ⟨_, hm, hd'⟩ hreach
  have hcircle := not_transGen_rests hs ⟨_, hm, rfl⟩
  have hwalked : .walked key ∉ recent := fun hmem ↦ hcircle (hreaches _ hmem key (.inl rfl))
  have hout : fresh = true ↔ ¬ s.Outdated key :=
    hverdict.trans ⟨fun ⟨_, _, _, hout⟩ ↦ hout, fun hout ↦ ⟨_, hm, hc, hout⟩⟩
  have hmem : ∀ d, .walked d ∈ .verified key asOf fresh :: (recent ++ [.walked key]) →
      .walked d ∈ recent ∨ d = key := by
    intro d hd
    simpa using hd
  refine ⟨?_, ?_, fun d hd ↦ ?_, ?_, fun d hd hout' ↦ ?_, fun d hd hout' ↦ ?_, fun d b hb ↦ ?_⟩
  · intro e he
    simp only [List.mem_cons, List.mem_append, List.not_mem_nil, or_false] at he
    rcases he with rfl | he | rfl
    · exact ⟨key, .inr ⟨asOf, fresh, rfl⟩⟩
    · exact h.plain e he
    · exact ⟨key, .inl rfl⟩
  · intro e he d hor
    refine ⟨key, by simp, ?_⟩
    simp only [List.mem_cons, List.mem_append, List.not_mem_nil, or_false] at he
    rcases he with rfl | he | rfl
    · rcases hor with heq | ⟨_, _, heq⟩ <;> cases heq
      exact .refl
    · exact (hreaches e he d hor).to_reflTransGen
    · rcases hor with heq | ⟨_, _, heq⟩ <;> cases heq
      exact .refl
  · rcases hmem d hd with hd | rfl
    · exact h.waiting d hd
    · exact ⟨v, c, since, reads, hm, hw⟩
  · have hsplit : (Event.verified key asOf fresh :: (recent ++ [.walked key])).filterMap
        Event.walked? = recent.filterMap Event.walked? ++ [key] := by
      simp [List.filterMap_cons, List.filterMap_append, Event.walked?]
    rw [hsplit, List.nodup_append]
    refine ⟨h.once, by simp, ?_⟩
    rintro d hd other hother rfl
    obtain rfl := List.mem_singleton.mp hother
    exact hwalked (Event.mem_walked.1 hd)
  · rcases hmem d hd with hd | rfl
    · obtain ⟨m, hm, hcurrent⟩ := h.stands d hd hout'
      exact ⟨m, hkept d m hm hcurrent, hcurrent⟩
    · exact hcurrent (hout.2 hout')
  · rcases hmem d hd with hd | rfl
    · exact h.stale d hd hout'
    · exact Bool.eq_false_iff.2 fun hfresh ↦ hout.1 hfresh hout'
  · by_cases hd : d = key
    · subst hd
      obtain rfl : fresh = b := Bool.eq_iff_iff.2 (hout.trans hb.symm)
      exact .framed hwalked fun r b hmem ↦ hcircle (hreaches _ hmem d (.inr ⟨r, b, rfl⟩))
    · have hlast : Event.WalksEnd d b [(.walked key : Event Q K)] :=
        .of_unwalked (by simpa [Event.walked?] using hd)
      have hfirst : Event.WalksEnd d b [(.verified key asOf fresh : Event Q K)] :=
        .of_unwalked (by simp [Event.walked?])
      exact hfirst.append ((h.ends d b hb).append hlast)

/-- A read that stands is followed by the next ones, which find what stands stamped. -/
theorem append (h : s.Surveys now s₁ [key] true events)
    (h' : s₁.Surveys now s' keys fresh recent) (hrechecks : Rechecks T now s s₁)
    (hkept : ∀ d m, s₁.memo? d = some m → m.IsCurrent now → s'.memo? d = some m) :
    s.Surveys now s' (key :: keys) fresh (recent ++ events) := by
  have hrests : ∀ {d e}, s₁.Rests d e → s.Rests d e := by
    rintro d e ⟨m, hm, he⟩
    rcases hrechecks.kept d with heq | ⟨_, heq⟩
    · exact ⟨m, heq ▸ hm, he⟩
    · rw [hm] at heq
      obtain ⟨m₀, hm₀, rfl⟩ := Option.map_eq_some_iff.mp heq.symm
      exact ⟨m₀, hm₀, by simpa using he⟩
  have hstands : ∀ d, .walked d ∈ events → ∃ m, s₁.memo? d = some m ∧ m.IsCurrent now :=
    fun d hd ↦ h.stands d hd fun hout ↦ by cases h.stale d hd hout
  refine ⟨fun e he ↦ ?_, fun e he d hor ↦ ?_, fun d hd ↦ ?_, ?_, fun d hd hout ↦ ?_,
    fun d hd hout ↦ ?_, fun d b hb ↦ ?_⟩
  · exact (List.mem_append.mp he).elim (h'.plain e) (h.plain e)
  · rcases List.mem_append.mp he with he | he
    · obtain ⟨key, hkey, hreach⟩ := h'.reached e he d hor
      have hreach' := Relation.ReflTransGen.mono (fun _ _ ↦ hrests) _ _ hreach
      exact ⟨key, List.mem_cons_of_mem _ hkey, hreach'⟩
    · obtain ⟨key', hkey, hreach⟩ := h.reached e he d hor
      exact ⟨key', by simpa using .inl (List.mem_singleton.mp hkey), hreach⟩
  · rcases List.mem_append.mp hd with hd | hd
    · obtain ⟨v, c, w, reads, hm, hw⟩ := h'.waiting d hd
      rcases hrechecks.kept d with heq | ⟨_, heq⟩
      · exact ⟨v, c, w, reads, heq ▸ hm, hw⟩
      · rw [hm] at heq
        obtain ⟨m₀, _, hm₀⟩ := Option.map_eq_some_iff.mp heq.symm
        have hcurrent := m₀.isCurrent_verified now
        rw [hm₀] at hcurrent
        exact absurd hcurrent hw
    · exact h.waiting d hd
  · rw [List.filterMap_append, List.nodup_append]
    refine ⟨h'.once, h.once, ?_⟩
    rintro d hd other hother rfl
    obtain ⟨v, c, w, reads, hm, hw⟩ := h'.waiting d (Event.mem_walked.1 hd)
    obtain ⟨m, hm', hcurrent⟩ := hstands d (Event.mem_walked.1 hother)
    cases hm.symm.trans hm'
    exact hw hcurrent
  · rcases List.mem_append.mp hd with hd | hd
    · exact h'.stands d hd (mt (hrechecks.outdated d).1 hout)
    · obtain ⟨m, hm, hcurrent⟩ := hstands d hd
      exact ⟨m, hkept d m hm hcurrent, hcurrent⟩
  · rcases List.mem_append.mp hd with hd | hd
    · exact h'.stale d hd ((hrechecks.outdated d).2 hout)
    · cases h.stale d hd hout
  · exact (h'.ends d b (hb.trans (not_congr (hrechecks.outdated d).symm))).append (h.ends d b hb)

end Surveys

/-- A value that takes the place of none, or of an outdated one, rests on what is known to stand,
and has changed since the old one was last known to. -/
theorem Consistent.of_insert [DecidableEq Q] [BEq K] [EquivBEq K] {T : Ways Q K V}
    {v : V} {c : Revision} {reads : List Handle} (hs : Consistent T now s)
    (hguided : T.Guided) (hkey : s.Has key) (hlacks : s.Lacks key)
    (hs' : Consistent T now (s.insert key (.derived v c now reads))) :
    (∀ d ∈ reads, ∃ m, s.memo? d = some m ∧ m.IsCurrent now) ∧
      ∀ v₀ c₀ w₀ reads₀, s.memo? key = some (.derived v₀ c₀ w₀ reads₀) → w₀ < c := by
  have hself := memo?_insert_self hkey (.derived v c now reads)
  have hne : ∀ d ∈ reads, d ≠ key := by
    rintro d hd rfl
    exact not_transGen_rests hs'.founded ⟨_, hself, rfl⟩ (.single ⟨_, hself, hd⟩)
  have hreads : ∀ d ∈ reads, ∃ m, s.memo? d = some m ∧ m.IsCurrent now ∧ m.changedAt ≤ c := by
    intro d hd
    obtain ⟨m, hm, hcurrent⟩ := hs'.current_reads hself hd
    exact ⟨m, (memo?_insert_of_ne s (hne d hd).symm _).symm.trans hm, hcurrent⟩
  refine ⟨fun d hd ↦ ?_, fun v₀ c₀ w₀ reads₀ hm ↦ ?_⟩
  · obtain ⟨m, hm, hcurrent, _⟩ := hreads d hd
    exact ⟨m, hm, hcurrent⟩
  · obtain ⟨x, ys, hx, hway, hdirect, _⟩ := (hs'.recorded key v c now reads hself).taken
    have hout : s.Outdated key := hlacks.resolve_left (by simp [hm])
    refine hs.raise hguided hm hout ((lookup?_insert ..).symm.trans hx) hway fun p hp ↦ ?_
    obtain ⟨d, hd, hfound, hvalue⟩ := hdirect p hp
    obtain ⟨m', hm', hcurrent, hle⟩ := hreads d hd
    have hinsert := (memo?_insert_of_ne s (hne d hd).symm (.derived v c now reads)).trans hm'
    exact ⟨d, m', (lookup?_insert ..).symm.trans hfound, hm', hcurrent, hle,
      hvalue m' hinsert (hs.changedAt_le hm')⟩

end Store

namespace Database

open Store

variable {db db' db₁ db₂ : Database Q K V W} {key : Handle} {asOf : Revision} {fuel : Nat}
  {fresh : Bool} [DecidableEq Q] [BEq K] {T : Ways Q K V}

/-- What one verification looks at. -/
theorem verify_surveys [EquivBEq K] (h : verify fuel key asOf db = some (fresh, db'))
    (hs : Consistent T db.revision db.store) : ∃ recent, db'.events = recent ++ db.events ∧
      db.store.Surveys db.revision db'.store [key] fresh recent := by
  refine (verify_induction
    (fun key asOf db fresh db' ↦ (∃ fuel, verify fuel key asOf db = some (fresh, db')) ∧
      (Consistent T db.revision db.store → ∃ recent, db'.events = recent ++ db.events ∧
        db.store.Surveys db.revision db'.store [key] fresh recent))
    (fun since keys db fresh db' ↦ db.Verifies db' ∧
      (∃ fuel, allReads (fun d ↦ verify fuel d since) keys db = some (fresh, db')) ∧
      (Consistent T db.revision db.store → ∃ recent, db'.events = recent ++ db.events ∧
        db.store.Surveys db.revision db'.store keys fresh recent))
    ?settled ?walked ?nil ?stop ?step h).2 hs
  case settled =>
    refine fun key asOf db fresh hglance ↦ ⟨⟨1, by rw [verify, hglance]; rfl⟩, fun _ ↦ ?_⟩
    refine ⟨[.verified key asOf fresh], rfl, .of_unwalked (fun e he ↦ ?_) List.mem_cons_self⟩
    exact ⟨asOf, fresh, List.mem_singleton.mp he⟩
  case walked =>
    rintro key asOf db since reads fresh db₁ hglance ⟨hverifies, ⟨fuel, hwalk⟩, hsurvey⟩
    have hrun : verify (fuel + 1) key asOf db = some (conclude key asOf (fresh, db₁)) := by
      simp only [verify, hglance, hwalk, Option.map_some]
    have hpair : conclude key asOf (fresh, db₁) = (fresh, (conclude key asOf (fresh, db₁)).2) := by
      cases fresh <;> rfl
    rw [hpair] at hrun
    refine ⟨⟨fuel + 1, hrun⟩, fun hs ↦ ?_⟩
    obtain ⟨recent, hevents, hsurvey⟩ := hsurvey hs
    obtain ⟨_, hverdict, hcurrent⟩ := verify_iff hrun hs
    refine ⟨.verified key asOf fresh :: (recent ++ [.walked key]), ?_,
      .frame hs.founded hglance hsurvey hverdict hcurrent fun d m hm hcurrent ↦ ?_⟩
    · have hnote : (conclude key asOf (fresh, db₁)).2.events =
          .verified key asOf fresh :: db₁.events := by
        cases fresh <;> rfl
      rw [hnote, hevents]
      simp [note]
    · have hnow : db₁.revision = db.revision := hverifies.revision_eq
      exact (Verifies.conclude key asOf fresh db₁).store.advances.current_memo hm
        (hnow.symm ▸ hcurrent)
  case nil => exact fun since db ↦ ⟨.refl db, ⟨0, rfl⟩, fun _ ↦ ⟨[], rfl, .nil _ _ _ _ _⟩⟩
  case stop =>
    rintro since key keys db db₁ ⟨⟨fuel, hverify⟩, hsurvey⟩
    refine ⟨verify_verifies hverify, ⟨fuel, by rw [allReads, hverify]⟩, fun hs ↦ ?_⟩
    obtain ⟨recent, hevents, hsurvey⟩ := hsurvey hs
    exact ⟨recent, hevents, hsurvey.widen (by simp)⟩
  case step =>
    rintro since key keys db db₁ fresh db₂ ⟨⟨fuel, hverify⟩, hsurvey⟩
      ⟨hverifies, ⟨fuel', hwalk⟩, hsurveys⟩
    have hnow := (verify_verifies hverify).revision_eq
    refine ⟨(verify_verifies hverify).trans hverifies, ⟨max fuel fuel', ?_⟩, fun hs ↦ ?_⟩
    · rw [allReads, verify_mono (Nat.le_max_left fuel fuel') hverify]
      exact allReads_mono (fun _ _ _ ↦ verify_mono (Nat.le_max_right fuel fuel')) hwalk
    · obtain ⟨recent, hevents, hsurvey⟩ := hsurvey hs
      have hrechecks := (verify_iff hverify hs).1
      have hadvances := hverifies.store.advances
      rw [hnow] at hsurveys hadvances
      obtain ⟨recent', hevents', hsurveys⟩ := hsurveys hrechecks.consistent
      refine ⟨recent' ++ recent, by rw [hevents', hevents, List.append_assoc], ?_⟩
      exact hsurvey.append hsurveys hrechecks fun _ _ hm hcurrent ↦
        hadvances.current_memo hm hcurrent

/-- What it takes to look for what is kept for a read. -/
theorem retrieve_surveys [EquivBEq K] {r : Option (V × Revision)}
    (h : db.retrieve fuel key = some (r, db')) (hs : Consistent T db.revision db.store) :
    ∃ recent, db'.events = recent ++ db.events ∧
      db.store.Surveys db.revision db'.store [key] r.isSome recent := by
  rcases eq_or_verify_of_retrieve h with rfl | ⟨_, hverify⟩
  · exact ⟨[], rfl, .nil _ _ _ _ _⟩
  · exact verify_surveys hverify hs

/-- What is walked over between `db` and `db'`, which are of one revision. -/
structure Rounds (db db' : Database Q K V W) : Prop where
  revision : db'.revision = db.revision
  events : db.events <:+ db'.events
  renews : db.store.Renews db.revision db'.store
  current : ∀ key m, db.store.memo? key = some m → m.IsCurrent db.revision →
    .walked key ∉ db'.since db
  stands : ∀ key, ¬ db.store.Lacks key → Event.WalksEnd key true (db'.since db) ∧
    ((db'.since db).filterMap Event.walked?).count key ≤ 1 ∧
    (.walked key ∈ db'.since db → ∃ m, db'.store.memo? key = some m ∧ m.IsCurrent db.revision)
  lacks : ∀ key, db.store.Lacks key → Event.WalksEnd key false (db'.since db) ∧
    ((db'.since db).filterMap Event.walked?).count key ≤ (db'.since db).countP Event.isMiss
  computed : ∀ key, .computed key ∈ db'.since db →
    ∃ m, db'.store.memo? key = some m ∧ m.IsCurrent db.revision
  after : ∀ key later earlier, db'.since db = later ++ .computed key :: earlier →
    .walked key ∉ later

namespace Rounds

omit [BEq K] in
/-- A step that verifies something at most, and then notes `more`. -/
theorem of_surveys {keys : List Handle} {recent : List (Event Q K)} (more : List (Event Q K))
    (hrevision : db'.revision = db.revision) (hevents : db'.events = more ++ (recent ++ db.events))
    (hrenews : db.store.Renews db.revision db'.store)
    (hsurvey : db.store.Surveys db.revision db'.store keys fresh recent)
    (hmore : ∀ key, .walked key ∉ more) (hmiss : fresh = true ∨ 0 < more.countP Event.isMiss)
    (hcomputed : ∀ key, .computed key ∈ more →
      ∃ m, db'.store.memo? key = some m ∧ m.IsCurrent db.revision) : db.Rounds db' := by
  have hsince : db'.since db = more ++ recent := since_eq (by rw [hevents, List.append_assoc])
  have hwalked : ∀ key, .walked key ∈ db'.since db ↔ .walked key ∈ recent := by
    intro key
    rw [hsince, List.mem_append]
    exact ⟨fun h ↦ h.resolve_left (hmore key), .inr⟩
  have hplain : ∀ key, .computed key ∉ recent := by
    intro key hmem
    obtain ⟨d, heq | ⟨_, _, heq⟩⟩ := hsurvey.plain _ hmem <;> cases heq
  have hcount : ∀ key, ((db'.since db).filterMap Event.walked?).count key ≤ 1 := by
    intro key
    have hnil : more.filterMap Event.walked? = [] :=
      List.eq_nil_iff_forall_not_mem.2 fun d hd ↦ hmore d (Event.mem_walked.1 hd)
    rw [hsince, List.filterMap_append, hnil]
    exact List.nodup_iff_count.1 hsurvey.once key
  have hends : ∀ key b, (b = true ↔ ¬ db.store.Outdated key) →
      Event.WalksEnd key b (db'.since db) := by
    intro key b hb
    rw [hsince]
    exact .append (.of_unwalked (mt Event.mem_walked.1 (hmore key))) (hsurvey.ends key b hb)
  refine ⟨hrevision, ⟨more ++ recent, by rw [hevents, List.append_assoc]⟩, hrenews,
    fun key m hm hcurrent hmem ↦ ?_, fun key hkey ↦ ?_, fun key hkey ↦ ?_, fun key hmem ↦ ?_,
    fun key later earlier heq hmem ↦ ?_⟩
  · obtain ⟨v, c, w, reads, hm', hw⟩ := hsurvey.waiting key ((hwalked key).1 hmem)
    cases hm.symm.trans hm'
    exact hw hcurrent
  · have hout : ¬ db.store.Outdated key := fun hout ↦ hkey (.inr hout)
    exact ⟨hends key true (by simpa using hout), hcount key,
      fun hmem ↦ hsurvey.stands key ((hwalked key).1 hmem) hout⟩
  · by_cases hmem : .walked key ∈ db'.since db
    · have hmem' := (hwalked key).1 hmem
      obtain ⟨_, _, _, _, hm, _⟩ := hsurvey.waiting key hmem'
      have hout : db.store.Outdated key := hkey.resolve_left (by simp [hm])
      have hfresh := hsurvey.stale key hmem' hout
      refine ⟨hends key false (by simpa using hout), Nat.le_trans (hcount key) ?_⟩
      rw [hsince, List.countP_append]
      exact Nat.le_add_right_of_le (hmiss.resolve_left (by simp [hfresh]))
    · have hnone := mt Event.mem_walked.1 hmem
      exact ⟨.of_unwalked hnone, by simp [List.count_eq_zero_of_not_mem hnone]⟩
  · rw [hsince] at hmem
    exact hcomputed key ((List.mem_append.mp hmem).resolve_right (hplain key))
  · rw [hsince] at heq
    rcases List.append_eq_append_iff.mp heq with ⟨rest, rfl, rfl⟩ | ⟨rest, rfl, _⟩
    · exact hplain key (by simp)
    · exact hmore key (List.mem_append_left _ hmem)

omit [BEq K] in
/-- A step that verifies nothing, and notes `more`. -/
theorem of_unwalked (more : List (Event Q K)) (hrevision : db'.revision = db.revision)
    (hevents : db'.events = more ++ db.events) (hrenews : db.store.Renews db.revision db'.store)
    (hmore : ∀ key, .walked key ∉ more)
    (hcomputed : ∀ key, .computed key ∈ more →
      ∃ m, db'.store.memo? key = some m ∧ m.IsCurrent db.revision) : db.Rounds db' := by
  have hnone : db.store.Surveys db.revision db'.store [] true ([] : List (Event Q K)) := .nil ..
  exact .of_surveys more hrevision hevents hrenews hnone hmore (.inl rfl) hcomputed

theorem current_memo (h : db.Rounds db') (hs : Consistent T db.revision db.store) {m : Memo V}
    (hm : db.store.memo? key = some m) (hcurrent : m.IsCurrent db.revision) :
    db'.store.memo? key = some m := by
  rcases (h.renews.stays key m hm (hs.not_outdated hm hcurrent)).1 with hm' | hm'
  · exact hm'
  · rwa [Memo.verified_of_isCurrent hcurrent] at hm'

theorem trans (h : db.Rounds db₁) (h' : db₁.Rounds db₂) (hs : Consistent T db.revision db.store)
    (hs₁ : Consistent T db₁.revision db₁.store) : db.Rounds db₂ := by
  have hsince := since_trans h.events h'.events
  have hnow := h.revision
  have hrenews := h'.renews
  rw [hnow] at hrenews hs₁
  have hleft : ∀ key m, db₁.store.memo? key = some m → m.IsCurrent db.revision →
      .walked key ∉ db₂.since db₁ ∧ db₂.store.memo? key = some m := by
    intro key m hm hcurrent
    rw [← hnow] at hcurrent
    exact ⟨h'.current key m hm hcurrent, h'.current_memo (hnow ▸ hs₁) hm hcurrent⟩
  have hcount : ∀ key, ((db₂.since db).filterMap Event.walked?).count key =
      ((db₂.since db₁).filterMap Event.walked?).count key +
        ((db₁.since db).filterMap Event.walked?).count key := by
    intro key
    rw [hsince, List.filterMap_append, List.count_append]
  refine ⟨h'.revision.trans hnow, h.events.trans h'.events, h.renews.trans hrenews,
    fun key m hm hcurrent hmem ↦ ?_, fun key hkey ↦ ?_, fun key hkey ↦ ?_, fun key hmem ↦ ?_,
    fun key later earlier heq hmem ↦ ?_⟩
  · rw [hsince] at hmem
    rcases List.mem_append.mp hmem with hmem | hmem
    · exact (hleft key m (h.current_memo hs hm hcurrent) hcurrent).1 hmem
    · exact h.current key m hm hcurrent hmem
  · obtain ⟨hends, hle, hstamped⟩ := h.stands key hkey
    obtain ⟨hends', hle', hstamped'⟩ := h'.stands key (h.renews.not_lacks hkey)
    rw [hnow] at hstamped'
    refine ⟨hsince ▸ hends'.append hends, ?_, fun hmem ↦ ?_⟩
    · -- after the first walk what stands is stamped
      rw [hcount]
      by_cases hmem : .walked key ∈ db₁.since db
      · obtain ⟨m, hm, hcurrent⟩ := hstamped hmem
        have hnone := mt Event.mem_walked.1 (hleft key m hm hcurrent).1
        rwa [List.count_eq_zero_of_not_mem hnone, Nat.zero_add]
      · rwa [List.count_eq_zero_of_not_mem (mt Event.mem_walked.1 hmem), Nat.add_zero]
    · rw [hsince] at hmem
      rcases List.mem_append.mp hmem with hmem | hmem
      · exact hstamped' hmem
      · obtain ⟨m, hm, hcurrent⟩ := hstamped hmem
        exact ⟨m, (hleft key m hm hcurrent).2, hcurrent⟩
  · obtain ⟨hends, hle⟩ := h.lacks key hkey
    rw [hcount, hsince, List.countP_append]
    rcases h.renews.lacks key hkey with ⟨_, hkey₁⟩ | ⟨⟨v, c, reads, hm⟩, _⟩
    · obtain ⟨hends', hle'⟩ := h'.lacks key hkey₁
      exact ⟨hends'.append hends, Nat.add_le_add hle' hle⟩
    · -- it was computed anew
      have hnone := mt Event.mem_walked.1 (hleft key _ hm rfl).1
      rw [List.count_eq_zero_of_not_mem hnone, Nat.zero_add]
      exact ⟨.append (.of_unwalked hnone) hends, Nat.le_add_left_of_le hle⟩
  · rw [hsince] at hmem
    rcases List.mem_append.mp hmem with hmem | hmem
    · exact hnow ▸ h'.computed key hmem
    · obtain ⟨m, hm, hcurrent⟩ := h.computed key hmem
      exact ⟨m, (hleft key m hm hcurrent).2, hcurrent⟩
  · rw [hsince] at heq
    rcases List.append_eq_append_iff.mp heq with ⟨rest, rfl, hrest⟩ | ⟨rest, hlater, hrest⟩
    · rcases List.mem_append.mp hmem with hmem | hmem
      · obtain ⟨m, hm, hcurrent⟩ := h.computed key (by simp [hrest])
        exact (hleft key m hm hcurrent).1 hmem
      · exact h.after key rest earlier hrest hmem
    · rcases rest with _ | ⟨e, rest⟩
      · have hrest : .computed key :: earlier = db₁.since db := hrest
        obtain ⟨m, hm, hcurrent⟩ := h.computed key (hrest ▸ List.mem_cons_self)
        rw [List.append_nil] at hlater
        exact (hleft key m hm hcurrent).1 (hlater ▸ hmem)
      · obtain ⟨rfl, _⟩ := List.cons.inj hrest
        exact h'.after key later rest hlater hmem

/-- To look for what is kept for a read is one round at most, which is followed by a miss unless it
finds something that stands. -/
theorem of_read [EquivBEq K] {q : Q} {k : K} {r : Option (V × Revision)} (more : List (Event Q K))
    (hdb : Coherent T db) (hkey : db.intern q k = (key, db₁))
    (hretrieve : (db₁.recordRead key).retrieve fuel key = some (r, db₂))
    (hrevision : db'.revision = db₂.revision) (hstore : db'.store = db₂.store)
    (hevents : db'.events = more ++ db₂.events)
    (hmore : ∀ key, .walked key ∉ more ∧ .computed key ∉ more)
    (hmiss : r.isSome = true ∨ 0 < more.countP Event.isMiss) :
    Coherent T db₂ ∧ db.Rounds db' := by
  obtain ⟨hrecord, hrenews⟩ := hdb.record hkey
  obtain ⟨hnow, hsame, _⟩ := store_of_intern hkey db.revision
  have hfirst : db.Rounds (db₁.recordRead key) :=
    .of_unwalked [] hnow hsame hrenews (by simp) (by simp)
  have hv := retrieve_verifies hretrieve
  have hrechecks := (retrieve_coherent hretrieve hrecord.store).1
  obtain ⟨recent, hrecent, hsurvey⟩ := retrieve_surveys hretrieve hrecord.store
  rw [← hstore] at hsurvey
  refine ⟨hrecord.rechecks hv hrechecks, hfirst.trans ?_ hdb.store hrecord.store⟩
  refine .of_surveys more (hrevision.trans hv.revision_eq) (hrecent ▸ hevents) ?_ hsurvey
    (fun key ↦ (hmore key).1) hmiss fun key hmem ↦ absurd hmem (hmore key).2
  exact hstore ▸ hrechecks.renews

end Rounds

end Database

namespace Stage

open Database Store

variable [DecidableEq Q] [BEq K] [EquivBEq K] [BEq V] {T : Ways Q K V}
  {P : Program Q K V W} {s t t' : Stage Q K V W}

theorem Evaluates.rounds (hP : P.Steady T) (ht : Reached P t) (hdb : Coherent T t.db)
    (hstep : Evaluates P t t') : Coherent T t'.db ∧ t.db.Rounds t'.db := by
  have hnext : Reached P t' := ht.later (.single (.evaluates hstep))
  have hsound := hnext.sound
  have hconsistent := hnext.consistent hP .here
  have hserves := ht.serves
  cases hstep with
  | @answers q k _ _ db db' a hanswers =>
      cases hanswers with
      | @refused key db₁ hkey _ =>
          obtain ⟨hrecord, hrenews⟩ := hdb.record hkey
          obtain ⟨hnow, hsame, _⟩ := store_of_intern hkey db.revision
          refine ⟨⟨hsound, hconsistent, fun other hother ↦ hrecord.lacks other ?_⟩, ?_⟩
          · exact (CallStack.active_modifyTop _ _).symm ▸ hother
          · exact .of_unwalked [.refused (db₁.circle P key)] hnow
              (congrArg (_ :: ·) hsame) hrenews (by simp) (by simp)
      | @hit fuel key db₁ db₂ v c hkey _ hretrieve =>
          obtain ⟨hcoherent, hrounds⟩ :
              Coherent T db₂ ∧ db.Rounds ((db₂.note (.hit q k)).observe c) :=
            Rounds.of_read [.hit q k] hdb hkey hretrieve rfl rfl rfl (by simp) (.inl rfl)
          refine ⟨⟨hsound, hcoherent.store, fun other hother ↦ hcoherent.lacks other ?_⟩, hrounds⟩
          exact CallStack.active_modifyTop _ _ ▸ hother
      | @tooDeep fuel key db₁ db₂ limit hkey _ hretrieve _ =>
          obtain ⟨hcoherent, hrounds⟩ : Coherent T db₂ ∧ db.Rounds (db₂.note (.miss q k)) :=
            Rounds.of_read [.miss q k] hdb hkey hretrieve rfl rfl rfl (by simp) (.inr Nat.one_pos)
          exact ⟨hcoherent.note _, hrounds⟩
  | @enters q k next calls fuel db db₁ db₂ key hkey hactive hretrieve hbroken =>
      have hentered := (Computing.enter hdb hkey hretrieve).1.coherent
      obtain ⟨_, hrounds⟩ :
          Coherent T db₂ ∧ db.Rounds ((db₂.note (.miss q k)).enter q k key) :=
        Rounds.of_read [.started q k key, .miss q k] hdb hkey hretrieve rfl rfl rfl (by simp)
          (.inr Nat.one_pos)
      exact ⟨hentered, hrounds⟩
  | @leaves o call calls db =>
      obtain ⟨frame, rest, hkey, hdepth, hstack, hidle, _⟩ := hserves.exists_top
      dsimp only at hstack hsound hconsistent hdb ⊢
      rw [← hkey, hdepth] at hsound hconsistent ⊢
      have hrest : ∀ other ∈ rest.active, db.store.Lacks other ∧ other ≠ frame.key := by
        intro other hother
        refine ⟨hdb.lacks other (by rw [hstack]; exact List.mem_cons_of_mem _ hother), ?_⟩
        rintro rfl
        exact hidle hother
      cases o with
      | panic message =>
          rw [leave_panic hstack] at hsound ⊢
          exact ⟨⟨hsound, hdb.store, fun other hother ↦ (hrest other hother).1⟩,
            .of_unwalked [.discarded 1] rfl rfl (.refl _ _) (by simp) (by simp)⟩
      | failure f =>
          rw [leave_failure hstack] at hsound ⊢
          refine ⟨⟨hsound, hdb.store, fun other hother ↦ (hrest other ?_).1⟩,
            .of_unwalked [] rfl rfl (.refl _ _) (by simp) (by simp)⟩
          exact CallStack.active_modifyTop _ _ ▸ hother
      | value v =>
          rw [leave_value hstack] at hsound hconsistent ⊢
          have hhas := (hdb.sound.pop hstack).2.key
          have hlacks : db.store.Lacks frame.key := hdb.lacks _ (by simp [hstack])
          obtain ⟨hreads, hraise⟩ := hdb.store.of_insert hP.guided hhas hlacks hconsistent
          have hremoved := Nat.le_max_right frame.newest (db.store.removedAt frame.key)
          refine ⟨⟨hsound, hconsistent, fun other hother ↦ ?_⟩,
            .of_unwalked [.computed frame.key] rfl rfl
              (.insert hdb.store hhas hlacks hreads hremoved hraise) (by simp) fun key hmem ↦ ?_⟩
          · obtain ⟨hlacks', hne⟩ := hrest other (CallStack.active_modifyTop _ _ ▸ hother)
            refine hlacks'.imp ((memo?_insert_of_ne _ hne.symm _).trans ·) fun hout ↦ ?_
            exact (hdb.store.outdated_insert_iff hhas hlacks hreads hremoved hraise).2 ⟨hne, hout⟩
          · cases List.mem_singleton.mp hmem
            exact ⟨_, memo?_insert_self hhas _, rfl⟩
  | revision => exact ⟨hdb, .of_unwalked [] rfl rfl (.refl _ _) (by simp) (by simp)⟩
  | outside =>
      exact ⟨hdb.of_eq rfl rfl rfl,
        .of_unwalked [] rfl rfl (.refl _ _) (by simp) (by simp)⟩

/-- At every stage what is under evaluation lacks. -/
theorem Reached.coherent (hP : P.Steady T) (ht : Reached P t) : Coherent T t.db := by
  refine (ht.keeps (fun t ↦ Reached P t ∧ Coherent T t.db) ?_ ?_).2
  · intro configuration w o
    exact ⟨⟨configuration, w, o, .refl⟩, (Resting.initial T configuration w).coherent⟩
  · rintro t t' ⟨ht, hdb⟩ hstep
    have hnext : Reached P t' := ht.later (.single hstep)
    refine ⟨hnext, ?_⟩
    cases hstep with
    | evaluates hstep => exact (hstep.rounds hP ht hdb).1
    | asks q k => exact hdb
    | edits e => exact Resting.coherent ⟨hnext.serves.eq_empty, hnext.consistent hP .here⟩
    | clears => exact Resting.coherent ⟨hnext.serves.eq_empty, hnext.consistent hP .here⟩
    | reports => exact hdb.note _

theorem Step.rounds (hP : P.Steady T) (ht : Reached P t) (hstep : Step P t t')
    (hwithin : t.db.Within t'.db) : t.db.Rounds t'.db := by
  cases hstep with
  | evaluates hstep => exact (hstep.rounds hP ht (ht.coherent hP)).2
  | asks q k => exact .of_unwalked [] rfl rfl (.refl _ _) (by simp) (by simp)
  | @edits db o e =>
      have hrevision := hwithin.revision
      obtain heq | heq | ⟨v, heq⟩ | ⟨key, _, heq⟩ := edit_cases e db <;>
        dsimp only at hrevision ⊢ <;> rw [heq] at hrevision ⊢
      · exact .of_unwalked [] rfl rfl (.refl _ _) (by simp) (by simp)
      · exact .of_unwalked [.unchanged _ _] rfl rfl (.refl _ _) (by simp) (by simp)
      · rw [revision_set] at hrevision
        exact absurd hrevision (Nat.succ_ne_self _)
      · exact absurd hrevision (Nat.succ_ne_self _)
  | @clears db o =>
      have hsince : db.clearCache.since db = [.cleared db.store.derivedCount] := by
        rw [clearCache_eq]
        exact since_eq rfl
      exact absurd (by simp [hsince]) (hwithin.cleared db.store.derivedCount)
  | reports => exact .of_unwalked [.reported _] rfl rfl (.refl _ _) (by simp) (by simp)

theorem Later.rounds (hP : P.Steady T) (h : Later P s t) (hs : Reached P s)
    (hwithin : s.db.Within t.db) : s.db.Rounds t.db := by
  induction h with
  | refl => exact .of_unwalked [] rfl rfl (.refl _ _) (by simp) (by simp)
  | @tail u t h hstep ih =>
      have hu : Reached P u := hs.later h
      obtain ⟨hbefore, hlast⟩ := hwithin.split (Later.precedes h hs) (hu.moves hstep).precedes
      exact (ih hbefore).trans (hstep.rounds hP hu hlast) (hs.coherent hP).store
        (hu.coherent hP).store

/-- Rounds within a revision: in every run of a program of pure bodies that give values only if all
their reads do, as long as the revision stays the same and computed values are not dropped, all
walks over what was read for one value come to the same verdict. What stands is walked over once;
what does not stand is walked over at most once for each read that is not answered from memory. What
is computed is not walked over any more. -/
theorem walks_bounded {R : Q × K → Recipe Q K V} (hP : P.Pure R) (hs : Reached P s)
    (ht : Later P s t) (hwithin : s.db.Within t.db) (key : Handle) :
    (Event.WalksEnd key true (t.db.since s.db) ∧
        ((t.db.since s.db).filterMap Event.walked?).count key ≤ 1 ∨
      Event.WalksEnd key false (t.db.since s.db) ∧
        ((t.db.since s.db).filterMap Event.walked?).count key ≤
          (t.db.since s.db).countP Event.isMiss) ∧
      ∀ later earlier, t.db.since s.db = later ++ .computed key :: earlier →
        .walked key ∉ later := by
  have hrounds := ht.rounds hP.steady hs hwithin
  refine ⟨?_, hrounds.after key⟩
  by_cases hkey : s.db.store.Lacks key
  · exact .inr (hrounds.lacks key hkey)
  · obtain ⟨hends, hle, _⟩ := hrounds.stands key hkey
    exact .inl ⟨hends, hle⟩

end Stage

/-- A weir with the level and the salt of its water, worked out to a depth and a taste, and a report
on both. -/
inductive Weir
  | level
  | salt
  | depth
  | taste
  | report
  deriving DecidableEq

open Database Stage

namespace Weir

def logic : Weir → Option (Recipe Weir Unit Nat)
  | depth => some (.get (level, ()) fun v ↦ .done (.value v))
  | taste => some (.get (salt, ()) fun v ↦ .done (.value v))
  | report => some (.get (depth, ()) fun v ↦ .get (taste, ()) fun w ↦ .done (.value (v + w)))
  | _ => none

def program : Program Weir Unit Nat Unit := .ofRecipes (fun _ ↦ "") logic

theorem program_pure : program.Pure (recipes (fun _ ↦ "") logic) := by
  refine .of_lawful (Program.ofRecipes_obeys _ _) ?_
  rintro ⟨q, k⟩
  cases q <;> simp [recipes, logic]

/-- After the level has changed the report is asked for: it is walked over, then the depth for the
report, the depth for itself, and the taste. -/
theorem exists_walks : ∃ s t : Stage Weir Unit Nat Unit, Reached program s ∧ Later program s t ∧
    s.db.Within t.db ∧
    (t.db.since s.db).filterMap Event.walked? = [⟨4, 0⟩, ⟨3, 0⟩, ⟨3, 0⟩, ⟨2, 0⟩] := by
  have hrun : (performAll program 9 [.act (.edit (.set level () 1)), .act (.edit (.set salt () 2)),
        .act (.inquire (.query report ())), .act (.edit (.set level () 3))]
        { outside := () }).bind (fun p ↦
      (performAll program 9 [.act (.inquire (.query report ()))] p.2).map fun r ↦
        decide (r.2.revision = p.2.revision ∧
          (r.2.since p.2).filterMap Event.walked? = [⟨4, 0⟩, ⟨3, 0⟩, ⟨3, 0⟩, ⟨2, 0⟩] ∧
          (r.2.since p.2).all fun e ↦ match e with | .cleared _ => false | _ => true)) =
      some true := by
    decide +kernel
  obtain ⟨⟨replies, db⟩, hops, hrun⟩ := Option.bind_eq_some_iff.mp hrun
  obtain ⟨⟨replies', db'⟩, hops', hend⟩ := Option.map_eq_some_iff.mp hrun
  obtain ⟨hrevision, hwalked, hcleared⟩ := of_decide_eq_true hend
  obtain ⟨o, hs⟩ := reached_performAll hops
  obtain ⟨o', ht⟩ := later_performAll hops' o
  refine ⟨_, _, hs, ht, ⟨hrevision, fun count hmem ↦ ?_⟩, hwalked⟩
  simpa using List.all_eq_true.1 hcleared _ hmem

/-- A value that does not stand may be walked over twice. -/
theorem depth_walked_twice : program.Pure (recipes (fun _ ↦ "") logic) ∧
    ¬ ∀ (s t : Stage Weir Unit Nat Unit) (key : Handle), Reached program s → Later program s t →
      s.db.Within t.db → ((t.db.since s.db).filterMap Event.walked?).count key ≤ 1 := by
  obtain ⟨s, t, hs, ht, hwithin, hwalked⟩ := exists_walks
  refine ⟨program_pure, fun h ↦ absurd (h s t ⟨3, 0⟩ hs ht hwithin) ?_⟩
  rw [hwalked]
  decide

/-- The depth is walked over twice, for the report and for itself, and each time it does not
stand. -/
theorem depth_walks_bounded : ∃ s t : Stage Weir Unit Nat Unit, Reached program s ∧
    Later program s t ∧ s.db.Within t.db ∧
    ((t.db.since s.db).filterMap Event.walked?).count ⟨3, 0⟩ = 2 ∧
    (Event.WalksEnd ⟨3, 0⟩ false (t.db.since s.db) ∧
      ((t.db.since s.db).filterMap Event.walked?).count ⟨3, 0⟩ ≤
        (t.db.since s.db).countP Event.isMiss) ∧
    ∀ later earlier, t.db.since s.db = later ++ .computed ⟨3, 0⟩ :: earlier →
      .walked ⟨3, 0⟩ ∉ later := by
  obtain ⟨s, t, hs, ht, hwithin, hwalked⟩ := exists_walks
  have hcount : ((t.db.since s.db).filterMap Event.walked?).count ⟨3, 0⟩ = 2 := by
    rw [hwalked]
    decide
  obtain ⟨⟨_, hle⟩ | hstale, hafter⟩ := walks_bounded program_pure hs ht hwithin ⟨3, 0⟩
  · rw [hcount] at hle
    exact absurd hle (by decide)
  · exact ⟨s, t, hs, ht, hwithin, hcount, hstale, hafter⟩

end Weir

end Incremental
