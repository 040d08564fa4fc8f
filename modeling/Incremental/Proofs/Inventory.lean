import Incremental.Proofs.Interning

/-!
# Taking stock

A snapshot, the statistics, a clearing of the cache and the texts of handles go through the store
each on its own. Whatever a run did before, they tell of the same: the queries that were used and
the arguments that were seen, both in the order in which they came, and what is kept for them.
-/

namespace Incremental

variable {Q K V W : Type}

/-- The snapshot without its computed entries. All queries stay in their places. -/
def Snapshot.assigned (snapshot : Snapshot) : Snapshot :=
  { snapshot with
    queries := snapshot.queries.map fun query ↦
      { query with entries := query.entries.filter fun entry ↦ decide (entry.kind = .input) } }

def Snapshot.count (snapshot : Snapshot) (kind : EntryKind) : Nat :=
  (snapshot.queries.flatMap QuerySnapshot.entries).countP fun entry ↦ decide (entry.kind = kind)

namespace Store

section

variable {α : Type} [BEq α]

/-- The list with `x` at its end, unless it has an equal one. -/
def adjoin (l : List α) (x : α) : List α := if l.any (· == x) then l else l ++ [x]

variable [EquivBEq α]

/-- What comes last is dropped if an equal one stands before it. -/
theorem eraseDups_concat (l : List α) (x : α) : (l ++ [x]).eraseDups =
    if l.any (· == x) then l.eraseDups else l.eraseDups ++ [x] := by
  match l with
  | [] => simp [List.eraseDups_cons]
  | a :: l =>
      rw [List.cons_append, List.eraseDups_cons, List.filter_append, List.eraseDups_cons]
      by_cases hax : (x == a) = true
      · simp [hax, BEq.symm hax]
      · have hxa : (a == x) = false := by
          rw [Bool.eq_false_iff]
          exact fun h ↦ hax (BEq.symm h)
        have hany : (l.filter fun b ↦ !b == a).any (· == x) = l.any (· == x) := by
          rw [Bool.eq_iff_iff, List.any_eq_true, List.any_eq_true]
          constructor
          · rintro ⟨b, hb, hbx⟩
            exact ⟨b, (List.mem_filter.1 hb).1, hbx⟩
          · rintro ⟨b, hb, hbx⟩
            refine ⟨b, List.mem_filter.2 ⟨hb, ?_⟩, hbx⟩
            simpa using fun hba ↦ hax (BEq.trans (BEq.symm hbx) hba)
        have ih := eraseDups_concat (l.filter fun b ↦ !b == a) x
        rw [hany] at ih
        simp only [hax, List.filter_cons, List.filter_nil, List.any_cons, hxa, Bool.false_or]
        by_cases hl : l.any (· == x) = true <;> simp [hl, ih]
termination_by l.length
decreasing_by exact Nat.lt_succ_of_le (List.length_filter_le _ _)

theorem any_eraseDups (l : List α) (x : α) : l.eraseDups.any (· == x) = l.any (· == x) := by
  induction l using List.reverseRecOn with
  | nil => rfl
  | append_singleton l a ih =>
      rw [eraseDups_concat, List.any_append]
      by_cases ha : l.any (· == a) = true
      · rw [if_pos ha, ih]
        by_cases hax : (a == x) = true
        · obtain ⟨b, hb, hba⟩ := List.any_eq_true.1 ha
          have hx : l.any (· == x) = true := List.any_eq_true.2 ⟨b, hb, BEq.trans hba hax⟩
          simp [hx]
        · simp [hax]
      · rw [if_neg ha, List.any_append, ih]

theorem eraseDups_concat_eq_adjoin (l : List α) (x : α) :
    (l ++ [x]).eraseDups = adjoin l.eraseDups x := by
  rw [eraseDups_concat, adjoin, any_eraseDups]

theorem pairwise_eraseDups (l : List α) : l.eraseDups.Pairwise fun a b ↦ (a == b) = false := by
  induction l using List.reverseRecOn with
  | nil => exact .nil
  | append_singleton l x ih =>
      rw [eraseDups_concat_eq_adjoin, adjoin]
      split
      · exact ih
      · next hx =>
          refine List.pairwise_append.2 ⟨ih, List.pairwise_singleton _ _, fun a ha b hb ↦ ?_⟩
          rw [List.mem_singleton.1 hb, Bool.eq_false_iff]
          exact fun hax ↦ hx (List.any_eq_true.2 ⟨a, ha, hax⟩)

end

section

variable [DecidableEq Q] {l : List (Q × K)} {q : Q}

/-- The queries that were used, each once, in the order of their first use. -/
def queriesOf (l : List (Q × K)) : List Q := (l.map Prod.fst).eraseDups

/-- The arguments that were seen for a query, each once and as it was spelled first, in the order
in which they came. -/
def argumentsOf [BEq K] (l : List (Q × K)) (q : Q) : List K :=
  ((l.filter fun x ↦ decide (x.1 = q)).map Prod.snd).eraseDups

theorem mem_queriesOf : q ∈ queriesOf l ↔ ∃ k, (q, k) ∈ l := by
  simp [queriesOf, List.mem_eraseDups]

theorem nodup_queriesOf (l : List (Q × K)) : (queriesOf l).Nodup :=
  (pairwise_eraseDups _).imp fun h ↦ by simpa using h

variable [BEq K]

theorem argumentsOf_of_not_mem (hq : q ∉ queriesOf l) : argumentsOf l q = [] := by
  have hnil : l.filter (fun x ↦ decide (x.1 = q)) = [] := by
    refine List.filter_eq_nil_iff.2 fun x hx heq ↦ hq (mem_queriesOf.2 ⟨x.2, ?_⟩)
    exact of_decide_eq_true heq ▸ hx
  rw [argumentsOf, hnil]
  rfl

theorem argumentsOf_concat [EquivBEq K] (l : List (Q × K)) (q q' : Q) (k : K) :
    argumentsOf (l ++ [(q, k)]) q' =
      if q = q' then adjoin (argumentsOf l q') k else argumentsOf l q' := by
  by_cases hq : q = q'
  · simp [argumentsOf, hq, eraseDups_concat_eq_adjoin]
  · simp [argumentsOf, hq]

end

variable [DecidableEq Q] [BEq K] {s s' : Store Q K V} {l : List (Q × K)}

/-- The tables and their rows are what `l` tells, in its order. -/
def Lists (s : Store Q K V) (l : List (Q × K)) : Prop :=
  s.tables.map Table.arguments = (queriesOf l).map fun q ↦ (q, argumentsOf l q)

theorem lists_empty : ({} : Store Q K V).Lists [] := rfl

theorem Lists.congr (h : s.Lists l)
    (harguments : s'.tables.map Table.arguments = s.tables.map Table.arguments) : s'.Lists l :=
  harguments.trans h

omit [DecidableEq Q] in
theorem arguments_intern (t : Table Q K V) (k : K) :
    (t.intern k).2.arguments = (t.query, adjoin t.arguments.2 k) := by
  have hslot : t.arguments.2.any (· == k) = (t.slot? k).isSome := by
    simp [Table.slot?, Table.arguments, Function.comp_def]
  rw [adjoin, hslot, Table.intern]
  split
  · next hfound => simp [hfound, Table.arguments]
  · next hnone => simp [hnone, Table.arguments]

theorem arguments_internAmong (q : Q) (k : K) {given : Q → List K} {qs : List Q}
    (hnodup : qs.Nodup) (hgiven : q ∉ qs → given q = []) {ts : List (Table Q K V)}
    (hts : ts.map Table.arguments = qs.map fun q ↦ (q, given q)) :
    (internAmong q k ts).2.map Table.arguments =
      (adjoin qs q).map fun q' ↦ (q', if q = q' then adjoin (given q') k else given q') := by
  induction qs generalizing ts with
  | nil =>
      rw [List.map_eq_nil_iff.1 hts]
      simp [internAmong, adjoin, Table.arguments, hgiven]
  | cons q' qs ih =>
      obtain ⟨t, ts, rfl, ht, hrest⟩ := List.map_eq_cons_iff.1 hts
      obtain ⟨hq', hqs⟩ := List.nodup_cons.1 hnodup
      obtain ⟨rfl, hrows⟩ := Prod.mk.inj ht
      by_cases hq : t.query = q
      · -- the other tables belong to other queries
        have hothers : (qs.map fun q' ↦ (q', if q = q' then adjoin (given q') k else given q')) =
            ts.map Table.arguments := by
          rw [hrest]
          refine List.map_congr_left fun q₁ hq₁ ↦ ?_
          rw [if_neg]
          rintro rfl
          exact hq' (hq ▸ hq₁)
        have hrow : (t.intern k).2.arguments = (t.query, adjoin (given t.query) k) :=
          hrows ▸ arguments_intern t k
        have hsame : adjoin (t.query :: qs) q = t.query :: qs := by simp [adjoin, hq]
        rw [hsame, List.map_cons, hothers]
        simp [internAmong, hq, hrow]
      · have hne : ¬ q = t.query := fun h ↦ hq h.symm
        have hmore := ih hqs (fun h ↦ hgiven (by simp [hne, h])) hrest
        have hadjoin : adjoin (t.query :: qs) q = t.query :: adjoin qs q := by
          by_cases hmem : q ∈ qs <;> simp [adjoin, hq, hmem]
        simp [internAmong, hq, hne, hmore, hadjoin, ht]

theorem Lists.intern [EquivBEq K] (h : s.Lists l) (q : Q) (k : K) :
    (s.intern q k).2.Lists (l ++ [(q, k)]) := by
  have hnew := arguments_internAmong q k (nodup_queriesOf l) argumentsOf_of_not_mem h
  have hqueries : queriesOf (l ++ [(q, k)]) = adjoin (queriesOf l) q := by
    simp [queriesOf, eraseDups_concat_eq_adjoin]
  rw [Lists, hqueries]
  simp only [argumentsOf_concat]
  exact hnew

theorem Lists.mem_of_named? (h : s.Lists l) {key : Handle} {q : Q} {k : K}
    (hkey : s.named? key = some (q, k)) : q ∈ queriesOf l ∧ k ∈ argumentsOf l q := by
  obtain ⟨⟨t, row⟩, hfind, heq⟩ := Option.map_eq_some_iff.1 hkey
  obtain ⟨t', ht, hrow⟩ := Option.bind_eq_some_iff.1 hfind
  obtain ⟨row', hrow, heq'⟩ := Option.map_eq_some_iff.1 hrow
  cases heq'
  cases heq
  have htable : t.arguments ∈ (queriesOf l).map fun q ↦ (q, argumentsOf l q) :=
    h ▸ List.mem_map_of_mem (List.mem_of_getElem? ht)
  obtain ⟨q, hq, heq⟩ := List.mem_map.1 htable
  obtain ⟨rfl, hrows⟩ := Prod.mk.inj heq
  refine ⟨hq, hrows ▸ List.mem_map_of_mem ?_⟩
  exact List.mem_of_getElem? (Array.getElem?_toList ▸ hrow)

theorem keptByAccesses_lists [EquivBEq K] :
    KeptByAccesses fun l (s : Store Q K V) ↦ s.Lists l where
  intern _ _ q k h := h.intern q k
  insert _ s key _ _ h := h.congr (arguments_modify s key fun _ ↦ rfl)
  erase _ s key _ _ _ h := h.congr (arguments_modify s key fun _ ↦ rfl)
  markVerified _ s key _ h := h.congr (arguments_modify s key fun _ ↦ rfl)
  clearDerived _ s h := h.congr s.arguments_clearDerived

omit [DecidableEq Q] [BEq K] in
theorem exists_handle_of_mem {t : Table Q K V} {row : Row K V} (ht : t ∈ s.tables)
    (hrow : row ∈ t.rows.toList) :
    ∃ key, s.named? key = some (t.query, row.argument) ∧ s.memo? key = row.memo := by
  obtain ⟨i, ht⟩ := List.mem_iff_getElem?.1 ht
  obtain ⟨j, hrow⟩ := List.mem_iff_getElem?.1 hrow
  rw [Array.getElem?_toList] at hrow
  exact ⟨⟨i, j⟩, by simp [named?, find?, ht, hrow], by simp [memo?, row?, find?, ht, hrow]⟩

/-- What is found at an argument is what its row holds. -/
theorem Indexed.memo?_eq (hs : s.Indexed) {t : Table Q K V} {row : Row K V} (ht : t ∈ s.tables)
    (hrow : row ∈ t.rows.toList) : (s.lookup? t.query row.argument).bind s.memo? = row.memo := by
  obtain ⟨key, hname, hm⟩ := exists_handle_of_mem ht hrow
  rw [hs _ _ _ hname, Option.bind_some, hm]

end Store

namespace Database

open Store

variable {P : Program Q K V W} {db : Database Q K V W} {l : List (Q × K)}

section

variable [DecidableEq Q] [BEq K]

theorem queries_snapshot (hlists : db.store.Lists l) (hindexed : db.store.Indexed) :
    (db.snapshot P).queries = (queriesOf l).map fun q ↦
      { name := P.name q
        entries := (argumentsOf l q).filterMap fun k ↦
          db.entry? P q { argument := k, memo := db.memo? q k } } := by
  let shown : Q × List K → QuerySnapshot := fun x ↦
    { name := P.name x.1
      entries := x.2.filterMap fun k ↦ db.entry? P x.1 { argument := k, memo := db.memo? x.1 k } }
  have htables : (db.snapshot P).queries = (db.store.tables.map Table.arguments).map shown := by
    rw [List.map_map]
    refine List.map_congr_left fun t ht ↦ ?_
    simp only [shown, Table.arguments, Function.comp_apply, List.filterMap_map,
      QuerySnapshot.mk.injEq, true_and]
    refine List.filterMap_congr fun row hrow ↦ ?_
    have hmemo : db.memo? t.query row.argument = row.memo := hindexed.memo?_eq ht hrow
    simp only [hmemo, entry?]
  rw [htables, hlists, List.map_map]
  rfl

end

theorem kinds_snapshot (P : Program Q K V W) (db : Database Q K V W) :
    ((db.snapshot P).queries.flatMap QuerySnapshot.entries).map Entry.kind =
      db.store.memos.map fun m ↦ if m.isInput then .input else .derived := by
  have hrows : ∀ t : Table Q K V, (t.rows.toList.filterMap (db.entry? P t.query)).map Entry.kind =
      t.memos.map fun m ↦ if m.isInput then .input else .derived := by
    intro t
    rw [Table.memos, List.map_filterMap, List.map_filterMap]
    refine List.filterMap_congr fun row _ ↦ ?_
    cases hm : row.memo <;> simp [hm, entry?]
  simp only [snapshot, memos, List.flatMap_map, List.map_flatMap, hrows]

/-- What is counted in the store is what a snapshot has of each kind. -/
theorem count_snapshot (P : Program Q K V W) (db : Database Q K V W) :
    (db.snapshot P).count .input = db.statistics.inputs ∧
      (db.snapshot P).count .derived = db.statistics.derived := by
  have hcount : ∀ kind, (db.snapshot P).count kind =
      db.store.memos.countP fun m ↦ decide ((if m.isInput then .input else .derived) = kind) := by
    intro kind
    have hkinds := congrArg (List.countP fun other ↦ decide (other = kind)) (kinds_snapshot P db)
    rwa [List.countP_map, List.countP_map] at hkinds
  constructor
  · refine (hcount .input).trans (List.countP_congr fun m _ ↦ ?_)
    cases m <;> simp [Memo.isInput]
  · refine (hcount .derived).trans (List.countP_congr fun m _ ↦ ?_)
    cases m <;> simp [Memo.isInput]

theorem size_snapshot (P : Program Q K V W) (db : Database Q K V W) :
    (db.snapshot P).size = db.statistics.inputs + db.statistics.derived := by
  have hlength := congrArg List.length (kinds_snapshot P db)
  rw [List.length_map, List.length_map] at hlength
  refine hlength.trans ?_
  rw [List.length_eq_countP_add_countP Memo.isInput]
  simp [statistics, inputCount, derivedCount]

/-- What the clearing counts on its way through the rows is what the statistics count. -/
theorem events_clearCache (db : Database Q K V W) :
    db.clearCache.events = .cleared db.statistics.derived :: db.events := by
  rw [clearCache_eq]
  rfl

theorem entry?_clearCache (P : Program Q K V W) (db : Database Q K V W) (q : Q) (row : Row K V) :
    db.clearCache.entry? P q row.dropDerived =
      (db.entry? P q row).filter fun entry ↦ decide (entry.kind = .input) := by
  rcases row with ⟨k, _ | ⟨v, c⟩ | ⟨v, c, w, reads⟩, r⟩ <;> rfl

theorem snapshot_clearCache (P : Program Q K V W) (db : Database Q K V W) :
    db.clearCache.snapshot P = (db.snapshot P).assigned := by
  have hrows : ∀ t : Table Q K V,
      t.dropDerived.rows.toList.filterMap (db.clearCache.entry? P t.query) =
        (t.rows.toList.filterMap (db.entry? P t.query)).filter
          fun entry ↦ decide (entry.kind = .input) := by
    intro t
    rw [List.filter_filterMap]
    simp only [Table.dropDerived, Array.toList_map, List.filterMap_map]
    exact List.filterMap_congr fun row _ ↦ entry?_clearCache P db t.query row
  simp only [snapshot, Snapshot.assigned, List.map_map, Snapshot.mk.injEq]
  have htables : db.clearCache.store.tables = db.store.tables.map Table.dropDerived := by
    rw [clearCache_eq]
    rfl
  refine ⟨rfl, ?_⟩
  rw [htables, List.map_map]
  refine List.map_congr_left fun t _ ↦ ?_
  simp only [Function.comp_apply, ← hrows]
  rfl

/-- An entry is one of a memo, under the handle of its row. -/
theorem exists_memo?_of_mem_entries {query : QuerySnapshot}
    (hquery : query ∈ (db.snapshot P).queries) {entry : Entry} (hentry : entry ∈ query.entries) :
    ∃ key q k m,
      db.store.named? key = some (q, k) ∧ db.store.memo? key = some m ∧ query.name = P.name q ∧
      db.entry? P q { argument := k, memo := some m } = some entry := by
  obtain ⟨t, ht, rfl⟩ := List.mem_map.1 hquery
  obtain ⟨row, hrow, hentry⟩ := List.mem_filterMap.1 hentry
  obtain ⟨m, hm, rfl⟩ := Option.map_eq_some_iff.1 hentry
  obtain ⟨key, hname, hmemo⟩ := exists_handle_of_mem ht hrow
  exact ⟨key, t.query, row.argument, m, hname, hmemo.trans hm, rfl, rfl⟩

end Database

/-- The handle that a verdict is on. -/
def Event.judged? : Event Q K → Option Handle
  | verified key _ _ => some key
  | _ => none

/-- An assigned value has neither the revision of a verdict nor dependencies; a computed one stood
at a revision between its last change and `now`. -/
def Entry.WellStamped (entry : Entry) (now : Revision) : Prop :=
  entry.kind = .input ∧ entry.verifiedAt = none ∧ entry.dependencies = [] ∨
    entry.kind = .derived ∧ ∃ w, entry.verifiedAt = some w ∧ entry.changedAt ≤ w ∧ w ≤ now

namespace Database

open Store

variable [DecidableEq Q] [BEq K] {P : Program Q K V W} {db db' db₁ : Database Q K V W}
  {key : Handle} {asOf : Revision} {fuel : Nat} {fresh : Bool}

theorem wellStamped_of_mem_entries (hdb : db.store.Regular db.revision) {query : QuerySnapshot}
    (hquery : query ∈ (db.snapshot P).queries) {entry : Entry} (hentry : entry ∈ query.entries) :
    entry.WellStamped db.revision := by
  obtain ⟨key, q, k, m, _, hm, _, heq⟩ := exists_memo?_of_mem_entries hquery hentry
  obtain rfl := Option.some.inj heq
  cases m with
  | input v c => exact .inl ⟨rfl, rfl, rfl⟩
  | derived v c w reads =>
      obtain ⟨_, hle, hnow, _⟩ := hdb.derived key v c w reads hm
      exact .inr ⟨rfl, w, rfl, hle, hnow⟩

/-- Every verdict that was noted is on a handle that names something. -/
def Told (db : Database Q K V W) : Prop :=
  ∀ key asOf fresh, .verified key asOf fresh ∈ db.events → db.store.Has key

namespace Told

omit [DecidableEq Q] [BEq K]

theorem of_has (h : db.Told) (hevents : db'.events = db.events)
    (hhas : ∀ key, db.store.Has key → db'.store.Has key) : db'.Told :=
  fun key asOf fresh hmem ↦ hhas key (h key asOf fresh (hevents ▸ hmem))

theorem settle (h : db.Told) (hkey : db.store.Has key) (asOf : Revision) (fresh : Bool) :
    (db.settle key asOf fresh).2.Told := by
  intro other r b hmem
  rcases List.mem_cons.1 hmem with heq | hmem
  · cases heq
    exact hkey
  · exact h other r b hmem

theorem of_cons (h : db.Told) (event : Event Q K) (hevent : event.judged? = none)
    (hevents : db'.events = event :: db.events)
    (hhas : ∀ key, db.store.Has key → db'.store.Has key) : db'.Told := by
  intro key asOf fresh hmem
  rcases List.mem_cons.1 (hevents ▸ hmem) with rfl | hmem
  · cases hevent
  · exact hhas key (h key asOf fresh hmem)

theorem conclude (h : db.Told) (hkey : db.store.Has key) (asOf : Revision) (fresh : Bool) :
    (conclude key asOf (fresh, db)).2.Told := by
  cases fresh with
  | false => exact h.settle hkey asOf false
  | true =>
      have hmark : ∀ other, db.store.Has other → (db.markVerified key).store.Has other := by
        rintro other ⟨x, hx⟩
        refine ⟨x, (named?_congr ?_).trans hx⟩
        exact arguments_modify db.store key (f := (·.markVerified db.revision)) fun _ ↦ rfl
      exact (h.of_has rfl hmark : (db.markVerified key).Told).settle (hmark key hkey) asOf true

end Told

theorem verify_told (h : verify fuel key asOf db = some (fresh, db'))
    (hdb : db.store.Regular db.revision) (hkey : db.store.Has key) (htold : db.Told) :
    db'.Told := by
  refine (verify_induction
    (fun key _ db _ db' ↦ db.Verifies db' ∧
      (db.store.Regular db.revision → db.store.Has key → db.Told → db'.Told))
    (fun _ keys db _ db' ↦ db.Verifies db' ∧
      (db.store.Regular db.revision → (∀ key ∈ keys, db.store.Has key) → db.Told → db'.Told))
    ?settled ?walked ?nil ?stop ?step h).2 hdb hkey htold
  case settled =>
    exact fun key asOf db fresh _ ↦ ⟨.note _ _, fun _ hkey htold ↦ htold.settle hkey asOf fresh⟩
  case walked =>
    rintro key asOf db since reads fresh db₁ hglance ⟨hverifies, hwalk⟩
    refine ⟨(Verifies.note _ _).trans (hverifies.trans (.conclude _ _ _ _)),
      fun hdb hkey htold ↦ ?_⟩
    obtain ⟨v, c, hm, _⟩ := glance_undecided hglance
    have hreads := (hdb.derived key v c since reads hm).2.2.2
    have hwalked : (db.note (.walked key)).Told := htold.of_cons (.walked key) rfl rfl fun _ h ↦ h
    have hhas : db₁.store.Has key := hverifies.store.advances.has hkey
    exact (hwalk hdb hreads hwalked).conclude hhas asOf fresh
  case nil => exact fun _ db ↦ ⟨.refl db, fun _ _ h ↦ h⟩
  case stop =>
    rintro since key keys db db₁ ⟨hverifies, hverdict⟩
    exact ⟨hverifies, fun hdb hkeys ↦ hverdict hdb (hkeys key List.mem_cons_self)⟩
  case step =>
    rintro since key keys db db₁ fresh db₂ ⟨hverifies, hverdict⟩ ⟨hverifies', hwalk⟩
    refine ⟨hverifies.trans hverifies', fun hdb hkeys htold ↦ hwalk ?_ (fun d hd ↦ ?_) ?_⟩
    · exact hverifies.revision_eq ▸ hverifies.store.regular hdb
    · exact hverifies.store.advances.has (hkeys d (List.mem_cons_of_mem _ hd))
    · exact hverdict hdb (hkeys key List.mem_cons_self) htold

theorem walks_told {since : Revision} {keys : List Handle} (h : Walks since keys db db')
    (hdb : db.store.Regular db.revision) (hkeys : ∀ key ∈ keys, db.store.Has key)
    (htold : db.Told) : db'.Told := by
  induction h with
  | here => exact htold
  | within hglance _ ih =>
      obtain ⟨v, c, hm, _⟩ := glance_undecided hglance
      exact ih hdb (hdb.derived _ v c _ _ hm).2.2.2 (htold.of_cons (.walked _) rfl rfl fun _ h ↦ h)
  | ended hverify => exact verify_told hverify hdb (hkeys _ List.mem_cons_self) htold
  | later hverify _ ih =>
      have hverifies := verify_verifies hverify
      refine ih (hverifies.revision_eq ▸ hverifies.store.regular hdb)
        (fun d hd ↦ hverifies.store.advances.has (hkeys d (List.mem_cons_of_mem _ hd))) ?_
      exact verify_told hverify hdb (hkeys _ List.mem_cons_self) htold

theorem retrieve_told {r : Option (V × Revision)} (h : db.retrieve fuel key = some (r, db'))
    (hdb : db.store.Regular db.revision) (hkey : db.store.Has key) (htold : db.Told) :
    db'.Told := by
  rcases eq_or_verify_of_retrieve h with rfl | ⟨_, hverify⟩
  · exact htold
  · exact verify_told hverify hdb hkey htold

omit [DecidableEq Q] [BEq K] in
theorem leave_told (key : Handle) (depth : Nat) (o : Outcome V) (htold : db.Told) :
    (leave key depth (o, db)).2.Told := by
  cases o with
  | panic message =>
      simp only [leave, discard]
      split
      · exact htold
      · exact htold.of_cons (.discarded _) rfl rfl fun _ h ↦ h
  | failure f =>
      simp only [leave]
      split
      · exact htold
      · exact htold.of_has rfl fun _ h ↦ h
  | value v =>
      simp only [leave]
      split
      · exact htold
      · refine htold.of_cons (.computed key) rfl rfl fun other hother ↦ ?_
        obtain ⟨x, hx⟩ := hother
        exact ⟨x, (named?_insert ..).trans hx⟩

variable [EquivBEq K] {q : Q} {k : K}

/-- The handle of what is read was given before anything is noted on it. -/
theorem record_told (hkey : db.intern q k = (key, db₁)) (hdb : db.Sound) (htold : db.Told) :
    (db₁.recordRead key).Told ∧ (db₁.recordRead key).store.Regular (db₁.recordRead key).revision ∧
      (db₁.recordRead key).store.Has key := by
  obtain ⟨hsound, hfollows⟩ := hdb.record hkey
  exact ⟨htold.of_has (store_of_intern hkey 0).2.1 fun _ h ↦ hfollows.store.has h,
    hsound.store, (has_of_intern hkey :)⟩

theorem edit_told [BEq V] (e : Edit Q K V) (htold : db.Told) : (edit e db).2.Told := by
  obtain heq | heq | ⟨v, heq⟩ | ⟨key, _, heq⟩ := edit_cases e db <;> rw [heq]
  · exact htold
  · exact htold.of_cons (.unchanged _ _) rfl rfl fun _ h ↦ h
  · obtain ⟨key, s, _, _, hadvances, hset⟩ := db.set_eq e.target.1 e.target.2 v
    rw [hset]
    refine htold.of_cons (.assigned _ _ _) rfl rfl fun other hother ↦ ?_
    obtain ⟨x, hx⟩ := hadvances.has hother
    exact ⟨x, (named?_insert ..).trans hx⟩
  · refine htold.of_cons (.removed _ _ _) rfl rfl fun other hother ↦ ?_
    obtain ⟨x, hx⟩ := hother
    exact ⟨x, (named?_erase ..).trans hx⟩

end Database

namespace Stage

open Database Store

variable [DecidableEq Q] [BEq K] [EquivBEq K] {P : Program Q K V W} {t t' : Stage Q K V W}
  {db db' : Database Q K V W}

theorem Evaluates.told (hstep : Evaluates P t t') (hdb : t.db.Sound) (htold : t.db.Told) :
    t'.db.Told := by
  have hread : ∀ {q k key} {db db₁ db₂ : Database Q K V W} {fuel r}, db.Sound → db.Told →
      db.intern q k = (key, db₁) → (db₁.recordRead key).retrieve fuel key = some (r, db₂) →
      db₂.Told := by
    intro q k key db db₁ db₂ fuel r hdb htold hkey hretrieve
    obtain ⟨hrecord, hregular, hhas⟩ := record_told hkey hdb htold
    exact retrieve_told hretrieve hregular hhas hrecord
  cases hstep with
  | answers hanswers =>
      cases hanswers with
      | refused hkey _ =>
          exact (record_told hkey hdb htold).1.of_cons (.refused _) rfl rfl fun _ h ↦ h
      | hit hkey _ hretrieve =>
          exact (hread hdb htold hkey hretrieve).of_cons (.hit _ _) rfl rfl fun _ h ↦ h
      | tooDeep hkey _ hretrieve _ =>
          exact (hread hdb htold hkey hretrieve).of_cons (.miss _ _) rfl rfl fun _ h ↦ h
  | @enters q k _ _ _ _ _ db₂ _ hkey _ hretrieve _ =>
      have hmissed : (db₂.note (.miss q k)).Told :=
        (hread hdb htold hkey hretrieve).of_cons (.miss q k) rfl rfl fun _ h ↦ h
      exact hmissed.of_cons (.started _ _ _) rfl rfl fun _ h ↦ h
  | leaves => exact leave_told _ _ _ htold
  | revision => exact htold
  | outside => exact htold.of_has rfl fun _ h ↦ h

theorem Shows.told (h : t.Shows db) (hdb : t.db.Sound) (htold : t.db.Told) : db.Told := by
  cases h with
  | here => exact htold
  | looks hkey _ _ hwalks =>
      obtain ⟨hrecord, hregular, hhas⟩ := record_told hkey hdb htold
      exact walks_told hwalks hregular (by simpa using hhas) hrecord

variable [BEq V]

theorem Reached.told (ht : Reached P t) : t.db.Told := by
  refine (ht.keeps (fun t ↦ Reached P t ∧ t.db.Told) ?_ ?_).2
  · exact fun configuration w o ↦ ⟨⟨configuration, w, o, .refl⟩, fun _ _ _ hmem ↦ by cases hmem⟩
  · rintro t t' ⟨ht, htold⟩ hstep
    refine ⟨ht.later (.single hstep), ?_⟩
    cases hstep with
    | evaluates hstep => exact hstep.told ht.sound htold
    | asks => exact htold
    | edits e => exact edit_told e htold
    | clears =>
        refine htold.of_cons (.cleared _) rfl rfl fun other hother ↦ ?_
        obtain ⟨x, hx⟩ := hother
        exact ⟨x, (named?_congr (arguments_clearDerived _)).trans hx⟩
    | reports => exact htold.of_cons (.reported _) rfl rfl fun _ h ↦ h

omit [EquivBEq K] [BEq V]

/-- A store that names what the database names there, or what it names once the read that comes next
has its handle. -/
def Names (t : Stage Q K V W) (s : Store Q K V) : Prop :=
  (∀ key, s.named? key = t.db.store.named? key) ∨
    ∃ q k, t.reading? = some (q, k) ∧ ∀ key, s.named? key = (t.db.store.intern q k).2.named? key

theorem Shows.names (h : t.Shows db) : t.Names db.store := by
  cases h with
  | here => exact .inl fun _ ↦ rfl
  | looks hkey _ _ hwalks =>
      refine .inr ⟨_, _, rfl, fun key ↦ (hwalks.verifies.store.named?_eq key).trans ?_⟩
      exact congrArg (·.named? key) (store_of_intern_eq hkey)

variable {s : Store Q K V} {key : Handle} {x : Q × K}

/-- What is named at a stage is named after the next step. -/
theorem Names.named?_of_step [EquivBEq K] [BEq V] (h : t.Names s) (ht : Reached P t)
    (hstep : Step P t t') (hx : s.named? key = some x) : t'.db.store.named? key = some x := by
  rcases h with heq | ⟨q, k, hreading, heq⟩
  · exact (ht.moves hstep).precedes.named key x ((heq key).symm.trans hx)
  · rw [heq] at hx
    have hkey : ∀ {d : Handle} {db₁ db₂ : Database Q K V W} {fuel r}, t.db.intern q k = (d, db₁) →
        (db₁.recordRead d).retrieve fuel d = some (r, db₂) → db₂.store.named? key = some x := by
      intro d db₁ db₂ fuel r hkey hretrieve
      rw [(retrieve_verifies hretrieve).store.named?_eq key]
      exact (congrArg (·.named? key) (store_of_intern_eq hkey)).trans hx
    cases hstep with
    | evaluates hstep =>
        cases hstep with
        | answers hanswers =>
            cases hreading
            cases hanswers with
            | refused hintern _ =>
                exact (congrArg (·.named? key) (store_of_intern_eq hintern)).trans hx
            | hit hintern _ hretrieve => exact (hkey hintern hretrieve :)
            | tooDeep hintern _ hretrieve _ => exact (hkey hintern hretrieve :)
        | enters hintern _ hretrieve _ =>
            cases hreading
            exact (hkey hintern hretrieve :)
        | leaves => cases hreading
        | revision => cases hreading
        | outside => cases hreading
    | asks => cases hreading
    | edits => cases hreading
    | clears => cases hreading
    | reports => cases hreading

theorem Names.named?_of_named? (h : t.Names s) (hx : t.db.store.named? key = some x) :
    s.named? key = some x := by
  rcases h with heq | ⟨q, k, _, heq⟩
  · exact (heq key).trans hx
  · exact (heq key).trans (named?_intern hx q k)

variable [EquivBEq K] [BEq V]

/-- Whatever a handle names at any point of a run, it names between two operations of it if it
names anything there. -/
theorem Names.named?_eq {o : Outcome V} (h : t.Names s) (ht : Reached P t)
    (hrun : Later P t ⟨db, .done o, []⟩ ∨ Later P ⟨db, .done o, []⟩ t)
    (hdb : Reached P ⟨db, .done o, []⟩) (hkey : s.Has key) (hx : db.store.named? key = some x) :
    s.named? key = some x := by
  obtain ⟨y, hy⟩ := hkey
  rcases hrun with hbefore | hafter
  · have hend : db.store.named? key = some y := by
      rcases Relation.ReflTransGen.cases_head hbefore with rfl | ⟨t₁, hstep, hlater⟩
      · rcases h with heq | ⟨_, _, hreading, _⟩
        · exact (heq key).symm.trans hy
        · cases hreading
      · have ht₁ := ht.later (.single hstep)
        have hfirst := h.named?_of_step ht hstep hy
        exact (Later.precedes hlater ht₁).named key y hfirst
    exact hy.trans (hend.symm.trans hx)
  · exact h.named?_of_named? ((Later.precedes hafter hdb).named key x hx)

/-- Whatever shows the handle at the stage shows it as `text`: its label, also in the chain of a
circle, the failures of the read that comes next, and the verdicts that were noted. -/
structure Renders (P : Program Q K V W) (t : Stage Q K V W) (key : Handle) (text : String) :
    Prop where
  label : ∀ db, t.Shows db → db.Refers key → db.label P key = text
  failure : ∀ q k f db, t.reading? = some (q, k) → (t.db.intern q k).1 = key →
    AnswersAtOnce P q k t.db (.failure f) db →
      f = .cycle text (db.stack.keys.map (db.label P)) ∨ ∃ limit, f = .tooDeep limit text
  verdict : ∀ db asOf fresh, t.Shows db → .verified key asOf fresh ∈ db.events →
    (Event.verified key asOf fresh : Event Q K).text P db.store =
      "Verified " ++ text ++ " as of " ++ Revision.text asOf ++ ": "
        ++ if fresh then "fresh" else "stale"

theorem renders_of_named? {q : Q} {k : K} {o : Outcome V} (hdb : Reached P ⟨db, .done o, []⟩)
    (hkey : db.store.named? key = some (q, k)) (ht : Reached P t)
    (hrun : Later P t ⟨db, .done o, []⟩ ∨ Later P ⟨db, .done o, []⟩ t) :
    t.Renders P key (P.label q k) := by
  have hlabel : ∀ s, t.Names s → s.Has key → s.label P key = P.label q k :=
    fun s hs hhas ↦ label_of_named? P (hs.named?_eq ht hrun hdb hhas hkey)
  refine ⟨fun db' hshows hrefers ↦ ?_, fun q' k' f db' hreading hintern hanswers ↦ ?_,
    fun db' asOf fresh hshows hmem ↦ ?_⟩
  · exact hlabel _ hshows.names ((hshows.sound ht.sound).has_of_refers hrefers)
  · have hnames : ∀ {other} {db₁ db₂ : Database Q K V W}, t.db.intern q' k' = (other, db₁) →
        (∀ key, db₂.store.named? key = db₁.store.named? key) →
        other = key ∧ db₂.label P key = P.label q k := by
      intro other db₁ db₂ hother hsame
      obtain rfl : other = key := (congrArg Prod.fst hother).symm.trans hintern
      refine ⟨rfl, hlabel _ (.inr ⟨q', k', hreading, fun key ↦ (hsame key).trans ?_⟩) ?_⟩
      · exact congrArg (·.named? key) (store_of_intern_eq hother)
      · obtain ⟨x, hx⟩ := has_of_intern hother
        exact ⟨x, (hsame _).trans hx⟩
    cases hanswers with
    | @refused other db₁ hkey _ =>
        obtain ⟨rfl, heq⟩ := hnames hkey fun _ ↦ rfl
        exact .inl (congrArg (Failure.cycle · _) heq)
    | @tooDeep fuel other db₁ db₂ limit hkey _ hretrieve _ =>
        obtain ⟨rfl, heq⟩ := hnames hkey (retrieve_verifies hretrieve).store.named?_eq
        exact .inr ⟨limit, congrArg _ heq⟩
  · have hhas := hshows.told ht.sound ht.told key asOf fresh hmem
    exact congrArg (fun label ↦ "Verified " ++ label ++ " as of " ++ Revision.text asOf ++ ": "
      ++ if fresh then "fresh" else "stale") (hlabel _ hshows.names hhas)

/-- Taking stock: between two operations of any run of whatever program, a snapshot has each query
that was used once, in the order of their first use, and for each of them one entry for every
argument under which something is kept, in the order in which the arguments came. An entry is
assigned, without a verdict or dependencies, or computed, with a verdict between its last change
and the revision of the snapshot. The snapshot has as many entries, and of each kind and queries as
many, as the statistics count; a clearing, which counts what it drops while it goes through the
rows, reports as many as there are computed ones, and leaves the assigned ones. The dependencies of
an entry are the reads of what is kept at its argument. Each is shown as a listed query at one of
its arguments, and at every stage of the run, before or after, labels, failures and verdicts show
its handle so. -/
theorem snapshot_accounts {l : List (Q × K)} {configuration : Configuration} {w : W}
    {o o' : Outcome V}
    (hrun : Interns P l ⟨{ configuration, outside := w }, .done o, []⟩ ⟨db, .done o', []⟩) :
    (queriesOf l).Nodup ∧ (∀ q, (argumentsOf l q).Pairwise fun k k' ↦ (k == k') = false) ∧
    (∀ q k m, db.memo? q k = some m →
      q ∈ queriesOf l ∧ ∃ k' ∈ argumentsOf l q, (k' == k) = true) ∧
    (db.snapshot P).queries = ((queriesOf l).map fun q ↦
      { name := P.name q
        entries := (argumentsOf l q).filterMap fun k ↦
          db.entry? P q { argument := k, memo := db.memo? q k } }) ∧
    (∀ query ∈ (db.snapshot P).queries, ∀ entry ∈ query.entries,
      entry.WellStamped (db.snapshot P).revision ∧
      ∃ q ∈ queriesOf l, ∃ k ∈ argumentsOf l q, ∃ m, query.name = P.name q ∧
        db.memo? q k = some m ∧ db.entry? P q { argument := k, memo := some m } = some entry ∧
        entry.dependencies = m.reads.map (db.label P) ∧
        ∀ key ∈ m.reads, ∃ q ∈ queriesOf l, ∃ k ∈ argumentsOf l q, db.label P key = P.label q k ∧
          ∀ t, Reached P t → (Later P t ⟨db, .done o', []⟩ ∨ Later P ⟨db, .done o', []⟩ t) →
            t.Renders P key (P.label q k)) ∧
    (db.snapshot P).size = db.statistics.inputs + db.statistics.derived ∧
    (db.snapshot P).count .input = db.statistics.inputs ∧
    (db.snapshot P).count .derived = db.statistics.derived ∧
    (db.snapshot P).queries.length = db.statistics.queries ∧
    db.clearCache.events = .cleared db.statistics.derived :: db.events ∧
    db.clearCache.snapshot P = (db.snapshot P).assigned := by
  have hstart : Reached P ⟨{ configuration, outside := w }, .done o, []⟩ :=
    ⟨configuration, w, o, .refl⟩
  have hreached := hstart.later hrun.later
  have hregular : db.store.Regular db.revision := hreached.sound.store
  have hlists : db.store.Lists l := hrun.keeps_accessed hstart keptByAccesses_lists lists_empty
  refine ⟨nodup_queriesOf l, fun q ↦ pairwise_eraseDups _, fun q k m hm ↦ ?_,
    queries_snapshot hlists hregular.indexed, fun query hquery entry hentry ↦
      ⟨wellStamped_of_mem_entries hregular hquery hentry, ?_⟩, size_snapshot P db,
    (count_snapshot P db).1, (count_snapshot P db).2, List.length_map _, events_clearCache db,
    snapshot_clearCache P db⟩
  · obtain ⟨key, hkey, _⟩ := Option.bind_eq_some_iff.1 hm
    obtain ⟨k', hname, hk⟩ := exists_named?_of_lookup? hkey
    obtain ⟨hq, hk'⟩ := hlists.mem_of_named? hname
    exact ⟨hq, k', hk', hk⟩
  · obtain ⟨other, q₀, k₀, m, hother, hm, hshown, heq⟩ := exists_memo?_of_mem_entries hquery hentry
    obtain ⟨hq₀, hk₀⟩ := hlists.mem_of_named? hother
    have hkept : db.memo? q₀ k₀ = some m := by
      rw [Database.memo?, hregular.indexed other q₀ k₀ hother]
      exact hm
    obtain rfl := Option.some.inj heq
    refine ⟨q₀, hq₀, k₀, hk₀, m, hshown, hkept, rfl, rfl, fun key hkey ↦ ?_⟩
    obtain ⟨⟨q, k⟩, hname⟩ := hreached.sound.has_of_refers (.inr (.inr ⟨other, m, hm, hkey⟩))
    obtain ⟨hq, hk⟩ := hlists.mem_of_named? hname
    exact ⟨q, hq, k, hk, label_of_named? P hname, fun t ht hlater ↦
      renders_of_named? hreached hname ht hlater⟩

omit [EquivBEq K] in
theorem Interns.of_outcome? {l : List (Q × K)} {s : Stage Q K V W} {o : Outcome V}
    (h : Interns P l s t) (ho : t.outcome? = some o) (hcalls : t.calls.isEmpty = true) :
    Interns P l s ⟨t.db, .done o, []⟩ := by
  have hend : t = ⟨t.db, .done o, []⟩ := by
    rw [← body_of_outcome? ho, ← List.isEmpty_iff.1 hcalls]
  exact hend ▸ h

end Stage

namespace Shelf

open Database Stage Store

/-- A title is listed, another one is put on the list by hand, and the copies of the first are taken
away: the list still shows what it was worked out from. -/
theorem snapshot_accounts_shelf : ∃ (l : List (Shelf × Title)) (db : Database Shelf Title Nat Unit),
    Interns program l bare ⟨db, .done (.value 1), []⟩ ∧
    l = [(copies, ⟨1, true⟩), (listed, ⟨1, true⟩), (copies, ⟨1, false⟩), (listed, ⟨2, false⟩)] ∧
    (db.snapshot program).queries = [⟨"copies", []⟩,
      ⟨"listed", [⟨"Ink", "", .derived, 1, some 1, ["copies(Ink)"]⟩,
        ⟨"ink", "", .input, 2, none, []⟩]⟩] ∧
    (db.snapshot program).size = db.statistics.inputs + db.statistics.derived ∧
    db.statistics.derived = 1 ∧ db.clearCache.events = .cleared 1 :: db.events ∧
    (db.clearCache.snapshot program).queries = [⟨"copies", []⟩,
      ⟨"listed", [⟨"ink", "", .input, 2, none, []⟩]⟩] ∧
    ∃ key, db.label program key = "copies(Ink)" ∧
      ∀ t, Later program ⟨db, .done (.value 1), []⟩ t → t.Renders program key "copies(Ink)" := by
  have hstart : Interns program [] bare bare := .refl
  have hasks := (hstart.edits (.set copies ⟨1, true⟩ 3)).asks listed ⟨1, true⟩
  have hanswered := ((hasks.step? 2 (by decide +kernel)).step? 2 (by decide +kernel)).step? 2
    (by decide +kernel)
  have hedited := ((hanswered.of_outcome? (o := .value 1) (by decide +kernel)
    (by decide +kernel)).edits (.set listed ⟨2, false⟩ 1)).edits (.remove copies ⟨1, false⟩)
  obtain ⟨l, db, hrun, hl, hqueries⟩ : ∃ l db, Interns program l bare ⟨db, .done (.value 1), []⟩ ∧
      l = [(copies, ⟨1, true⟩), (listed, ⟨1, true⟩), (copies, ⟨1, false⟩), (listed, ⟨2, false⟩)] ∧
      (db.snapshot program).queries = [⟨"copies", []⟩,
        ⟨"listed", [⟨"Ink", "", .derived, 1, some 1, ["copies(Ink)"]⟩,
          ⟨"ink", "", .input, 2, none, []⟩]⟩] :=
    ⟨_, _, hedited, by decide +kernel, by decide +kernel⟩
  have hreached : Reached program ⟨db, .done (.value 1), []⟩ := ⟨{}, (), .value 0, hrun.later⟩
  obtain ⟨_, _, _, _, hentries, hsize, _, hcount, _, hcleared, hleft⟩ := snapshot_accounts hrun
  have hderived : db.statistics.derived = 1 := by
    rw [← hcount, Snapshot.count, hqueries]
    rfl
  refine ⟨l, db, hrun, hl, hqueries, hsize, hderived, hderived ▸ hcleared, ?_, ?_⟩
  · rw [hleft, Snapshot.assigned, hqueries]
    rfl
  · rw [hqueries] at hentries
    obtain ⟨_, _, _, _, _, m, _, _, _, hreads, hrendered⟩ :=
      hentries _ (.tail _ (.head _)) _ (.head _)
    obtain ⟨key, hkeys, hkey⟩ := List.map_eq_singleton_iff.1 hreads.symm
    obtain ⟨q, _, k, _, hlabel, hrenders⟩ := hrendered key (by simp [hkeys])
    refine ⟨key, hkey, fun t ht ↦ ?_⟩
    rw [← hkey, hlabel]
    exact hrenders t (hreached.later ht) (.inr ht)

end Shelf

end Incremental
