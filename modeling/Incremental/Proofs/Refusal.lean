import Incremental.Proofs.Moves
import Mathlib.Data.List.Chain

/-!
# Refused reads

Whether a read is refused is decided from what is active; what the refusal reports is taken from
the frames. Both are right, as each evaluation under way was begun by a read that the next outer
one has recorded: the report shows a chain of reads, whose inner part leads from the query back to
itself. A refusal leaves no trace but its event.
-/

namespace Incremental

variable {Q K V W : Type}

namespace CallStack

/-- Each frame has recorded the read for which the next inner one was pushed. -/
def Linked (stack : CallStack) : Prop :=
  stack.frames.IsChain fun inner outer ↦ inner.key ∈ outer.reads

namespace Linked

variable {stack stack' : CallStack} {key : Handle}

theorem grows (h : stack.Linked) (hgrows : stack.Grows stack') : stack'.Linked := by
  cases hgrows with
  | idle => exact h
  | @top frame frame' frames active hframe =>
      cases frames with
      | nil => exact .singleton _
      | cons outer frames =>
          obtain ⟨hread, hrest⟩ := List.isChain_cons_cons.1 h
          exact List.isChain_cons_cons.2 ⟨hframe.key ▸ hread, hrest⟩

/-- A read that is recorded may be begun. -/
theorem push_recordRead (h : stack.Linked) (key : Handle) :
    ((stack.recordRead key).push key).Linked := by
  have hgrown := h.grows (.recordRead stack key)
  rcases stack with ⟨_ | ⟨frame, frames⟩, active⟩
  · exact .singleton _
  · exact List.isChain_cons_cons.2 ⟨(frame.mem_addRead key key).2 (.inr rfl), hgrown⟩

theorem pop {frame : Frame} (hstack : stack' = ⟨frame :: stack.frames, frame.key :: stack.active⟩)
    (h : stack'.Linked) : stack.Linked := by
  subst hstack
  exact List.IsChain.of_cons h

/-- From the frame of a key inwards, each evaluation was begun by a read of the next outer one. -/
theorem inner {inner outer : List Frame} {frame : Frame} (h : stack.Linked)
    (hframes : stack.frames = inner ++ frame :: outer) :
    (inner ++ [frame]).IsChain fun inner outer ↦ inner.key ∈ outer.reads := by
  rw [Linked, hframes] at h
  exact (List.isChain_split.1 h).1

end Linked

end CallStack

namespace Database

variable {db db₁ db₂ db' : Database Q K V W} {q : Q} {k : K} {key : Handle} {fuel : Nat}
  {o : Outcome V}

variable [DecidableEq Q] [BEq K] {P : Program Q K V W}

/-- What is named is found again under its handle. -/
theorem intern_of_has [ReflBEq K] (hkey : db.intern q k = (key, db₁)) (h : db.store.Has key) :
    db₁ = db := by
  obtain ⟨rfl, rfl⟩ : (db.store.intern q k).1 = key ∧
      { db with store := (db.store.intern q k).2 } = db₁ := by simpa [Database.intern] using hkey
  rcases db.store.intern_cases q k with ⟨_, hsame⟩ | ⟨_, hadds⟩
  · rw [hsame]
  · -- a row that was added is named nowhere before
    obtain ⟨row, hrow⟩ := Store.named?_eq_some_iff_row?.1 h
    cases hadds.new.symm.trans hrow

theorem Sound.isActive_iff (hdb : db.Sound) :
    db.stack.isActive key = true ↔ ∃ frame ∈ db.stack.frames, frame.key = key := by
  simp [CallStack.isActive, hdb.active]

/-- A read of what is being computed is refused, and but for the event nothing is changed. -/
theorem Sound.query_refused [ReflBEq K] (hdb : db.Sound) (hkey : db.intern q k = (key, db₁))
    {frame : Frame} (hframe : frame ∈ db.stack.frames) (hown : frame.key = key) (fuel : Nat) :
    Database.query P (fuel + 1) q k db =
      some (.failure (db.circle P key), db.note (.refused (db.circle P key))) := by
  have hactive := hdb.isActive_iff.2 ⟨frame, hframe, hown⟩
  rw [intern_of_has hkey (hown ▸ (hdb.frames frame hframe).key)] at hkey
  exact query_of_active hkey hactive fuel

/-- A read that is not refused is a hit or a miss. -/
theorem hit_or_miss [EquivBEq K] (hdb : db.Sound) (hkey : db.intern q k = (key, db₁))
    (hactive : db₁.stack.isActive key = false) (h : query P fuel q k db = some (o, db')) :
    .hit q k ∈ db'.since db ∨ .miss q k ∈ db'.since db := by
  refine query_cases (P := P) (fun _ db' ↦ .hit q k ∈ db'.since db ∨ .miss q k ∈ db'.since db)
    ?refused ?hit ?tooDeep ?computed h
  case refused =>
    intro key' db₁' hkey' hactive'
    cases hkey.symm.trans hkey'
    cases hactive.symm.trans hactive'
  case hit =>
    intro n key db₁ v c db₂ hkey _ hretrieve
    exact .inl (mem_since (hdb.recordRetrieve hkey hretrieve).2.1.events rfl)
  case tooDeep =>
    intro n key db₁ db₂ limit hkey _ hretrieve _
    exact .inr (mem_since (hdb.recordRetrieve hkey hretrieve).2.1.events rfl)
  case computed =>
    intro n key db₁ db₂ o db₃ _ hkey _ hretrieve _ hrun
    have hlooked := (hdb.recordRetrieve hkey hretrieve).2.1.events
    obtain ⟨_, hrun⟩ := (hdb.enter_of_miss hkey hretrieve).run hrun
    have hended : (db₂.note (.miss q k)).events <:+
        (leave key db₂.stack.depth (o, db₃)).2.events :=
      (List.suffix_cons _ _).trans (hrun.events.trans (leave_events key db₂.stack.depth o db₃))
    rw [since_trans (hlooked.trans (List.suffix_cons _ _)) hended]
    exact .inr (List.mem_append_right _ (mem_since hlooked rfl))

end Database

namespace Stage

open Database

variable [DecidableEq Q] [BEq K] {P : Program Q K V W} {t t' : Stage Q K V W}

theorem Evaluates.linked (hstep : Evaluates P t t') (hserves : t.db.stack.Serves t.calls)
    (h : t.db.stack.Linked) : t'.db.stack.Linked := by
  cases hstep with
  | answers hanswers =>
      obtain ⟨fuel, hquery⟩ := hanswers.exists_query
      exact h.grows (query_grows hquery)
  | @enters _ _ _ _ _ db _ db₂ key hkey _ hretrieve _ =>
      change (db₂.stack.push key).Linked
      rw [stack_of_retrieve hkey hretrieve]
      exact h.push_recordRead key
  | leaves =>
      obtain ⟨frame, rest, hkey, hdepth, hstack, _⟩ := hserves.exists_top
      rw [← hkey, hdepth]
      exact (h.pop hstack).grows (leave_grows hstack _)
  | revision => exact h
  | outside => exact h

variable [BEq V]

theorem Step.linked (hstep : Step P t t') (hserves : t.db.stack.Serves t.calls)
    (h : t.db.stack.Linked) : t'.db.stack.Linked := by
  have hserves' := hstep.serves hserves
  cases hstep with
  | evaluates hstep => exact hstep.linked hserves h
  | asks q k => exact h
  | edits e => exact hserves'.eq_empty ▸ .nil
  | clears => exact h
  | reports => exact h

theorem Reached.linked (h : Reached P t) : t.db.stack.Linked := by
  refine (h.keeps (fun t ↦ t.db.stack.Serves t.calls ∧ t.db.stack.Linked)
    (fun _ _ _ ↦ ⟨⟨.nil, rfl, List.nodup_nil⟩, .nil⟩) fun t t' ⟨hserves, h⟩ hstep ↦ ?_).2
  exact ⟨hstep.serves hserves, hstep.linked hserves h⟩

variable [EquivBEq K] {s : Database Q K V W}

/-- Refusals are exact: at every state of every run, of whatever program, a read is refused if and
only if its key is that of a frame on the stack, whatever is kept for it. The refusal reports the
labels of all frames, the outermost first; these are of different keys, and each frame has recorded
the read for which the next inner one was pushed, so from the frame of the key inwards the report is
a chain of reads that leads back to the key. Nothing is changed by it; not even a row is added. Its
event is the only one, which tells it from the refusal of a read further in. -/
theorem circle_refused (ht : Reached P t) (hs : t.Shows s) :
    (s.stack.frames.map Frame.key).Nodup ∧
    s.stack.frames.IsChain (fun inner outer ↦ inner.key ∈ outer.reads) ∧
    (∀ frame ∈ s.stack.frames, ∃ q k, s.store.named? frame.key = some (q, k) ∧
      s.label P frame.key = P.label q k) ∧
    ∀ q k key s₁, s.intern q k = (key, s₁) →
      ((∃ frame ∈ s.stack.frames, frame.key = key) ↔
        ∃ n f s', query P n q k s = some (.failure f, s') ∧ s'.since s = [.refused f]) ∧
      ∀ inner frame outer, s.stack.frames = inner ++ frame :: outer → frame.key = key →
        (inner ++ [frame]).IsChain (fun inner outer ↦ inner.key ∈ outer.reads) ∧
        ∃ f, f = .cycle (s.label P key)
            (s.stack.frames.map fun frame ↦ s.label P frame.key).reverse ∧
          ∀ n, query P (n + 1) q k s = some (.failure f, s.note (.refused f)) := by
  have hsound := hs.sound ht.sound
  have hserves := ht.serves.grows hs.grows
  have hlinked : s.stack.Linked := ht.linked.grows hs.grows
  refine ⟨hserves.nodup, hlinked, fun frame hframe ↦ ?_, fun q k key s₁ hkey ↦ ⟨⟨?_, ?_⟩, ?_⟩⟩
  · obtain ⟨⟨q, k⟩, hnamed⟩ := (hsound.frames frame hframe).key
    exact ⟨q, k, hnamed, Store.label_of_named? P hnamed⟩
  · rintro ⟨frame, hframe, hown⟩
    exact ⟨1, _, _, hsound.query_refused hkey hframe hown 0, since_eq rfl⟩
  · rintro ⟨n, f, s', hquery, hsince⟩
    have hsame : s₁.stack.isActive key = s.stack.isActive key := by rw [stack_of_intern hkey]
    rw [← hsound.isActive_iff, ← hsame]
    by_contra hidle
    -- an answer that is no refusal leaves another event
    have hevent := hit_or_miss hsound hkey (Bool.eq_false_iff.2 hidle) hquery
    simp [hsince] at hevent
  · intro inner frame outer hframes hown
    have hmem : frame ∈ s.stack.frames := by simp [hframes]
    refine ⟨hlinked.inner hframes, s.circle P key, ?_, hsound.query_refused hkey hmem hown⟩
    simp [circle, CallStack.keys, List.map_reverse, Function.comp_def]

end Stage

/-- Stairs that lead in a circle once the door is shut. -/
inductive Stairs
  | door
  | loose
  | first
  | second
  | third
  deriving DecidableEq

open Database Stage

namespace Stairs

def logic : Stairs → Option (Unit → Body Stairs Unit Nat Unit Nat)
  | door => none
  | loose => some fun _ ↦ .panic "creak"
  | first => some fun _ ↦ .get second ()
  | second => some fun _ ↦ (Body.get door ()).bind fun v ↦ if v = 0 then .value 7 else
    ((Body.get loose ()).catchPanic fun _ ↦ .value 0).bind fun _ ↦ .get third ()
  | third => some fun _ ↦ .get second ()

def program : Program Stairs Unit Nat Unit where
  name
    | door => "door"
    | loose => "loose"
    | first => "first"
    | second => "second"
    | third => "third"
  logic := logic
  showArgument _ _ := ""
  showValue _ _ := ""

/-- The third stairs read the second, whose value from the time of the open door is still there.
They are refused, and told of the stairs from the first to the third; the loose step was left by
then. -/
theorem second_refused : ∃ t : Stage Stairs Unit Nat Unit, Reached program t ∧
    t.db.memo? second () = some (.derived 7 1 1 [⟨0, 0⟩]) ∧
    t.db.stack.frames.map Frame.key = [⟨4, 0⟩, ⟨1, 0⟩, ⟨2, 0⟩] ∧
    ∃ f, f = .cycle "second()" ["first()", "second()", "third()"] ∧
      ∀ n, query program (n + 1) second () t.db =
        some (.failure f, t.db.note (.refused f)) := by
  have hrun : (performAll program 9 [.act (.edit (.set door () 0)),
        .act (.inquire (.query second ())), .act (.edit (.set door () 1))]
      { outside := () }).bind (fun p ↦ (steps? program 9 6 ⟨p.2, .get first (), []⟩).map fun t ↦
        decide (t.reading? = some (second, ()) ∧
          t.db.memo? second () = some (.derived 7 1 1 [⟨0, 0⟩]) ∧
          (t.db.intern second ()).1 = ⟨1, 0⟩ ∧
          t.db.stack.frames.map (fun frame ↦ (frame.key, t.db.label program frame.key)) =
            [(⟨4, 0⟩, "third()"), (⟨1, 0⟩, "second()"), (⟨2, 0⟩, "first()")])) = some true := by
    decide +kernel
  obtain ⟨⟨replies, db⟩, hops, hrun⟩ := Option.bind_eq_some_iff.mp hrun
  obtain ⟨t, hsteps, hend⟩ := Option.map_eq_some_iff.mp hrun
  obtain ⟨_, hmemo, hkey, hframes⟩ := of_decide_eq_true hend
  have ht : Reached program t := reached_of_steps? hops hsteps
  have hkeys := congrArg (List.map Prod.fst) hframes
  have hlabels := congrArg (List.map Prod.snd) hframes
  rw [List.map_map] at hkeys hlabels
  obtain ⟨inner, frames, hsplit, _, hrest⟩ := List.map_eq_cons_iff.1 hframes
  obtain ⟨frame, outer, rfl, hframe, _⟩ := List.map_eq_cons_iff.1 hrest
  obtain ⟨hown, hlabel⟩ := Prod.mk.inj hframe
  obtain ⟨_, _, _, hreads⟩ := circle_refused ht .here
  obtain ⟨_, f, hf, hrefused⟩ :=
    (hreads second () ⟨1, 0⟩ _ (Prod.ext hkey rfl)).2 [inner] frame outer hsplit hown
  refine ⟨t, ht, hmemo, hkeys, f, ?_, hrefused⟩
  rw [hf, ← hown, hlabel]
  exact congrArg (Failure.cycle "second()" ·.reverse) hlabels

end Stairs

end Incremental
