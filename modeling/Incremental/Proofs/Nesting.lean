import Incremental.Proofs.Stages

/-!
# Nesting of evaluations

The frames and the set of what is active are kept by separate means, and there are four ways out
of a read. Whichever is taken, the call stack is given back as it was found, but for what the
innermost frame has collected. So the frame on top is always that of the call to be left, what is
active is what the frames compute, and nothing is left over between two operations.
-/

namespace Incremental

variable {Q K V W : Type}

/-- Some reads were added at the end, and something newer was observed, or nothing was. -/
structure Frame.Grows (frame frame' : Frame) : Prop where
  key : frame'.key = frame.key
  reads : frame.reads <+: frame'.reads
  newest : frame.newest ≤ frame'.newest

namespace Frame.Grows

variable {frame frame' frame'' : Frame}

theorem refl (frame : Frame) : frame.Grows frame := ⟨rfl, List.prefix_rfl, Nat.le_refl _⟩

theorem trans (h : frame.Grows frame') (h' : frame'.Grows frame'') : frame.Grows frame'' :=
  ⟨h'.key.trans h.key, h.reads.trans h'.reads, Nat.le_trans h.newest h'.newest⟩

theorem addRead (frame : Frame) (key : Handle) : frame.Grows (frame.addRead key) := by
  refine ⟨frame.key_addRead key, ?_, Nat.le_of_eq (frame.newest_addRead key).symm⟩
  unfold Frame.addRead
  split
  · exact List.prefix_rfl
  · exact List.prefix_append _ _

theorem observe (frame : Frame) (r : Revision) : frame.Grows (frame.observe r) :=
  ⟨rfl, List.prefix_rfl, Nat.le_max_left _ _⟩

theorem addReads (frame : Frame) (keys : List Handle) : frame.Grows (frame.addReads keys) :=
  ⟨rfl, List.prefix_append _ _, Nat.le_refl _⟩

end Frame.Grows

namespace CallStack

/-- The frames are the same in the same order, but for the innermost, which may have grown. -/
inductive Grows : CallStack → CallStack → Prop
  | idle {active : List Handle} : Grows ⟨[], active⟩ ⟨[], active⟩
  | top {frame frame' : Frame} {frames : List Frame} {active : List Handle}
      (h : frame.Grows frame') : Grows ⟨frame :: frames, active⟩ ⟨frame' :: frames, active⟩

namespace Grows

variable {stack stack' stack'' : CallStack}

theorem modifyTop {g : Frame → Frame} (hg : ∀ frame : Frame, frame.Grows (g frame))
    (stack : CallStack) : stack.Grows (stack.modifyTop g) := by
  rcases stack with ⟨_ | ⟨frame, frames⟩, active⟩
  · exact .idle
  · exact .top (hg frame)

theorem refl (stack : CallStack) : stack.Grows stack := by
  rcases stack with ⟨_ | ⟨frame, frames⟩, active⟩
  · exact .idle
  · exact .top (.refl frame)

theorem trans (h : stack.Grows stack') (h' : stack'.Grows stack'') : stack.Grows stack'' := by
  cases h with
  | idle => exact h'
  | top h =>
      cases h' with
      | top h' => exact .top (h.trans h')

theorem recordRead (stack : CallStack) (key : Handle) : stack.Grows (stack.recordRead key) :=
  modifyTop (fun frame ↦ .addRead frame key) stack

theorem observe (stack : CallStack) (r : Revision) : stack.Grows (stack.observe r) :=
  modifyTop (fun frame ↦ .observe frame r) stack

theorem absorb (stack : CallStack) (reads : List Handle) (r : Revision) :
    stack.Grows (stack.absorb reads r) :=
  modifyTop (fun frame ↦ (Frame.Grows.addReads frame reads).trans (.observe _ r)) stack

theorem active_eq (h : stack.Grows stack') : stack'.active = stack.active := by
  cases h <;> rfl

theorem keys_eq (h : stack.Grows stack') :
    stack'.frames.map Frame.key = stack.frames.map Frame.key := by
  cases h with
  | idle => rfl
  | top h => simp [h.key]

/-- What is found on top of a stack that an evaluation was begun on. -/
theorem of_push {key : Handle} (h : (stack.push key).Grows stack') :
    ∃ frame : Frame, frame.key = key ∧ stack' = ⟨frame :: stack.frames, key :: stack.active⟩ := by
  cases h with
  | top h => exact ⟨_, h.key, rfl⟩

end Grows

end CallStack

namespace Database

/-- Leaving an evaluation gives back the stack that it was begun on. -/
theorem leave_grows {db : Database Q K V W} {stack : CallStack} {frame : Frame}
    (h : db.stack = ⟨frame :: stack.frames, frame.key :: stack.active⟩) (o : Outcome V) :
    stack.Grows (leave frame.key stack.depth (o, db)).2.stack := by
  cases o with
  | panic message =>
      rw [leave_panic h]
      exact .refl stack
  | failure f =>
      rw [leave_failure h]
      exact .absorb _ _ _
  | value v =>
      rw [leave_value h]
      exact .absorb _ _ _

variable [DecidableEq Q] [BEq K] {P : Program Q K V W} {q : Q} {k : K} {key : Handle}
  {db db₁ db₂ db' : Database Q K V W} {fuel : Nat}

theorem stack_of_intern (hkey : db.intern q k = (key, db₁)) : db₁.stack = db.stack := by
  obtain rfl := eq_of_intern hkey
  rfl

theorem not_mem_active (hkey : db.intern q k = (key, db₁))
    (hactive : db₁.stack.isActive key = false) : key ∉ db.stack.active := by
  rw [← stack_of_intern hkey]
  simpa [CallStack.isActive] using hactive

/-- To look for what is kept for a read adds the read to the innermost frame. -/
theorem retrieve_grows {r : Option (V × Revision)} (hkey : db.intern q k = (key, db₁))
    (hretrieve : (db₁.recordRead key).retrieve fuel key = some (r, db₂)) :
    db.stack.Grows db₂.stack := by
  rw [stack_of_retrieve hkey hretrieve]
  exact .recordRead _ _

/-- Every read gives back the call stack, whether it gives a value, fails or panics. -/
theorem grows_course : Course P (fun _ _ db _ db' ↦ db.stack.Grows db'.stack)
    (fun _ db _ db' ↦ db.stack.Grows db'.stack) where
  refused := by
    intro fuel q k db key db₁ hkey _ _
    rw [← stack_of_intern hkey]
    exact .refl _
  hit := by
    intro fuel n q k db key db₁ v c db₂ hkey _ hretrieve _
    exact (retrieve_grows hkey hretrieve).trans (.observe _ c)
  tooDeep := by
    intro fuel n q k db key db₁ db₂ limit hkey _ hretrieve _ _
    exact (retrieve_grows hkey hretrieve :)
  computed := by
    intro fuel n q k db key db₁ db₂ o db₃ hkey _ hretrieve _ _ _ hrun
    obtain ⟨frame, rfl, hstack⟩ := hrun.of_push
    exact (retrieve_grows hkey hretrieve).trans (leave_grows hstack o)
  done := fun _ _ ↦ .refl _
  read := fun _ _ _ _ _ _ _ _ _ _ _ h h' ↦ h.trans h'
  revision := fun _ _ _ _ h ↦ h
  outside := fun _ _ _ _ _ h ↦ h

theorem query_grows {o : Outcome V} (h : query P fuel q k db = some (o, db')) :
    db.stack.Grows db'.stack :=
  grows_course.query h

theorem run_grows {b : Body Q K V W V} {o : Outcome V}
    (h : b.run (query P fuel) db = some (o, db')) : db.stack.Grows db'.stack :=
  grows_course.run h

end Database

/-- The frames are those of the calls, each on top of as many others as its call was made in. -/
inductive Fits : List (Call Q K V W) → List Frame → Prop
  | nil : Fits [] []
  | cons {call : Call Q K V W} {calls : List (Call Q K V W)} {frame : Frame} {frames : List Frame}
      (hkey : frame.key = call.key) (hdepth : call.depth = frames.length) (h : Fits calls frames) :
      Fits (call :: calls) (frame :: frames)

theorem Fits.keys_eq {calls : List (Call Q K V W)} {frames : List Frame} (h : Fits calls frames) :
    frames.map Frame.key = calls.map Call.key := by
  induction h with
  | nil => rfl
  | cons hkey _ _ ih => rw [List.map_cons, List.map_cons, hkey, ih]

/-- The frames fit the calls, and are what is active, each for another key. -/
structure CallStack.Serves (stack : CallStack) (calls : List (Call Q K V W)) : Prop where
  fits : Fits calls stack.frames
  active : stack.active = stack.frames.map Frame.key
  nodup : (stack.frames.map Frame.key).Nodup

namespace CallStack.Serves

variable {stack stack' : CallStack} {call : Call Q K V W} {calls : List (Call Q K V W)}
  {key : Handle}

theorem grows (h : stack.Serves calls) (hgrows : stack.Grows stack') : stack'.Serves calls := by
  refine ⟨?_, hgrows.active_eq.trans (h.active.trans hgrows.keys_eq.symm),
    hgrows.keys_eq ▸ h.nodup⟩
  obtain ⟨hfits, _, _⟩ := h
  cases hgrows with
  | idle => exact hfits
  | top hframe =>
      cases hfits with
      | cons hkey hdepth hfits => exact .cons (hframe.key.trans hkey) hdepth hfits

theorem push (h : stack.Serves calls) (hkey : key ∉ stack.active)
    (next : Outcome V → Body Q K V W V) :
    (stack.push key).Serves (⟨key, stack.depth, next⟩ :: calls) := by
  refine ⟨.cons rfl rfl h.fits, congrArg (key :: ·) h.active, List.nodup_cons.2 ⟨?_, h.nodup⟩⟩
  exact h.active ▸ hkey

/-- On top is the frame of the innermost call, and the rest serves the other calls. -/
theorem exists_top (h : stack.Serves (call :: calls)) : ∃ (frame : Frame) (rest : CallStack),
    frame.key = call.key ∧ call.depth = rest.depth ∧
    stack = ⟨frame :: rest.frames, frame.key :: rest.active⟩ ∧ frame.key ∉ rest.active ∧
    rest.Serves calls := by
  rcases stack with ⟨_ | ⟨frame, frames⟩, active⟩
  · cases h.fits
  · obtain ⟨hfits, hactive, hnodup⟩ := h
    obtain ⟨hnot, hnodup⟩ := List.nodup_cons.1 hnodup
    cases hfits with
    | cons hkey hdepth hfits =>
        refine ⟨frame, ⟨frames, frames.map Frame.key⟩, hkey, hdepth, ?_, hnot, hfits, rfl, hnodup⟩
        exact congrArg (CallStack.mk (frame :: frames)) hactive

theorem eq_empty (h : stack.Serves ([] : List (Call Q K V W))) : stack = {} := by
  rcases stack with ⟨_ | ⟨frame, frames⟩, active⟩
  · exact congrArg (CallStack.mk []) h.active
  · cases h.fits

/-- The frame that is popped at the end of a body is the one that was pushed for it. -/
theorem leave {db : Database Q K V W} (h : db.stack.Serves (call :: calls)) (o : Outcome V) :
    (∃ frame rest, db.stack.pop? = some (frame, rest) ∧ frame.key = call.key ∧
      rest.depth = call.depth ∧
      rest.Grows (Database.leave call.key call.depth (o, db)).2.stack) ∧
    (Database.leave call.key call.depth (o, db)).1 = o ∧
    (Database.leave call.key call.depth (o, db)).2.stack.Serves calls := by
  obtain ⟨frame, rest, hkey, hdepth, hstack, _, hrest⟩ := h.exists_top
  have houtcome := Database.leave_outcome hstack o
  have hgrows := Database.leave_grows hstack o
  rw [hkey, ← hdepth] at houtcome hgrows
  refine ⟨⟨frame, rest, ?_, hkey, hdepth.symm, hgrows⟩, houtcome, hrest.grows hgrows⟩
  rw [hstack, CallStack.pop?_cons]

end CallStack.Serves

namespace Stage

open Database

variable [DecidableEq Q] [BEq K] {P : Program Q K V W} {t t' : Stage Q K V W}

/-- A step of an evaluation pushes the frame of the call that it makes, pops that of the call that
it leaves, and otherwise lets the innermost frame grow. -/
theorem Evaluates.serves (hstep : Evaluates P t t') (h : t.db.stack.Serves t.calls) :
    t'.db.stack.Serves t'.calls := by
  cases hstep with
  | answers hanswers =>
      obtain ⟨fuel, hquery⟩ := hanswers.exists_query
      exact h.grows (query_grows hquery)
  | enters hkey hactive hretrieve _ =>
      have hgrows := retrieve_grows hkey hretrieve
      refine (h.grows hgrows).push ?_ _
      exact hgrows.active_eq ▸ not_mem_active hkey hactive
  | leaves => exact (h.leave _).2.2
  | revision => exact h
  | outside => exact h

variable [BEq V]

theorem Step.serves (hstep : Step P t t') (h : t.db.stack.Serves t.calls) :
    t'.db.stack.Serves t'.calls := by
  cases hstep with
  | evaluates hstep => exact hstep.serves h
  | asks q k => exact h
  | @edits db o e =>
      have hsame : (edit e db).2.stack = db.stack := by
          obtain heq | heq | ⟨v, heq⟩ | ⟨key, _, heq⟩ := edit_cases e db <;> rw [heq] <;> rfl
      exact hsame ▸ h
  | clears => exact h
  | reports => exact h

theorem Reached.serves (h : Reached P t) : t.db.stack.Serves t.calls :=
  h.keeps (fun t ↦ t.db.stack.Serves t.calls) (fun _ _ _ ↦ ⟨.nil, rfl, List.nodup_nil⟩)
    fun _ _ h hstep ↦ hstep.serves h

omit [BEq V] in
theorem Shows.grows {s : Database Q K V W} (h : t.Shows s) : t.db.stack.Grows s.stack := by
  cases h with
  | here => exact .refl _
  | looks hkey _ _ hwalks =>
      rw [hwalks.verifies.stack_eq]
      exact stack_of_intern hkey ▸ .recordRead _ _

/-- Stack discipline: at every stage of every run, of whatever program, there is one frame for each
call, and what is active is what the frames compute, each of them another key; every read gives
the frames back as they were, but for what the innermost has collected; a body that ends finds the
frame that was pushed for it, which is then taken away; and outside all calls nothing is under
evaluation. So nothing is after any history. -/
theorem stack_kept (P : Program Q K V W) :
    (∀ (t : Stage Q K V W) (s : Database Q K V W), Reached P t → t.Shows s →
      s.stack.frames.map Frame.key = t.calls.map Call.key ∧
      s.stack.active = s.stack.frames.map Frame.key ∧ (s.stack.frames.map Frame.key).Nodup ∧
      (∀ fuel q k o s', query P fuel q k s = some (o, s') → s.stack.Grows s'.stack) ∧
      (∀ o call calls, t.body = .done o → t.calls = call :: calls →
        (∃ frame rest, t.db.stack.pop? = some (frame, rest) ∧ frame.key = call.key ∧
          rest.depth = call.depth ∧
          rest.Grows (leave call.key call.depth (o, t.db)).2.stack) ∧
        (leave call.key call.depth (o, t.db)).1 = o) ∧
      (t.calls = [] → s.stack = {})) ∧
    ∀ configuration w fuel ops replies db,
      performAll P fuel ops { configuration, outside := w } = some (replies, db) →
      db.stack = {} := by
  constructor
  · intro t s ht hs
    have hserves := ht.serves
    have hshown := hserves.grows hs.grows
    refine ⟨hshown.fits.keys_eq, hshown.active, hshown.nodup, fun _ _ _ _ _ ↦ query_grows, ?_,
      fun hcalls ↦ ?_⟩
    · intro o call calls _ hcalls
      obtain ⟨hpop, houtcome, _⟩ := (hcalls ▸ hserves).leave o
      exact ⟨hpop, houtcome⟩
    · exact (hcalls ▸ hshown).eq_empty
  · intro configuration w fuel ops replies db hops
    obtain ⟨o, ht⟩ := reached_performAll hops
    exact ht.serves.eq_empty

end Stage

/-- A lamp that burns out, in a room of a house that stays dark then. -/
inductive Wiring
  | mains
  | socket
  | lamp
  | room
  | house
  deriving DecidableEq

open Database Stage

namespace Wiring

def logic : Wiring → Option (Unit → Body Wiring Unit Nat Unit Nat)
  | mains => none
  | socket => some fun _ ↦ .get mains ()
  | lamp => some fun _ ↦
    (Body.get socket ()).bind fun v ↦ if v ≤ 5 then .value v else .panic "burnt"
  | room => some fun _ ↦ (Body.get lamp ()).catchPanic fun _ ↦ .value 0
  | house => some fun _ ↦ .get room ()

def program : Program Wiring Unit Nat Unit where
  name _ := ""
  logic := logic
  showArgument _ _ := ""
  showValue _ _ := ""

def history : List (Operation Wiring Unit Nat) := [.act (.edit (.set mains () 9))]

/-- The panic of the lamp finds the frame of the lamp on top of those of the room and the house, and
takes it away. Nothing is left of it when it is caught, nor when it is not. -/
theorem stack_kept_when_burnt :
    ∃ db, ∃ t : Stage Wiring Unit Nat Unit,
      Reached program t ∧ t.body = .done (.panic "burnt") ∧
      t.db.stack.active = [⟨3, 0⟩, ⟨2, 0⟩, ⟨1, 0⟩] ∧
      (∃ frame rest, t.db.stack.pop? = some (frame, rest) ∧ frame.key = ⟨3, 0⟩ ∧ rest.depth = 2 ∧
        rest.Grows (leave ⟨3, 0⟩ 2 (.panic "burnt", t.db)).2.stack) ∧
      (∃ replies, performAll program 9 (history ++ [.act (.inquire (.query house ())),
        .act (.inquire (.query lamp ()))]) { outside := () } = some (replies, db)) ∧
      db.stack = {} := by
  obtain ⟨hstages, hhistories⟩ := stack_kept program
  have hrun : (performAll program 9 history { outside := () }).bind (fun p ↦
      (steps? program 9 6 ⟨p.2, .get house (), []⟩).map fun t ↦
        (t.outcome?, t.calls.map fun call ↦ (call.key, call.depth))) =
      some (some (.panic "burnt"), [(⟨3, 0⟩, 2), (⟨2, 0⟩, 1), (⟨1, 0⟩, 0)]) := by
    decide +kernel
  have hfull : (performAll program 9 (history ++ [.act (.inquire (.query house ())),
      .act (.inquire (.query lamp ()))]) { outside := () }).isSome = true := by
    decide +kernel
  obtain ⟨⟨replies, db₀⟩, hops, hrun⟩ := Option.bind_eq_some_iff.mp hrun
  obtain ⟨t, hsteps, hend⟩ := Option.map_eq_some_iff.mp hrun
  obtain ⟨⟨replies', db⟩, hfull⟩ := Option.isSome_iff_exists.mp hfull
  obtain ⟨hbody, hcalls⟩ := Prod.mk.inj hend
  have ht : Reached program t := reached_of_steps? hops hsteps
  obtain ⟨hkeys, hactive, _, _, hleave, _⟩ := hstages t t.db ht .here
  have hactive : t.db.stack.active = [⟨3, 0⟩, ⟨2, 0⟩, ⟨1, 0⟩] := by
    have hfirst := congrArg (List.map Prod.fst) hcalls
    rw [List.map_map] at hfirst
    exact (hactive.trans hkeys).trans hfirst
  obtain ⟨call, calls, hcalls, hcall, _⟩ := List.map_eq_cons_iff.mp hcalls
  obtain ⟨hkey, hdepth⟩ := Prod.mk.inj hcall
  have hpop := (hleave _ call calls (body_of_outcome? hbody) hcalls).1
  rw [hkey, hdepth] at hpop
  exact ⟨db, t, ht, body_of_outcome? hbody, hactive, hpop, ⟨replies', hfull⟩,
    hhistories _ _ _ _ _ _ hfull⟩

end Wiring

end Incremental
