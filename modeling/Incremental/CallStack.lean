import Incremental.Memo

/-!
# Call stacks

One frame for each evaluation under way. A frame collects what its evaluation reads and how new
the newest of it is; when it ends, what it collected passes to the evaluation that asked for it.
Beside the frames the stack keeps the handles under evaluation, which decide whether a read
would run in a circle.
-/

namespace Incremental

structure Frame where
  key : Handle
  /-- The newest revision at which something read so far has changed. -/
  newest : Revision := Revision.initial
  /-- What was read so far, in the order of the first reads. -/
  reads : List Handle := []
  deriving DecidableEq, Repr

namespace Frame

def addRead (frame : Frame) (key : Handle) : Frame :=
  if key ∈ frame.reads then frame else { frame with reads := frame.reads ++ [key] }

/-- Notes several reads, which are distinct: what an evaluation inside this one has read. -/
def addReads (frame : Frame) (keys : List Handle) : Frame :=
  { frame with reads := frame.reads ++ keys.filter fun key ↦ !frame.reads.contains key }

def observe (frame : Frame) (r : Revision) : Frame := { frame with newest := max frame.newest r }

@[simp] theorem key_addRead (frame : Frame) (key : Handle) :
    (frame.addRead key).key = frame.key := by
  unfold addRead; split <;> rfl

@[simp] theorem newest_addRead (frame : Frame) (key : Handle) :
    (frame.addRead key).newest = frame.newest := by
  unfold addRead; split <;> rfl

theorem mem_addRead (frame : Frame) (key other : Handle) :
    other ∈ (frame.addRead key).reads ↔ other ∈ frame.reads ∨ other = key := by
  unfold addRead
  split
  · next h => exact ⟨Or.inl, fun h' ↦ h'.elim id fun e ↦ e ▸ h⟩
  · simp

theorem nodup_addRead {frame : Frame} (h : frame.reads.Nodup) (key : Handle) :
    (frame.addRead key).reads.Nodup := by
  unfold addRead
  split
  · exact h
  · next hk =>
    simp only [List.nodup_append, h, true_and]
    exact ⟨by simp, fun a ha b hb e ↦ hk (by simp_all)⟩

@[simp] theorem newest_addReads (frame : Frame) (keys : List Handle) :
    (frame.addReads keys).newest = frame.newest := rfl

theorem mem_addReads (frame : Frame) (keys : List Handle) (key : Handle) :
    key ∈ (frame.addReads keys).reads ↔ key ∈ frame.reads ∨ key ∈ keys := by
  simp only [addReads, List.mem_append, List.mem_filter, List.contains_eq_mem, Bool.not_eq_true',
    decide_eq_false_iff_not]
  by_cases h : key ∈ frame.reads <;> simp [h]

theorem addReads_eq_foldl (frame : Frame) {keys : List Handle} (h : keys.Nodup) :
    frame.addReads keys = keys.foldl addRead frame := by
  induction keys generalizing frame with
  | nil => simp [addReads]
  | cons key keys ih =>
    obtain ⟨hkey, hkeys⟩ := List.nodup_cons.1 h
    rw [List.foldl_cons, ← ih (frame.addRead key) hkeys]
    unfold addRead
    split
    · next hmem => simp [addReads, hmem]
    · next hmem =>
      have same : ∀ other ∈ keys, (!decide (other ∈ frame.reads)) =
          (!decide (other ∈ frame.reads) && !decide (other = key)) := by
        intro other hother
        have : other ≠ key := fun e ↦ hkey (e ▸ hother)
        simp [this]
      simp [addReads, hmem, List.filter_congr same]

end Frame

structure CallStack where
  /-- The frames, the innermost first. -/
  frames : List Frame := []
  active : List Handle := []
  deriving DecidableEq, Repr

namespace CallStack

def isActive (stack : CallStack) (key : Handle) : Bool := key ∈ stack.active

def depth (stack : CallStack) : Nat := stack.frames.length

def push (stack : CallStack) (key : Handle) : CallStack where
  frames := { key } :: stack.frames
  active := key :: stack.active

/-- Ends the innermost evaluation and gives its frame. -/
def pop? : CallStack → Option (Frame × CallStack)
  | ⟨[], _⟩ => none
  | ⟨frame :: frames, active⟩ => some (frame, ⟨frames, active.erase frame.key⟩)

/-- Discards evaluations from the inside until `depth` are left. -/
def unwindTo (stack : CallStack) (depth : Nat) : CallStack where
  frames := stack.frames.drop (stack.depth - depth)
  active := (stack.frames.take (stack.depth - depth)).foldl
    (fun active frame ↦ active.erase frame.key)
    stack.active

def modifyTop (f : Frame → Frame) : CallStack → CallStack
  | ⟨[], active⟩ => ⟨[], active⟩
  | ⟨frame :: frames, active⟩ => ⟨f frame :: frames, active⟩

def recordRead (stack : CallStack) (key : Handle) : CallStack := stack.modifyTop (·.addRead key)

def observe (stack : CallStack) (r : Revision) : CallStack := stack.modifyTop (·.observe r)

/-- Passes the reads of an evaluation that has ended, and the revision of its change, to the
innermost frame. -/
def absorb (stack : CallStack) (reads : List Handle) (r : Revision) : CallStack :=
  stack.modifyTop fun frame ↦ (frame.addReads reads).observe r

/-- What is being computed, the outermost first. -/
def keys (stack : CallStack) : List Handle := (stack.frames.map Frame.key).reverse

@[simp] theorem depth_push (stack : CallStack) (key : Handle) :
    (stack.push key).depth = stack.depth + 1 := by
  simp [push, depth]

@[simp] theorem active_modifyTop (f : Frame → Frame) (stack : CallStack) :
    (stack.modifyTop f).active = stack.active := by
  rcases stack with ⟨_ | _, _⟩ <;> rfl

end CallStack

end Incremental
