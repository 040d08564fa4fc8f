import Incremental.Proofs.Bookkeeping

/-!
# Which bodies were begun

The events of a database tell which bodies were begun, in order. To look for what is kept begins
none.
-/

namespace Incremental

variable {Q K V W : Type}

/-- The query and the argument whose body was begun. -/
def Event.started? : Event Q K → Option (Q × K)
  | started q k _ => some (q, k)
  | _ => none

namespace Database

/-- The bodies that were begun so far, in order. -/
def begun (db : Database Q K V W) : List (Q × K) := db.events.reverse.filterMap Event.started?

variable {db db' : Database Q K V W}

@[simp] theorem begun_note (db : Database Q K V W) (event : Event Q K) :
    (db.note event).begun = db.begun ++ event.started?.toList := by
  cases h : event.started? <;> simp [begun, note, h]

theorem begun_note_of_none {event : Event Q K} (h : event.started? = none)
    (db : Database Q K V W) : (db.note event).begun = db.begun := by
  simp [h]

theorem begun_congr (h : db'.events = db.events) : db'.begun = db.begun := by
  simp only [begun, h]

theorem begun_enter (db : Database Q K V W) (q : Q) (k : K) (key : Handle) :
    (db.enter q k key).begun = db.begun ++ [(q, k)] := begun_note _ _

theorem verify_begun {fuel : Nat} {key : Handle} {asOf : Revision} {fresh : Bool}
    (h : verify fuel key asOf db = some (fresh, db')) : db'.begun = db.begun :=
  verify_keeps (fun db db' ↦ db'.begun = db.begun) (fun _ ↦ rfl) (fun h h' ↦ h'.trans h)
    (fun _ db ↦ begun_note_of_none rfl db) (fun _ _ _ db ↦ begun_note_of_none rfl db)
    (fun _ _ ↦ rfl) h

theorem retrieve_begun {fuel : Nat} {key : Handle} {r : Option (V × Revision)}
    (h : db.retrieve fuel key = some (r, db')) : db'.begun = db.begun := by
  rcases eq_or_verify_of_retrieve h with rfl | ⟨_, hverify⟩
  · rfl
  · exact verify_begun hverify

end Database

end Incremental
