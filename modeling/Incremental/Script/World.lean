import Incremental.Value

/-!
# The world outside

What bodies can see and change without the database knowing: a few cells that hold values, and
counters of how often a logic was begun.
-/

namespace Incremental.Script

structure World where
  cells : List Value := List.replicate 4 .null
  /-- How often each logic was begun, for those that were begun. -/
  counts : List (String × Nat) := []

namespace World

def count (world : World) (name : String) : Nat := (world.counts.lookup name).getD 0

def increment (world : World) (name : String) : World :=
  { world with
    counts := (name, world.count name + 1) :: world.counts.filter fun entry ↦ entry.1 != name }

/-- The value in a cell, if there is such a cell. -/
def cell? (world : World) (i : Int) : Option Value :=
  if 0 ≤ i then world.cells[i.toNat]? else none

/-- Puts a value into a cell. -/
def setCell (world : World) (i : Nat) (v : Value) : World :=
  { world with cells := world.cells.set i v }

end World

end Incremental.Script
