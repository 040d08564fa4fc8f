/-!
# Revisions

A revision is a point in the history of a database: the number of changes made so far.
-/

namespace Incremental

/-- The number of changes made before a point of a database's history. -/
abbrev Revision := Nat

namespace Revision

def initial : Revision := 0

def newerThan (r s : Revision) : Bool := s < r

def next (r : Revision) : Revision := r + 1

/-- The form in which revisions are shown: the letter r and the number. -/
def text (r : Revision) : String := "r" ++ toString (r : Nat)

structure Comparison where
  newer : Bool
  older : Bool
  equal : Bool
  newest : Revision
  deriving DecidableEq, Repr

def compareWith (r s : Revision) : Comparison where
  newer := newerThan r s
  older := newerThan s r
  equal := decide (r = s)
  newest := max r s

def compareAdjacent : List Revision → List Comparison
  | r :: s :: rest => compareWith r s :: compareAdjacent (s :: rest)
  | _ => []

def oldestFirst (rs : List Revision) : List Revision := rs.mergeSort

/-- The revisions reached by `count` changes made one after the other from `r`. -/
def successors (r : Revision) : Nat → List Revision
  | 0 => []
  | count + 1 => next r :: successors (next r) count

/-- Where `count` changes lead from `r`. -/
def after (r : Revision) (count : Nat) : Revision := (successors r count).getLast?.getD r

end Revision

end Incremental
