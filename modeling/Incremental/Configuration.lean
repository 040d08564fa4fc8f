/-!
# Configuration

The settings with which a database is made.
-/

namespace Incremental

/-- Settings of a database. By default nesting is not limited. -/
structure Configuration where
  /-- How many evaluations may be nested in each other, if that is limited. -/
  maxDepth : Option Nat := none
  deriving DecidableEq, Repr

namespace Configuration

def withMaxDepth (_ : Configuration) (depth : Nat) : Configuration := ⟨some depth⟩

/-- The limit that an evaluation inside `depth` others would break, if there is one. -/
def brokenAt (configuration : Configuration) (depth : Nat) : Option Nat :=
  configuration.maxDepth.filter fun limit ↦ limit ≤ depth

/-- The configuration and the ones that limiting to each of `depths` in turn leads to. -/
def limitedTo (configuration : Configuration) : List Nat → List Configuration
  | [] => [configuration]
  | depth :: depths => configuration :: (configuration.withMaxDepth depth).limitedTo depths

end Configuration

end Incremental
