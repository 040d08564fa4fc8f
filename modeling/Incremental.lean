import Incremental.Script.Session
import Incremental.Proofs.Recipe
import Incremental.Proofs.Scratch
import Incremental.Proofs.Course
import Incremental.Proofs.Naming
import Incremental.Proofs.Advance
import Incremental.Proofs.Upkeep
import Incremental.Proofs.Bookkeeping
import Incremental.Proofs.Standing
import Incremental.Proofs.Settling
import Incremental.Proofs.Underway
import Incremental.Proofs.Asking
import Incremental.Proofs.Answering
import Incremental.Proofs.Ending
import Incremental.Proofs.Changing
import Incremental.Proofs.Fresh
import Incremental.Proofs.Performing
import Incremental.Proofs.Agreement
import Incremental.Proofs.Histories
import Incremental.Proofs.Removal
import Incremental.Proofs.Panics
import Incremental.Proofs.Circles
import Incremental.Proofs.Failures
import Incremental.Proofs.Purity
import Incremental.Proofs.Ways
import Incremental.Proofs.Staleness
import Incremental.Proofs.Renewal
import Incremental.Proofs.Rechecking
import Incremental.Proofs.Coherence
import Incremental.Proofs.Editing
import Incremental.Proofs.Acyclicity
import Incremental.Proofs.Executions
import Incremental.Proofs.Dependents
import Incremental.Proofs.Holding
import Incremental.Proofs.Work
import Incremental.Proofs.Beginning
import Incremental.Proofs.Covering
import Incremental.Proofs.Skipping
import Incremental.Proofs.Closure
import Incremental.Proofs.Stages
import Incremental.Proofs.Nesting
import Incremental.Proofs.Moves
import Incremental.Proofs.Recall
import Incremental.Proofs.Lapsing
import Incremental.Proofs.Attempts
import Incremental.Proofs.Numbering
import Incremental.Proofs.Resetting
import Incremental.Proofs.Depth
import Incremental.Proofs.Listing
import Incremental.Proofs.Refusal
import Incremental.Proofs.Assigned
import Incremental.Proofs.Shortcut
import Incremental.Proofs.Rounds
import Incremental.Proofs.Unrelated
import Incremental.Proofs.Layout
import Incremental.Proofs.Interning
import Incremental.Proofs.Alone
import Incremental.Proofs.Knowing
import Incremental.Proofs.Uncut
import Incremental.Proofs.Nested
import Incremental.Proofs.Inventory
import Incremental.Proofs.Rising
