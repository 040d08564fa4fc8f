import Incremental.Event
import Incremental.Script.Formula
import Incremental.Script.Sample

/-!
# Catalogs

The queries that a script defines, and the program that they make together with the fixed queries.
-/

namespace Incremental.Script

/-- A query that a script defines. Without a formula it is an input. -/
structure Definition where
  name : String
  formula : Option Formula := none

abbrev Catalog := List Definition

namespace Catalog

/-- The name of the input that was given no name of its own. -/
def unnamed : String := "incr_query_driver::queries::Unnamed"

def name (catalog : Catalog) : QueryName → String
  | .defined n => (catalog[n]?.map Definition.name).getD ""
  | .unnamed => unnamed
  | .sample s => s.name

def logic? (catalog : Catalog) : QueryName → Option (Argument → Logic Value)
  | .defined n =>
    (catalog[n]?.bind Definition.formula).map fun formula k ↦
      formula.denote { definitions := catalog.length, key := k.value }
  | .unnamed => none
  | .sample s => s.logic?

/-- The program that the definitions and the fixed queries make. -/
def program (catalog : Catalog) : Program QueryName Argument Value World where
  name := catalog.name
  logic := catalog.logic?
  showArgument q k := q.argumentKind.written k.value
  showValue q v := q.valueKind.written v

/-- An evaluation of a query of the script itself, as it was begun. -/
def begun? (catalog : Catalog) : Event QueryName Argument → Option String
  | .started (.defined n) k _ =>
    (catalog.logic? (.defined n)).map fun _ ↦ catalog.program.label (.defined n) k
  | _ => none

end Catalog

end Incremental.Script
