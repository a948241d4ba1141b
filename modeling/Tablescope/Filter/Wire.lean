import Tablescope.Filter.Criterion
import Tablescope.Json.Record

/-!
# Criteria on the wire

A criterion is a record of `attribute`, `operator`, `value` and `type`; only the value may be left
out, which makes it the empty text.
-/

namespace Tablescope.Criterion

/-- The criterion of a record. -/
def ofJson? (j : Json) : Option Criterion := do
  match ← j.record? ["attribute", "operator", "value", "type"] with
  | [some name, some operator, value, some type] =>
    let name ← name.string?
    let operator ← Operator.ofSymbol? (← operator.tag?)
    let value ← Json.optional? "" Json.string? value
    let type ← ScalarType.ofDescriptor? (← type.tag?)
    some { name, operator, value, type }
  | _ => none

/-- The criteria of an array of records. -/
def listOfJson? (j : Json) : Option (List Criterion) := j.array?.bind (·.mapM ofJson?)

/-- The criteria that a text writes. -/
def parseList? (text : String) : Option (List Criterion) := (Json.parse? text).bind listOfJson?

end Tablescope.Criterion
