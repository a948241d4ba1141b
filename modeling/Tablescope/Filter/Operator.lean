import Tablescope.Schema.Key

/-!
# Operators

The eleven comparisons that a criterion may ask for, how many operands each takes, and where a
criterion on a key attribute goes: into the key condition, or among the filters, or nowhere,
because no key condition may compare the hash attribute by order.
-/

namespace Tablescope

/-- A comparison between an attribute and the operands of a criterion. -/
inductive Operator where
  | equal
  | unequal
  | less
  | lessOrEqual
  | greater
  | greaterOrEqual
  | beginsWith
  | contains
  | between
  | present
  | absent
  deriving DecidableEq, Repr

/-- Where the clause of a criterion goes. -/
inductive Placement where
  | keyCondition
  | filter
  /-- The operator asks of a key attribute what no key condition can. -/
  | illegal
  deriving DecidableEq, Repr

namespace Operator

/-- How an operator is written. -/
def symbol : Operator → String
  | equal => "="
  | unequal => "<>"
  | less => "<"
  | lessOrEqual => "<="
  | greater => ">"
  | greaterOrEqual => ">="
  | beginsWith => "begins_with"
  | contains => "contains"
  | between => "between"
  | present => "attribute_exists"
  | absent => "attribute_not_exists"

/-- The operator that a text writes. -/
def ofSymbol? : String → Option Operator
  | "=" => some equal
  | "<>" => some unequal
  | "<" => some less
  | "<=" => some lessOrEqual
  | ">" => some greater
  | ">=" => some greaterOrEqual
  | "begins_with" => some beginsWith
  | "contains" => some contains
  | "between" => some between
  | "attribute_exists" => some present
  | "attribute_not_exists" => some absent
  | _ => none

/-- Where a criterion goes whose attribute plays this role in the key that is read. -/
def placement : Operator → KeyRole → Placement
  | equal, _ => .keyCondition
  | less, .range | lessOrEqual, .range | greater, .range | greaterOrEqual, .range => .keyCondition
  | beginsWith, .range | between, .range => .keyCondition
  | less, .hash | lessOrEqual, .hash | greater, .hash | greaterOrEqual, .hash => .illegal
  | beginsWith, .hash | between, .hash => .filter
  | unequal, _ | contains, _ | present, _ | absent, _ => .filter

end Operator

end Tablescope
