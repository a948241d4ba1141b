import Tablescope.Attribute.Coercion

/-!
# Criteria

A criterion is what a user enters to narrow down a reading: an attribute, an operator, a raw value
and the type in which the value is meant. `Criterion.operands` reads the value: nothing for the
operators that only ask whether the attribute is there, two comma-separated halves for `between`,
one operand for all others.
-/

namespace Tablescope

/-- A constraint on one attribute, as it is entered. -/
structure Criterion where
  name : String
  operator : Operator
  /-- The raw text of the operands. -/
  value : String
  type : ScalarType
  deriving DecidableEq, Repr

/-- What an attribute is compared with. -/
inductive Operands where
  | none
  | one (v : Scalar)
  /-- The least and the greatest value, both of them included. -/
  | pair (low high : Scalar)
  deriving DecidableEq, Repr

/-- How many operands an operator takes. -/
inductive Operator.Arity where
  | none
  | one
  | two
  deriving DecidableEq, Repr

/-- The number of operands of an operator. -/
def Operator.arity : Operator → Arity
  | present | absent => .none
  | between => .two
  | equal | unequal | less | lessOrEqual | greater | greaterOrEqual | beginsWith | contains => .one

namespace Criterion

/-- The comma-separated parts of the value, without the blanks around them. -/
def parts (c : Criterion) : List String :=
  (c.value.toList.splitOn ',').map fun part => String.ofList (Text.trimChars part)

/-- The operands that the value writes. -/
def operands (c : Criterion) : Except InputError Operands :=
  match c.operator.arity with
  | .none => .ok .none
  | .one => do return .one (← c.type.coerce c.name c.value)
  | .two =>
    match c.parts with
    | [low, high] => do
      let low ← c.type.coerce c.name low
      let high ← c.type.coerce c.name high
      return .pair low high
    | parts => .error (.betweenArity c.name parts.length)

end Criterion

end Tablescope
