import Tablescope.Filter.Criterion
import Tablescope.NameMap

/-!
# Expressions

Criteria are compiled into clauses over placeholders: the criterion at position `i` speaks of its
attribute as `#key i` and of its operands as `:key i`, or `:key i _start` and `:key i _end`, so that
no character of a name or value ever gets into an expression. Clauses on attributes of the key that
is read form the key condition where the key allows it; all others are filters.

`compile` goes through the criteria in order and stops at the first that cannot be compiled. For one
criterion the faults are looked for in this order: an operator that no key condition knows, a type
other than the key's, a second key condition on the attribute, the operands.
-/

namespace Tablescope

/-! ### Clauses -/

/-- The clause of the criterion at a position. The operator decides its form. -/
structure Clause where
  index : Nat
  operator : Operator
  deriving DecidableEq, Repr

namespace Clause

/-- The placeholder of the attribute name. -/
def nameKey (index : Nat) : String := "#key" ++ toString index

/-- The placeholder of the only operand. -/
def valueKey (index : Nat) : String := ":key" ++ toString index

/-- The placeholder of the lower operand of two. -/
def startKey (index : Nat) : String := valueKey index ++ "_start"

/-- The placeholder of the upper operand of two. -/
def endKey (index : Nat) : String := valueKey index ++ "_end"

/-- A clause as text. -/
def text (c : Clause) : String :=
  let name := nameKey c.index
  let value := valueKey c.index
  match c.operator with
  | .present | .absent => c.operator.symbol ++ "(" ++ name ++ ")"
  | .beginsWith | .contains => c.operator.symbol ++ "(" ++ name ++ ", " ++ value ++ ")"
  | .between => name ++ " BETWEEN " ++ startKey c.index ++ " AND " ++ endKey c.index
  | .equal | .unequal | .less | .lessOrEqual | .greater | .greaterOrEqual =>
    name ++ " " ++ c.operator.symbol ++ " " ++ value

/-- Clauses as one expression, all of which must hold; none if there are no clauses. -/
def join? : List Clause → Option String
  | [] => none
  | cs => some (" AND ".intercalate (cs.map text))

end Clause

/-! ### Conditions -/

/-- A compiled criterion. -/
structure Condition where
  /-- The position of the criterion. -/
  index : Nat
  name : String
  operator : Operator
  operands : Operands
  /-- Whether it is part of the key condition. -/
  isKey : Bool
  deriving DecidableEq, Repr

namespace Condition

/-- The clause of a condition. -/
def clause (c : Condition) : Clause := ⟨c.index, c.operator⟩

/-- What the placeholders of the operands stand for. -/
def bindings (c : Condition) : List (String × Scalar) :=
  match c.operands with
  | .none => []
  | .one v => [(Clause.valueKey c.index, v)]
  | .pair low high => [(Clause.startKey c.index, low), (Clause.endKey c.index, high)]

end Condition

/-- Compiled criteria, in the order of the criteria. -/
structure ExpressionSet where
  conditions : List Condition
  deriving DecidableEq, Repr

namespace ExpressionSet

/-- The clauses of the key condition. -/
def keyConditions (e : ExpressionSet) : List Clause :=
  (e.conditions.filter (·.isKey)).map Condition.clause

/-- The clauses of the filter. -/
def filters (e : ExpressionSet) : List Clause :=
  (e.conditions.filter (!·.isKey)).map Condition.clause

/-- What the placeholders of attribute names stand for. -/
def names (e : ExpressionSet) : NameMap String :=
  .ofList (e.conditions.map fun c => (Clause.nameKey c.index, c.name))

/-- What the placeholders of operands stand for. -/
def values (e : ExpressionSet) : NameMap Scalar :=
  .ofList (e.conditions.flatMap Condition.bindings)

/-- The key condition as text, if there is one. -/
def keyCondition? (e : ExpressionSet) : Option String := Clause.join? e.keyConditions

/-- The filter as text, if there is one. -/
def filter? (e : ExpressionSet) : Option String := Clause.join? e.filters

end ExpressionSet

/-! ### Compilation -/

/-- Whether a criterion becomes a key condition of the key that is read, where `taken` are the
attributes that have one already. -/
def Criterion.isKey (active : Option KeySchema) (taken : List String) (c : Criterion) :
    Except InputError Bool :=
  match active.bind (·.role? c.name) with
  | none => .ok false
  | some (role, attr) =>
    match c.operator.placement role with
    | .filter => .ok false
    | .illegal => .error (.illegalKeyCondition c.name c.operator)
    | .keyCondition =>
      if attr.type ≠ c.type then .error (.keyTypeMismatch c.name attr.type)
      else if c.name ∈ taken then .error (.duplicateKeyCondition c.name)
      else .ok true

/-- The conditions of criteria of which the first has this position. -/
def compileFrom (active : Option KeySchema) (index : Nat) (taken : List String) :
    List Criterion → Except InputError (List Condition)
  | [] => .ok []
  | c :: cs => do
    let isKey ← c.isKey active taken
    let operands ← c.operands
    let rest ← compileFrom active (index + 1) (if isKey then c.name :: taken else taken) cs
    return ⟨index, c.name, c.operator, operands, isKey⟩ :: rest

/-- Compiles criteria for a reading by this key; with no key every criterion becomes a filter. -/
def compile (criteria : List Criterion) (active : Option KeySchema) :
    Except InputError ExpressionSet :=
  (compileFrom active 0 [] criteria).map ExpressionSet.mk

end Tablescope
