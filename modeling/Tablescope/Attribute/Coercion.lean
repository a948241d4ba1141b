import Tablescope.Error

/-!
# Reading the value of an attribute

The raw text that is entered for an attribute becomes a scalar of the attribute's type. A text that
is none is refused with the attribute's name; for a number the text is quoted as it was entered,
blanks included.
-/

namespace Tablescope

/-- The scalar that a raw text entered for an attribute stands for. -/
def ScalarType.coerce (type : ScalarType) (name raw : String) : Except InputError Scalar :=
  match type.coerce? raw with
  | some s => .ok s
  | none =>
    .error <|
      match type with
      | .binary => .invalidBinary name
      | _ => .invalidNumber name raw

/-- The type that a text names. -/
def ScalarType.parse (text : String) : Except InputError ScalarType :=
  match ScalarType.ofDescriptor? text with
  | some type => .ok type
  | none => .error (.unknownScalarType text)

/-- The operator that a text names. -/
def Operator.parse (text : String) : Except InputError Operator :=
  match Operator.ofSymbol? text with
  | some operator => .ok operator
  | none => .error (.unknownOperator text)

end Tablescope
