import Tablescope.Attribute.Scalar

/-!
# Key schemas

The primary key of a table or of one of its indexes is a hash attribute, alone or together with a
range attribute. `KeySchema.attributes` lists them, hash first, and every rule that goes through
the attributes of a key goes through them in that order.
-/

namespace Tablescope

/-- An attribute name with the scalar type it is declared with. -/
structure Attribute where
  name : String
  type : ScalarType
  deriving DecidableEq, Repr

/-- Which part of a key an attribute is. -/
inductive KeyRole where
  | hash
  | range
  deriving DecidableEq, Repr

/-- The primary key of a table or of one index. -/
structure KeySchema where
  hash : Attribute
  range : Option Attribute
  deriving DecidableEq, Repr

namespace KeySchema

/-- The attributes of the key, hash first. -/
def attributes (k : KeySchema) : List Attribute := k.hash :: k.range.toList

/-- How many attributes the key has, one or two. -/
def arity (k : KeySchema) : Nat := k.attributes.length

/-- The role that the attribute of this name plays, and the attribute. A name that is both hash and
range counts as hash. -/
def role? (k : KeySchema) (name : String) : Option (KeyRole × Attribute) :=
  if k.hash.name = name then some (.hash, k.hash)
  else (k.range.filter (·.name = name)).map (.range, ·)

end KeySchema

end Tablescope
