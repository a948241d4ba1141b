import Tablescope.Attribute.Value
import Tablescope.Error

/-!
# Primary keys

The key of one item: the value of the hash attribute and, where the key schema has one, of the range
attribute. A key can be made from values or from an item that holds them among others; either way
each value must be a scalar of the declared type, and the hash attribute is looked at first.
-/

namespace Tablescope

/-- An attribute name and the scalar it has. -/
abbrev Entry := String × Scalar

/-- The entry of an attribute with this value, if the value is a scalar of the attribute's type. -/
def Attribute.entry (a : Attribute) (v : Value) : Except InputError Entry :=
  match v.scalar? with
  | some s => if s.type = a.type then .ok (a.name, s) else .error (.keyTypeMismatch a.name a.type)
  | none => .error (.keyTypeMismatch a.name a.type)

/-- The entry of an attribute in an item. -/
def Attribute.entryOf (item : Item) (a : Attribute) : Except InputError Entry :=
  match item.get? a.name with
  | some v => a.entry v
  | none => .error (.missingKeyAttribute a.name)

/-- The item of these entries alone; of entries with one name the last stays. -/
def Item.ofEntries (es : List Entry) : Item := .ofList (es.map fun e => (e.1, .scalar e.2))

/-- The primary key of one item. -/
structure PrimaryKey where
  hash : Entry
  range : Option Entry
  deriving DecidableEq, Repr

namespace PrimaryKey

/-- The entries of the key, hash first. -/
def entries (k : PrimaryKey) : List Entry := k.hash :: k.range.toList

/-- The item that has the attributes of the key and no others. -/
def toItem (k : PrimaryKey) : Item := .ofEntries k.entries

/-- The key with these values. -/
def ofValues (schema : KeySchema) (hash : Value) (range : Option Value) :
    Except InputError PrimaryKey :=
  match schema.range, range with
  | none, none => do return ⟨← schema.hash.entry hash, none⟩
  | some a, some v => do
    let hash ← schema.hash.entry hash
    let range ← a.entry v
    return ⟨hash, some range⟩
  | _, _ => .error (.keyArity schema.arity (1 + range.toList.length))

/-- The key of an item. -/
def ofItem (schema : KeySchema) (item : Item) : Except InputError PrimaryKey :=
  match schema.range with
  | none => do return ⟨← schema.hash.entryOf item, none⟩
  | some a => do
    let hash ← schema.hash.entryOf item
    let range ← a.entryOf item
    return ⟨hash, some range⟩

end PrimaryKey

end Tablescope
