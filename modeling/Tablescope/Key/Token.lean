import Tablescope.Attribute.Coercion
import Tablescope.Key.Primary
import Tablescope.Text.Percent

/-!
# Key tokens

A token names an item in a URL: the texts of the key's values, percent-coded and joined by commas.
A comma inside a value is percent-coded like every other reserved character, so it is never taken
for the joint. Reading a token splits it, undoes the coding and reads each part as a value of the
attribute that it belongs to.
-/

namespace Tablescope.PrimaryKey

/-- The token of a key. -/
def token (k : PrimaryKey) : String :=
  ",".intercalate (k.entries.map fun e => Text.Percent.encode e.2.render)

/-- The entry that one part of a token writes. -/
def componentEntry (a : Attribute) (component : String) : Except InputError Entry :=
  match Text.Percent.decode component with
  | .ok text => do return (a.name, ← a.type.coerce a.name text)
  | .error _ => .error (.invalidToken component)

/-- The key that a token names. -/
def ofToken (schema : KeySchema) (token : String) : Except InputError PrimaryKey :=
  let components := (token.toList.splitOn ',').map String.ofList
  match schema.range, components with
  | none, [h] => do return ⟨← componentEntry schema.hash h, none⟩
  | some a, [h, r] => do
    let hash ← componentEntry schema.hash h
    let range ← componentEntry a r
    return ⟨hash, some range⟩
  | _, _ => .error (.keyArity schema.arity components.length)

end Tablescope.PrimaryKey
