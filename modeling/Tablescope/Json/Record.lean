import Tablescope.Json.Reader

/-!
# Records

How values with known fields are read from JSON. A record is an object, of whose members those with
unknown names are passed over and those with known names must not be repeated; or it is an array of
the fields in order, of which the last may be left out. A variant without content is its tag, alone
or as the name of an object's only member, which is then `null`.
-/

namespace Tablescope.Json

/-- The member with this name, where there may be one at most. -/
def field? (members : List (String × Json)) (name : String) : Option (Option Json) :=
  match members.filter (·.1 = name) with
  | [] => some none
  | [m] => some (some m.2)
  | _ => none

/-- The values of the fields, each one or nothing. -/
def record? (fields : List String) : Json → Option (List (Option Json))
  | .object members => fields.mapM (field? members)
  | .array values =>
    if values.length ≤ fields.length then
      some (values.map some ++ List.replicate (fields.length - values.length) none)
    else none
  | _ => none

/-- The tag of a variant without content. -/
def tag? : Json → Option String
  | .string tag => some tag
  | .object [(tag, .null)] => some tag
  | _ => none

/-- Reads a field that may be left out. -/
def optional? {α : Type} (missing : α) (read : Json → Option α) : Option Json → Option α
  | none => some missing
  | some j => read j

end Tablescope.Json
