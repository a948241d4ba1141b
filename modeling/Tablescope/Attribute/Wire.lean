import Tablescope.Attribute.Value
import Tablescope.Json.Verbatim

/-!
# Attribute values on the wire

A value is written as a JSON object with one member, whose name tells the type: `S`, `N` and `B`
for scalars, `BOOL` and `NULL`, `SS`, `NS` and `BS` for sets, `L` for a list and `M` for a map.
Numbers travel as text and bytes as base64.

A value is read from verbatim JSON. Members that are `null` do not count, a member `__type` is a
remark, and exactly one other must be there. Where its name is none of the above, the value is of an
unknown type and may hold anything. Texts have their escapes undone; base64 has none to undo, so it
must be written without. What is passed over may be nested 512 deep, and a value may stand so deep
in its document that its own brackets are inside no more than 127 others.
-/

namespace Tablescope

/-- The wire form of a scalar. -/
def Scalar.toJson (s : Scalar) : Json := .object [(s.type.descriptor, .string s.render)]

namespace Value

mutual

/-- The wire form of a value; one of unknown type has nothing to show. -/
def toJson : Value → Json
  | .scalar s => s.toJson
  | .bool b => .object [("BOOL", .bool b)]
  | .null b => .object [("NULL", .bool b)]
  | .textSet ss => .object [("SS", .array (ss.map .string))]
  | .numberSet ns => .object [("NS", .array (ns.map .string))]
  | .binarySet bs => .object [("BS", .array (bs.map fun b => .string (Text.Base64.encode b)))]
  | .list vs => .object [("L", .array (listToJson vs))]
  | .map es => .object [("M", .object (entriesToJson es))]
  | .unknown => .object []

/-- The wire forms of the elements of a list. -/
def listToJson : List Value → List Json
  | [] => []
  | v :: vs => toJson v :: listToJson vs

/-- The wire forms of the entries of a map. -/
def entriesToJson : List (String × Value) → List (String × Json)
  | [] => []
  | (name, v) :: es => (name, toJson v) :: entriesToJson es

end

/-! ### Reading -/

/-- The names of the members that hold values of known types. -/
def tags : List String := ["S", "N", "B", "BOOL", "NULL", "SS", "NS", "BS", "L", "M"]

/-- How deep the brackets of a value may stand in a document, the outermost bracket counted. -/
def maxLevel : Nat := 128

/-- Whether a value can be passed over without being read. -/
def isPassable (j : Json) : Bool := j.depth ≤ 512

/-- The text of a verbatim string. -/
def readText? (j : Json) : Option String := j.string?.bind Json.unescape?

/-- The bytes of a verbatim string in base64. -/
def readBytes? (j : Json) : Option (List UInt8) := j.string?.bind Text.Base64.decode?

mutual

/-- The value of a wire form whose bracket has this level in its document. -/
def ofVerbatim? (level : Nat) : Json → Option Value
  | .object ms => if level ≤ maxLevel then ofMembers? level none ms else none
  | _ => none

/-- The value of the one member that counts, behind members of which one may have been found. -/
def ofMembers? (level : Nat) (found : Option Value) : List (String × Json) → Option Value
  | [] => found
  | (_, .null) :: ms => ofMembers? level found ms
  | (name, payload) :: ms => do
    let tag ← Json.unescape? name
    if tag = "__type" then
      if isPassable payload then ofMembers? level found ms else none
    else if found.isSome then none
    else
      let v ← ofTagged? (level + 1) tag payload
      ofMembers? level (some v) ms

/-- The value of a payload of the type that the tag names, where a bracket has this level. -/
def ofTagged? (level : Nat) (tag : String) : Json → Option Value
  | .string s =>
    match tag with
    | "S" => (Json.unescape? s).map fun text => .scalar (.text text)
    | "N" => (Json.unescape? s).map fun text => .scalar (.number text)
    | "B" => (Text.Base64.decode? s).map fun bytes => .scalar (.binary bytes)
    | _ => if tag ∈ tags then none else some .unknown
  | .bool b =>
    match tag with
    | "BOOL" => some (.bool b)
    | "NULL" => some (.null b)
    | _ => if tag ∈ tags then none else some .unknown
  | .array es =>
    if tag ∉ tags then if isPassable (.array es) then some .unknown else none
    else if maxLevel < level then none
    else
      match tag with
      | "SS" => (es.mapM readText?).map .textSet
      | "NS" => (es.mapM readText?).map .numberSet
      | "BS" => (es.mapM readBytes?).map .binarySet
      | "L" => (ofElements? (level + 1) es).map .list
      | _ => none
  | .object ms =>
    if tag ∉ tags then if isPassable (.object ms) then some .unknown else none
    else if maxLevel < level then none
    else
      match tag with
      | "M" => (ofEntries? (level + 1) ms).map fun es => .ofMap (.ofList es)
      | _ => none
  | _ => if tag ∈ tags then none else some .unknown

/-- The values of the elements of a list, whose brackets have this level. -/
def ofElements? (level : Nat) : List Json → Option (List Value)
  | [] => some []
  | e :: es => do
    let v ← ofVerbatim? level e
    let vs ← ofElements? level es
    some (v :: vs)

/-- The entries of a map, whose values have brackets of this level. -/
def ofEntries? (level : Nat) : List (String × Json) → Option (List (String × Value))
  | [] => some []
  | (name, payload) :: ms => do
    let key ← Json.unescape? name
    let v ← ofVerbatim? level payload
    let es ← ofEntries? level ms
    some ((key, v) :: es)

end

end Value

/-- The wire form of an item. -/
def Item.toJson (item : Item) : Json := .object (Value.entriesToJson item.toList)

/-- The item of a wire form whose bracket has this level in its document. -/
def Item.ofVerbatim? (level : Nat) : Json → Option Item
  | .object ms => (Value.ofEntries? (level + 1) ms).map .ofList
  | _ => none

end Tablescope
