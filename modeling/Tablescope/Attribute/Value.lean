import Tablescope.Attribute.Scalar
import Tablescope.NameMap

/-!
# Attribute values and items

An attribute holds a scalar or one of the values that cannot be part of a key: a truth value,
nothing, a set of scalars of one type, a list or a map. A service may also hand out a value of a
type that nobody here knows; it is there, but nothing more can be said of it. An item is a map from
attribute names to values. The entries of a map inside a value ascend by name, as those of `NameMap`
do, so that equal maps are equal values; `Value.ofMap` makes one.
-/

namespace Tablescope

/-- What an attribute holds. -/
inductive Value where
  | scalar (s : Scalar)
  | bool (b : Bool)
  /-- The marker of an attribute without a value. -/
  | null (b : Bool)
  | textSet (members : List String)
  | numberSet (members : List String)
  | binarySet (members : List (List UInt8))
  | list (elements : List Value)
  /-- A map; its entries ascend by name. -/
  | map (entries : List (String × Value))
  /-- A value of a type that is not known. -/
  | unknown

namespace Value

/-- The scalar that a value is, if it is one. -/
def scalar? : Value → Option Scalar
  | scalar s => some s
  | _ => none

/-- The type of the scalar that a value is, if it is one. -/
def type? (v : Value) : Option ScalarType := v.scalar?.map Scalar.type

/-- The text of a value that is a scalar of this type. -/
def renderAs? (type : ScalarType) : Value → Option String
  | scalar s => if s.type = type then some s.render else none
  | _ => none

/-- The value of a map. -/
def ofMap (m : NameMap Value) : Value := .map m.toList

/-! ### Equality -/

mutual

/-- Whether two values are the same. -/
def decEq : (v w : Value) → Decidable (v = w)
  | .scalar s, .scalar t =>
    if h : s = t then isTrue (h ▸ rfl) else isFalse fun e => h (by injection e)
  | .bool b, .bool c =>
    if h : b = c then isTrue (h ▸ rfl) else isFalse fun e => h (by injection e)
  | .null b, .null c =>
    if h : b = c then isTrue (h ▸ rfl) else isFalse fun e => h (by injection e)
  | .textSet xs, .textSet ys =>
    if h : xs = ys then isTrue (h ▸ rfl) else isFalse fun e => h (by injection e)
  | .numberSet xs, .numberSet ys =>
    if h : xs = ys then isTrue (h ▸ rfl) else isFalse fun e => h (by injection e)
  | .binarySet xs, .binarySet ys =>
    if h : xs = ys then isTrue (h ▸ rfl) else isFalse fun e => h (by injection e)
  | .list vs, .list ws =>
    match decEqList vs ws with
    | isTrue h => isTrue (h ▸ rfl)
    | isFalse h => isFalse fun e => h (by injection e)
  | .map es, .map fs =>
    match decEqEntries es fs with
    | isTrue h => isTrue (h ▸ rfl)
    | isFalse h => isFalse fun e => h (by injection e)
  | .unknown, .unknown => isTrue rfl
  | .scalar _, .bool _ | .scalar _, .null _ | .scalar _, .textSet _ | .scalar _, .numberSet _
  | .scalar _, .binarySet _ | .scalar _, .list _ | .scalar _, .map _ | .scalar _, .unknown
  | .bool _, .scalar _ | .bool _, .null _ | .bool _, .textSet _ | .bool _, .numberSet _
  | .bool _, .binarySet _ | .bool _, .list _ | .bool _, .map _ | .bool _, .unknown
  | .null _, .scalar _ | .null _, .bool _ | .null _, .textSet _ | .null _, .numberSet _
  | .null _, .binarySet _ | .null _, .list _ | .null _, .map _ | .null _, .unknown
  | .textSet _, .scalar _ | .textSet _, .bool _ | .textSet _, .null _ | .textSet _, .numberSet _
  | .textSet _, .binarySet _ | .textSet _, .list _ | .textSet _, .map _ | .textSet _, .unknown
  | .numberSet _, .scalar _ | .numberSet _, .bool _ | .numberSet _, .null _
  | .numberSet _, .textSet _ | .numberSet _, .binarySet _ | .numberSet _, .list _
  | .numberSet _, .map _ | .numberSet _, .unknown
  | .binarySet _, .scalar _ | .binarySet _, .bool _ | .binarySet _, .null _
  | .binarySet _, .textSet _ | .binarySet _, .numberSet _ | .binarySet _, .list _
  | .binarySet _, .map _ | .binarySet _, .unknown
  | .list _, .scalar _ | .list _, .bool _ | .list _, .null _ | .list _, .textSet _
  | .list _, .numberSet _ | .list _, .binarySet _ | .list _, .map _ | .list _, .unknown
  | .map _, .scalar _ | .map _, .bool _ | .map _, .null _ | .map _, .textSet _
  | .map _, .numberSet _ | .map _, .binarySet _ | .map _, .list _ | .map _, .unknown
  | .unknown, .scalar _ | .unknown, .bool _ | .unknown, .null _ | .unknown, .textSet _
  | .unknown, .numberSet _ | .unknown, .binarySet _ | .unknown, .list _
  | .unknown, .map _ => isFalse nofun

/-- Whether two lists of values are the same. -/
def decEqList : (vs ws : List Value) → Decidable (vs = ws)
  | [], [] => isTrue rfl
  | [], _ :: _ => isFalse nofun
  | _ :: _, [] => isFalse nofun
  | v :: vs, w :: ws =>
    match decEq v w, decEqList vs ws with
    | isTrue h, isTrue hs => isTrue (h ▸ hs ▸ rfl)
    | isFalse h, _ => isFalse fun e => h (by injection e)
    | _, isFalse hs => isFalse fun e => hs (by injection e)

/-- Whether two lists of entries are the same. -/
def decEqEntries : (es fs : List (String × Value)) → Decidable (es = fs)
  | [], [] => isTrue rfl
  | [], _ :: _ => isFalse nofun
  | _ :: _, [] => isFalse nofun
  | (m, v) :: es, (n, w) :: fs =>
    if hn : m = n then
      match decEq v w, decEqEntries es fs with
      | isTrue h, isTrue hs => isTrue (hn ▸ h ▸ hs ▸ rfl)
      | isFalse h, _ => isFalse fun e => h (by injection e with e; injection e)
      | _, isFalse hs => isFalse fun e => hs (by injection e)
    else isFalse fun e => hn (by injection e with e; injection e)

end

instance : DecidableEq Value := decEq

end Value

/-- A record of a table: attribute names and what they hold. -/
abbrev Item := NameMap Value

end Tablescope
