import Tablescope.Json.Token

/-!
# JSON values

A value as its text has it: members of an object in order and with repetitions, numbers as they are
written. `compact` is the text without blanks and with the fewest escapes.
-/

namespace Tablescope

/-- A JSON value. -/
inductive Json where
  | null
  | bool (b : Bool)
  /-- A number, kept as it is written. -/
  | number (lexeme : String)
  | string (s : String)
  /-- A string that is no text, or an object with a name that is none: it is well written and can
  be passed over, but nothing can be read from it. -/
  | unreadable
  | array (elements : List Json)
  | object (members : List (String × Json))

namespace Json

/-- The number of an integer. -/
def ofInt (n : Int) : Json := .number (toString n)

/-- The number of a natural number. -/
def ofNat (n : Nat) : Json := .number (toString n)

/-- The string, or `null` where there is none. -/
def ofString? : Option String → Json
  | some s => .string s
  | none => .null

/-! ### Looking inside -/

/-- The text of a string. -/
def string? : Json → Option String
  | .string s => some s
  | _ => none

/-- The elements of an array. -/
def array? : Json → Option (List Json)
  | .array es => some es
  | _ => none

/-- The members of an object. -/
def object? : Json → Option (List (String × Json))
  | .object ms => some ms
  | _ => none

/-- The integer that a number without point and exponent writes; `-0` is none. -/
def int? : Json → Option Int
  | .number lexeme =>
    match lexeme.toList with
    | '-' :: ds =>
      if ds.all Char.isDigit && Nat.ofDigitChars 10 ds 0 != 0 then
        some (-(Nat.ofDigitChars 10 ds 0 : Int))
      else none
    | ds => if ds.all Char.isDigit then some (Nat.ofDigitChars 10 ds 0 : Int) else none
  | _ => none

/-- The natural number that a number without sign, point and exponent writes. -/
def nat? (j : Json) : Option Nat :=
  match j.int? with
  | some (.ofNat n) => some n
  | _ => none

/-- The value of the last member with this name. -/
def member? (name : String) (members : List (String × Json)) : Option Json :=
  (members.reverse.find? (·.1 = name)).map (·.2)

/-- The value of a member of an object; `null` where there is no such member or no object. -/
def get (j : Json) (name : String) : Json :=
  match j with
  | .object ms => (member? name ms).getD .null
  | _ => .null

/-- The value, if it is not `null`. -/
def present? : Json → Option Json
  | .null => none
  | j => some j

/-! ### Depth -/

mutual

/-- How many brackets of a value stand one inside the other. -/
def depth : Json → Nat
  | .array es => elementsDepth es + 1
  | .object ms => membersDepth ms + 1
  | _ => 0

/-- The greatest depth of an element. -/
def elementsDepth : List Json → Nat
  | [] => 0
  | e :: es => max (depth e) (elementsDepth es)

/-- The greatest depth of a member. -/
def membersDepth : List (String × Json) → Nat
  | [] => 0
  | (_, value) :: ms => max (depth value) (membersDepth ms)

end

/-! ### Writing -/

mutual

/-- The tokens of a value. -/
def tokens : Json → List Token
  | .null => [.null]
  | .bool b => [.bool b]
  | .number lexeme => [.number lexeme]
  | .string s => [.text s]
  | .unreadable => [.unpaired]
  | .array [] => [.openArray, .closeArray]
  | .array (e :: es) => .openArray :: (tokens e ++ elementTokens es ++ [.closeArray])
  | .object [] => [.openObject, .closeObject]
  | .object ((name, value) :: ms) =>
    .openObject :: .text name :: .colon :: (tokens value ++ memberTokens ms ++ [.closeObject])

/-- The tokens of further elements, each after a comma. -/
def elementTokens : List Json → List Token
  | [] => []
  | e :: es => .comma :: (tokens e ++ elementTokens es)

/-- The tokens of further members, each after a comma. -/
def memberTokens : List (String × Json) → List Token
  | [] => []
  | (name, value) :: ms => .comma :: .text name :: .colon :: (tokens value ++ memberTokens ms)

end

/-- The text of a value, with no blanks and the fewest escapes. -/
def compact (j : Json) : String := spell j.tokens

end Json

end Tablescope
