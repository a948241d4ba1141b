import Tablescope.Json.Basic

/-!
# Reading JSON

`Json.parse?` reads one value from a whole text and nothing else. Each function below takes the
tokens still unread and gives the rest after what it has read. Every call that reads a value,
element or member passes on less fuel, and a text is read with more fuel than its tokens can use.
-/

namespace Tablescope.Json

/-- The name that a string token gives to a member; `some none` if the string is no text. -/
def Token.name? : Token → Option (Option String)
  | .text s => some (some s)
  | .unpaired => some none
  | _ => none

/-- An object with these members, unless one has a name that is no text. -/
def ofMembers (ms : List (Option String × Json)) : Json :=
  match ms.mapM fun m => m.1.map fun name => (name, m.2) with
  | some named => .object named
  | none => .unreadable

mutual

/-- One value and the tokens after it. -/
def readValue : Nat → List Token → Option (Json × List Token)
  | 0, _ => none
  | _ + 1, .null :: ts => some (.null, ts)
  | _ + 1, .bool b :: ts => some (.bool b, ts)
  | _ + 1, .number lexeme :: ts => some (.number lexeme, ts)
  | _ + 1, .text s :: ts => some (.string s, ts)
  | _ + 1, .unpaired :: ts => some (.unreadable, ts)
  | _ + 1, .openArray :: .closeArray :: ts => some (.array [], ts)
  | fuel + 1, .openArray :: ts => do
    let (es, rest) ← readElements fuel ts
    some (.array es, rest)
  | _ + 1, .openObject :: .closeObject :: ts => some (.object [], ts)
  | fuel + 1, .openObject :: ts => do
    let (ms, rest) ← readMembers fuel ts
    some (ofMembers ms, rest)
  | _ + 1, _ => none

/-- The elements of an array, at least one, and the tokens after its closing bracket. -/
def readElements : Nat → List Token → Option (List Json × List Token)
  | 0, _ => none
  | fuel + 1, ts => do
    let (e, rest) ← readValue fuel ts
    match rest with
    | .comma :: rest =>
      let (es, rest) ← readElements fuel rest
      some (e :: es, rest)
    | .closeArray :: rest => some ([e], rest)
    | _ => none

/-- The members of an object, at least one, and the tokens after its closing brace. -/
def readMembers : Nat → List Token → Option (List (Option String × Json) × List Token)
  | 0, _ => none
  | fuel + 1, t :: .colon :: ts => do
    let name ← t.name?
    let (value, rest) ← readValue fuel ts
    match rest with
    | .comma :: rest =>
      let (ms, rest) ← readMembers fuel rest
      some ((name, value) :: ms, rest)
    | .closeObject :: rest => some ([(name, value)], rest)
    | _ => none
  | _ + 1, _ => none

end

/-- The value that all the tokens write. -/
def ofTokens? (ts : List Token) : Option Json :=
  match readValue (2 * ts.length + 1) ts with
  | some (j, []) => some j
  | _ => none

/-- The value that a text writes. -/
def parse? (s : String) : Option Json := ofTokens? (scan .strict s.toList)

end Tablescope.Json
