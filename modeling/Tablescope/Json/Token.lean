import Tablescope.Numeral
import Tablescope.Text.Hex

/-!
# JSON tokens

A JSON text is read in two stages: characters are scanned into tokens, then tokens into a value.
What a string and a number look like is left to a `Lexicon`; all else is fixed. `Lexicon.strict`
follows RFC 8259 to the letter: a number has no leading zero and no plus sign, and a control
character never stands bare in a string. Blanks are space, tab, line feed and carriage return.
Where the characters stop being JSON the token `invalid` is put and scanning ends, so whoever reads
the tokens in order meets the faults of the text in order.

`Token.spelling` is the shortest text of a token: only the quote, the backslash and the control
characters are escaped. Tokens spelled one after the other are the compact form of a text.
-/

namespace Tablescope.Json

/-- One lexical item of a JSON text. -/
inductive Token where
  | openObject
  | closeObject
  | openArray
  | closeArray
  | colon
  | comma
  | null
  | bool (b : Bool)
  /-- A number, kept as it is written. -/
  | number (lexeme : String)
  /-- A string, its escapes undone. -/
  | text (s : String)
  /-- A string with a surrogate escape that has no partner: well written, but it is no text. -/
  | unpaired
  /-- What stands here is not JSON. -/
  | invalid
  deriving DecidableEq, Repr

/-! ### Strings -/

/-- One item between the quotes of a string: a character, or the number of a `\u` escape. -/
inductive CodeUnit where
  | plain (c : Char)
  | escape (n : Nat)
  deriving DecidableEq, Repr

/-- What the character after a backslash stands for. -/
def escaped? : Char → Option Char
  | '"' => some '"'
  | '\\' => some '\\'
  | '/' => some '/'
  | 'b' => some '\x08'
  | 'f' => some '\x0c'
  | 'n' => some '\n'
  | 'r' => some '\r'
  | 't' => some '\t'
  | _ => none

/-- The number that four hexadecimal digits write. -/
def hex4? (a b c d : Char) : Option Nat := do
  let w ← Text.Hex.value? a
  let x ← Text.Hex.value? b
  let y ← Text.Hex.value? c
  let z ← Text.Hex.value? d
  some (((w * 16 + x) * 16 + y) * 16 + z)

/-- The items up to the closing quote, and the characters behind it. -/
def quoted? : List Char → Option (List CodeUnit × List Char)
  | [] => none
  | '"' :: rest => some ([], rest)
  | '\\' :: 'u' :: a :: b :: c :: d :: rest => do
    let n ← hex4? a b c d
    let (units, after) ← quoted? rest
    some (.escape n :: units, after)
  | '\\' :: e :: rest => do
    let c ← escaped? e
    let (units, after) ← quoted? rest
    some (.plain c :: units, after)
  | c :: rest =>
    if c.toNat < 0x20 then none
    else do
      let (units, after) ← quoted? rest
      some (.plain c :: units, after)

/-- Reading a string uses up at least its closing quote. -/
theorem length_of_quoted? {cs : List Char} {units : List CodeUnit} {after : List Char}
    (h : quoted? cs = some (units, after)) : after.length < cs.length := by
  fun_induction quoted? cs generalizing units after with
  | case1 => simp at h
  | case2 rest => simp_all
  | case3 a b c d rest ih =>
    simp only [Option.bind_eq_bind, Option.bind_eq_some_iff] at h
    obtain ⟨n, -, ⟨us, af⟩, hq, he⟩ := h
    have := ih hq
    simp_all
    omega
  | case4 e rest _ ih =>
    simp only [Option.bind_eq_bind, Option.bind_eq_some_iff] at h
    obtain ⟨n, -, ⟨us, af⟩, hq, he⟩ := h
    have := ih hq
    simp_all
    omega
  | case5 => simp at h
  | case6 c rest _ _ _ _ ih =>
    simp only [Option.bind_eq_bind, Option.bind_eq_some_iff] at h
    obtain ⟨⟨us, af⟩, hq, he⟩ := h
    have := ih hq
    simp_all
    omega

/-- The first half of a surrogate pair. -/
def isHigh (n : Nat) : Bool := 0xD800 ≤ n && n ≤ 0xDBFF

/-- The second half of a surrogate pair. -/
def isLow (n : Nat) : Bool := 0xDC00 ≤ n && n ≤ 0xDFFF

/-- The characters of the items, two escapes that form a surrogate pair being one character; none
if a surrogate is left without its partner. -/
def joinUnits? : List CodeUnit → Option (List Char)
  | [] => some []
  | .plain c :: rest => (joinUnits? rest).map (c :: ·)
  | .escape n :: rest =>
    if isHigh n then
      match rest with
      | .escape m :: rest =>
        if isLow m then
          (joinUnits? rest).map (Char.ofNat (0x10000 + (n - 0xD800) * 0x400 + (m - 0xDC00)) :: ·)
        else none
      | _ => none
    else if isLow n then none
    else (joinUnits? rest).map (Char.ofNat n :: ·)

/-- The token of a string with these items. -/
def Token.ofUnits (units : List CodeUnit) : Token :=
  match joinUnits? units with
  | some cs => .text (String.ofList cs)
  | none => .unpaired

/-! ### Words and numbers -/

/-- Whether a run of characters is a JSON number. -/
def isNumberLexeme (cs : List Char) : Bool :=
  let unsigned := match cs with
    | '-' :: rest => rest
    | cs => cs
  let (whole, part, rest) := Numeral.splitPoint unsigned
  let pointed := (unsigned.drop whole.length).head? = some '.'
  !whole.isEmpty && (whole.length = 1 || whole.head? != some '0') && (!pointed || !part.isEmpty) &&
    (Numeral.exponent? rest).isSome

/-- The token of a run of letters, digits, signs and points, of which `isNumber` are numbers. -/
def Token.ofRun (isNumber : List Char → Bool) (cs : List Char) : Token :=
  if cs = ['n', 'u', 'l', 'l'] then .null
  else if cs = ['t', 'r', 'u', 'e'] then .bool true
  else if cs = ['f', 'a', 'l', 's', 'e'] then .bool false
  else if isNumber cs then .number (String.ofList cs)
  else .invalid

/-- The characters that words and numbers are made of. -/
def isRunChar (c : Char) : Bool := c.isAlphanum || c = '+' || c = '-' || c = '.'

/-! ### Scanning -/

/-- What strings and numbers look like. -/
structure Lexicon where
  /-- The token of a string whose opening quote has been read, and the characters behind it. -/
  string? : List Char → Option (Token × List Char)
  /-- Whether a run of characters is a number. -/
  isNumber : List Char → Bool
  /-- Reading a string uses up at least its closing quote. -/
  shorter : ∀ {cs t after}, string? cs = some (t, after) → after.length < cs.length

/-- Strings and numbers as RFC 8259 has them; the escapes in strings are undone. -/
def Lexicon.strict : Lexicon where
  string? cs := (quoted? cs).map fun r => (Token.ofUnits r.1, r.2)
  isNumber := isNumberLexeme
  shorter h := by
    simp only [Option.map_eq_some_iff, Prod.mk.injEq] at h
    obtain ⟨⟨units, rest⟩, hq, -, rfl⟩ := h
    exact length_of_quoted? hq

/-- The blanks of JSON. -/
def isSpace (c : Char) : Bool := c = ' ' || c = '\t' || c = '\n' || c = '\r'

/-- The token of a character that is one by itself. -/
def Token.ofPunctuation? : Char → Option Token
  | '\x7b' => some .openObject
  | '\x7d' => some .closeObject
  | '[' => some .openArray
  | ']' => some .closeArray
  | ':' => some .colon
  | ',' => some .comma
  | _ => none

/-- The tokens of a text, up to and including the first `invalid` one. -/
def scan (lexicon : Lexicon) : List Char → List Token
  | [] => []
  | c :: rest =>
    if isSpace c then scan lexicon rest
    else
      match Token.ofPunctuation? c with
      | some t => t :: scan lexicon rest
      | none =>
        if c = '"' then
          match _h : lexicon.string? rest with
          | some (t, after) => t :: scan lexicon after
          | none => [.invalid]
        else
          match Token.ofRun lexicon.isNumber (c :: rest.takeWhile isRunChar) with
          | .invalid => [.invalid]
          | t => t :: scan lexicon (rest.dropWhile isRunChar)
  termination_by cs => cs.length
  decreasing_by
    · simp
    · simp
    · have := lexicon.shorter ‹lexicon.string? rest = _›
      simp only [List.length_cons]
      omega
    · have := (List.dropWhile_sublist isRunChar (l := rest)).length_le
      simp only [List.length_cons]
      omega

/-! ### Spelling -/

/-- How a character is written inside a string. -/
def escapeChar (c : Char) : List Char :=
  if c = '"' then ['\\', '"']
  else if c = '\\' then ['\\', '\\']
  else if c = '\x08' then ['\\', 'b']
  else if c = '\x0c' then ['\\', 'f']
  else if c = '\n' then ['\\', 'n']
  else if c = '\r' then ['\\', 'r']
  else if c = '\t' then ['\\', 't']
  else if c.toNat < 0x20 then
    ['\\', 'u', '0', '0', Text.Hex.lower (c.toNat / 16), Text.Hex.lower (c.toNat % 16)]
  else [c]

/-- A string literal. -/
def quote (cs : List Char) : List Char := '"' :: (cs.flatMap escapeChar ++ ['"'])

/-- The shortest characters of a token; `invalid` has none, and a surrogate without its partner is
written as the first there is. -/
def Token.spelling : Token → List Char
  | .openObject => ['\x7b']
  | .closeObject => ['\x7d']
  | .openArray => ['[']
  | .closeArray => [']']
  | .colon => [':']
  | .comma => [',']
  | .null => ['n', 'u', 'l', 'l']
  | .bool true => ['t', 'r', 'u', 'e']
  | .bool false => ['f', 'a', 'l', 's', 'e']
  | .number lexeme => lexeme.toList
  | .text s => quote s.toList
  | .unpaired => ['"', '\\', 'u', 'd', '8', '0', '0', '"']
  | .invalid => []

/-- The text of tokens with nothing between them. -/
def spell (ts : List Token) : String := String.ofList (ts.flatMap Token.spelling)

end Tablescope.Json
