/-!
# Base64

Bytes as text over the sixty-four letters `A-Z a-z 0-9 + /`, three bytes to four letters, the last
group filled up with `=`. Decoding is strict: no blanks, no missing padding, and the bits that
padding leaves over must be zero, so a byte string has one written form.
-/

namespace Tablescope.Text.Base64

/-- The letter of a number below sixty-four. -/
def letter (n : Nat) : Char :=
  if n < 26 then Char.ofNat (65 + n)
  else if n < 52 then Char.ofNat (71 + n)
  else if n < 62 then Char.ofNat (n - 4)
  else if n = 62 then '+'
  else '/'

/-- The number of a letter. -/
def value? (c : Char) : Option Nat :=
  if 'A' ≤ c && c ≤ 'Z' then some (c.toNat - 65)
  else if 'a' ≤ c && c ≤ 'z' then some (c.toNat - 71)
  else if '0' ≤ c && c ≤ '9' then some (c.toNat + 4)
  else if c = '+' then some 62
  else if c = '/' then some 63
  else none

/-- The letters of a byte string. -/
def encodeBytes : List UInt8 → List Char
  | [] => []
  | [a] => [letter (a.toNat / 4), letter (a.toNat % 4 * 16), '=', '=']
  | [a, b] =>
    [letter (a.toNat / 4), letter (a.toNat % 4 * 16 + b.toNat / 16), letter (b.toNat % 16 * 4), '=']
  | a :: b :: c :: rest =>
    letter (a.toNat / 4) :: letter (a.toNat % 4 * 16 + b.toNat / 16) ::
      letter (b.toNat % 16 * 4 + c.toNat / 64) :: letter (c.toNat % 64) :: encodeBytes rest

/-- The text of a byte string. -/
def encode (bytes : List UInt8) : String := String.ofList (encodeBytes bytes)

/-- The last byte of two letters before `==`; the four bits left over are zero. -/
def lastOne? (a b : Char) : Option (List UInt8) := do
  let m ← value? a
  let n ← value? b
  if n % 16 = 0 then some [UInt8.ofNat (m * 4 + n / 16)] else none

/-- The last two bytes of three letters before `=`; the two bits left over are zero. -/
def lastTwo? (a b c : Char) : Option (List UInt8) := do
  let m ← value? a
  let n ← value? b
  let o ← value? c
  if o % 4 = 0 then
    some [UInt8.ofNat (m * 4 + n / 16), UInt8.ofNat (n % 16 * 16 + o / 4)]
  else none

/-- The three bytes of four letters. -/
def three? (a b c d : Char) : Option (List UInt8) := do
  let m ← value? a
  let n ← value? b
  let o ← value? c
  let p ← value? d
  some [UInt8.ofNat (m * 4 + n / 16), UInt8.ofNat (n % 16 * 16 + o / 4),
    UInt8.ofNat (o % 4 * 64 + p)]

/-- The bytes of a list of letters. -/
def decodeChars? : List Char → Option (List UInt8)
  | [] => some []
  | [a, b, c, d] =>
    if d = '=' then if c = '=' then lastOne? a b else lastTwo? a b c else three? a b c d
  | a :: b :: c :: d :: rest => do
    let bytes ← three? a b c d
    let more ← decodeChars? rest
    some (bytes ++ more)
  | _ => none

/-- The bytes of a text. -/
def decode? (s : String) : Option (List UInt8) := decodeChars? s.toList

end Tablescope.Text.Base64
