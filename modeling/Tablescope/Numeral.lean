/-!
# Decimal numerals

A numeral is an optional sign, digits with at most one point among, before or after them, and an
optional power of ten: `-1.50`, `.5`, `5.`, `1e+3`. Its digits, of any length, denote an exact
rational number. A numeral is *in range* when that number is below `2^1024 - 2^970` in size, from
where on binary double precision rounds to infinity.

Being in range is settled without large powers. A number of `k` digits is below `10^k`, so a
negative power of ten that is at least as long as the digits makes the number less than one, and a
positive power past 308 is out of range for every number but zero.
-/

namespace Tablescope

/-- An unsigned numeral: `mantissa * 10 ^ exponent`, the mantissa written with `width` digits. -/
structure Numeral where
  /-- The digits before and after the point, read as one number. -/
  mantissa : Nat
  /-- How many digits the mantissa is written with. -/
  width : Nat
  /-- The power of ten that the digits are scaled by. -/
  exponent : Int
  deriving DecidableEq, Repr

namespace Numeral

/-- The text without its first character, if that is a plus or minus sign. -/
def dropSign : List Char → List Char
  | '+' :: rest => rest
  | '-' :: rest => rest
  | cs => cs

/-- The power of ten that a text asks for: nothing, or `e` or `E`, a sign or none, and digits. -/
def exponent? : List Char → Option Int
  | [] => some 0
  | e :: rest =>
    let digits := dropSign rest
    if (e = 'e' || e = 'E') && !digits.isEmpty && digits.all Char.isDigit then
      let n : Int := Nat.ofDigitChars 10 digits 0
      some (if rest.head? = some '-' then -n else n)
    else none

/-- The digits before the point, the digits after it, and what follows. -/
def splitPoint (cs : List Char) : List Char × List Char × List Char :=
  let whole := cs.takeWhile Char.isDigit
  match cs.dropWhile Char.isDigit with
  | '.' :: rest => (whole, rest.takeWhile Char.isDigit, rest.dropWhile Char.isDigit)
  | rest => (whole, [], rest)

/-- The numeral that a text without a sign writes. -/
def ofUnsigned? (cs : List Char) : Option Numeral :=
  let (whole, part, rest) := splitPoint cs
  let digits := whole ++ part
  if digits.isEmpty then none
  else
    (exponent? rest).map fun e =>
      { mantissa := Nat.ofDigitChars 10 digits 0
        width := digits.length
        exponent := e - part.length }

/-- The numeral that a text writes, whatever its sign. -/
def ofChars? (cs : List Char) : Option Numeral := ofUnsigned? (dropSign cs)

/-- Numbers of this size and above round to infinity in binary double precision. -/
def limit : Nat := Nat.pow 2 1024 - Nat.pow 2 970

/-- Whether the number is below `limit`. -/
def inRange (n : Numeral) : Bool :=
  if n.mantissa = 0 then true
  else
    match n.exponent with
    | .ofNat k => k ≤ 308 && n.mantissa * Nat.pow 10 k < limit
    | .negSucc k => n.width ≤ k + 1 || n.mantissa < limit * Nat.pow 10 (k + 1)

end Numeral

/-- Whether a text is a numeral in range. Blanks around it are not taken away. -/
def isNumber (s : String) : Bool :=
  match Numeral.ofChars? s.toList with
  | some n => n.inRange
  | none => false

end Tablescope
