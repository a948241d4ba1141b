import Tablescope.Numeral

/-!
# Numerals in double precision

A numeral that stands for a double means the double nearest to it, a tie going to the even one.
Doubles are the multiples `n * 2 ^ q` of powers of two with `n ≤ 2 ^ 53` and `-1074 ≤ q`, so the
nearest one is found by rounding a quotient to an integer at the right power. Asked here is whether
that double is an integer, and how a numeral is taken where an integer of some width is expected.
-/

namespace Tablescope

/-- A quotient rounded to the nearest integer, a half to the even one. -/
def roundDiv (num den : Nat) : Nat :=
  let twice := 2 * (num % den)
  if twice < den then num / den
  else if den < twice then num / den + 1
  else num / den + num / den % 2

/-- The power of two of which the double nearest to a quotient is a multiple: fifty-two places below
the leading bit of the quotient, but never below the least power that doubles have. -/
def doubleUnit (num den : Nat) : Int :=
  let guess : Int := (num.log2 : Int) - den.log2
  let leading :=
    if num * Nat.pow 2 (-guess).toNat < den * Nat.pow 2 guess.toNat then guess - 1 else guess
  max (leading - 52) (-1074)

/-- The double nearest to a quotient, if it is an integer; there is no upper limit. -/
def nearestInteger? (num den : Nat) : Option Nat :=
  let unit := doubleUnit num den
  let n := roundDiv (num * Nat.pow 2 (-unit).toNat) (den * Nat.pow 2 unit.toNat)
  match unit with
  | .ofNat k => some (n * Nat.pow 2 k)
  | .negSucc k =>
    if n % Nat.pow 2 (k + 1) = 0 then some (n / Nat.pow 2 (k + 1)) else none

namespace Numeral

/-- The double nearest to a numeral, if it is an integer; none for a numeral past all doubles. A
number below `10 ^ (-324)` is nearer to zero than to the least double. -/
def nearestInteger? (n : Numeral) : Option Nat :=
  if n.mantissa = 0 then some 0
  else
    match n.exponent with
    | .ofNat k =>
      if k ≤ 308 then Tablescope.nearestInteger? (n.mantissa * Nat.pow 10 k) 1 else none
    | .negSucc k =>
      if n.width + 324 ≤ k + 1 then some 0
      else Tablescope.nearestInteger? n.mantissa (Nat.pow 10 (k + 1))

end Numeral

/-- Whether a numeral can be taken for an integer of `bits` bits with a sign. One that is written
with digits only and fits into 64 bits, with a sign or without, is taken as it is. Any other means
a double, which must be an integer no greater than the greatest of `bits` bits is as a double. -/
def isInteger (bits : Nat) (text : String) : Bool :=
  let cs := text.toList
  let signed (n : Nat) : Int := if cs.head? = some '-' then -n else n
  let digits := Numeral.dropSign cs
  let exact := signed (Nat.ofDigitChars 10 digits 0)
  let bound := Nat.pow 2 (bits - 1)
  if digits.all Char.isDigit && -(Nat.pow 2 63 : Int) ≤ exact && exact < Nat.pow 2 64 then
    -(bound : Int) ≤ exact && exact < bound
  else
    match (Numeral.ofChars? cs).bind Numeral.nearestInteger?, nearestInteger? (bound - 1) 1 with
    | some n, some greatest => -(bound : Int) ≤ signed n && signed n ≤ greatest
    | _, _ => false

/-- Whether a text stands for no finite double: an infinity or no number, by their names in letters
of either case, or a numeral that is out of range. -/
def isNonFinite (text : String) : Bool :=
  let cs := text.toList
  let word := String.ofList ((Numeral.dropSign cs).map Char.toLower)
  word = "inf" || word = "infinity" || word = "nan" ||
    (Numeral.ofChars? cs).any fun n => !n.inRange

end Tablescope
