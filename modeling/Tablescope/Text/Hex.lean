/-!
# Hexadecimal digits

Reading takes digits of either case; writing chooses one.
-/

namespace Tablescope.Text.Hex

/-- The upper-case digit of a number below sixteen. -/
def upper (n : Nat) : Char := if n < 10 then Char.ofNat (48 + n) else Char.ofNat (55 + n)

/-- The lower-case digit of a number below sixteen. -/
def lower (n : Nat) : Char := if n < 10 then Char.ofNat (48 + n) else Char.ofNat (87 + n)

/-- The number of a digit of either case. -/
def value? (c : Char) : Option Nat :=
  if '0' ≤ c && c ≤ '9' then some (c.toNat - 48)
  else if 'A' ≤ c && c ≤ 'F' then some (c.toNat - 55)
  else if 'a' ≤ c && c ≤ 'f' then some (c.toNat - 87)
  else none

end Tablescope.Text.Hex
