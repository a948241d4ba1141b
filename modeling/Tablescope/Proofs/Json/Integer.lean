import Tablescope.Json.Basic

/-!
# Integers in JSON

An integer is written with its digits and, below zero, a minus sign. It is read back from them.
-/

namespace Tablescope.Json

theorem ofDigitChars_toList (n : Nat) : Nat.ofDigitChars 10 (toString n).toList 0 = n := by
  rw [Nat.toString_eq_repr, Nat.toList_repr, Nat.ofDigitChars_ten_toDigits]

theorem all_isDigit_toList (n : Nat) : (toString n).toList.all Char.isDigit = true := by
  rw [Nat.toString_eq_repr, Nat.toList_repr, List.all_eq_true]
  exact fun c hc => Nat.isDigit_of_mem_toDigits (by decide) (by decide) hc

theorem int?_ofNat (n : Nat) : (ofNat n).int? = some (n : Int) := by
  have hdigits := all_isDigit_toList n
  rw [ofNat, int?]
  split
  · next ds hminus =>
    rw [hminus, List.all_cons] at hdigits
    cases hdigits
  · rw [if_pos hdigits, ofDigitChars_toList]

theorem nat?_ofNat (n : Nat) : (ofNat n).nat? = some n := by
  rw [nat?, int?_ofNat]

theorem int?_ofInt (i : Int) : (ofInt i).int? = some i := by
  cases i with
  | ofNat n => exact int?_ofNat n
  | negSucc n =>
    have hlexeme : (toString (Int.negSucc n)).toList = '-' :: (toString (n + 1)).toList := by
      change ("-" ++ (n + 1).repr).toList = _
      rw [String.toList_append]
      rfl
    rw [ofInt, int?, hlexeme]
    simp only [all_isDigit_toList, ofDigitChars_toList, Bool.true_and]
    rfl

end Tablescope.Json
