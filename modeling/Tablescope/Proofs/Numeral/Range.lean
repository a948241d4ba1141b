import Mathlib.Tactic.Linarith
import Tablescope.Proofs.Numeral.Grammar

/-!
# Numbers that are no greater than doubles are

Being in range is being below `2 ^ 1024 - 2 ^ 970`, for digits and exponents of any length: what is
settled by counting digits is what comparing the numbers would give.

The bound is the middle between the greatest finite double and `2 ^ 1024`, which stands for infinity
when a number is rounded. So the numbers in range are exactly those that are not rounded to infinity.
-/

namespace Tablescope.Numeral

variable {n : Numeral} {x : ℚ}

/-! ### The number that is compared -/

theorem cast_limit : (limit : ℚ) = 2 ^ 1024 - 2 ^ 970 := by
  have hpow : ∀ k : ℕ, ((Nat.pow 2 k : ℕ) : ℚ) = 2 ^ k := Nat.cast_pow 2
  have hle : Nat.pow 2 970 ≤ Nat.pow 2 1024 := by decide +kernel
  rw [limit, Nat.cast_sub hle]
  simp only [hpow]

theorem limit_pos : 0 < limit := by decide +kernel

theorem limit_lt_pow {k : ℕ} (h : 308 < k) : limit < 10 ^ k := by
  obtain ⟨j, hj, hlt⟩ : ∃ j < 310, limit < Nat.pow 10 j := by decide +kernel
  exact hlt.trans_le (Nat.pow_le_pow_right (by decide) (by omega))

theorem value_ofNat (mantissa width k : ℕ) :
    value ⟨mantissa, width, .ofNat k⟩ = (mantissa * 10 ^ k : ℕ) := by
  rw [value]
  push_cast
  exact congrArg _ (zpow_natCast _ k)

theorem value_negSucc (mantissa width k : ℕ) :
    value ⟨mantissa, width, .negSucc k⟩ = mantissa / (10 ^ (k + 1) : ℕ) := by
  rw [value, zpow_negSucc]
  push_cast
  rfl

theorem value_nonneg (n : Numeral) : 0 ≤ n.value :=
  mul_nonneg (Nat.cast_nonneg _) (zpow_nonneg (by norm_num) _)

/-- Counting digits settles what comparing would: a number of `k` digits is below `10 ^ k`, and every
number but zero is out of range when it is followed by more than 308 zeros. -/
theorem inRange_iff (h : n.mantissa < 10 ^ n.width) : n.inRange = true ↔ n.value < limit := by
  obtain ⟨mantissa, width, exponent⟩ := n
  rw [inRange]
  split
  · next hzero =>
    have hvalue : value ⟨mantissa, width, exponent⟩ = 0 := by
      rw [value, show mantissa = 0 from hzero, Nat.cast_zero, zero_mul]
    rw [hvalue]
    exact iff_of_true rfl (Nat.cast_pos.2 limit_pos)
  · next hzero =>
    cases exponent with
    | ofNat k =>
      rw [value_ofNat, Nat.cast_lt, Bool.and_eq_true, decide_eq_true_eq, decide_eq_true_eq]
      refine and_iff_right_of_imp fun hlt => ?_
      by_contra hk
      have hmul : 10 ^ k ≤ mantissa * 10 ^ k := Nat.le_mul_of_pos_left _ (Nat.pos_of_ne_zero hzero)
      exact absurd (limit_lt_pow (Nat.not_le.1 hk)) (Nat.not_lt.2 (hmul.trans hlt.le))
    | negSucc k =>
      rw [value_negSucc, div_lt_iff₀ (by positivity), Bool.or_eq_true, decide_eq_true_eq,
        decide_eq_true_eq]
      norm_cast
      refine or_iff_right_of_imp fun hwidth => ?_
      calc mantissa < 10 ^ width := h
        _ ≤ 10 ^ (k + 1) := Nat.pow_le_pow_right (by decide) hwidth
        _ ≤ limit * 10 ^ (k + 1) := Nat.le_mul_of_pos_left _ limit_pos

/-! ### Rounding to infinity -/

/-- The finite doubles: multiples of a power of two by integers of fifty-three binary digits. -/
def IsDouble (y : ℚ) : Prop := ∃ n q : ℤ, |n| < 2 ^ 53 ∧ -1074 ≤ q ∧ q ≤ 971 ∧ y = n * 2 ^ q

/-- Whether a number is rounded to infinity: `2 ^ 1024` is as near to its size as every finite double
is. A tie goes to `2 ^ 1024`, which is an even multiple of the power of two that the greatest double
is an odd multiple of. -/
def Overflows (x : ℚ) : Prop := ∀ y, IsDouble y → abs (2 ^ 1024 - |x|) ≤ abs (y - |x|)

/-- The greatest finite double lies as far below the bound as the bound lies below `2 ^ 1024`. -/
theorem greatest_eq : ((2 ^ 53 - 1) * 2 ^ (971 : ℤ) : ℚ) = 2 ^ 1024 - 2 * 2 ^ 970 := by
  have h1024 : (2 : ℚ) ^ 1024 = 2 ^ 54 * 2 ^ 970 := by
    rw [show (1024 : ℕ) = 54 + 970 from rfl, pow_add]
  have h971 : (2 : ℚ) ^ (971 : ℤ) = 2 * 2 ^ 970 := by
    rw [show (971 : ℤ) = 1 + (970 : ℕ) from rfl, zpow_add₀ (by norm_num), zpow_one, zpow_natCast]
  rw [h1024, h971]
  generalize (2 : ℚ) ^ 970 = half
  ring

theorem IsDouble.le {y : ℚ} (h : IsDouble y) : y ≤ 2 ^ 1024 - 2 * 2 ^ 970 := by
  obtain ⟨n, q, hn, -, hq, rfl⟩ := h
  have hn' : n ≤ 2 ^ 53 - 1 := by
    have := (abs_lt.1 hn).2
    omega
  rw [← greatest_eq]
  calc (n : ℚ) * 2 ^ q ≤ (2 ^ 53 - 1) * 2 ^ q :=
        mul_le_mul_of_nonneg_right (by exact_mod_cast hn') (zpow_nonneg (by norm_num) _)
    _ ≤ (2 ^ 53 - 1) * 2 ^ (971 : ℤ) :=
        mul_le_mul_of_nonneg_left (zpow_le_zpow_right₀ (by norm_num) hq) (by norm_num)

theorem isDouble_greatest : IsDouble (2 ^ 1024 - 2 * 2 ^ 970) := by
  refine ⟨2 ^ 53 - 1, 971, by decide, by decide, le_rfl, ?_⟩
  rw [← greatest_eq, Int.cast_sub, Int.cast_one, Int.cast_pow, Int.cast_ofNat]

theorem overflows_iff : Overflows x ↔ 2 ^ 1024 - 2 ^ 970 ≤ |x| := by
  have hhalf : (0 : ℚ) < 2 ^ 970 := pow_pos (by norm_num) _
  have hgreatest := isDouble_greatest
  have hle := fun y => IsDouble.le (y := y)
  unfold Overflows
  -- arithmetic shall not meet the powers themselves
  generalize (2 : ℚ) ^ 1024 = top at hgreatest hle ⊢
  generalize (2 : ℚ) ^ 970 = half at hgreatest hle hhalf ⊢
  constructor
  · intro h
    by_contra hlt
    rw [not_le] at hlt
    have hnear := h _ hgreatest
    rw [abs_of_pos (by linarith : 0 < top - |x|)] at hnear
    rcases abs_cases (top - 2 * half - |x|) with ⟨habs, -⟩ | ⟨habs, -⟩ <;> linarith
  · intro h y hy
    have hfar := hle y hy
    rw [abs_of_neg (by linarith : y - |x| < 0)]
    rcases abs_cases (top - |x|) with ⟨habs, -⟩ | ⟨habs, -⟩ <;> linarith

end Tablescope.Numeral
