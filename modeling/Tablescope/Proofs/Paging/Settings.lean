import Mathlib.Order.Monotone.Basic
import Tablescope.Paging.Settings

/-!
# The limit of a physical reading

Whatever was set, a physical reading evaluates at least one item and no more than 32 bits can count.
A limit that follows the size of the page does so between a hundred and a thousand, also where the
size of the page does not fit into 32 bits.
-/

namespace Tablescope

namespace BatchSize

theorem toInt_max (a b : Int32) : (max a b).toInt = max a.toInt b.toInt := by
  change (if a ≤ b then b else a).toInt = _
  split
  · next h => rw [Int32.le_iff_toInt_le] at h; omega
  · next h => rw [Int32.le_iff_toInt_le] at h; omega

theorem toInt_min (a b : Int32) : (min a b).toInt = min a.toInt b.toInt := by
  change (if a ≤ b then a else b).toInt = _
  split
  · next h => rw [Int32.le_iff_toInt_le] at h; omega
  · next h => rw [Int32.le_iff_toInt_le] at h; omega

/-- A size that does not fit into 32 bits is beyond a thousand anyway. -/
theorem limit_auto (pageSize : Nat) : auto.limit pageSize = min (max pageSize 100) 1000 := by
  have h100 : (100 : Int32).toInt = 100 := rfl
  have h1000 : (1000 : Int32).toInt = 1000 := rfl
  have hmax : Int32.maxValue.toInt = 2147483647 := rfl
  rw [limit, limit32, int32?, toInt_min, toInt_max, h100, h1000]
  split
  · next h =>
    rw [Option.getD_some, Int32.toInt_ofNat_of_lt (by omega)]
    omega
  · rw [Option.getD_none, h1000]
    omega

theorem limit_explicit (n : Int32) (pageSize : Nat) :
    (explicit n).limit pageSize = (max n.toInt 1).toNat := by
  rw [limit, limit32, toInt_max]
  rfl

theorem one_le_limit (b : BatchSize) (pageSize : Nat) : 1 ≤ b.limit pageSize := by
  cases b with
  | auto => rw [limit_auto]; omega
  | explicit n => rw [limit_explicit]; omega

theorem limit_le (b : BatchSize) (pageSize : Nat) :
    (b.limit pageSize : Int) ≤ Int32.maxValue.toInt := by
  cases b with
  | auto =>
    have hmax : (1000 : Int) ≤ Int32.maxValue.toInt := by decide
    rw [limit_auto]
    omega
  | explicit n =>
    have hn := n.toInt_le
    have hmax : (1 : Int) ≤ Int32.maxValue.toInt := by decide
    rw [limit_explicit]
    omega

theorem monotone_limit_auto : Monotone auto.limit := by
  intro m n h
  rw [limit_auto, limit_auto]
  omega

/-- Raising an explicit limit to one before it is used changes nothing. -/
theorem limit_atLeastOne (b : BatchSize) : b.atLeastOne.limit = b.limit := by
  funext pageSize
  cases b with
  | auto => rfl
  | explicit n =>
    have h1 : (1 : Int32).toInt = 1 := rfl
    rw [atLeastOne, limit_explicit, limit_explicit]
    split
    · next h => rw [Int32.lt_iff_toInt_lt] at h; omega
    · rfl

end BatchSize

namespace PagingSettings

theorem limit_pos (s : PagingSettings) (pageSize : Nat) : 1 ≤ s.limit pageSize :=
  s.batchSize.one_le_limit pageSize

/-- At least one request is allowed. -/
theorem one_le_roundTrips (s : PagingSettings) : 1 ≤ s.roundTrips := Nat.le_max_right _ _

end PagingSettings

end Tablescope
