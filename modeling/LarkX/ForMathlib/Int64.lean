import Mathlib.Data.Int.Basic
import Mathlib.Data.ZMod.Basic
import Mathlib.Tactic.Linarith
import Mathlib.Tactic.LinearCombination

/-!
# Signed 64-bit arithmetic on the integers

A signed 64-bit variable is an integer that is brought back into range after every unchecked
operation. `wrap64` is that step (two's complement), and `IsInt64` is the range itself. The
two facts clients use: wrapping does nothing inside the range, and always lands in it. Sums
with wraps in between are best compared as residues (`Word`), where a wrap does nothing at all.
-/

namespace LarkX

/-- The least signed 64-bit value. -/
def int64Min : ℤ := -9223372036854775808

/-- The greatest signed 64-bit value. -/
def int64Max : ℤ := 9223372036854775807

/-- The integers a signed 64-bit variable can hold. -/
def IsInt64 (x : ℤ) : Prop :=
  int64Min ≤ x ∧ x ≤ int64Max

instance (x : ℤ) : Decidable (IsInt64 x) :=
  inferInstanceAs (Decidable (int64Min ≤ x ∧ x ≤ int64Max))

/-- Two's complement wrap-around to 64 bits. -/
def wrap64 (x : ℤ) : ℤ :=
  (x + 9223372036854775808) % 18446744073709551616 - 9223372036854775808

/-- Wrapping does nothing to a value in range. -/
theorem wrap64_eq_self {x : ℤ} (h : IsInt64 x) : wrap64 x = x := by
  obtain ⟨hlo, hhi⟩ := h
  unfold int64Min at hlo
  unfold int64Max at hhi
  unfold wrap64
  rw [Int.emod_eq_of_lt (by omega) (by omega)]
  omega

/-- A wrapped value is in range. -/
theorem isInt64_wrap64 (x : ℤ) : IsInt64 (wrap64 x) := by
  have hlo := Int.emod_nonneg (x + 9223372036854775808)
    (show (18446744073709551616 : ℤ) ≠ 0 by decide)
  have hhi := Int.emod_lt_of_pos (x + 9223372036854775808)
    (show (0 : ℤ) < 18446744073709551616 by decide)
  unfold IsInt64 int64Min int64Max wrap64
  omega

/-- Wrapping is exact exactly on the values in range. -/
theorem wrap64_eq_self_iff {x : ℤ} : wrap64 x = x ↔ IsInt64 x :=
  ⟨fun h => h ▸ isInt64_wrap64 x, wrap64_eq_self⟩

/-- A wrap moves a value by a multiple of `2 ^ 64`. -/
theorem exists_wrap64_eq (x : ℤ) : ∃ n : ℤ, wrap64 x = x + n * 18446744073709551616 := by
  refine ⟨-((x + 9223372036854775808) / 18446744073709551616), ?_⟩
  have h := Int.emod_add_mul_ediv (x + 9223372036854775808) 18446744073709551616
  unfold wrap64
  linarith

/-- What is left of `x` when `y` is taken away is at most `x` exactly when `y`, as an unsigned
64-bit value, is no more than lies between the least value and `x`. -/
theorem wrap64_sub_le_iff {x y : ℤ} :
    wrap64 (x - y) ≤ x ↔ y % 18446744073709551616 ≤ x - int64Min := by
  unfold wrap64 int64Min
  omega

/-- An addition that ends in a value which is not negative did not overflow. -/
theorem le_wrap64_add {x y : ℤ} (hx : IsInt64 x) (hy : IsInt64 y) (hpos : 0 ≤ y)
    (h : 0 ≤ wrap64 (x + y)) : x ≤ wrap64 (x + y) := by
  unfold IsInt64 int64Min int64Max at hx hy
  unfold wrap64 at h ⊢
  omega

/-- An addition of a positive amount grows exactly when it does not overflow. -/
theorem le_wrap64_add_iff {x y : ℤ} (hx : IsInt64 x) (hy : IsInt64 y) (hpos : 0 ≤ y) :
    x ≤ wrap64 (x + y) ↔ x + y ≤ int64Max := by
  unfold IsInt64 int64Min int64Max at hx hy
  unfold wrap64 int64Max
  omega

/-! ### Residues -/

/-- The residues modulo `2 ^ 64`. -/
abbrev Word := ZMod 18446744073709551616

/-- A wrap does not change a residue. -/
@[simp]
theorem wrap64_cast (x : ℤ) : ((wrap64 x : ℤ) : Word) = (x : Word) := by
  obtain ⟨n, hn⟩ := exists_wrap64_eq x
  have hzero : ((18446744073709551616 : ℤ) : Word) = 0 := by
    rw [ZMod.intCast_zmod_eq_zero_iff_dvd]
    exact dvd_rfl
  rw [hn, Int.cast_add, Int.cast_mul, hzero, mul_zero, add_zero]

/-- Two values in range with the same residue are equal. -/
theorem IsInt64.eq_of_cast {x y : ℤ} (hx : IsInt64 x) (hy : IsInt64 y)
    (h : (x : Word) = (y : Word)) : x = y := by
  rw [ZMod.intCast_eq_intCast_iff] at h
  obtain ⟨n, hn⟩ := h.dvd
  unfold IsInt64 int64Min int64Max at hx hy
  push_cast at hn
  omega

/-- Two values wrap to the same one exactly when their residues are equal. -/
theorem wrap64_eq_iff {x y : ℤ} : wrap64 x = wrap64 y ↔ (x : Word) = (y : Word) := by
  refine ⟨fun h => ?_, fun h => (isInt64_wrap64 x).eq_of_cast (isInt64_wrap64 y) ?_⟩
  · rw [← wrap64_cast x, h, wrap64_cast]
  · rw [wrap64_cast, wrap64_cast, h]

end LarkX
