import Mathlib.Algebra.Order.Floor.Ring
import Mathlib.Data.Int.ConditionallyCompleteOrder
import Mathlib.Order.GaloisConnection.Basic
import Mathlib.Tactic.FieldSimp
import Mathlib.Tactic.Linarith

/-!
# Exchange in whole units

At a rate `q` an amount `x` of one good is worth `x * q` of another, of which only whole units
change hands: `exchange q x` rounds down, and `cost q y` is the least amount that is worth `y`
units, `y / q` rounded up. The two are adjoint (`gc_cost_exchange`), and this carries the rest:
an exchange is monotone, and there and back at the same rate no more returns than was given
(`exchange_inv_exchange_le`). Exchanged in parts, a sum loses at most one unit for each cut.
-/

namespace LarkX

variable {K : Type*} [Field K] [LinearOrder K] [IsStrictOrderedRing K] [FloorRing K] {q : K}
  {x y : ℤ}

/-- The whole units of the other good `x` is worth at the rate `q`. -/
def exchange (q : K) (x : ℤ) : ℤ :=
  ⌊(x : K) * q⌋

/-- The least amount that is worth `y` units of the other good at the rate `q`. -/
def cost (q : K) (y : ℤ) : ℤ :=
  ⌈(y : K) * q⁻¹⌉

/-- An amount is worth `y` units exactly when it is no less than they cost. -/
theorem gc_cost_exchange (hq : 0 < q) : GaloisConnection (cost q) (exchange q) := by
  intro y x
  rw [cost, exchange, Int.ceil_le, Int.le_floor, ← div_eq_mul_inv, div_le_iff₀ hq]

theorem exchange_nonneg (hq : 0 ≤ q) (hx : 0 ≤ x) : 0 ≤ exchange q x :=
  Int.floor_nonneg.2 (mul_nonneg (Int.cast_nonneg hx) hq)

theorem exchange_mono (hq : 0 < q) : Monotone (exchange q) :=
  (gc_cost_exchange hq).monotone_u

/-- What is returned for `y` units, rounded down, is no more than they cost. -/
theorem exchange_inv_le_cost (q : K) (y : ℤ) : exchange q⁻¹ y ≤ cost q y :=
  Int.floor_le_ceil _

/-- There and back, no more returns than was given. -/
theorem exchange_inv_exchange_le (hq : 0 < q) (x : ℤ) : exchange q⁻¹ (exchange q x) ≤ x :=
  (exchange_inv_le_cost q _).trans ((gc_cost_exchange hq).l_u_le x)

/-- A sum is worth at least what its parts are worth. -/
theorem add_exchange_le (q : K) (x y : ℤ) : exchange q x + exchange q y ≤ exchange q (x + y) := by
  unfold exchange
  rw [Int.cast_add, add_mul]
  exact Int.le_floor_add _ _

/-- A sum is worth at most one unit more than its parts. -/
theorem exchange_le_add (q : K) (x y : ℤ) :
    exchange q (x + y) ≤ exchange q x + exchange q y + 1 := by
  have h := Int.le_floor_add_floor ((x : K) * q) ((y : K) * q)
  unfold exchange
  rw [Int.cast_add, add_mul]
  linarith

end LarkX
