import Mathlib.Algebra.Order.Ring.Rat
import Mathlib.Tactic

/-- A floating-point format by its rounding: it keeps the order, and integers of up to 24 bits. -/
structure Rounding where
  round : ℚ → ℚ
  mono : Monotone round
  exact : ∀ z : ℤ, |z| ≤ 2 ^ 24 → round z = z

namespace Rounding

/-- No rounding at all. -/
def ideal : Rounding where
  round := id
  mono := monotone_id
  exact _ _ := rfl

variable (R : Rounding)

def add (x y : ℚ) : ℚ := R.round (x + y)

def mul (x y : ℚ) : ℚ := R.round (x * y)

theorem round_zero : R.round 0 = 0 := by
  have h := R.exact 0 (by norm_num)
  exact_mod_cast h

theorem round_one : R.round 1 = 1 := by
  have h := R.exact 1 (by norm_num)
  exact_mod_cast h

theorem add_exact {x y : ℤ} (h : |x + y| ≤ 2 ^ 24) : R.add x y = (x + y : ℤ) := by
  rw [← R.exact _ h, Int.cast_add]
  rfl

theorem mul_exact {x y : ℤ} (h : |x * y| ≤ 2 ^ 24) : R.mul x y = (x * y : ℤ) := by
  rw [← R.exact _ h, Int.cast_mul]
  rfl

variable {R} {x y : ℚ}

theorem round_nonneg (h : 0 ≤ x) : 0 ≤ R.round x :=
  R.round_zero.ge.trans (R.mono h)

theorem one_le_round (h : 1 ≤ x) : 1 ≤ R.round x :=
  R.round_one.ge.trans (R.mono h)

theorem round_le_one (h : x ≤ 1) : R.round x ≤ 1 :=
  (R.mono h).trans R.round_one.le

/-- The quotient of rounded numbers stays in the unit interval. -/
theorem round_div_mem (hx : 0 ≤ x) (hxy : x ≤ y) (hy : 1 ≤ y) :
    0 ≤ R.round (R.round x / R.round y) ∧ R.round (R.round x / R.round y) ≤ 1 := by
  have hden : 0 < R.round y := zero_lt_one.trans_le (one_le_round hy)
  constructor
  · exact round_nonneg (div_nonneg (round_nonneg hx) hden.le)
  · exact round_le_one ((div_le_one hden).mpr (R.mono hxy))

end Rounding
