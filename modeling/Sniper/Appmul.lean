import Sniper.MagicServer

namespace Sniper

/-- A number stored in a `short`. -/
def toShort (val : ℤ) : ℤ := Int.bmod val (2 ^ 16)

def IsShort (x : ℤ) : Prop := -2 ^ 15 ≤ x ∧ x < 2 ^ 15

/-- The product from the multiplier routine `mulnum`, or `none` where the number is invalid. The
routines `mul16x16` take two `short`s to an `int`. -/
def appmul (mul16x16 : ℤ → ℤ → ℤ → ℤ) (a b mulnum : ℤ) : Option ℤ :=
  let a := if a < 0 ∧ 0 < b then toShort (-1 * a) else a
  let b := if 0 < a ∧ b < 0 then toShort (-1 * b) else b
  if 0 ≤ mulnum ∧ mulnum < 20 then
    let res := mul16x16 mulnum a b
    some (if a * b < 0 then -1 * res else res)
  else none

/-- `SIM_CMD_MUL_OP`, with the injector `random` or another. -/
def mulOp (mul16x16 : ℤ → ℤ → ℤ → ℤ) (random : Bool) (arg0 arg1 : ℕ) : Option ℕ :=
  if random then
    (appmul mul16x16 (toShort arg0) (toShort arg1) 19).map fun res => (res % 2 ^ 64).toNat
  else some (arg0 * arg1 % 2 ^ 64)

/-- A routine that is exact on arguments that are both negative or both not. -/
def ExactOnSameSign (mul16x16 : ℤ → ℤ → ℤ → ℤ) (mulnum : ℤ) : Prop :=
  ∀ x y, IsShort x → IsShort y → (0 ≤ x ↔ 0 ≤ y) → mul16x16 mulnum x y = x * y

namespace appmul

variable {mul16x16 : ℤ → ℤ → ℤ → ℤ} {a b k : ℤ}

theorem toShort_neg (ha : IsShort a) (hmin : a ≠ -2 ^ 15) : toShort (-1 * a) = -a := by
  obtain ⟨h1, h2⟩ := ha
  rw [toShort, Int.bmod_eq_of_le (by norm_num; omega) (by norm_num; omega)]
  ring

/-- Operands of opposite signs give the magnitude of the product. -/
theorem opposite (hk : 0 ≤ k ∧ k < 20) (hm : ExactOnSameSign mul16x16 k) (ha : IsShort a)
    (hb : IsShort b) (hamin : a ≠ -2 ^ 15) (hbmin : b ≠ -2 ^ 15)
    (h : a < 0 ∧ 0 < b ∨ 0 < a ∧ b < 0) : appmul mul16x16 a b k = some (-(a * b)) := by
  have hneg : ∀ x : ℤ, IsShort x → x ≠ -2 ^ 15 → IsShort (-x) := by
    intro x hx hmin
    unfold IsShort at hx ⊢
    omega
  rcases h with ⟨h1, h2⟩ | ⟨h1, h2⟩
  · have hfirst : (if a < 0 ∧ 0 < b then toShort (-1 * a) else a) = -a := by
      rw [if_pos ⟨h1, h2⟩, toShort_neg ha hamin]
    have hsecond : (if 0 < -a ∧ b < 0 then toShort (-1 * b) else b) = b := if_neg (by omega)
    have hres : mul16x16 k (-a) b = -a * b := hm _ _ (hneg a ha hamin) hb (by omega)
    have hpos : ¬-a * b < 0 := not_lt.mpr (mul_nonneg (by omega) h2.le)
    simp only [appmul, hfirst, hsecond, if_pos hk, hres, if_neg hpos]
    rw [neg_mul]
  · have hfirst : (if a < 0 ∧ 0 < b then toShort (-1 * a) else a) = a := if_neg (by omega)
    have hsecond : (if 0 < a ∧ b < 0 then toShort (-1 * b) else b) = -b := by
      rw [if_pos ⟨h1, h2⟩, toShort_neg hb hbmin]
    have hres : mul16x16 k a (-b) = a * -b := hm _ _ ha (hneg b hb hbmin) (by omega)
    have hpos : ¬a * -b < 0 := not_lt.mpr (mul_nonneg h1.le (by omega))
    simp only [appmul, hfirst, hsecond, if_pos hk, hres, if_neg hpos]
    rw [mul_neg]

/-- All other operands go to the routine as they are. -/
theorem unchanged (hk : 0 ≤ k ∧ k < 20) (h : 0 ≤ a * b) :
    appmul mul16x16 a b k = some (mul16x16 k a b) := by
  have h1 : ¬(a < 0 ∧ 0 < b) := fun hc => absurd (mul_neg_of_neg_of_pos hc.1 hc.2) (not_lt.mpr h)
  have h2 : ¬(0 < a ∧ b < 0) := fun hc => absurd (mul_neg_of_pos_of_neg hc.1 hc.2) (not_lt.mpr h)
  unfold appmul
  simp only [if_neg h1, if_neg h2, if_pos hk, if_neg (not_lt.mpr h)]

end appmul

/-- The product keeps its sign unless the operands have opposite ones; where one of them is negative
and the other 0, it is the routine that must return 0. -/
theorem appmul_eq_iff (mul16x16 : ℤ → ℤ → ℤ → ℤ) (a b k : ℤ) (hk : 0 ≤ k ∧ k < 20)
    (hm : ExactOnSameSign mul16x16 k) (ha : IsShort a) (hb : IsShort b) (hamin : a ≠ -2 ^ 15)
    (hbmin : b ≠ -2 ^ 15) : appmul mul16x16 a b k = some (a * b) ↔
      0 ≤ a * b ∧ (a = 0 ∧ b < 0 ∨ a < 0 ∧ b = 0 → mul16x16 k a b = 0) := by
  by_cases hsign : 0 ≤ a * b
  · rw [appmul.unchanged hk hsign, Option.some.injEq]
    by_cases hzero : a = 0 ∧ b < 0 ∨ a < 0 ∧ b = 0
    · have hprod : a * b = 0 := by
        rcases hzero with ⟨h, -⟩ | ⟨-, h⟩
        · rw [h, zero_mul]
        · rw [h, mul_zero]
      simp [hprod, hzero]
    · have hsame : 0 ≤ a ↔ 0 ≤ b := by
        rcases lt_trichotomy a 0 with h | h | h
        · have hb0 : b < 0 := by
            by_contra hb0
            have := mul_neg_of_neg_of_pos h (show 0 < b by omega)
            omega
          omega
        · omega
        · have hb0 : 0 ≤ b := by
            by_contra hb0
            have := mul_neg_of_pos_of_neg h (show b < 0 by omega)
            omega
          omega
      simp only [hm a b ha hb hsame, hsign, hzero, false_imp_iff, and_self]
  · have hopp : a < 0 ∧ 0 < b ∨ 0 < a ∧ b < 0 := by
      rw [not_le, mul_neg_iff] at hsign
      exact hsign.symm
    rw [appmul.opposite hk hm ha hb hamin hbmin hopp, Option.some.injEq]
    constructor
    · intro h
      omega
    · intro h
      exact absurd h.1 hsign

theorem appmul_eq_iff_exact : appmul (fun _ x y => x * y) (-3) (-5) 19 = some (-3 * -5) :=
  (appmul_eq_iff (fun _ x y => x * y) (-3) (-5) 19 (by decide) (fun _ _ _ _ _ => rfl)
    (by unfold IsShort; decide) (by unfold IsShort; decide) (by decide) (by decide)).mpr
      ⟨by decide, by decide⟩

/-- A negative mask entry adds. -/
theorem appmul_minus_one : ExactOnSameSign (fun _ x y => x * y) 19 ∧
    appmul (fun _ x y => x * y) (-1) 200 19 = some 200 ∧
    appmul (fun _ x y => x * y) 200 (-1) 19 = some 200 :=
  ⟨fun _ _ _ _ _ => rfl, by decide, by decide⟩

/-- `SIM_CMD_MUL_OP` returns the magnitude of a product of opposite signs. -/
theorem mulOp_opposite {mul16x16 : ℤ → ℤ → ℤ → ℤ} (hm : ExactOnSameSign mul16x16 19) {arg0 arg1 : ℕ}
    (hamin : toShort arg0 ≠ -2 ^ 15) (hbmin : toShort arg1 ≠ -2 ^ 15)
    (h : toShort arg0 * toShort arg1 < 0) : mulOp mul16x16 true arg0 arg1 =
      some (toShort arg0 * toShort arg1).natAbs := by
  have hshort : ∀ n : ℤ, IsShort (toShort n) := by
    intro n
    have h1 := Int.le_bmod (x := n) (m := 2 ^ 16) (by decide)
    have h2 := Int.bmod_lt (x := n) (m := 2 ^ 16) (by decide)
    unfold IsShort toShort
    constructor <;> omega
  have hopp := (mul_neg_iff.mp h).symm
  unfold mulOp
  rw [if_pos rfl, appmul.opposite (by decide) hm (hshort _) (hshort _) hamin hbmin hopp,
    Option.map_some]
  obtain ⟨ha1, ha2⟩ := hshort arg0
  obtain ⟨hb1, hb2⟩ := hshort arg1
  have hbound : (toShort arg0 * toShort arg1).natAbs < 2 ^ 64 := by
    have ha : (toShort arg0).natAbs ≤ 2 ^ 15 := by omega
    have hb : (toShort arg1).natAbs ≤ 2 ^ 15 := by omega
    rw [Int.natAbs_mul]
    exact (Nat.mul_le_mul ha hb).trans_lt (by norm_num)
  have habs : -(toShort arg0 * toShort arg1) = ((toShort arg0 * toShort arg1).natAbs : ℤ) := by
    rw [Int.ofNat_natAbs_of_nonpos h.le]
  have hmod : ∀ n : ℕ, n < 2 ^ 64 → ((n : ℤ) % 2 ^ 64).toNat = n := by
    intro n hn
    omega
  rw [habs, hmod _ hbound]

end Sniper
