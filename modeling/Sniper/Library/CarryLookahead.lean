import Mathlib.Algebra.BigOperators.Group.Finset.Basic
import Mathlib.Data.Nat.Bitwise
import Mathlib.Tactic

open Finset

/-- The number of the first `n` bits. -/
def ofBits (f : ℕ → Bool) (n : ℕ) : ℕ := ∑ i ∈ range n, (f i).toNat * 2 ^ i

namespace ofBits

variable {f g : ℕ → Bool} {n : ℕ}

theorem succ : ofBits f (n + 1) = ofBits f n + (f n).toNat * 2 ^ n := sum_range_succ ..

theorem congr (h : ∀ i < n, f i = g i) : ofBits f n = ofBits g n := by
  apply sum_congr rfl
  intro i hi
  rw [h i (mem_range.mp hi)]

theorem lt : ofBits f n < 2 ^ n := by
  induction n with
  | zero => exact Nat.one_pos
  | succ n ih =>
    have hbit : (f n).toNat * 2 ^ n ≤ 1 * 2 ^ n := Nat.mul_le_mul_right _ (Bool.toNat_le _)
    rw [succ, pow_succ]
    omega

theorem of_testBit (x : ℕ) : ofBits x.testBit n = x % 2 ^ n := by
  induction n with
  | zero => exact (Nat.mod_one x).symm
  | succ n ih => rw [succ, ih, Nat.mod_pow_succ, Nat.mul_comm, Nat.toNat_testBit]

theorem testBit {i : ℕ} (hi : i < n) : (ofBits f n).testBit i = f i := by
  induction n with
  | zero => cases hi
  | succ n ih =>
    rw [succ, Nat.add_comm, Nat.mul_comm, Nat.testBit_two_pow_mul_add _ lt]
    split
    · rename_i h
      exact ih h
    · rename_i h
      obtain rfl : i = n := by omega
      rw [Nat.sub_self]
      cases f i <;> rfl

/-- The bits of a number from bit `m` on. -/
theorem shift (m : ℕ) : ofBits f (m + n) = ofBits f m + 2 ^ m * ofBits (fun i => f (m + i)) n := by
  induction n with
  | zero => simp [ofBits]
  | succ n ih =>
    rw [← Nat.add_assoc, succ, ih, succ, pow_add]
    ring

end ofBits

namespace CarryLookahead

variable (A B : ℕ → Bool) (w : ℕ)

/-- The carry into bit `i` that a look-ahead over the last `w` bits sees. -/
def carry (i : ℕ) : Bool :=
  decide (∃ g < i, i ≤ g + w ∧ A g = true ∧ B g = true ∧ ∀ z < i, g < z → A z ≠ B z)

/-- The bit of the sum. -/
def sumBit (i : ℕ) : Bool := (A i ^^ B i) ^^ carry A B w i

/-- The carry that bit `g` generates runs through the next `w` bits. -/
def Runs (g : ℕ) : Prop := A g = true ∧ B g = true ∧ ∀ z ≤ g + w, g < z → A z ≠ B z

instance (g : ℕ) : Decidable (Runs A B w g) :=
  decidable_of_iff (A g = true ∧ B g = true ∧ ∀ z < g + w + 1, g < z → A z ≠ B z)
    (by simp only [Runs, Nat.lt_succ_iff])

variable {A B w} {i g : ℕ}

theorem carry_iff : carry A B w i = true ↔
    ∃ g < i, i ≤ g + w ∧ A g = true ∧ B g = true ∧ ∀ z < i, g < z → A z ≠ B z :=
  decide_eq_true_iff

theorem carry_zero : carry A B w 0 = false := by
  rw [← Bool.not_eq_true, carry_iff]
  intro h
  obtain ⟨g, hg, -⟩ := h
  cases hg

theorem carry_congr {A' B' : ℕ → Bool} (hA : ∀ z < i, A z = A' z) (hB : ∀ z < i, B z = B' z) :
    carry A B w i = carry A' B' w i := by
  rw [Bool.eq_iff_iff, carry_iff, carry_iff]
  apply exists_congr
  intro g
  apply and_congr_right
  intro hg
  rw [hA g hg, hB g hg]
  apply and_congr_right
  intro _
  apply and_congr_right
  intro _
  apply and_congr_right
  intro _
  apply forall₂_congr
  intro z hz
  rw [hA z hz, hB z hz]

/-- What becomes of the carry out of a bit: the look-ahead sees it, or it is lost there. -/
theorem carry_succ (i : ℕ) : ((A i && B i) || ((A i ^^ B i) && carry A B w i)) =
      (carry A B w (i + 1) || decide (w ≤ i ∧ Runs A B w (i - w))) ∧
    (carry A B w (i + 1) && decide (w ≤ i ∧ Runs A B w (i - w))) = false := by
  constructor
  · rw [Bool.eq_iff_iff]
    simp only [Bool.or_eq_true, Bool.and_eq_true, decide_eq_true_eq, Bool.xor_iff_ne,
      carry_iff]
    constructor
    · rintro (⟨hA, hB⟩ | ⟨hP, g, hg, hw, hA, hB, hall⟩)
      · by_cases hw : w = 0
        · subst hw
          exact .inr ⟨Nat.zero_le _, hA, hB, fun z hz hlt => by omega⟩
        · exact .inl ⟨i, by omega, by omega, hA, hB, fun z hz hlt => by omega⟩
      · have hrun : ∀ z < i + 1, g < z → A z ≠ B z := by
          intro z hz hlt
          by_cases hzi : z = i
          · rwa [hzi]
          · exact hall z (by omega) hlt
        by_cases hlast : i + 1 ≤ g + w
        · exact .inl ⟨g, by omega, hlast, hA, hB, hrun⟩
        · obtain rfl : g = i - w := by omega
          exact .inr ⟨by omega, hA, hB, fun z hz hlt => hrun z (by omega) hlt⟩
    · rintro (⟨g, hg, hw, hA, hB, hall⟩ | ⟨hw, hA, hB, hall⟩)
      · by_cases hgi : g = i
        · subst hgi
          exact .inl ⟨hA, hB⟩
        · exact .inr ⟨hall i (by omega) (by omega), g, by omega, by omega, hA, hB,
            fun z hz hlt => hall z (by omega) hlt⟩
      · by_cases hw0 : w = 0
        · subst hw0
          exact .inl ⟨hA, hB⟩
        · exact .inr ⟨hall i (by omega) (by omega), i - w, by omega, by omega, hA, hB,
            fun z hz hlt => hall z (by omega) hlt⟩
  · rw [← Bool.not_eq_true]
    simp only [Bool.and_eq_true, decide_eq_true_eq, carry_iff]
    rintro ⟨⟨g, hg, hgw, hA, hB, -⟩, hw, -, -, hall⟩
    -- the bits that carry on generate nothing
    apply hall g (by omega) (by omega)
    rw [hA, hB]

/-- A full adder with the carries of the look-ahead. -/
theorem fullAdder (i : ℕ) : (A i).toNat + (B i).toNat + (carry A B w i).toNat =
    (sumBit A B w i).toNat + 2 * (carry A B w (i + 1)).toNat +
      2 * (decide (w ≤ i ∧ Runs A B w (i - w))).toNat := by
  obtain ⟨hout, hone⟩ := carry_succ (A := A) (B := B) (w := w) i
  unfold sumBit
  generalize A i = a at *
  generalize B i = b at *
  generalize carry A B w i = c at *
  generalize carry A B w (i + 1) = d at *
  generalize decide (w ≤ i ∧ Runs A B w (i - w)) = e at *
  revert a b c d e
  decide

/-- The sum with a window falls short by the carries that run out of it. -/
theorem sum_window (n : ℕ) : ofBits A n + ofBits B n =
    ofBits (sumBit A B w) n + (carry A B w n).toNat * 2 ^ n +
      ∑ g ∈ range (n - w) with Runs A B w g, 2 ^ (g + w + 1) := by
  induction n with
  | zero => simp [ofBits, carry_zero]
  | succ n ih =>
    have hadd := congrArg (· * 2 ^ n) (fullAdder (A := A) (B := B) (w := w) n)
    have hlost : ∑ g ∈ range (n + 1 - w) with Runs A B w g, 2 ^ (g + w + 1) =
        ∑ g ∈ range (n - w) with Runs A B w g, 2 ^ (g + w + 1) +
          2 * (decide (w ≤ n ∧ Runs A B w (n - w))).toNat * 2 ^ n := by
      by_cases hw : w ≤ n
      · have hpow : n - w + w + 1 = n + 1 := by omega
        rw [Nat.succ_sub hw, sum_filter, sum_filter, sum_range_succ, hpow, pow_succ]
        by_cases hrun : Runs A B w (n - w)
        · simp [hw, hrun, Nat.mul_comm]
        · simp [hrun]
      · rw [Nat.sub_eq_zero_of_le (show n + 1 ≤ w by omega), Nat.sub_eq_zero_of_le (by omega)]
        simp [hw]
    rw [hlost, ofBits.succ, ofBits.succ, ofBits.succ, pow_succ]
    simp only [Nat.add_mul] at hadd
    linarith

end CarryLookahead
