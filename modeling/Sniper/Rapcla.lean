import Sniper.Library.CarryLookahead
import Sniper.MagicServer

namespace Sniper
open Finset CarryLookahead

def BIT_LENGTH : ℕ := 64

namespace Rapcla

/-- `1 << i` on an `int`, as a `UInt64`: the count is taken modulo 32 and the sign extended. -/
def oneShl (i : ℕ) : ℕ := if i % 32 = 31 then 2 ^ 64 - 2 ^ 31 else 2 ^ (i % 32)

/-- `A[i]` and `B[i]`. -/
def bit (a i : ℕ) : Bool := oneShl i &&& a = oneShl i

/-- `st`: the difference is a `UInt64`, stored in an `int`. -/
def firstTerm (i w : ℕ) : ℕ := (toInt ((i + 1 + 2 ^ 64 - w) % 2 ^ 64)).toNat

/-- The loop over `j`: the carry terms of bit `i`. -/
def lookahead (P G : ℕ → Bool) (C₀ : Bool) (st i : ℕ) : Bool :=
  (List.range' st (i + 1 - st)).any fun j =>
    (List.range' j (i - j)).all P && if j = 0 then C₀ else G (j - 1)

/-- The array `C` after `n` turns of the loop over `i`. -/
def carries (P G : ℕ → Bool) (w : ℕ) : ℕ → ℕ → Bool
  | 0 => fun _ => false
  | n + 1 => Function.update (carries P G w n) n
      (lookahead P G (carries P G w n 0) (firstTerm n w) n)

def sums (a b w : ℕ) (i : ℕ) : Bool :=
  let P := fun i => bit a i ^^ bit b i
  let G := fun i => bit a i && bit b i
  (bit a i ^^ bit b i) ^^ carries P G w (BIT_LENGTH - 1) i

end Rapcla

open Rapcla in
/-- The adder of a window of `w` bits. -/
def rapcla (a b w : ℕ) : ℕ :=
  (List.range (BIT_LENGTH - 1)).foldl (fun s i => if sums a b w i then s ||| oneShl i else s) 0

/-- `SIM_CMD_ADD_OP`, with the injector `random` or another. -/
def addOp (random : Bool) (arg0 arg1 : ℕ) : ℕ :=
  if random then rapcla arg0 arg1 16 else (arg0 + arg1) % 2 ^ 64

namespace Rapcla

variable {a b w i k n : ℕ} {P G : ℕ → Bool}

theorem oneShl_low (h : k < 31) : oneShl k = 2 ^ k := by
  have hk : k % 32 = k := Nat.mod_eq_of_lt (by omega)
  rw [oneShl, hk, if_neg (by omega)]

theorem oneShl_high (h : k < 31) : oneShl (32 + k) = 2 ^ k := by
  have hk : (32 + k) % 32 = k := by omega
  rw [oneShl, hk, if_neg (by omega)]

theorem bit_of_pow {j : ℕ} (h : oneShl i = 2 ^ j) : bit a i = a.testBit j := by
  have hpos : 2 ^ j ≠ 0 := pow_ne_zero j two_ne_zero
  rw [Bool.eq_iff_iff, bit, decide_eq_true_iff, h, Nat.two_pow_and]
  cases a.testBit j
  · simp [hpos.symm]
  · simp

theorem bit_low (h : k < 31) : bit a k = a.testBit k := bit_of_pow (oneShl_low h)

theorem bit_high (h : k < 31) : bit a (32 + k) = a.testBit k := bit_of_pow (oneShl_high h)

/-- The bits of `1 << i`: one of the low ones, or all from the sign on. -/
theorem testBit_oneShl : (oneShl i).testBit k =
    if i % 32 = 31 then decide (31 ≤ k ∧ k < 64) else decide (i % 32 = k) := by
  unfold oneShl
  split
  · have hmask : (2 ^ 64 - 2 ^ 31 : ℕ) = (2 ^ 33 - 1) * 2 ^ 31 := by norm_num
    rw [hmask, Nat.testBit_mul_two_pow, Nat.testBit_two_pow_sub_one, ← Bool.decide_and]
    apply decide_eq_decide.mpr
    omega
  · exact Nat.testBit_two_pow

theorem testBit_oneShl_low (hi : i < 63) (hk : k < 31) :
    (oneShl i).testBit k = true ↔ i = k ∨ i = 32 + k := by
  rw [testBit_oneShl]
  split <;> rw [decide_eq_true_iff] <;> omega

theorem testBit_oneShl_high (hi : i < 63) (hk : 31 ≤ k) :
    (oneShl i).testBit k = true ↔ i = 31 ∧ k < 64 := by
  rw [testBit_oneShl]
  split <;> rw [decide_eq_true_iff] <;> omega

/-- Bit 31 is compared with all bits from 31 on. -/
theorem bit_31 (ha : a < 2 ^ 64) : bit a 31 = decide (a / 2 ^ 31 = 2 ^ 33 - 1) := by
  have hmask : oneShl 31 = (2 ^ 33 - 1) * 2 ^ 31 := by decide
  have hand : oneShl 31 &&& a = a / 2 ^ 31 * 2 ^ 31 := by
    apply Nat.eq_of_testBit_eq
    intro j
    rw [Nat.testBit_and, testBit_oneShl, if_pos rfl, Nat.testBit_mul_two_pow,
      Nat.testBit_div_two_pow]
    by_cases hj : 31 ≤ j
    · rw [Nat.sub_add_cancel hj, decide_eq_true hj, Bool.true_and]
      by_cases hj' : j < 64
      · rw [decide_eq_true ⟨hj, hj'⟩, Bool.true_and]
      · have hbit : a.testBit j = false := by
          apply Nat.testBit_lt_two_pow
          exact ha.trans_le (Nat.pow_le_pow_right (by omega) (by omega))
        rw [hbit, Bool.and_false]
    · rw [decide_eq_false (fun h => hj h.1), decide_eq_false hj, Bool.false_and, Bool.false_and]
  rw [bit, hand, hmask]
  apply decide_eq_decide.mpr
  exact Nat.mul_left_inj (by norm_num)

theorem firstTerm_eq (hi : i < 63) (hw : w ≤ 63) : firstTerm i w = i + 1 - w := by
  unfold firstTerm toInt asInt
  by_cases h : w ≤ i + 1
  · have hmod : (i + 1 + 2 ^ 64 - w) % 2 ^ 64 = i + 1 - w := by omega
    rw [hmod, Int.bmod_eq_of_le (by omega) (by omega)]
    omega
  -- the difference wraps, and the `int` that it is stored in is negative
  · have hmod : (i + 1 + 2 ^ 64 - w) % 2 ^ 64 = 2 ^ 64 - (w - (i + 1)) := by omega
    have hneg : Int.bmod ((2 ^ 64 - (w - (i + 1)) : ℕ) : ℤ) (2 ^ 32) =
        -((w - (i + 1) : ℕ) : ℤ) := by
      have hcast : ((2 ^ 64 - (w - (i + 1)) : ℕ) : ℤ) =
          -((w - (i + 1) : ℕ) : ℤ) + ((2 ^ 32 : ℕ) : ℤ) * 2 ^ 32 := by
        push_cast
        omega
      rw [hcast, Int.add_mul_bmod_self_left]
      exact Int.bmod_eq_of_le (by omega) (by omega)
    rw [hmod, hneg]
    omega

theorem lookahead_iff {st : ℕ} : lookahead P G false st i = true ↔
    ∃ g < i, st ≤ g + 1 ∧ G g = true ∧ ∀ z < i, g < z → P z = true := by
  simp only [lookahead, List.any_eq_true, List.mem_range'_1, Bool.and_eq_true, List.all_eq_true]
  constructor
  · rintro ⟨j, ⟨hst, hj⟩, hall, hG⟩
    split at hG
    · cases hG
    · exact ⟨j - 1, by omega, by omega, hG, fun z hz hlt => hall z (by omega)⟩
  · intro h
    obtain ⟨g, hg, hst, hG, hall⟩ := h
    refine ⟨g + 1, by omega, fun z hz => hall z (by omega) (by omega), ?_⟩
    rw [if_neg (Nat.succ_ne_zero g)]
    exact hG

theorem carries_zero (n : ℕ) : carries P G w n 0 = false := by
  induction n with
  | zero => rfl
  | succ n ih =>
    unfold carries
    by_cases hn : n = 0
    · subst hn
      rw [Function.update_self, ih, ← Bool.not_eq_true, lookahead_iff]
      intro h
      obtain ⟨g, hg, -⟩ := h
      cases hg
    · rw [Function.update_of_ne (Ne.symm hn), ih]

theorem carries_eq (hi : i < n) :
    carries P G w n i = lookahead P G false (firstTerm i w) i := by
  induction n with
  | zero => cases hi
  | succ n ih =>
    unfold carries
    by_cases hn : i = n
    · rw [hn, Function.update_self, carries_zero]
    · rw [Function.update_of_ne hn, ih (by omega)]

/-- The bits of the sum are those of the look-ahead. -/
theorem sums_eq (hi : i < 63) (hw : w ≤ 63) : sums a b w i = sumBit (bit a) (bit b) w i := by
  have hcarry : carries (fun i => bit a i ^^ bit b i) (fun i => bit a i && bit b i) w 63 i =
      carry (bit a) (bit b) w i := by
    rw [carries_eq hi, firstTerm_eq hi hw, Bool.eq_iff_iff, lookahead_iff, carry_iff]
    simp only [Bool.and_eq_true, Bool.xor_iff_ne]
    apply exists_congr
    intro g
    apply and_congr_right
    intro _
    rw [and_assoc]
    exact and_congr_left' ⟨fun h => by omega, fun h => by omega⟩
  unfold sums sumBit
  rw [← hcarry]
  rfl

theorem testBit_foldl (S : ℕ → Bool) (l : List ℕ) : ∀ s : ℕ,
    (l.foldl (fun s i => if S i then s ||| oneShl i else s) s).testBit k =
      (s.testBit k || l.any fun i => S i && (oneShl i).testBit k) := by
  induction l with
  | nil => simp
  | cons i l ih =>
    intro s
    rw [List.foldl_cons, ih, List.any_cons]
    cases S i <;> simp [Bool.or_assoc]

theorem testBit_rapcla : (rapcla a b w).testBit k = true ↔
    ∃ i < 63, sums a b w i = true ∧ (oneShl i).testBit k = true := by
  rw [rapcla, testBit_foldl, Nat.zero_testBit, Bool.false_or]
  simp only [List.any_eq_true, List.mem_range, Bool.and_eq_true]
  exact Iff.rfl

/-- Each of the low bits of the result is set from two bits of the sum. -/
theorem testBit_rapcla_low (hk : k < 31) :
    (rapcla a b w).testBit k = (sums a b w k || sums a b w (32 + k)) := by
  rw [Bool.eq_iff_iff, testBit_rapcla, Bool.or_eq_true]
  constructor
  · intro h
    obtain ⟨i, hi, hS, hbit⟩ := h
    rcases (testBit_oneShl_low hi hk).mp hbit with rfl | rfl
    · exact .inl hS
    · exact .inr hS
  · rintro (hS | hS)
    · exact ⟨k, by omega, hS, (testBit_oneShl_low (by omega) hk).mpr (.inl rfl)⟩
    · exact ⟨32 + k, by omega, hS, (testBit_oneShl_low (by omega) hk).mpr (.inr rfl)⟩

/-- All others are set from bit 31 of the sum. -/
theorem testBit_rapcla_high (hk : 31 ≤ k) :
    (rapcla a b w).testBit k = (sums a b w 31 && decide (k < 64)) := by
  rw [Bool.eq_iff_iff, testBit_rapcla, Bool.and_eq_true, decide_eq_true_iff]
  constructor
  · intro h
    obtain ⟨i, hi, hS, hbit⟩ := h
    obtain ⟨rfl, hk'⟩ := (testBit_oneShl_high hi hk).mp hbit
    exact ⟨hS, hk'⟩
  · intro h
    obtain ⟨hS, hk'⟩ := h
    exact ⟨31, by decide, hS, (testBit_oneShl_high (by decide) hk).mpr ⟨rfl, hk'⟩⟩

variable {a b w : ℕ}

/-- The sum of the numbers that the adder adds: bits 0 to 30 again from bit 32 on, and bit 31. -/
theorem sum_of_bits (ha : a < 2 ^ 64) : ofBits (bit a) 63 =
    a % 2 ^ 31 * (2 ^ 32 + 1) + (if a / 2 ^ 31 = 2 ^ 33 - 1 then 1 else 0) * 2 ^ 31 := by
  have hlow : ofBits (bit a) 31 = a % 2 ^ 31 := by
    rw [← ofBits.of_testBit]
    exact ofBits.congr fun i hi => bit_low hi
  have hhigh : ofBits (fun i => bit a (32 + i)) 31 = a % 2 ^ 31 := by
    rw [← ofBits.of_testBit]
    exact ofBits.congr fun i hi => bit_high hi
  have htop : (bit a 31).toNat = if a / 2 ^ 31 = 2 ^ 33 - 1 then 1 else 0 := by
    rw [bit_31 ha]
    by_cases h : a / 2 ^ 31 = 2 ^ 33 - 1
    · rw [if_pos h, decide_eq_true h, Bool.toNat_true]
    · rw [if_neg h, decide_eq_false h, Bool.toNat_false]
  rw [show 63 = 31 + 1 + 31 from rfl, ofBits.shift, ofBits.succ, hlow, hhigh, htop]
  ring

/-- With a window over all bits no carry is lost. -/
theorem ofBits_sums (h : w = 63) :
    ofBits (sums a b w) 63 = (ofBits (bit a) 63 + ofBits (bit b) 63) % 2 ^ 63 := by
  have hsum := sum_window (A := bit a) (B := bit b) (w := w) 63
  have hbits : ofBits (sums a b w) 63 = ofBits (sumBit (bit a) (bit b) w) 63 :=
    ofBits.congr fun i hi => sums_eq hi h.le
  rw [h, Nat.sub_self, range_zero, filter_empty, sum_empty, Nat.add_zero] at hsum
  rw [hbits, hsum, h, Nat.add_mul_mod_self_right, Nat.mod_eq_of_lt ofBits.lt]

theorem sums_full {i : ℕ} (hi : i < 63) :
    sums a b 63 i = (ofBits (bit a) 63 + ofBits (bit b) 63).testBit i := by
  have hbit := congrArg (fun n => n.testBit i) (ofBits_sums (a := a) (b := b) rfl)
  simp only [ofBits.testBit hi, Nat.testBit_mod_two_pow, decide_eq_true hi, Bool.true_and] at hbit
  exact hbit

/-- The sum where its bit 31 is not set. -/
theorem rapcla_full_low (h : (ofBits (bit a) 63 + ofBits (bit b) 63).testBit 31 = false) :
    rapcla a b 63 = (ofBits (bit a) 63 + ofBits (bit b) 63) % 2 ^ 31 |||
      (ofBits (bit a) 63 + ofBits (bit b) 63) / 2 ^ 32 % 2 ^ 31 := by
  apply Nat.eq_of_testBit_eq
  intro k
  rw [Nat.testBit_or, Nat.testBit_mod_two_pow, Nat.testBit_mod_two_pow, Nat.testBit_div_two_pow]
  by_cases hk : k < 31
  · rw [testBit_rapcla_low hk, sums_full (by omega), sums_full (by omega), decide_eq_true hk,
      Bool.true_and, Bool.true_and, Nat.add_comm k 32]
  · rw [testBit_rapcla_high (by omega), sums_full (by decide), h, decide_eq_false hk]
    rfl

theorem rapcla_full_high (h : (ofBits (bit a) 63 + ofBits (bit b) 63).testBit 31 = true) :
    2 ^ 63 ≤ rapcla a b 63 := by
  apply Nat.ge_two_pow_of_testBit
  rw [testBit_rapcla_high (by decide), sums_full (by decide), h]
  rfl

/-- The parts of the sum that the adder computes. -/
theorem parts_of_sum {T L t : ℕ} (hT : T = L * (2 ^ 32 + 1) + t * 2 ^ 31) :
    T % 2 ^ 31 = L % 2 ^ 31 ∧ T / 2 ^ 31 % 2 = (L / 2 ^ 31 + t) % 2 ∧
      T / 2 ^ 32 % 2 ^ 31 = (L + (L + t * 2 ^ 31) / 2 ^ 32) % 2 ^ 31 := by
  have hdiv : T / 2 ^ 31 = L / 2 ^ 31 + (2 * L + t) := by
    rw [hT, show L * (2 ^ 32 + 1) + t * 2 ^ 31 = L + (2 * L + t) * 2 ^ 31 by ring,
      Nat.add_mul_div_right _ _ (by norm_num)]
  have hhigh : T / 2 ^ 32 = (L + t * 2 ^ 31) / 2 ^ 32 + L := by
    rw [hT, show L * (2 ^ 32 + 1) + t * 2 ^ 31 = L + t * 2 ^ 31 + L * 2 ^ 32 by ring,
      Nat.add_mul_div_right _ _ (by norm_num)]
  refine ⟨?_, ?_, ?_⟩
  · rw [hT, show L * (2 ^ 32 + 1) + t * 2 ^ 31 = L + (2 * L + t) * 2 ^ 31 by ring,
      Nat.add_mul_mod_self_right]
  · rw [hdiv]
    omega
  · rw [hhigh, Nat.add_comm]

/-- The exact sum, from the parts of the operands below and above bit 31. -/
theorem sum_split (a b : ℕ) : (a + b) % 2 ^ 63 =
    (a / 2 ^ 31 + b / 2 ^ 31 + (a % 2 ^ 31 + b % 2 ^ 31) / 2 ^ 31) % 2 ^ 32 * 2 ^ 31 +
      (a % 2 ^ 31 + b % 2 ^ 31) % 2 ^ 31 := by
  have hmod : (a + b) % 2 ^ 63 = (a + b) % 2 ^ 31 + 2 ^ 31 * ((a + b) / 2 ^ 31 % 2 ^ 32) := by
    rw [← Nat.mod_mul, ← pow_add]
  have hdiv : (a + b) / 2 ^ 31 = a / 2 ^ 31 + b / 2 ^ 31 + (a % 2 ^ 31 + b % 2 ^ 31) / 2 ^ 31 := by
    omega
  rw [hmod, hdiv, Nat.add_mod a b]
  ring

/-- When the number that the parts make is the exact sum: `L` is the sum of the low parts, and `t`
the number of high parts that are all ones. -/
theorem parts_exact_iff {s L x y t : ℕ} (hL : L ≤ 2 ^ 32 - 2) (hx : x < 2 ^ 33) (hy : y < 2 ^ 33)
    (ht : t = (if x = 2 ^ 33 - 1 then 1 else 0) + if y = 2 ^ 33 - 1 then 1 else 0)
    (hset : (L / 2 ^ 31 + t) % 2 = 1 → 2 ^ 63 ≤ s)
    (hclear : (L / 2 ^ 31 + t) % 2 = 0 →
      s = L % 2 ^ 31 ||| (L + (L + t * 2 ^ 31) / 2 ^ 32) % 2 ^ 31) :
    s = (x + y + L / 2 ^ 31) % 2 ^ 32 * 2 ^ 31 + L % 2 ^ 31 ↔
      L < 2 ^ 31 ∧ (x + y) % 2 ^ 32 = 0 ∧ x ≠ 2 ^ 33 - 1 ∧ y ≠ 2 ^ 33 - 1 := by
  have hbound : (L / 2 ^ 31 + t) % 2 = 0 →
      (L + (L + t * 2 ^ 31) / 2 ^ 32) % 2 ^ 31 ≤ s ∧ s < 2 ^ 31 := by
    intro h
    rw [hclear h]
    exact ⟨Nat.right_le_or, Nat.or_lt_two_pow (Nat.mod_lt _ (by norm_num))
      (Nat.mod_lt _ (by norm_num))⟩
  by_cases hlow : L < 2 ^ 31
  · have hdiv : L / 2 ^ 31 = 0 := Nat.div_eq_of_lt hlow
    rw [hdiv] at hset hclear hbound ⊢
    by_cases htwo : t = 2
    · -- the high parts add to an even number that is no multiple of `2 ^ 32`
      subst htwo
      have hs := hbound rfl
      split at ht <;> split at ht <;> omega
    by_cases hone : t = 1
    · subst hone
      have hs := hset rfl
      split at ht <;> split at ht <;> omega
    · have hzero : t = 0 := by
        split at ht <;> split at ht <;> omega
      subst hzero
      have hs := hclear rfl
      rw [Nat.div_eq_of_lt (show L + 0 * 2 ^ 31 < 2 ^ 32 by omega), Nat.add_zero, Nat.or_self] at hs
      split at ht <;> split at ht <;> omega
  · have hdiv : L / 2 ^ 31 = 1 := by omega
    rw [hdiv] at hset hclear hbound ⊢
    by_cases hone : t = 1
    · -- the second part is one more than the first, which has no bit of its own then
      subst hone
      have hs := hbound rfl
      omega
    · have hs := hset (by split at ht <;> split at ht <;> omega)
      omega

end Rapcla

open Rapcla in
/-- With a window over all bits the adder is exact only where the low 31 bits add without a carry,
the parts above them add to nothing, and neither of those is all ones. -/
theorem rapcla_full_iff (a b : ℕ) (ha : a < 2 ^ 64) (hb : b < 2 ^ 64) :
    rapcla a b 63 = (a + b) % 2 ^ 63 ↔
      a % 2 ^ 31 + b % 2 ^ 31 < 2 ^ 31 ∧ (a / 2 ^ 31 + b / 2 ^ 31) % 2 ^ 32 = 0 ∧
        a / 2 ^ 31 ≠ 2 ^ 33 - 1 ∧ b / 2 ^ 31 ≠ 2 ^ 33 - 1 := by
  have hvalue : ofBits (bit a) 63 + ofBits (bit b) 63 =
      (a % 2 ^ 31 + b % 2 ^ 31) * (2 ^ 32 + 1) + ((if a / 2 ^ 31 = 2 ^ 33 - 1 then 1 else 0) +
        if b / 2 ^ 31 = 2 ^ 33 - 1 then 1 else 0) * 2 ^ 31 := by
    rw [sum_of_bits ha, sum_of_bits hb]
    ring
  obtain ⟨hpart0, hpart31, hpart32⟩ := parts_of_sum hvalue
  rw [sum_split]
  apply parts_exact_iff (by omega) (by omega) (by omega) rfl
  · intro h
    apply rapcla_full_high
    rw [Nat.testBit_eq_decide_div_mod_eq, hpart31, h]
    rfl
  · intro h
    rw [← hpart0, ← hpart32]
    apply rapcla_full_low
    rw [Nat.testBit_eq_decide_div_mod_eq, hpart31, h]
    rfl

theorem rapcla_full_iff_small : rapcla 12345 67890 63 = (12345 + 67890) % 2 ^ 63 :=
  (rapcla_full_iff 12345 67890 (by decide) (by decide)).mpr (by decide)

/-- Minus one and five add to five, and `2 ^ 32` is lost. -/
theorem rapcla_full_negative : rapcla (2 ^ 64 - 1) 5 63 = 5 ∧ (2 ^ 64 - 1 + 5) % 2 ^ 63 = 4 ∧
    rapcla (2 ^ 32) 0 63 = 0 := by decide +kernel

namespace Rapcla

variable {a b w k : ℕ}

theorem bit_of_low (ha : a < 2 ^ 31) {i : ℕ} (hi : i < 32) : bit a i = a.testBit i := by
  by_cases h : i < 31
  · exact bit_low h
  · obtain rfl : i = 31 := by omega
    rw [bit_31 (ha.trans (by norm_num)), Nat.testBit_lt_two_pow ha]
    exact decide_eq_false (by omega)

/-- No carry of small operands comes to bit 31, and the bits from 32 on are those from 0 on again.
-/
theorem carry_high (ha : a < 2 ^ 31) (hb : b < 2 ^ 31) (hk : k < 31) :
    carry (bit a) (bit b) w (32 + k) = carry a.testBit b.testBit w k := by
  have hA31 : bit a 31 = false := (bit_of_low ha (by decide)).trans (Nat.testBit_lt_two_pow ha)
  have hB31 : bit b 31 = false := (bit_of_low hb (by decide)).trans (Nat.testBit_lt_two_pow hb)
  rw [Bool.eq_iff_iff, carry_iff, carry_iff]
  constructor
  -- bit 31 of small operands is clear, so no carry comes through it
  · intro h'
    obtain ⟨g, hg, hw, hA, hB, hall⟩ := h'
    have hg32 : 32 ≤ g := by
      by_contra hlt
      by_cases hg31 : g = 31
      · rw [hg31, hA31] at hA
        cases hA
      · -- bit 31 does not carry on
        apply hall 31 (by omega) (by omega)
        rw [hA31, hB31]
    obtain ⟨j, rfl⟩ := Nat.exists_eq_add_of_le hg32
    rw [bit_high (by omega)] at hA hB
    refine ⟨j, by omega, by omega, hA, hB, ?_⟩
    intro z hz hlt
    have h := hall (32 + z) (by omega) (by omega)
    rwa [bit_high (by omega), bit_high (by omega)] at h
  · intro h'
    obtain ⟨g, hg, hw, hA, hB, hall⟩ := h'
    refine ⟨32 + g, by omega, by omega, ?_, ?_, ?_⟩
    · rwa [bit_high (by omega)]
    · rwa [bit_high (by omega)]
    · intro z hz hlt
      obtain ⟨j, rfl⟩ := Nat.exists_eq_add_of_le (show 32 ≤ z by omega)
      rw [bit_high (by omega), bit_high (by omega)]
      exact hall j (by omega) (by omega)

/-- The sum of small operands falls short by the carries that run out of the window. -/
theorem sum_of_small (hab : a + b < 2 ^ 31) : a + b = ofBits (sumBit a.testBit b.testBit w) 31 +
    (carry a.testBit b.testBit w 31).toNat * 2 ^ 31 +
      ∑ g ∈ range (31 - w) with Runs a.testBit b.testBit w g, 2 ^ (g + w + 1) := by
  rw [← sum_window, ofBits.of_testBit, ofBits.of_testBit, Nat.mod_eq_of_lt (by omega),
    Nat.mod_eq_of_lt (by omega)]

theorem sums_31 (hab : a + b < 2 ^ 31) (hw : w ≤ 63) : sums a b w 31 = false := by
  have hcarry : carry (bit a) (bit b) w 31 = carry a.testBit b.testBit w 31 :=
    carry_congr (fun z hz => bit_low hz) fun z hz => bit_low hz
  have hnone : carry a.testBit b.testBit w 31 = false := by
    have hsum := sum_of_small (w := w) hab
    cases h : carry a.testBit b.testBit w 31 with
    | false => rfl
    | true =>
      rw [h, Bool.toNat_true] at hsum
      omega
  rw [sums_eq (by decide) hw, sumBit, hcarry, hnone, bit_of_low (by omega) (by decide),
    bit_of_low (by omega) (by decide), Nat.testBit_lt_two_pow (by omega),
    Nat.testBit_lt_two_pow (by omega)]
  rfl

/-- On small operands the adder is the look-ahead over bits 0 to 30. -/
theorem rapcla_small (hab : a + b < 2 ^ 31) (hw : w ≤ 63) :
    rapcla a b w = ofBits (sumBit a.testBit b.testBit w) 31 := by
  have hlow : ∀ k < 31, sums a b w k = sumBit a.testBit b.testBit w k := by
    intro k hk
    have hcarry : carry (bit a) (bit b) w k = carry a.testBit b.testBit w k :=
      carry_congr (fun z hz => bit_low (by omega)) fun z hz => bit_low (by omega)
    rw [sums_eq (by omega) hw, sumBit, bit_low hk, bit_low hk, hcarry]
    rfl
  have hhigh : ∀ k < 31, sums a b w (32 + k) = sumBit a.testBit b.testBit w k := by
    intro k hk
    rw [sums_eq (by omega) hw, sumBit, bit_high hk, bit_high hk,
      carry_high (by omega) (by omega) hk]
    rfl
  apply Nat.eq_of_testBit_eq
  intro k
  by_cases hk : k < 31
  · rw [testBit_rapcla_low hk, hlow k hk, hhigh k hk, Bool.or_self, ofBits.testBit hk]
  · rw [testBit_rapcla_high (by omega), sums_31 hab hw, Nat.testBit_lt_two_pow]
    · rfl
    · exact ofBits.lt.trans_le (Nat.pow_le_pow_right (by decide) (by omega))

/-- A carry of small operands that runs through the window does not come to bit 31. -/
theorem Runs.lt (hab : a + b < 2 ^ 31) {g : ℕ} (h : Runs a.testBit b.testBit w g) : g + w < 31 := by
  have hzero : ∀ z, 31 ≤ z → a.testBit z = false ∧ b.testBit z = false := by
    intro z hz
    have hpow : 2 ^ 31 ≤ 2 ^ z := Nat.pow_le_pow_right (by decide) hz
    exact ⟨Nat.testBit_lt_two_pow (by omega), Nat.testBit_lt_two_pow (by omega)⟩
  obtain ⟨hA, hB, hall⟩ := h
  by_contra hlt
  obtain ⟨ha, hb⟩ := hzero (g + w) (by omega)
  by_cases hw : w = 0
  · subst hw
    rw [Nat.add_zero] at ha
    rw [ha] at hA
    cases hA
  · exact hall (g + w) le_rfl (by omega) (ha.trans hb.symm)

end Rapcla

open Rapcla in
/-- What the window loses: for each carry that is generated at a bit `g` and runs through the next
`w` bits, `2 ^ (g + w + 1)`. -/
theorem rapcla_error (a b w : ℕ) (hab : a + b < 2 ^ 31) (hw : w ≤ 63) :
    (a + b : ℤ) - rapcla a b w =
        ∑ g ∈ range 64 with Runs a.testBit b.testBit w g, 2 ^ (g + w + 1) ∧
      rapcla a b w ≤ a + b ∧
      (rapcla a b w = a + b ↔ ∀ g n, a.testBit g = true → b.testBit g = true →
        (∀ z ≤ g + n, g < z → a.testBit z ≠ b.testBit z) → n < w) := by
  have hrange : {g ∈ range (31 - w) | Runs a.testBit b.testBit w g} =
      {g ∈ range 64 | Runs a.testBit b.testBit w g} := by
    ext g
    simp only [mem_filter, mem_range]
    apply and_congr_left
    intro h
    have := Runs.lt hab h
    omega
  have hsum := sum_of_small (w := w) hab
  have hcarry : (carry a.testBit b.testBit w 31).toNat = 0 := by
    have := Bool.toNat_le (carry a.testBit b.testBit w 31)
    omega
  rw [← rapcla_small hab hw, hcarry, Nat.zero_mul, Nat.add_zero, hrange] at hsum
  refine ⟨?_, by omega, ?_⟩
  · have hcast := congrArg (Nat.cast (R := ℤ)) hsum
    push_cast at hcast
    rw [hcast]
    ring
  · have hnone : rapcla a b w = a + b ↔
        ∑ g ∈ range 64 with Runs a.testBit b.testBit w g, 2 ^ (g + w + 1) = 0 := by omega
    rw [hnone, sum_eq_zero_iff]
    constructor
    · intro hz g n hA hB hall
      by_contra hn
      have hrun : Runs a.testBit b.testBit w g := ⟨hA, hB, fun z hz => hall z (by omega)⟩
      have hlt := Runs.lt hab hrun
      have hpow := hz g (mem_filter.mpr ⟨mem_range.mpr (by omega), hrun⟩)
      exact absurd hpow (pow_ne_zero _ two_ne_zero)
    · intro h g hg
      obtain ⟨hA, hB, hall⟩ := (mem_filter.mp hg).2
      exact absurd (h g w hA hB hall) (lt_irrefl w)

/-- Bit 0 of three and of one generates a carry that runs one bit further. -/
theorem rapcla_error_short : rapcla 3 1 1 = 0 ∧ (3 + 1 : ℤ) - rapcla 3 1 1 =
    ∑ g ∈ range 64 with CarryLookahead.Runs (Nat.testBit 3) (Nat.testBit 1) 1 g, 2 ^ (g + 1 + 1) :=
  ⟨by decide +kernel, (rapcla_error 3 1 1 (by decide) (by decide)).1⟩

/-- The approximate sum of `SIM_CMD_ADD_OP` is at most the exact one, and exact where no carry runs
through 16 bits. -/
theorem addOp_le {a b : ℕ} (hab : a + b < 2 ^ 31) (random : Bool) : addOp random a b ≤ a + b := by
  unfold addOp
  split
  · have hsum := Rapcla.sum_of_small (w := 16) hab
    rw [Rapcla.rapcla_small hab (by decide)]
    omega
  · exact Nat.mod_le _ _

end Sniper
