import Mathlib.Data.List.Range
import Mathlib.Tactic

namespace Sniper

/-- The reads of instructions by a core, in cache lines of `cache_block_size` bytes. -/
structure InstructionReads where
  cache_block_size : UInt64

namespace InstructionReads

variable (R : InstructionReads)

def blockmask : UInt64 := ~~~(R.cache_block_size - 1)

/-- `Core::readInstructionMemory`: `m_icache_last_block` after the call, and the line that is read
from the L1-I, unless the core still has it. -/
def readInstructionMemory (m_icache_last_block address : UInt64) (instruction_size : UInt32) :
    UInt64 × Option UInt64 :=
  let single_cache_line :=
    address &&& R.blockmask = (address + instruction_size.toUInt64 - 1) &&& R.blockmask
  if address &&& R.blockmask = m_icache_last_block then
    if single_cache_line then (m_icache_last_block, none)
    else
      -- the first line is there, the second one is not
      let address := (address &&& R.blockmask) + R.cache_block_size
      (address &&& R.blockmask, some (address &&& R.blockmask))
  else (address &&& R.blockmask, some (address &&& R.blockmask))

/-- Instructions of these sizes, one behind the other from `address` on: the line the core has in
the end, and the lines it has read. -/
def readAll : UInt64 → UInt64 → List UInt32 → UInt64 × List UInt64
  | m_icache_last_block, _, [] => (m_icache_last_block, [])
  | m_icache_last_block, address, size :: sizes =>
    let r := R.readInstructionMemory m_icache_last_block address size
    let rest := readAll r.1 (address + size.toUInt64) sizes
    (rest.1, r.2.toList ++ rest.2)

end InstructionReads

/-- The first byte of each instruction, and the first byte behind it. -/
def layout : ℕ → List UInt32 → List (ℕ × ℕ)
  | _, [] => []
  | a, size :: sizes => (a, a + size.toNat) :: layout (a + size.toNat) sizes

/-- An instruction with bytes in two lines of `B` bytes. -/
def Spans (B : ℕ) (i : ℕ × ℕ) : Prop := i.1 / B ≠ (i.2 - 1) / B

instance (B : ℕ) (i : ℕ × ℕ) : Decidable (Spans B i) := inferInstanceAs (Decidable (_ ≠ _))

/-- The core comes to the code from another line, and has not come to an instruction yet that lies
in one line. -/
def Lags (B : ℕ) (last a : ℕ) (sizes : List UInt32) : Prop :=
  last ≠ a / B * B ∧ ∀ i ∈ layout a sizes, Spans B i

instance (B last a : ℕ) (sizes : List UInt32) : Decidable (Lags B last a sizes) :=
  inferInstanceAs (Decidable (_ ∧ _))

/-- The first line that the core does not have when it comes to the code at `a`. -/
def firstRead (B last a : ℕ) : ℕ := if last = a / B * B then a / B + 1 else a / B

/-- The first byte behind the instructions. -/
def codeEnd (a : ℕ) (sizes : List UInt32) : ℕ := a + (sizes.map UInt32.toNat).sum

/-- The line that the core has behind the instructions: the one of their last byte, or the one
before it. -/
def lastRead (B last a : ℕ) (sizes : List UInt32) : ℕ :=
  if Lags B last a sizes then (codeEnd a sizes - 1) / B - 1 else (codeEnd a sizes - 1) / B

/-- Code without jumps, in the address space, with lines of `2 ^ b` bytes, none of whose
instructions is longer than a line. -/
structure StraightCode (b : ℕ) (address : UInt64) (sizes : List UInt32) : Prop where
  block : b < 64
  positive : ∀ size ∈ sizes, 0 < size.toNat
  fits : ∀ size ∈ sizes, size.toNat ≤ 2 ^ b
  bound : address.toNat + (sizes.map UInt32.toNat).sum < 2 ^ 64

namespace InstructionReads

variable {R : InstructionReads} {b : ℕ} {last address : UInt64} {size : UInt32}
    {sizes : List UInt32}

/-- The mask clears the offset within the line. -/
theorem toNat_blockmask (hb : b < 64) (hR : R.cache_block_size.toNat = 2 ^ b) (x : UInt64) :
    (x &&& R.blockmask).toNat = x.toNat / 2 ^ b * 2 ^ b := by
  have hone : (1 : UInt64) ≤ R.cache_block_size := by
    rw [UInt64.le_iff_toNat_le, hR]
    exact Nat.one_le_two_pow
  have hmask : (R.cache_block_size - 1).toNat = 2 ^ b - 1 := by
    rw [UInt64.toNat_sub_of_le _ _ hone, hR]
    rfl
  have hlt : 2 ^ b - 1 < 2 ^ 64 :=
    (Nat.sub_le _ _).trans_lt (Nat.pow_lt_pow_right (by decide) hb)
  unfold blockmask
  apply Nat.eq_of_testBit_eq
  intro i
  rw [UInt64.toNat_and, UInt64.toNat_not, hmask, Nat.testBit_and, Nat.testBit_mul_two_pow]
  have hnot : UInt64.size - 1 - (2 ^ b - 1) = 2 ^ 64 - (2 ^ b - 1 + 1) := by
    unfold UInt64.size
    omega
  rw [hnot, Nat.testBit_two_pow_sub_succ hlt, Nat.testBit_two_pow_sub_one, Nat.testBit_div_two_pow]
  by_cases hi : b ≤ i
  · have hib : ¬i < b := by omega
    rw [decide_eq_true hi, Nat.sub_add_cancel hi, decide_eq_false hib, Bool.not_false,
      Bool.and_true,
      Bool.true_and]
    by_cases h64 : i < 64
    · rw [decide_eq_true h64, Bool.and_true]
    · have hbit : x.toNat.testBit i = false := Nat.testBit_lt_two_pow
        (x.toNat_lt.trans_le (Nat.pow_le_pow_right (by decide) (by omega)))
      rw [hbit, Bool.false_and]
  · have hib : i < b := by omega
    rw [decide_eq_false hi, decide_eq_true hib, Bool.not_true, Bool.and_false, Bool.and_false,
      Bool.false_and]

/-- A byte at most a line behind `a` is in the line of `a` or in the next one. -/
theorem div_of_within {B a x : ℕ} (hB : 0 < B) (ha : a ≤ x) (hx : x < a + B) :
    x / B = if x < a / B * B + B then a / B else a / B + 1 := by
  have hdiv := Nat.div_add_mod' a B
  have hmod := Nat.mod_lt a hB
  have hsucc : (a / B + 1) * B = a / B * B + B := by ring
  have hsucc' : (a / B + 1 + 1) * B = a / B * B + B + B := by ring
  split
  · apply Nat.div_eq_of_lt_le <;> omega
  · apply Nat.div_eq_of_lt_le <;> omega

theorem had_iff (last address : UInt64) (hb : b < 64) (hR : R.cache_block_size.toNat = 2 ^ b) :
    address &&& R.blockmask = last ↔ last.toNat = address.toNat / 2 ^ b * 2 ^ b := by
  rw [← UInt64.toNat_inj, toNat_blockmask hb hR, eq_comm]

/-- The line of the last byte of an instruction no longer than a line. -/
theorem lastByte_line {B a : ℕ} (hpos : 0 < size.toNat) (hfits : size.toNat ≤ B) :
    (a + size.toNat - 1) / B = if Spans B (a, a + size.toNat) then a / B + 1 else a / B := by
  have hwithin := div_of_within (a := a) (x := a + size.toNat - 1) (by omega : 0 < B) (by omega)
    (by omega)
  by_cases hspans : Spans B (a, a + size.toNat)
  · rw [if_pos hspans, hwithin]
    unfold Spans at hspans
    rw [hwithin] at hspans
    split at hspans
    · exact absurd rfl hspans
    · rename_i hlt
      rw [if_neg hlt]
  · rw [if_neg hspans]
    exact (not_not.mp hspans).symm

theorem lags_cons {B last a : ℕ} : Lags B last a (size :: sizes) ↔
    last ≠ a / B * B ∧ Spans B (a, a + size.toNat) ∧
      ∀ i ∈ layout (a + size.toNat) sizes, Spans B i := by
  simp only [Lags, layout, List.forall_mem_cons]

theorem codeEnd_cons {a : ℕ} : codeEnd a (size :: sizes) = codeEnd (a + size.toNat) sizes := by
  simp only [codeEnd, List.map_cons, List.sum_cons, add_assoc]

theorem lastRead_single {B : ℕ} (last a : ℕ) (hpos : 0 < size.toNat) (hfits : size.toNat ≤ B) :
    lastRead B last a [size] =
      if Spans B (a, a + size.toNat) ∧ last = a / B * B then a / B + 1 else a / B := by
  have hlags : Lags B last a [size] ↔ last ≠ a / B * B ∧ Spans B (a, a + size.toNat) := by
    simp only [lags_cons, layout, List.not_mem_nil, false_implies, implies_true, and_true]
  have hend : codeEnd a [size] = a + size.toNat := codeEnd_cons
  have hline := lastByte_line (a := a) hpos hfits
  unfold lastRead
  rw [hend, hline]
  simp only [hlags]
  by_cases hspans : Spans B (a, a + size.toNat)
  · by_cases hl : last = a / B * B
    · simp [hspans, hl]
    · simp [hspans, hl]
  · simp [hspans]

/-- The line behind the instruction is the one of its last byte, unless it ends with its line. -/
theorem line_behind {B e : ℕ} (he : 0 < e) :
    e / B = (e - 1) / B ∨ e / B = (e - 1) / B + 1 ∧ e / B * B = e := by
  obtain ⟨e, rfl⟩ := Nat.exists_eq_succ_of_ne_zero he.ne'
  rw [Nat.succ_eq_add_one, Nat.add_sub_cancel, Nat.succ_div]
  by_cases hdvd : B ∣ e + 1
  · refine Or.inr ⟨by rw [if_pos hdvd], ?_⟩
    rw [← Nat.succ_div]
    exact Nat.div_mul_cancel hdvd
  · rw [if_neg hdvd]
    exact Or.inl rfl

/-- An instruction that starts with a line lies in it. -/
theorem not_spans_aligned {B a : ℕ} (ha : a / B * B = a) (hpos : 0 < size.toNat)
    (hfits : size.toNat ≤ B) : ¬Spans B (a, a + size.toNat) := by
  have hwithin := div_of_within (a := a) (x := a + size.toNat - 1) (by omega : 0 < B) (by omega)
    (by omega)
  rw [ha, if_pos (by omega)] at hwithin
  exact not_not.mpr hwithin.symm

/-- An instruction in two lines ends in the second one, not with it. -/
theorem line_behind_spans {B a : ℕ} (hpos : 0 < size.toNat) (hfits : size.toNat ≤ B)
    (hspans : Spans B (a, a + size.toNat)) : (a + size.toNat) / B = a / B + 1 := by
  have hline := lastByte_line (a := a) hpos hfits
  rw [if_pos hspans] at hline
  have hmod := Nat.mod_lt a (by omega : 0 < B)
  have hdiv := Nat.div_add_mod' a B
  have hle := Nat.div_mul_le_self (a + size.toNat - 1) B
  rw [hline] at hle
  have hsucc : (a / B + 1) * B = a / B * B + B := by ring
  have hsucc' : (a / B + 1 + 1) * B = a / B * B + B + B := by ring
  apply Nat.div_eq_of_lt_le <;> omega

/-- The instruction behind another one: the core goes on behind the line that it has. -/
theorem lines_cons {B : ℕ} (last a : ℕ) {next : UInt32} (sizes : List UInt32)
    (hpos : 0 < size.toNat) (hfits : size.toNat ≤ B) (hnext : 0 < next.toNat)
    (hnextFits : next.toNat ≤ B) :
    let had := lastRead B last a [size]
    firstRead B (had * B) (a + size.toNat) = had + 1 ∧
      lastRead B (had * B) (a + size.toNat) (next :: sizes) =
        lastRead B last a (size :: next :: sizes) := by
  have hB : 0 < B := by omega
  have hline := lastByte_line (a := a) hpos hfits
  have hsingle := lastRead_single last a hpos hfits
  intro had
  have hne : ∀ t t' : ℕ, t ≠ t' → t * B ≠ t' * B := fun _ _ h h' =>
    h (Nat.eq_of_mul_eq_mul_right hB h')
  have hrest : Lags B (had * B) (a + size.toNat) (next :: sizes) ↔
      had * B ≠ (a + size.toNat) / B * B ∧
        ∀ i ∈ layout (a + size.toNat) (next :: sizes), Spans B i := Iff.rfl
  suffices h : firstRead B (had * B) (a + size.toNat) = had + 1 ∧
      (Lags B (had * B) (a + size.toNat) (next :: sizes) ↔
        Lags B last a (size :: next :: sizes)) by
    refine ⟨h.1, ?_⟩
    unfold lastRead
    have hend : codeEnd a (size :: next :: sizes) = codeEnd (a + size.toNat) (next :: sizes) :=
      codeEnd_cons
    rw [hend]
    simp only [h.2]
  rw [hrest, lags_cons]
  unfold firstRead
  by_cases hlag : last ≠ a / B * B ∧ Spans B (a, a + size.toNat)
  · -- the core has the first of the two lines only
    obtain ⟨hl, hspans⟩ := hlag
    have hhad : had = a / B := hsingle.trans (if_neg fun h => hl h.2)
    have hbehind := line_behind_spans hpos hfits hspans
    have hskip : had * B ≠ (a + size.toNat) / B * B := hne _ _ (by omega)
    rw [if_neg hskip]
    refine ⟨by rw [hbehind, hhad], ?_⟩
    constructor
    · exact fun h => ⟨hl, hspans, h.2⟩
    · exact fun h => ⟨hskip, h.2.2⟩
  · have hhad : had = (a + size.toNat - 1) / B := by
      rw [hline]
      refine hsingle.trans (if_congr ?_ rfl rfl)
      constructor
      · exact fun h => h.1
      · exact fun h => ⟨h, by_contra fun hl => hlag ⟨hl, h⟩⟩
    have hfirst : (if had * B = (a + size.toNat) / B * B then (a + size.toNat) / B + 1
        else (a + size.toNat) / B) = had + 1 ∧ (had * B ≠ (a + size.toNat) / B * B →
        (a + size.toNat) / B * B = a + size.toNat) := by
      rcases line_behind (B := B) (e := a + size.toNat) (by omega) with hbehind | hbehind
      · rw [hhad, hbehind, if_pos rfl]
        exact ⟨rfl, fun h => absurd rfl h⟩
      · rw [if_neg (hne _ _ (by omega)), hhad, hbehind.1]
        exact ⟨rfl, fun _ => hbehind.1 ▸ hbehind.2⟩
    refine ⟨hfirst.1, ?_⟩
    constructor
    · intro h
      have haligned := not_spans_aligned (hfirst.2 h.1) hnext hnextFits
      exact absurd (h.2 _ List.mem_cons_self) haligned
    · exact fun h => absurd ⟨h.1, h.2.1⟩ hlag

section

variable (h : StraightCode b address [size]) (hR : R.cache_block_size.toNat = 2 ^ b)
include h

theorem size_pos : 0 < size.toNat := h.positive size (List.mem_singleton_self size)

theorem size_fits : size.toNat ≤ 2 ^ b := h.fits size (List.mem_singleton_self size)

theorem size_bound : address.toNat + size.toNat < 2 ^ 64 := by
  have hbound := h.bound
  simpa using hbound

theorem toNat_lastByte :
    (address + size.toUInt64 - 1).toNat = address.toNat + size.toNat - 1 := by
  have hpos := size_pos h
  have hsum : (address + size.toUInt64).toNat = address.toNat + size.toNat := by
    rw [UInt64.toNat_add, UInt32.toNat_toUInt64, Nat.mod_eq_of_lt (size_bound h)]
  have hone : (1 : UInt64) ≤ address + size.toUInt64 := by
    rw [UInt64.le_iff_toNat_le, hsum]
    exact le_trans hpos (Nat.le_add_left _ _)
  rw [UInt64.toNat_sub_of_le _ _ hone, hsum]
  rfl

include hR

theorem single_cache_line_iff :
    address &&& R.blockmask = (address + size.toUInt64 - 1) &&& R.blockmask ↔
      ¬Spans (2 ^ b) (address.toNat, address.toNat + size.toNat) := by
  unfold Spans
  rw [← UInt64.toNat_inj, toNat_blockmask h.block hR, toNat_blockmask h.block hR, toNat_lastByte h,
    Nat.mul_left_inj (Nat.two_pow_pos b).ne', not_not]

/-- The line behind the first one of an instruction in two lines. -/
theorem toNat_secondLine (hspans : Spans (2 ^ b) (address.toNat, address.toNat + size.toNat)) :
    (((address &&& R.blockmask) + R.cache_block_size) &&& R.blockmask).toNat =
      (address.toNat / 2 ^ b + 1) * 2 ^ b := by
  have hsucc : (address.toNat / 2 ^ b + 1) * 2 ^ b = address.toNat / 2 ^ b * 2 ^ b +
    2 ^ b := by ring
  have hline := lastByte_line (B := 2 ^ b) (a := address.toNat) (size_pos h) (size_fits h)
  rw [if_pos hspans] at hline
  have hle := Nat.div_mul_le_self (address.toNat + size.toNat - 1) (2 ^ b)
  rw [hline] at hle
  have hbound := size_bound h
  rw [toNat_blockmask h.block hR, UInt64.toNat_add, toNat_blockmask h.block hR, hR, ← hsucc,
    Nat.mod_eq_of_lt (by omega), Nat.mul_div_cancel _ (Nat.two_pow_pos b)]

/-- One call reads the line that the core does not have: the second one only if it has the first. -/
theorem readInstructionMemory_lines (last : UInt64) :
    let r := R.readInstructionMemory last address size
    let first := firstRead (2 ^ b) last.toNat address.toNat
    let reached := lastRead (2 ^ b) last.toNat address.toNat [size]
    r.1.toNat = reached * 2 ^ b ∧ first ≤ reached + 1 ∧
      r.2.toList.map UInt64.toNat = (List.range' first (reached + 1 - first)).map (· * 2 ^ b) := by
  have hlast := lastRead_single last.toNat address.toNat (size_pos h) (size_fits h)
  have hhad := had_iff last address h.block hR
  have hsingle := single_cache_line_iff h hR
  have hfirst := toNat_blockmask h.block hR address
  unfold readInstructionMemory firstRead
  simp only [hlast, hhad, hsingle]
  by_cases hl : last.toNat = address.toNat / 2 ^ b * 2 ^ b
  · by_cases hspans : Spans (2 ^ b) (address.toNat, address.toNat + size.toNat)
    · have hsecond := toNat_secondLine h hR hspans
      simp [hl, hspans, hsecond]
    · simp [hl, hspans]
  · simp [hl, hfirst]

end

/-- The lines up to before `m`, and those from there on. -/
theorem range'_join {s m n : ℕ} (hm : s ≤ m) (hn : m ≤ n) :
    List.range' s (m - s) ++ List.range' m (n - m) = List.range' s (n - s) := by
  have happend := List.range'_append_1 (s := s) (m := m - s) (n := n - m)
  rw [Nat.add_sub_cancel' hm] at happend
  rw [happend]
  congr 1
  omega

theorem straightCode_head (h : StraightCode b address (size :: sizes)) :
    StraightCode b address [size] where
  block := h.block
  positive s hs := h.positive s (by rw [List.mem_singleton.mp hs]; exact List.mem_cons_self)
  fits s hs := h.fits s (by rw [List.mem_singleton.mp hs]; exact List.mem_cons_self)
  bound := by
    have hbound := h.bound
    simp only [List.map_cons, List.sum_cons, List.map_nil, List.sum_nil] at hbound ⊢
    omega

theorem straightCode_tail (h : StraightCode b address (size :: sizes)) :
    (address + size.toUInt64).toNat = address.toNat + size.toNat ∧
      StraightCode b (address + size.toUInt64) sizes := by
  have hbound := h.bound
  simp only [List.map_cons, List.sum_cons] at hbound
  have hsum : (address + size.toUInt64).toNat = address.toNat + size.toNat := by
    rw [UInt64.toNat_add, UInt32.toNat_toUInt64, Nat.mod_eq_of_lt (by omega)]
  refine ⟨hsum, h.block, ?_, ?_, ?_⟩
  · exact fun s hs => h.positive s (List.mem_cons_of_mem _ hs)
  · exact fun s hs => h.fits s (List.mem_cons_of_mem _ hs)
  · rw [hsum]
    omega

theorem readAll_lines (hR : R.cache_block_size.toNat = 2 ^ b) (hne : sizes ≠ []) :
    ∀ last address, StraightCode b address sizes →
    let r := R.readAll last address sizes
    let first := firstRead (2 ^ b) last.toNat address.toNat
    let reached := lastRead (2 ^ b) last.toNat address.toNat sizes
    r.1.toNat = reached * 2 ^ b ∧ first ≤ reached + 1 ∧
      r.2.map UInt64.toNat = (List.range' first (reached + 1 - first)).map (· * 2 ^ b) := by
  induction sizes with
  | nil => exact absurd rfl hne
  | cons size sizes ih =>
    intro last address h r first reached
    have hhead := readInstructionMemory_lines (straightCode_head h) hR last
    cases sizes with
    | nil =>
      have hr : r.2 = (R.readInstructionMemory last address size).2.toList := List.append_nil _
      rw [hr]
      exact hhead
    | cons next sizes =>
      obtain ⟨hsum, htail⟩ := straightCode_tail h
      obtain ⟨hhad, hle, hlines⟩ := hhead
      obtain ⟨hgo, hreached⟩ := lines_cons last.toNat address.toNat sizes
        (size_pos (straightCode_head h)) (size_fits (straightCode_head h))
        (htail.positive next List.mem_cons_self) (htail.fits next List.mem_cons_self)
      obtain ⟨hrest, hrestLe, hrestLines⟩ :=
        ih (List.cons_ne_nil _ _) (R.readInstructionMemory last address size).1 _ htail
      rw [hsum, hhad, hreached] at hrest hrestLe hrestLines
      rw [hgo] at hrestLe hrestLines
      refine ⟨hrest, by omega, ?_⟩
      have hr : r.2 = (R.readInstructionMemory last address size).2.toList ++
        (R.readAll (R.readInstructionMemory last address size).1 (address + size.toUInt64)
          (next :: sizes)).2 := rfl
      rw [hr, List.map_append, hlines, hrestLines, ← List.map_append]
      rw [range'_join hle hrestLe]

/-- Code without jumps: the core reads its lines from the L1-I in order and each once, from the
first one that it does not have. All are read, except the line of the last byte where the core came
from another line and every instruction lies in two lines. -/
theorem straightCode_reads (hR : R.cache_block_size.toNat = 2 ^ b) (hne : sizes ≠ [])
    (h : StraightCode b address sizes) :
    let r := R.readAll last address sizes
    let first := firstRead (2 ^ b) last.toNat address.toNat
    let reached := lastRead (2 ^ b) last.toNat address.toNat sizes
    r.1.toNat = reached * 2 ^ b ∧
      r.2.map UInt64.toNat = (List.range' first (reached + 1 - first)).map (· * 2 ^ b) := by
  obtain ⟨hhad, -, hlines⟩ := readAll_lines hR hne last address h
  exact ⟨hhad, hlines⟩

def lines64 : InstructionReads := ⟨64⟩

theorem crossing_straight : StraightCode 6 60 [8, 4] where
  block := by decide
  positive := by simp
  fits := by simp
  bound := by decide

/-- An instruction in the lines 0 and 1, then one in line 1: a core that comes from elsewhere reads
line 0 for the first, and line 1 for the second. -/
theorem straightCode_reads_crossing : StraightCode 6 60 [8, 4] ∧
    (lines64.readAll (-1) 60 [8]).2 = [0] ∧ (lines64.readAll (-1) 60 [8, 4]).1.toNat = 1 * 64 ∧
      (lines64.readAll (-1) 60 [8, 4]).2.map UInt64.toNat = [0, 1].map (· * 64) :=
  ⟨crossing_straight, by decide,
    @straightCode_reads lines64 6 (-1) 60 [8, 4] rfl (List.cons_ne_nil _ _) crossing_straight⟩

end InstructionReads
end Sniper
