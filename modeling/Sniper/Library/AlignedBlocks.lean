import Mathlib.Data.Finset.Card
import Mathlib.Order.Interval.Finset.Nat
import Mathlib.Tactic

/-! The range from `a` to before `e`, cut at the multiples of `B`. -/

namespace AlignedBlocks

variable {B a e t : ℕ}

/-- Where the part of the range in the blocks from `t` on starts. -/
def cut (B a e t : ℕ) : ℕ := min e (max a (t * B))

/-- The blocks the range has a byte of. -/
def touched (B a e : ℕ) : Finset ℕ := (Finset.Ico a e).image (· / B)

theorem cut_le : cut B a e t ≤ e := min_le_left _ _

theorem le_cut (h : a ≤ e) : a ≤ cut B a e t := le_min h (le_max_left _ _)

theorem cut_first (h : a ≤ e) : cut B a e (a / B) = a := by
  unfold cut
  rw [max_eq_left (Nat.div_mul_le_self a B), min_eq_right h]

theorem cut_of_le (h : e ≤ t * B) : cut B a e t = e :=
  min_eq_left (h.trans (le_max_right _ _))

/-- Behind the first block the parts start with their blocks. -/
theorem cut_of_lt (hB : 0 < B) (ht : a / B < t) (he : t * B ≤ e) : cut B a e t = t * B := by
  have ha : a < t * B := (Nat.div_lt_iff_lt_mul hB).mp ht
  unfold cut
  omega

theorem mul_le_cut (he : t * B ≤ e) : t * B ≤ cut B a e t := le_min he (le_max_right _ _)

theorem cut_succ_le (hB : 0 < B) (ht : a / B ≤ t) : cut B a e (t + 1) ≤ (t + 1) * B := by
  have ha : a < (t + 1) * B := (Nat.div_lt_iff_lt_mul hB).mp (by omega)
  unfold cut
  omega

theorem cut_mono : cut B a e t ≤ cut B a e (t + 1) := by
  have hsucc : (t + 1) * B = t * B + B := by ring
  unfold cut
  omega

/-- Nothing is left behind the last block that the range touches. -/
theorem cut_eq_end (h : a < e) : cut B a e t = e ↔ e ≤ t * B := by
  unfold cut
  omega

/-- What is left starts in the block, and does not end before it. -/
theorem cut_lt_succ (hB : 0 < B) (ht : a / B ≤ t) (h : cut B a e t < e) :
    cut B a e t < cut B a e (t + 1) := by
  have ha : a < (t + 1) * B := (Nat.div_lt_iff_lt_mul hB).mp (by omega)
  have hsucc : (t + 1) * B = t * B + B := by ring
  unfold cut at h ⊢
  omega

/-- The blocks the range has bytes of are those from its first byte's to its last byte's. -/
theorem touched_eq (hB : 0 < B) (h : a < e) : touched B a e = Finset.Icc (a / B) ((e - 1) / B) := by
  ext t
  unfold touched
  simp only [Finset.mem_image, Finset.mem_Ico, Finset.mem_Icc]
  constructor
  · intro hx
    obtain ⟨x, ⟨hax, hxe⟩, rfl⟩ := hx
    exact ⟨Nat.div_le_div_right hax, Nat.div_le_div_right (by omega)⟩
  · intro ht
    obtain ⟨hfirst, hlast⟩ := ht
    have hle : t * B ≤ e - 1 := (Nat.le_div_iff_mul_le hB).mp hlast
    refine ⟨max a (t * B), ⟨le_max_left _ _, by omega⟩, ?_⟩
    have hlt : a < (t + 1) * B := (Nat.div_lt_iff_lt_mul hB).mp (by omega)
    apply Nat.div_eq_of_lt_le
    · exact le_max_right _ _
    · have hsucc : (t + 1) * B = t * B + B := by ring
      omega

theorem card_touched (hB : 0 < B) (h : a < e) :
    (touched B a e).card = (e - 1) / B + 1 - a / B := by
  rw [touched_eq hB h, Nat.card_Icc]

end AlignedBlocks
