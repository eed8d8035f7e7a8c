import Mathlib.Tactic

namespace Buffer

variable {α : Type}

/-- `memcpy` of `n` cells between unbounded buffers: from `src + s` to `dst + d`. -/
def copy (dst : ℕ → α) (d : ℕ) (src : ℕ → α) (s n : ℕ) : ℕ → α :=
  fun k => if d ≤ k ∧ k < d + n then src (s + (k - d)) else dst k

theorem copy_in {dst src : ℕ → α} {d s n k : ℕ} (h : d ≤ k) (h' : k < d + n) :
    copy dst d src s n k = src (s + (k - d)) := if_pos ⟨h, h'⟩

theorem copy_add {dst src : ℕ → α} {d s n i : ℕ} (h : i < n) :
    copy dst d src s n (d + i) = src (s + i) := by
  rw [copy_in (by omega) (by omega), Nat.add_sub_cancel_left]

theorem copy_out {dst src : ℕ → α} {d s n k : ℕ} (h : k < d ∨ d + n ≤ k) :
    copy dst d src s n k = dst k := if_neg (by omega)

@[simp] theorem copy_zero (dst src : ℕ → α) (d s : ℕ) : copy dst d src s 0 = dst := by
  funext k
  exact copy_out (by omega)

/-- Two adjacent copies are one. -/
theorem copy_append (dst src : ℕ → α) (d s n k : ℕ) :
    copy (copy dst d src s n) (d + n) src (s + n) k = copy dst d src s (n + k) := by
  funext x
  unfold copy
  by_cases h : d + n ≤ x ∧ x < d + n + k
  · rw [if_pos h, if_pos (by omega)]
    exact congrArg src (by omega)
  · rw [if_neg h]
    split
    · rw [if_pos (by omega)]
    · rw [if_neg (by omega)]

/-- Copying a buffer's own cells back where they were changes nothing. -/
theorem copy_self (dst : ℕ → α) (d n : ℕ) : copy dst d (fun i => dst (d + i)) 0 n = dst := by
  funext k
  unfold copy
  split
  · exact congrArg dst (by omega)
  · rfl

end Buffer
