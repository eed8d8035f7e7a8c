import Mathlib.Algebra.BigOperators.Group.Finset.Basic
import Mathlib.Data.Finset.Card
import Mathlib.Tactic

namespace FamilySum

variable {ι β : Type} [Fintype ι] [DecidableEq ι]

/-- What a sum over a family gains and loses when one member changes. -/
theorem sum_update (g : β → ℕ) (f : ι → β) (i : ι) (v : β) :
    (∑ j, g (Function.update f i v j)) + g (f i) = (∑ j, g (f j)) + g v := by
  have hrest : ∑ j ∈ Finset.univ.erase i, g (Function.update f i v j) =
      ∑ j ∈ Finset.univ.erase i, g (f j) := by
    apply Finset.sum_congr rfl
    intro j hj
    rw [Function.update_of_ne (Finset.ne_of_mem_erase hj)]
  have hnew := Finset.add_sum_erase Finset.univ (fun j => g (Function.update f i v j))
    (Finset.mem_univ i)
  have hold := Finset.add_sum_erase Finset.univ (fun j => g (f j)) (Finset.mem_univ i)
  rw [Function.update_self] at hnew
  omega

/-- Members of a family that count together what enters a set they share. -/
theorem sum_count {α : Type} [DecidableEq α] {g : β → ℕ} {f : ι → β} {seen : Finset α}
    {i : ι} {v : β}
    {x : α} (h : ∑ j, g (f j) = seen.card) (hv : g v = g (f i) + if x ∈ seen then 0 else 1) :
    ∑ j, g (Function.update f i v j) = (insert x seen).card := by
  have hsum := sum_update g f i v
  rw [Finset.card_insert_eq_ite]
  by_cases hx : x ∈ seen
  · rw [if_pos hx] at hv ⊢
    omega
  · rw [if_neg hx] at hv ⊢
    omega

/-- A member that changes nothing of what it counts. -/
theorem sum_keep {g : β → ℕ} {f : ι → β} {i : ι} {v : β} (hv : g v = g (f i)) :
    ∑ j, g (Function.update f i v j) = ∑ j, g (f j) := by
  have hsum := sum_update g f i v
  omega

omit [Fintype ι] in
/-- What a sum over a part of a family gains and loses when one of its members changes. -/
theorem sum_change {T : Finset ι} {f f' : ι → ℕ} {i : ι} (hi : i ∈ T)
    (h : ∀ j ∈ T, j ≠ i → f' j = f j) : ∑ j ∈ T, f' j + f i = ∑ j ∈ T, f j + f' i := by
  have hrest : ∑ j ∈ T.erase i, f' j = ∑ j ∈ T.erase i, f j := by
    apply Finset.sum_congr rfl
    intro j hj
    exact h j (Finset.mem_of_mem_erase hj) (Finset.ne_of_mem_erase hj)
  have hnew := Finset.add_sum_erase T f' hi
  have hold := Finset.add_sum_erase T f hi
  omega

end FamilySum
