import Mathlib.Tactic
import Mathlib.Data.Finset.Card
import Mathlib.Data.Set.Function

namespace Recency

variable {ι τ : Type} [DecidableEq ι] [LinearOrder τ]

/-- `a` becomes the most recent element: those that were more recent than `a` move back by one. -/
def touch (rank : ι → ℕ) (a : ι) : ι → ℕ :=
  fun i => if i = a then 0 else if rank i < rank a then rank i + 1 else rank i

/-- The time of the latest use of an element in a history, the latest use first. The elements never
used are ordered by `first`. -/
def lastUse (first : ι → ℤ) : List ι → ι → ℤ
  | [], i => first i
  | a :: history, i => if i = a then history.length + 1 else lastUse first history i

/-- The ranks of the elements of `s` are different numbers below its size, in the order of their
stamps from the latest on. -/
structure Ranked (s : Finset ι) (rank : ι → ℕ) (stamp : ι → τ) : Prop where
  lt_card : ∀ i ∈ s, rank i < s.card
  inj : ∀ i ∈ s, ∀ j ∈ s, rank i = rank j → i = j
  order : ∀ i ∈ s, ∀ j ∈ s, rank i < rank j ↔ stamp j < stamp i

variable {s : Finset ι} {rank : ι → ℕ} {stamp stamp' : ι → τ} {a : ι} {first : ι → ℤ}

theorem lastUse_le (h : ∀ i, first i ≤ 0) (history : List ι) (i : ι) :
    lastUse first history i ≤ history.length := by
  induction history with
  | nil => exact h i
  | cons a history ih =>
    unfold lastUse
    rw [List.length_cons]
    split
    · omega
    · omega

theorem lastUse_lt (h : ∀ i, first i ≤ 0) (history : List ι) {i : ι} (hi : i ≠ a) :
    lastUse first (a :: history) i < lastUse first (a :: history) a := by
  have := lastUse_le h history i
  simp only [lastUse, if_neg hi, if_pos]
  omega

theorem lastUse_of_ne (history : List ι) {i : ι} (hi : i ≠ a) :
    lastUse first (a :: history) i = lastUse first history i := if_neg hi

namespace Ranked

omit [DecidableEq ι] in
theorem congr (h : Ranked s rank stamp) {rank' : ι → ℕ} (hr : ∀ i ∈ s, rank' i = rank i)
    (hs : ∀ i ∈ s, stamp' i = stamp i) : Ranked s rank' stamp' := by
  refine ⟨?_, ?_, ?_⟩
  · intro i hi
    rw [hr i hi]
    exact h.lt_card i hi
  · intro i hi j hj hij
    rw [hr i hi, hr j hj] at hij
    exact h.inj i hi j hj hij
  · intro i hi j hj
    rw [hr i hi, hr j hj, hs i hi, hs j hj]
    exact h.order i hi j hj

/-- A use of an element of the set. -/
theorem touch (h : Ranked s rank stamp) (ha : a ∈ s)
    (hself : ∀ i ∈ s, i ≠ a → stamp' i < stamp' a)
    (hother : ∀ i ∈ s, i ≠ a → stamp' i = stamp i) :
    Ranked s (Recency.touch rank a) stamp' := by
  have hlt := h.lt_card a ha
  have hzero : Recency.touch rank a a = 0 := if_pos rfl
  -- the elements before `a` move one back, those after it stay
  have hmove : ∀ i ∈ s, i ≠ a → Recency.touch rank a i = rank i + 1 ∧ rank i < rank a ∨
      Recency.touch rank a i = rank i ∧ rank a < rank i := by
    intro i hi hia
    have hne : rank i ≠ rank a := fun he => hia (h.inj i hi a ha he)
    unfold Recency.touch
    rw [if_neg hia]
    split <;> omega
  refine ⟨?_, ?_, ?_⟩
  · intro i hi
    have := h.lt_card i hi
    by_cases hia : i = a
    · rw [hia, hzero]
      omega
    · have := hmove i hi hia
      omega
  · intro i hi j hj hij
    by_cases hia : i = a <;> by_cases hja : j = a
    · exact hia.trans hja.symm
    · subst hia
      have := hmove j hj hja
      omega
    · subst hja
      have := hmove i hi hia
      omega
    · have hi' := hmove i hi hia
      have hj' := hmove j hj hja
      exact h.inj i hi j hj (by omega)
  · intro i hi j hj
    by_cases hia : i = a <;> by_cases hja : j = a
    · subst hia
      subst hja
      simp
    · subst hia
      have := hmove j hj hja
      exact iff_of_true (by omega) (hself j hj hja)
    · subst hja
      have := hmove i hi hia
      exact iff_of_false (by omega) (hself i hi hia).not_gt
    · have hi' := hmove i hi hia
      have hj' := hmove j hj hja
      rw [hother i hi hia, hother j hj hja, ← h.order i hi j hj]
      omega

omit [DecidableEq ι] in
/-- The ranks are a permutation of the numbers below the size of the set. -/
theorem bijOn (h : Ranked s rank stamp) : Set.BijOn rank s (Finset.range s.card) := by
  have hinj : Set.InjOn rank s := fun i hi j hj he => h.inj i hi j hj he
  have himage : s.image rank = Finset.range s.card := by
    apply Finset.eq_of_subset_of_card_le
    · intro r hr
      obtain ⟨i, hi, rfl⟩ := Finset.mem_image.mp hr
      exact Finset.mem_range.mpr (h.lt_card i hi)
    · rw [Finset.card_image_of_injOn hinj, Finset.card_range]
  rw [← himage, Finset.coe_image]
  exact hinj.bijOn_image

omit [DecidableEq ι] in
/-- The element of the highest rank is the one used longest ago. -/
theorem oldest (h : Ranked s rank stamp) (ha : a ∈ s) (hmax : ∀ i ∈ s, rank i ≤ rank a) {i : ι}
    (hi : i ∈ s) (hia : i ≠ a) : stamp a < stamp i := by
  have hne : rank i ≠ rank a := fun he => hia (h.inj i hi a ha he)
  apply (h.order i hi a ha).mp
  have := hmax i hi
  omega

end Ranked
end Recency
