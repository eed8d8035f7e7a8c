import Mathlib.Data.Finset.Card
import Mathlib.Tactic

namespace KeepLargest

variable {α τ : Type} [LinearOrder τ]

/-- `s'` is what is left of `s` when all but `k` elements have been taken out, and none that is
larger than one left. -/
structure Keeps (k : ℕ) (t : α → τ) (s s' : Finset α) : Prop where
  subset : s' ⊆ s
  card : s'.card = min k s.card
  le : ∀ a ∈ s, a ∉ s' → ∀ b ∈ s', t a ≤ t b

variable {k : ℕ} {t : α → τ} {s s' : Finset α} {a : α}

/-- Elements go out in ascending order: what has been taken out so far is below all that is left. -/
structure Drops (t : α → τ) (s s' : Finset α) : Prop where
  subset : s' ⊆ s
  le : ∀ a ∈ s, a ∉ s' → ∀ b ∈ s', t a ≤ t b

theorem Drops.refl (s : Finset α) : Drops t s s :=
  ⟨Finset.Subset.refl s, fun _ ha hn => absurd ha hn⟩

theorem Drops.erase [DecidableEq α] (h : Drops t s s') (hmin : ∀ b ∈ s', t a ≤ t b) :
    Drops t s (s'.erase a) := by
  refine ⟨(Finset.erase_subset a s').trans h.subset, ?_⟩
  intro c hc hn b hb
  have hbs : b ∈ s' := Finset.mem_of_mem_erase hb
  by_cases hcs : c ∈ s'
  · have hca : c = a := by
      by_contra hne
      exact hn (Finset.mem_erase.mpr ⟨hne, hcs⟩)
    rw [hca]
    exact hmin b hbs
  · exact h.le c hc hcs b hbs

theorem Drops.keeps (h : Drops t s s') (hcard : s'.card = min k s.card) : Keeps k t s s' :=
  ⟨h.subset, hcard, h.le⟩

/-- A set that is small enough is left as it is. -/
theorem Keeps.eq (h : Keeps k t s s') (hs : s.card ≤ k) : s' = s := by
  apply Finset.eq_of_subset_of_card_le h.subset
  rw [h.card, min_eq_right hs]

end KeepLargest
