import Mathlib.Algebra.BigOperators.Fin
import Mathlib.Algebra.Order.BigOperators.Group.Finset
import Mathlib.Tactic

namespace SumLoop

/-- A size of the values of a monoid. -/
structure Size (B : Type) [AddCommMonoid B] where
  size : B → ℕ
  zero : size 0 = 0
  add : ∀ b b', size (b + b') ≤ size b + size b'

variable {m : Type → Type} [Monad m] [LawfulMonad m] {α β B : Type} [AddCommMonoid B] (S : Size B)
  {c M : ℕ} {e : B → β}

theorem Size.sum_le {k : ℕ} {a : Fin k → B} (ha : ∀ i, S.size (a i) ≤ c) :
    S.size (∑ i, a i) ≤ k * c := by
  calc S.size (∑ i, a i)
      ≤ ∑ i, S.size (a i) := Finset.le_sum_of_subadditive S.size S.zero.le S.add _ _
    _ ≤ ∑ _i : Fin k, c := Finset.sum_le_sum fun i _ => ha i
    _ = k * c := by rw [Finset.sum_const, Finset.card_univ, Fintype.card_fin, smul_eq_mul]

/-- A loop of which each turn adds its part exactly as long as the sum with the part's weight is
small. -/
theorem foldlM_sum_weights {f : β → α → m β} {a : α → B} {w : α → ℕ} {l : List α}
    (ha : ∀ x ∈ l, S.size (a x) ≤ w x)
    (hf : ∀ x ∈ l, ∀ b, S.size b + w x ≤ M → f (e b) x = pure (e (b + a x))) (b : B)
    (hb : S.size b + (l.map w).sum ≤ M) : l.foldlM f (e b) = pure (e (b + (l.map a).sum)) := by
  induction l generalizing b with
  | nil => rw [List.map_nil, List.sum_nil, add_zero]; rfl
  | cons x l ih =>
    have hx := ha x (List.mem_cons_self ..)
    have hadd := S.add b (a x)
    rw [List.map_cons, List.sum_cons] at hb
    rw [List.foldlM_cons, hf x (List.mem_cons_self ..) b (by omega), pure_bind,
      ih (fun y hy => ha y (List.mem_cons_of_mem _ hy))
        (fun y hy => hf y (List.mem_cons_of_mem _ hy)) _ (by omega),
      List.map_cons, List.sum_cons, add_assoc]

/-- The same for two loops, one in the other, with the sizes of the parts as weights. -/
theorem nested_sum_weights {k k' : ℕ} {f : β → Fin k → Fin k' → m β} {a : Fin k → Fin k' → B}
    (hf : ∀ i j b, S.size b + S.size (a i j) ≤ M → f (e b) i j = pure (e (b + a i j))) (b : B)
    (hb : S.size b + ∑ i, ∑ j, S.size (a i j) ≤ M) :
    (List.finRange k).foldlM (fun s i => (List.finRange k').foldlM (fun s j => f s i j) s) (e b) =
      pure (e (b + ∑ i, ∑ j, a i j)) := by
  rw [Fin.sum_univ_def] at hb ⊢
  refine foldlM_sum_weights S (w := fun i => ∑ j, S.size (a i j)) ?_ ?_ b hb
  · intro i _
    exact Finset.le_sum_of_subadditive S.size S.zero.le S.add _ _
  · intro i _ b hb
    rw [Fin.sum_univ_def] at hb ⊢
    exact foldlM_sum_weights S (fun j _ => le_rfl) (fun j _ => hf i j) b hb

/-- A loop with one weight for all turns. -/
theorem foldlM_sum {f : β → α → m β} {a : α → B} {l : List α}
    (ha : ∀ x ∈ l, S.size (a x) ≤ c)
    (hf : ∀ x ∈ l, ∀ b, S.size b + c ≤ M → f (e b) x = pure (e (b + a x))) (b : B)
    (hb : S.size b + l.length * c ≤ M) : l.foldlM f (e b) = pure (e (b + (l.map a).sum)) := by
  refine foldlM_sum_weights S (w := fun _ => c) ha hf b ?_
  rwa [List.map_const', List.sum_replicate, smul_eq_mul]

/-- The same for two loops, one in the other. -/
theorem nested_sum {k k' : ℕ} {f : β → Fin k → Fin k' → m β} {a : Fin k → Fin k' → B}
    (ha : ∀ i j, S.size (a i j) ≤ c)
    (hf : ∀ i j b, S.size b + c ≤ M → f (e b) i j = pure (e (b + a i j))) (b : B)
    (hb : S.size b + k * (k' * c) ≤ M) :
    (List.finRange k).foldlM (fun s i => (List.finRange k').foldlM (fun s j => f s i j) s) (e b) =
      pure (e (b + ∑ i, ∑ j, a i j)) := by
  rw [Fin.sum_univ_def]
  refine foldlM_sum S (c := k' * c) (M := M) ?_ ?_ b (by rwa [List.length_finRange])
  · intro i _
    exact S.sum_le (ha i)
  · intro i _ b hb
    rw [Fin.sum_univ_def]
    refine foldlM_sum S (c := c) (M := M) (fun j _ => ha i j) (fun j _ => hf i j) b ?_
    rwa [List.length_finRange]

/-- The same for loops without effects. -/
theorem nested_foldl {k k' : ℕ} {f : β → Fin k → Fin k' → β} {a : Fin k → Fin k' → B}
    (ha : ∀ i j, S.size (a i j) ≤ c)
    (hf : ∀ i j b, S.size b + c ≤ M → f (e b) i j = e (b + a i j)) (b : B)
    (hb : S.size b + k * (k' * c) ≤ M) :
    (List.finRange k).foldl (fun s i => (List.finRange k').foldl (fun s j => f s i j) s) (e b) =
      e (b + ∑ i, ∑ j, a i j) := by
  simp only [List.foldl_eq_foldlM]
  exact nested_sum S (m := Id) ha hf b hb

/-- A loop with a turn that fails whatever came before. -/
theorem foldlM_error {ε : Type} {f : β → α → Except ε β} {x : α} {l : List α} (hx : x ∈ l)
    (hf : ∀ s, ∃ e, f s x = .error e) (s : β) : ∃ e, l.foldlM f s = .error e := by
  induction l generalizing s with
  | nil => cases hx
  | cons y l ih =>
    rw [List.foldlM_cons]
    cases hx with
    | head =>
      obtain ⟨e, he⟩ := hf s
      exact ⟨e, by rw [he]; rfl⟩
    | tail _ hx =>
      cases hy : f s y with
      | error e => exact ⟨e, rfl⟩
      | ok s' => exact ih hx s'

end SumLoop
