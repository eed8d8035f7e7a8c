import Mathlib.Data.List.Lex
import Mathlib.Data.List.TakeWhile
import Mathlib.Tactic

namespace NestedLoops

variable {α β ε : Type} {l : List α}

/-- A loop of which each turn adds its part to a list, up to the first turn that breaks. -/
theorem forIn_break {f : α → List β → Except ε (ForInStep (List β))} {p : α → Bool}
    {g : α → List β} (hf : ∀ x ∈ l, ∀ b, f x b =
      .ok (if p x then .yield (b ++ g x) else .done b)) (b : List β) :
    forIn l b f = .ok (b ++ (l.takeWhile p).flatMap g) := by
  induction l generalizing b with
  | nil => exact congrArg Except.ok (List.append_nil b).symm
  | cons x l ih =>
    rw [List.forIn_cons, hf x (List.mem_cons_self ..)]
    by_cases hx : p x = true
    · rw [if_pos hx, List.takeWhile_cons_of_pos hx, List.flatMap_cons, ← List.append_assoc]
      exact ih (fun y hy => hf y (List.mem_cons_of_mem _ hy)) _
    · rw [if_neg hx, List.takeWhile_cons_of_neg hx]
      exact congrArg Except.ok (List.append_nil b).symm

/-- The same for a loop that never breaks. -/
theorem forIn_append {f : α → List β → Except ε (ForInStep (List β))} {g : α → List β}
    (hf : ∀ x ∈ l, ∀ b, f x b = .ok (.yield (b ++ g x))) (b : List β) :
    forIn l b f = .ok (b ++ l.flatMap g) := by
  rw [forIn_break (p := fun _ => true) hf b, List.takeWhile_eq_self_iff.mpr fun _ _ => rfl]

/-- The turn of a loop that is a loop itself. -/
theorem forIn_turn {f : α → List β → Except ε (ForInStep (List β))} {g : α → List β}
    (hf : ∀ x ∈ l, ∀ b, f x b = .ok (.yield (b ++ g x))) (b : List β) :
    (do let b ← forIn l b f; pure (.yield b) : Except ε (ForInStep (List β))) =
      .ok (.yield (b ++ l.flatMap g)) := by
  rw [forIn_append hf]
  rfl

/-- A loop that folds. -/
theorem forIn_fold {f : α → β → Except ε (ForInStep β)} {g : β → α → β}
    (hf : ∀ x ∈ l, ∀ b, f x b = .ok (.yield (g b x))) (b : β) :
    forIn l b f = .ok (l.foldl g b) := by
  induction l generalizing b with
  | nil => rfl
  | cons x l ih =>
    rw [List.forIn_cons, hf x (List.mem_cons_self ..)]
    exact ih (fun y hy => hf y (List.mem_cons_of_mem _ hy)) _

/-- A test that fails for all later elements once it fails is as good in a break as in a filter. -/
theorem takeWhile_eq_filter {p : α → Bool} (h : l.Pairwise fun x y => p y = true → p x = true) :
    l.takeWhile p = l.filter p := by
  induction h with
  | nil => rfl
  | @cons x l hx _ ih =>
    by_cases hp : p x = true
    · rw [List.takeWhile_cons_of_pos hp, List.filter_cons_of_pos hp, ih]
    · rw [List.takeWhile_cons_of_neg hp, List.filter_cons_of_neg hp, eq_comm,
        List.filter_eq_nil_iff]
      exact fun y hy hpy => hp (hx y hy hpy)

/-- A list to which a turn adds its element when its test holds. -/
theorem filter_flatMap_ite (p : α → Bool) (c : Prop) [Decidable c] (g : α → β) :
    ((l.filter p).flatMap fun x => if c then [g x] else []) =
      (l.filter fun x => p x && decide c).map g := by
  by_cases hc : c
  · simp only [if_pos hc, decide_eq_true hc, Bool.and_true]
    exact List.map_eq_flatMap.symm
  · simp [hc]

/-- The indices of nested loops with these numbers of turns, in the order of the loops. -/
def indices : List ℕ → List (List ℕ)
  | [] => [[]]
  | n :: sizes => (List.range n).flatMap fun i => (indices sizes).map (i :: ·)

/-- Nested loops come to their indices in lexicographic order, and to none twice. -/
theorem pairwise_indices (sizes : List ℕ) : (indices sizes).Pairwise (· < ·) := by
  induction sizes with
  | nil => exact List.pairwise_singleton _ _
  | cons n sizes ih =>
    rw [indices, List.pairwise_flatMap]
    refine ⟨fun i _ => ?_, ?_⟩
    · rw [List.pairwise_map]
      exact ih.imp fun h => List.cons_lt_cons_iff.mpr (.inr ⟨rfl, h⟩)
    · refine List.pairwise_lt_range.imp fun {i j} hij x hx y hy => ?_
      obtain ⟨x', -, rfl⟩ := List.mem_map.mp hx
      obtain ⟨y', -, rfl⟩ := List.mem_map.mp hy
      exact List.cons_lt_cons_iff.mpr (.inl hij)

end NestedLoops
