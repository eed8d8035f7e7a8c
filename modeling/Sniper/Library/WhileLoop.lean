import Mathlib.Tactic

variable {σ : Type}

/-- `while (cond) body`. There is no result when the fuel runs out. -/
def whileLoop (cond : σ → Bool) (body : σ → σ) : ℕ → σ → Option σ
  | 0, _ => none
  | fuel + 1, s => if cond s then whileLoop cond body fuel (body s) else some s

namespace WhileLoop

/-- The loop comes to an end, in this state. -/
def Ends (cond : σ → Bool) (body : σ → σ) (s r : σ) : Prop :=
  ∃ fuel, whileLoop cond body fuel s = some r

variable {cond : σ → Bool} {body : σ → σ} {s r r' : σ}

theorem Ends.stop (h : cond s = false) : Ends cond body s s :=
  ⟨1, by rw [whileLoop, if_neg (by rw [h]; decide)]⟩

theorem Ends.turn (h : cond s = true) (hrest : Ends cond body (body s) r) :
    Ends cond body s r := by
  obtain ⟨fuel, hfuel⟩ := hrest
  refine ⟨fuel + 1, ?_⟩
  rw [whileLoop, if_pos h]
  exact hfuel

/-- A loop whose turns keep an invariant and make a measure smaller ends, with the invariant and
without its condition. -/
theorem ends_of_measure {I : σ → Prop} (μ : σ → ℕ)
    (hturn : ∀ s, I s → cond s = true → I (body s) ∧ μ (body s) < μ s) :
    ∀ s, I s → ∃ r, Ends cond body s r ∧ I r ∧ cond r = false := by
  intro s
  induction hn : μ s using Nat.strong_induction_on generalizing s with
  | _ n ih =>
    intro hI
    cases hcond : cond s with
    | false => exact ⟨s, .stop hcond, hI, hcond⟩
    | true =>
      obtain ⟨hI', hlt⟩ := hturn s hI hcond
      obtain ⟨r, hends, hr⟩ := ih (μ (body s)) (by omega) (body s) rfl hI'
      exact ⟨r, hends.turn hcond, hr⟩

/-- An invariant under which the condition holds keeps the loop from ending. -/
theorem not_ends {I : σ → Prop} (hturn : ∀ s, I s → cond s = true ∧ I (body s)) (hI : I s) :
    ¬Ends cond body s r := by
  intro h
  obtain ⟨fuel, h⟩ := h
  induction fuel generalizing s with
  | zero => cases h
  | succ fuel ih =>
    obtain ⟨hcond, hI'⟩ := hturn s hI
    rw [whileLoop, if_pos hcond] at h
    exact ih hI' h

end WhileLoop
