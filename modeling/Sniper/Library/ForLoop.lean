import Mathlib.Tactic

variable {σ ρ : Type}

/-- `for (i = 0; cond(i); i++)` with an index of `width` bits, from a turn on in which the index is
`i`; the body goes on with a new state or returns. There is no result when the fuel runs out. -/
def forLoop (width : ℕ) (cond : ℕ → Bool) (body : ℕ → σ → Except ρ σ) :
    ℕ → ℕ → σ → Option (Except ρ σ)
  | 0, _, _ => none
  | fuel + 1, i, s =>
    if cond i then
      match body i s with
      | .ok s => forLoop width cond body fuel ((i + 1) % 2 ^ width) s
      | .error r => some (.error r)
    else some (.ok s)

namespace ForLoop

/-- The loop comes to an end, with this result. -/
def Ends (width : ℕ) (cond : ℕ → Bool) (body : ℕ → σ → Except ρ σ) (i : ℕ) (s : σ)
    (r : Except ρ σ) : Prop :=
  ∃ fuel, forLoop width cond body fuel i s = some r

variable {width : ℕ} {cond : ℕ → Bool} {body : ℕ → σ → Except ρ σ} {i : ℕ} {s s' : σ}
  {r r' : Except ρ σ}

theorem Ends.stop (h : cond i = false) : Ends width cond body i s (.ok s) :=
  ⟨1, by rw [forLoop, if_neg (by rw [h]; decide)]⟩

theorem Ends.ret (h : cond i = true) {e : ρ} (hb : body i s = .error e) :
    Ends width cond body i s (.error e) :=
  ⟨1, by rw [forLoop, if_pos h, hb]⟩

theorem Ends.turn (h : cond i = true) (hb : body i s = .ok s')
    (hrest : Ends width cond body ((i + 1) % 2 ^ width) s' r) : Ends width cond body i s r := by
  obtain ⟨fuel, hfuel⟩ := hrest
  refine ⟨fuel + 1, ?_⟩
  rw [forLoop, if_pos h, hb]
  exact hfuel

/-- A turn before the index starts over. -/
theorem Ends.turn_of_lt (h : cond i = true) (hb : body i s = .ok s') (hi : i + 1 < 2 ^ width)
    (hrest : Ends width cond body (i + 1) s' r) : Ends width cond body i s r := by
  apply Ends.turn h hb
  rwa [Nat.mod_eq_of_lt hi]

theorem more_fuel : ∀ {fuel fuel' i : ℕ} {s : σ}, fuel ≤ fuel' →
    forLoop width cond body fuel i s = some r → forLoop width cond body fuel' i s = some r := by
  intro fuel
  induction fuel with
  | zero =>
    intro fuel' i s _ h
    cases h
  | succ fuel ih =>
    intro fuel' i s hle h
    obtain ⟨fuel', rfl⟩ := Nat.exists_eq_add_of_le' (show 1 ≤ fuel' by omega)
    rw [forLoop] at h ⊢
    split
    · rename_i hcond
      rw [if_pos hcond] at h
      cases hb : body i s with
      | ok s' =>
        rw [hb] at h
        exact ih (by omega) h
      | error e =>
        rw [hb] at h
        exact h
    · rename_i hcond
      rwa [if_neg hcond] at h

theorem Ends.unique (h : Ends width cond body i s r)
    (h' : Ends width cond body i s r') : r = r' := by
  obtain ⟨fuel, hfuel⟩ := h
  obtain ⟨fuel', hfuel'⟩ := h'
  have h₁ := more_fuel (le_max_left fuel fuel') hfuel
  rw [more_fuel (le_max_right fuel fuel') hfuel'] at h₁
  exact (Option.some.inj h₁).symm

/-- An invariant under which each turn goes on keeps the loop from ending. -/
theorem not_ends {I : ℕ → σ → Prop} (hturn : ∀ i s, I i s → cond i = true ∧
    ∃ s', body i s = .ok s' ∧ I ((i + 1) % 2 ^ width) s') (hI : I i s) :
    ¬Ends width cond body i s r := by
  intro h'
  obtain ⟨fuel, h⟩ := h'
  induction fuel generalizing i s with
  | zero => cases h
  | succ fuel ih =>
    obtain ⟨hcond, s', hb, hI'⟩ := hturn i s hI
    rw [forLoop, if_pos hcond, hb] at h
    exact ih hI' h

/-- A loop up to a bound that the index can reach does the body for each number below it. -/
theorem ends_below {n : ℕ} (hn : n < 2 ^ width) (f : ℕ → σ → σ) (s : σ) :
    Ends (ρ := ρ) width (fun i => i < n) (fun i s => .ok (f i s)) 0 s
      (.ok ((List.range n).foldl (fun s i => f i s) s)) := by
  have hfrom : ∀ k i s, i + k = n →
      Ends (ρ := ρ) width (fun i => i < n) (fun i s => .ok (f i s)) i s
        (.ok ((List.range' i k).foldl (fun s i => f i s) s)) := by
    intro k
    induction k with
    | zero =>
      intro i s hi
      exact .stop (decide_eq_false (by omega))
    | succ k ih =>
      intro i s hi
      apply Ends.turn_of_lt (decide_eq_true (by omega)) rfl (by omega)
      exact ih (i + 1) (f i s) (by omega)
  rw [List.range_eq_range']
  exact hfrom n 0 s (Nat.zero_add n)

/-- A loop up to a bound that the index cannot reach does not end. -/
theorem not_ends_above {n : ℕ} (hn : 2 ^ width ≤ n) (f : ℕ → σ → σ) (s : σ) :
    ¬Ends (ρ := ρ) width (fun i => i < n) (fun i s => .ok (f i s)) 0 s r := by
  apply not_ends (I := fun i _ => i < 2 ^ width) _ (by positivity)
  intro i s hi
  exact ⟨decide_eq_true (by omega), f i s, rfl, Nat.mod_lt _ (by positivity)⟩

end ForLoop
