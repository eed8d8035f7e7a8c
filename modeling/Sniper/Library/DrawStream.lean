import Mathlib.Algebra.Group.Pointwise.Set.BigOperators
import Sniper.Library.SumLoop

/-- A computation that takes the values of a stream in turn; the state is how many it has taken. -/
abbrev Drawing (ε : Type) := StateT ℕ (Except ε)

namespace Drawing
open SumLoop
open scoped Pointwise

variable {ε A α β B : Type} [AddCommMonoid B] (S : Size B)

/-- The next value of the stream `D`. -/
def draw (D : ℕ → A) : Drawing ε A := do
  let t ← get
  set (t + 1)
  return D t

/-- After `t` values the computation takes `d` more, and returns a value with `Q`. -/
def Takes (x : Drawing ε α) (t d : ℕ) (Q : α → Prop) : Prop :=
  ∃ a, x t = .ok (a, t + d) ∧ Q a

variable {x : Drawing ε α} {t d e g M : ℕ} {Q Q' : α → Prop} {R : β → Prop}

theorem Takes.pure {a : α} (h : Q a) : Takes (Pure.pure a : Drawing ε α) t 0 Q := ⟨a, rfl, h⟩

theorem Takes.lift {x : Except ε α} {a : α} (hx : x = .ok a) (h : Q a) :
    Takes (liftM x : Drawing ε α) t 0 Q := by
  subst hx
  exact ⟨a, rfl, h⟩

theorem Takes.draw (D : ℕ → A) : Takes (ε := ε) (draw D) t 1 (· = D t) := ⟨_, rfl, rfl⟩

theorem Takes.mono (h : Takes x t d Q) (hQ : ∀ a, Q a → Q' a) : Takes x t d Q' := by
  obtain ⟨a, hx, ha⟩ := h
  exact ⟨a, hx, hQ a ha⟩

theorem Takes.bind {f : α → Drawing ε β} (h : Takes x t d Q)
    (hf : ∀ a, Q a → Takes (f a) (t + d) e R) : Takes (x >>= f) t (d + e) R := by
  obtain ⟨a, hx, ha⟩ := h
  obtain ⟨b, hb, hR⟩ := hf a ha
  refine ⟨b, ?_, hR⟩
  rw [← Nat.add_assoc, ← hb]
  change (x t >>= fun p => f p.1 p.2) = _
  rw [hx]
  rfl

/-- The loop rule, for turns that start after full blocks of `g` values: `I done s` says what holds
once the elements `done` have been handled. -/
theorem Takes.foldlM {f : β → α → Drawing ε β} {c : α → ℕ} (I : List α → β → Prop) (l : List α)
    (b : β) (hb : I [] b) (ht : g ∣ t) (hc : ∀ a ∈ l, g ∣ c a)
    (hstep : ∀ done a rest s t, l = done ++ a :: rest → I done s → g ∣ t →
      Takes (f s a) t (c a) (I (done ++ [a]))) :
    Takes (l.foldlM f b) t (l.map c).sum (I l) := by
  suffices h : ∀ rest done s t, l = done ++ rest → I done s → g ∣ t →
      Takes (rest.foldlM f s) t (rest.map c).sum (I l) from h l [] b t rfl hb ht
  intro rest
  induction rest with
  | nil =>
    intro done s t hl hs _
    rw [hl, List.append_nil]
    exact .pure hs
  | cons a rest ih =>
    intro done s t hl hs ht
    rw [List.foldlM_cons, List.map_cons, List.sum_cons]
    apply (hstep done a rest s t hl hs ht).bind
    intro s' hs'
    apply ih (done ++ [a]) s' _ (by simp [hl]) hs'
    exact Nat.dvd_add ht (hc a (by simp [hl]))

/-- A loop of which each turn adds something of a set of its own, as long as the sum with the turn's
weight is small. -/
theorem Takes.foldlM_sum {f : B → α → Drawing ε B} {c : α → ℕ} {P : α → Set B} {w : α → ℕ}
    (l : List α) (ht : g ∣ t) (hc : ∀ x ∈ l, g ∣ c x)
    (hw : ∀ x ∈ l, ∀ a ∈ P x, S.size a ≤ w x)
    (hf : ∀ x ∈ l, ∀ b t, g ∣ t → S.size b + w x ≤ M →
      Takes (f b x) t (c x) fun b' => ∃ a ∈ P x, b' = b + a)
    (b : B) (hb : S.size b + (l.map w).sum ≤ M) :
    Takes (l.foldlM f b) t (l.map c).sum fun b' => ∃ a ∈ (l.map P).sum, b' = b + a := by
  induction l generalizing b t with
  | nil => exact .pure ⟨0, rfl, (add_zero b).symm⟩
  | cons x l ih =>
    simp only [List.map_cons, List.sum_cons, List.forall_mem_cons] at hb hc hw hf ⊢
    rw [List.foldlM_cons]
    apply (hf.1 b t ht (by omega)).bind
    intro b' hb'
    obtain ⟨a, ha, rfl⟩ := hb'
    have hsize := S.add b a
    have hle := hw.1 a ha
    apply (ih (Nat.dvd_add ht hc.1) hc.2 hw.2 hf.2 (b + a) (by omega)).mono
    intro b'' hb''
    obtain ⟨a', ha', rfl⟩ := hb''
    exact ⟨a + a', Set.add_mem_add ha ha', add_assoc b a a'⟩

/-- The same for two loops, one in the other. -/
theorem Takes.nested_sum {k k' : ℕ} {f : B → Fin k → Fin k' → Drawing ε B} {c : Fin k → Fin k' → ℕ}
    {P : Fin k → Fin k' → Set B} {w : Fin k → Fin k' → ℕ} (ht : g ∣ t) (hc : ∀ i j, g ∣ c i j)
    (hw : ∀ i j, ∀ a ∈ P i j, S.size a ≤ w i j)
    (hf : ∀ i j b t, g ∣ t → S.size b + w i j ≤ M →
      Takes (f b i j) t (c i j) fun b' => ∃ a ∈ P i j, b' = b + a)
    (b : B) (hb : S.size b + ∑ i, ∑ j, w i j ≤ M) :
    Takes
      ((List.finRange k).foldlM (fun b i => (List.finRange k').foldlM (fun b j => f b i j) b) b) t
      (∑ i, ∑ j, c i j) fun b' => ∃ a : Fin k → Fin k' → B,
        (∀ i j, a i j ∈ P i j) ∧ b' = b + ∑ i, ∑ j, a i j := by
  have hrow : ∀ i, ∀ a ∈ ∑ j, P i j, S.size a ≤ ∑ j, w i j := by
    intro i a ha
    obtain ⟨a', ha', rfl⟩ := (Set.mem_fintype_sum _ _).mp ha
    calc S.size (∑ j, a' j)
        ≤ ∑ j, S.size (a' j) := Finset.le_sum_of_subadditive S.size S.zero.le S.add _ _
      _ ≤ ∑ j, w i j := Finset.sum_le_sum fun j _ => hw i j _ (ha' j)
  rw [Fin.sum_univ_def] at hb
  rw [Fin.sum_univ_def]
  apply (Takes.foldlM_sum S (P := fun i => ∑ j, P i j) _ ht ?_ (fun i _ => hrow i) ?_ b hb).mono
  · intro b' hb'
    obtain ⟨a, ha, rfl⟩ := hb'
    rw [← Fin.sum_univ_def] at ha
    obtain ⟨a', ha', rfl⟩ := (Set.mem_fintype_sum _ _).mp ha
    choose a'' ha'' hsum using fun i => (Set.mem_fintype_sum _ _).mp (ha' i)
    exact ⟨a'', ha'', by simp only [hsum]⟩
  · intro i _
    exact Finset.dvd_sum fun j _ => hc i j
  · intro i _ b t ht hb
    rw [Fin.sum_univ_def] at hb ⊢
    rw [Fin.sum_univ_def]
    exact Takes.foldlM_sum S _ ht (fun j _ => hc i j) (fun j _ => hw i j) (fun j _ => hf i j) b hb

/-- A loop that sets the elements of an array, one after the other. -/
def each [DecidableEq α] (l : List α) (f : α → β → Drawing ε β) (s : α → β) : Drawing ε (α → β) :=
  l.foldlM (fun s x => do
    let v ← f x (s x)
    return Function.update s x v) s

/-- The rule for such a loop: an element is not read or written but in its own turn. -/
theorem Takes.each [DecidableEq α] {l : List α} {f : α → β → Drawing ε β} {s : α → β} {c : α → ℕ}
    {P Q : α → β → Prop} (hl : l.Nodup) (ht : g ∣ t) (hc : ∀ x ∈ l, g ∣ c x)
    (hs : ∀ x ∈ l, P x (s x))
    (hf : ∀ x ∈ l, ∀ v t, g ∣ t → P x v → Takes (f x v) t (c x) (Q x)) :
    Takes (each l f s) t (l.map c).sum fun s' => ∀ x ∈ l, Q x (s' x) := by
  have hloop : Takes (Drawing.each l f s) t (l.map c).sum fun s' =>
      (∀ x ∈ l, Q x (s' x)) ∧ ∀ x ∈ l, x ∉ l → P x (s' x) := by
    apply Takes.foldlM (g := g) fun (done : List α) (s' : α → β) =>
      (∀ x ∈ done, Q x (s' x)) ∧ ∀ x ∈ l, x ∉ done → P x (s' x)
    · exact ⟨nofun, fun x hx _ => hs x hx⟩
    · exact ht
    · exact hc
    · intro done x rest s' t hsplit hI ht
      have hx : x ∈ l := by
        rw [hsplit]
        simp
      have hdone : x ∉ done := by
        intro hx'
        rw [hsplit] at hl
        exact (List.nodup_append.mp hl).2.2 x hx' x (List.mem_cons_self ..) rfl
      apply (hf x hx _ t ht (hI.2 x hx hdone)).bind (e := 0)
      intro v hv
      apply Takes.pure
      constructor
      · intro y hy
        by_cases hyx : y = x
        · rw [hyx, Function.update_self]
          exact hv
        · rw [Function.update_of_ne hyx]
          apply hI.1
          simpa [hyx] using hy
      · intro y hy hnot
        simp only [List.mem_append, List.mem_singleton, not_or] at hnot
        rw [Function.update_of_ne hnot.2]
        exact hI.2 y hy hnot.1
  exact hloop.mono fun s' h => h.1

end Drawing
