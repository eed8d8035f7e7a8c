import Sniper.Library.Outcome

open Outcome

/-- A system that does operations one at a time; an operation that is enabled may stop it with an
error. -/
structure Machine (S Op ε : Type) where
  enabled : S → Op → Prop
  exec : S → Op → Except ε S

namespace Machine

variable {S Op ε : Type} (M : Machine S Op ε)

/-- The operations, done one after the other from the first state, lead to the second. -/
inductive Run : S → List Op → S → Prop where
  | nil (s : S) : Run s [] s
  | snoc {s s' s'' : S} {ops : List Op} {op : Op} (h : Run s ops s') (he : M.enabled s' op)
      (hx : M.exec s' op = .ok s'') : Run s (ops ++ [op]) s''

variable {M}

/-- An invariant of every step is an invariant of every run. -/
theorem Run.inv {I : S → Prop} {E : ε → Prop}
    (step : ∀ s op, I s → M.enabled s op → Sat E (M.exec s op) I) {s s' : S} {ops : List Op}
    (h : M.Run s ops s') (hs : I s) : I s' := by
  induction h with
  | nil => exact hs
  | snoc _ he hx ih => exact (step _ _ ih he).of_ok hx

/-- Nothing that a step cannot stop with stops a run. -/
theorem Run.error {I : S → Prop} {E : ε → Prop}
    (step : ∀ s op, I s → M.enabled s op → Sat E (M.exec s op) I) {s s' : S} {ops : List Op}
    (h : M.Run s ops s') (hs : I s) {op : Op} (he : M.enabled s' op) {e : ε}
    (hx : M.exec s' op = .error e) : E e :=
  (step _ _ (h.inv step hs) he).of_error hx

/-- A run follows an abstract one when every step does. -/
theorem Run.simulate {A : Type} {R : S → A → Prop} (f : A → Op → A)
    (step : ∀ s a op s', R s a → M.enabled s op → M.exec s op = .ok s' → R s' (f a op))
    {s s' : S} {ops : List Op} (h : M.Run s ops s') {a : A} (hR : R s a) :
    R s' (ops.foldl f a) := by
  induction h with
  | nil => exact hR
  | snoc _ he hx ih =>
    rw [List.foldl_append]
    exact step _ _ _ _ ih he hx

theorem run_nil {s s' : S} (h : M.Run s [] s') : s' = s := by
  generalize hl : ([] : List Op) = ops at h
  cases h with
  | nil => rfl
  | snoc => simp at hl

/-- A run with one more step at its start. -/
theorem Run.cons {s s₁ s' : S} {op : Op} {ops : List Op} (he : M.enabled s op)
    (hx : M.exec s op = .ok s₁) (h : M.Run s₁ ops s') : M.Run s (op :: ops) s' := by
  induction h with
  | nil => exact .snoc (.nil s) he hx
  | snoc _ he' hx' ih => exact .snoc ih he' hx'

/-- The last step of a run. -/
theorem run_append {s s' : S} {ops : List Op} {op : Op} (h : M.Run s (ops ++ [op]) s') :
    ∃ s₁, M.Run s ops s₁ ∧ M.enabled s₁ op ∧ M.exec s₁ op = .ok s' := by
  generalize hl : ops ++ [op] = l at h
  cases h with
  | nil => simp at hl
  | snoc h he hx =>
    obtain ⟨rfl, rfl⟩ := List.append_inj' hl rfl |>.imp id List.singleton_inj.mp
    exact ⟨_, h, he, hx⟩

/-- Two runs stay related when their operations are related one by one. -/
theorem Run.relate {R : S → S → Prop} {Q : Op → Op → Prop} {s₁ t₁ : S} {ops₁ : List Op}
    (h₁ : M.Run s₁ ops₁ t₁) {s₂ t₂ : S}
    (step : ∀ u₁ u₂ v₁ v₂ op₁ op₂, op₁ ∈ ops₁ → Q op₁ op₂ → R u₁ u₂ → M.exec u₁ op₁ = .ok v₁ →
      M.exec u₂ op₂ = .ok v₂ → R v₁ v₂) (hR : R s₁ s₂) :
    ∀ {ops₂}, M.Run s₂ ops₂ t₂ → List.Forall₂ Q ops₁ ops₂ → R t₁ t₂ := by
  induction h₁ generalizing t₂ with
  | nil =>
    intro ops₂ h₂ hops
    cases hops
    rw [run_nil h₂]
    exact hR
  | snoc _ _ hx₁ ih =>
    intro ops₂ h₂ hops
    rw [← List.forall₂_reverse_iff, List.reverse_append, List.reverse_singleton,
      List.singleton_append] at hops
    obtain ⟨op₂, rest, hop, hrest, he⟩ := List.forall₂_cons_left_iff.mp hops
    have hl : ops₂ = rest.reverse ++ [op₂] := by
      rw [← List.reverse_reverse ops₂, he, List.reverse_cons]
    rw [hl] at h₂
    obtain ⟨u₂, h₂, -, hx₂⟩ := run_append h₂
    rw [← List.reverse_reverse rest, List.forall₂_reverse_iff] at hrest
    apply step _ _ _ _ _ _ (by simp) hop _ hx₁ hx₂
    apply ih _ h₂ hrest
    intro u₁ u₂ v₁ v₂ op₁ op₂ hmem
    exact step u₁ u₂ v₁ v₂ op₁ op₂ (List.mem_append_left _ hmem)

/-- Operations lead to one state. -/
theorem Run.unique {s : S} (ops : List Op) :
    ∀ {s₁ s₂ : S}, M.Run s ops s₁ → M.Run s ops s₂ → s₁ = s₂ := by
  induction ops using List.reverseRecOn with
  | nil =>
    intro s₁ s₂ h₁ h₂
    rw [run_nil h₁, run_nil h₂]
  | append_singleton ops op ih =>
    intro s₁ s₂ h₁ h₂
    obtain ⟨t₁, h₁, -, hx₁⟩ := run_append h₁
    obtain ⟨t₂, h₂, -, hx₂⟩ := run_append h₂
    rw [ih h₁ h₂, hx₂] at hx₁
    exact (Except.ok.inj hx₁).symm

theorem Run.of_prefix {s s' : S} {ops done : List Op} (h : M.Run s ops s') (hp : done <+: ops) :
    ∃ s₁, M.Run s done s₁ := by
  induction h with
  | nil =>
    rw [List.prefix_nil.mp hp]
    exact ⟨s, .nil s⟩
  | snoc h he hx ih =>
    rcases List.prefix_concat_iff.mp hp with rfl | hp
    · exact ⟨_, .snoc h he hx⟩
    · exact ih hp

/-- A property holds all along a run exactly when no step of it is one of those that break it. -/
theorem Run.always_iff {J P : S → Prop} {B : S → Op → Prop}
    (step : ∀ s op s', J s → M.enabled s op → M.exec s op = .ok s' →
      J s' ∧ (P s → (P s' ↔ ¬B s op)))
    {s s' : S} {ops : List Op} (h : M.Run s ops s') (hJ : J s) (hP : P s) :
    (∀ done s₁, done <+: ops → M.Run s done s₁ → P s₁) ↔
      ∀ done op s₁, done ++ [op] <+: ops → M.Run s done s₁ → ¬B s₁ op := by
  have hJs : ∀ {done s₁}, M.Run s done s₁ → J s₁ := by
    intro done s₁ hr
    induction hr with
    | nil => exact hJ
    | snoc _ he hx ih => exact (step _ _ _ ih he hx).1
  constructor
  · intro hall done op s₁ hp hr
    obtain ⟨s₂, hr₂⟩ := h.of_prefix hp
    obtain ⟨s₃, hr₃, he, hx⟩ := run_append hr₂
    rw [hr.unique done hr₃]
    refine ((step _ _ _ (hJs hr₃) he hx).2 (hall done s₃ ?_ hr₃)).mp (hall _ s₂ hp hr₂)
    exact (List.prefix_append done [op]).trans hp
  · intro hall done
    induction done using List.reverseRecOn with
    | nil =>
      intro s₁ _ hr
      rwa [run_nil hr]
    | append_singleton done op ih =>
      intro s₁ hp hr
      obtain ⟨s₀, hr₀, he, hx⟩ := run_append hr
      refine ((step _ _ _ (hJs hr₀) he hx).2 (ih s₀ ?_ hr₀)).mpr (hall done op s₀ hp hr₀)
      exact (List.prefix_append done [op]).trans hp

/-- A run follows an abstract one as long as no step is one of those that break it; such a step
breaks what the relation is to say of the states. -/
theorem Run.follows {A : Type} {R P : S → A → Prop} {B : S → A → Op → Prop} (f : A → Op → A)
    (step : ∀ s a op s', R s a → M.enabled s op → M.exec s op = .ok s' →
      (¬B s a op → R s' (f a op)) ∧ (B s a op → ¬P s' (f a op)))
    {s : S} {a : A} (hR : R s a) {ops : List Op}
    (hall : ∀ done op s₁, done ++ [op] <+: ops → M.Run s done s₁ → R s₁ (done.foldl f a) →
      B s₁ (done.foldl f a) op → ∀ s₂, M.exec s₁ op = .ok s₂ → P s₂ ((done ++ [op]).foldl f a)) :
    ∀ done s₁, done <+: ops → M.Run s done s₁ → R s₁ (done.foldl f a) := by
  intro done
  induction done using List.reverseRecOn with
  | nil =>
    intro s₁ _ hr
    rwa [run_nil hr]
  | append_singleton done op ih =>
    intro s₁ hp hr
    obtain ⟨s₀, hr₀, he, hx⟩ := run_append hr
    have hR₀ := ih s₀ ((List.prefix_append done [op]).trans hp) hr₀
    obtain ⟨hgood, hbad⟩ := step _ _ _ _ hR₀ he hx
    rw [List.foldl_append]
    apply hgood
    intro hB
    apply hbad hB
    have hP := hall done op s₀ hp hr₀ hR₀ hB s₁ hx
    rwa [List.foldl_append] at hP

/-- The states of a run agree with those of the abstract one, all along, exactly when no step of it
is one of those that break the agreement. -/
theorem Run.agrees_iff {A : Type} {R P : S → A → Prop} {B : S → A → Op → Prop} (f : A → Op → A)
    (hRP : ∀ s a, R s a → P s a)
    (step : ∀ s a op s', R s a → M.enabled s op → M.exec s op = .ok s' →
      (¬B s a op → R s' (f a op)) ∧ (B s a op → ¬P s' (f a op)))
    {s s' : S} {a : A} (hR : R s a) {ops : List Op} (h : M.Run s ops s') :
    (∀ done s₁, done <+: ops → M.Run s done s₁ → P s₁ (done.foldl f a)) ↔
      ∀ done op s₁, done ++ [op] <+: ops → M.Run s done s₁ → ¬B s₁ (done.foldl f a) op := by
  constructor
  · intro hP done op s₁ hp hr hB
    have hfollow : ∀ done s₁, done <+: ops → M.Run s done s₁ → R s₁ (done.foldl f a) := by
      apply Run.follows f step hR
      intro done op s₁ hp hr _ _ s₂ hx
      obtain ⟨s₃, hr₃⟩ := h.of_prefix hp
      obtain ⟨s₄, hr₄, _, hx₄⟩ := run_append hr₃
      apply hP _ s₂ hp
      rw [hr.unique done hr₄] at hx
      rw [Except.ok.inj (hx.symm.trans hx₄)]
      exact hr₃
    obtain ⟨s₂, hr₂⟩ := h.of_prefix hp
    obtain ⟨s₃, hr₃, he, hx⟩ := run_append hr₂
    rw [hr.unique done hr₃] at hB
    have hR₃ := hfollow done s₃ ((List.prefix_append done [op]).trans hp) hr₃
    apply (step _ _ _ _ hR₃ he hx).2 hB
    have hP₂ := hP _ s₂ hp hr₂
    rwa [List.foldl_append] at hP₂
  · intro hno done s₁ hp hr
    apply hRP
    refine Run.follows f step hR ?_ done s₁ hp hr
    intro done op s₁ hp hr _ hB
    exact absurd hB (hno done op s₁ hp hr)

/-- A run that has been computed. -/
theorem Run.of_foldlM {s : S} (ops : List Op)
    (he : ∀ done op rest s', ops = done ++ op :: rest → done.foldlM M.exec s = .ok s' →
      M.enabled s' op) :
    ∀ s', ops.foldlM M.exec s = .ok s' → M.Run s ops s' := by
  induction ops using List.reverseRecOn with
  | nil =>
    intro s' h
    cases h
    exact .nil s
  | append_singleton ops op ih =>
    intro s' h
    rw [List.foldlM_append] at h
    obtain ⟨s₁, h₁, h₂⟩ := bind_eq_ok.mp h
    obtain ⟨s₂, h₃, h₄⟩ := bind_eq_ok.mp (show (M.exec s₁ op >>= fun s => pure s) = .ok s' from h₂)
    cases h₄
    refine .snoc (ih ?_ s₁ h₁) (he ops op [] s₁ rfl h₁) h₃
    rintro done op' rest s' rfl hs'
    exact he done op' (rest ++ [op]) s' (by simp) hs'

end Machine
