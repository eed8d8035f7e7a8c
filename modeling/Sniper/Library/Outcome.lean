import Mathlib.Tactic
import Mathlib.Data.List.Basic

namespace Outcome

variable {ε α β : Type}

/-- Stop with the error `e` unless `p` holds. -/
def require (p : Prop) [Decidable p] (e : ε) : Except ε Unit :=
  if p then .ok () else .error e

/-- A result satisfies `Q` when it is a value and `E` when it is an error. -/
def Sat (E : ε → Prop) (x : Except ε α) (Q : α → Prop) : Prop :=
  match x with
  | .ok a => Q a
  | .error e => E e

variable {E E' : ε → Prop} {Q Q' : α → Prop} {R : β → Prop}

/-- The computation returns, with a value that satisfies `Q`. -/
abbrev Total (x : Except ε α) (Q : α → Prop) : Prop := Sat (fun _ => False) x Q

@[simp] theorem sat_ok (a : α) : Sat E (.ok a) Q ↔ Q a := Iff.rfl

@[simp] theorem sat_pure (a : α) : Sat E (pure a) Q ↔ Q a := Iff.rfl

@[simp] theorem sat_error (e : ε) : Sat E (.error e) Q ↔ E e := Iff.rfl

theorem Sat.of_ok {x : Except ε α} {a : α} (h : Sat E x Q) (hx : x = .ok a) : Q a := by
  subst hx
  exact h

theorem Sat.of_error {x : Except ε α} {e : ε} (h : Sat E x Q) (hx : x = .error e) : E e := by
  subst hx
  exact h

theorem Sat.mono {x : Except ε α} (h : Sat E x Q) (hE : ∀ e, E e → E' e)
    (hQ : ∀ a, Q a → Q' a) : Sat E' x Q' := by
  cases x with
  | ok a => exact hQ a h
  | error e => exact hE e h

theorem Total.sat {x : Except ε α} (h : Total x Q) : Sat E x Q :=
  h.mono (fun _ => False.elim) fun _ => id

theorem Total.exists {x : Except ε α} (h : Total x Q) : ∃ a, x = .ok a ∧ Q a := by
  cases x with
  | ok a => exact ⟨a, rfl, h⟩
  | error e => exact h.elim

theorem Sat.and {x : Except ε α} (h : Sat E x Q) (h' : Sat E x Q') :
    Sat E x (fun a => Q a ∧ Q' a) := by
  cases x with
  | ok a => exact ⟨h, h'⟩
  | error e => exact h

theorem Sat.bind {x : Except ε α} {f : α → Except ε β} (h : Sat E x Q)
    (hf : ∀ a, Q a → Sat E (f a) R) : Sat E (x >>= f) R := by
  cases x with
  | ok a => exact hf a h
  | error e => exact h

theorem Sat.map {x : Except ε α} {f : α → β} (h : Sat E x fun a => R (f a)) :
    Sat E (f <$> x) R := by
  cases x with
  | ok a => exact h
  | error e => exact h

theorem sat_require {p : Prop} [Decidable p] {e : ε} {Q : Unit → Prop}
    (hp : p → Q ()) (hn : ¬p → E e) : Sat E (require p e) Q := by
  unfold require
  split
  · exact hp ‹_›
  · exact hn ‹_›

theorem require_true {p : Prop} [Decidable p] (e : ε) (h : p) : require p e = .ok () :=
  if_pos h

theorem bind_eq_ok {x : Except ε α} {f : α → Except ε β} {b : β} :
    (x >>= f) = .ok b ↔ ∃ a, x = .ok a ∧ f a = .ok b := by
  cases x with
  | ok a =>
    constructor
    · exact fun h => ⟨a, rfl, h⟩
    · intro h'
      obtain ⟨_, h, hf⟩ := h'
      cases h
      exact hf
  | error e =>
    constructor
    · intro h
      cases h
    · intro h'
      obtain ⟨_, h, _⟩ := h'
      cases h

@[simp] theorem ok_bind (a : α) (f : α → Except ε β) : (Except.ok a >>= f) = f a := rfl

@[simp] theorem error_bind (e : ε) (f : α → Except ε β) : (Except.error e >>= f) = .error e := rfl

theorem require_eq_ok {p : Prop} [Decidable p] {e : ε} {u : Unit} :
    require p e = .ok u ↔ p := by
  unfold require
  split <;> simp [*]

theorem toOption_eq_some {x : Except ε α} {a : α} : x.toOption = some a ↔ x = .ok a := by
  cases x <;> simp [Except.toOption]

/-- The loop rule: `I done s` says what holds once the elements `done` have been handled. -/
theorem sat_foldlM {f : β → α → Except ε β} (I : List α → β → Prop) (l : List α) (b : β)
    (hb : I [] b)
    (hstep : ∀ done a rest s, l = done ++ a :: rest → I done s → Sat E (f s a) (I (done ++ [a]))) :
    Sat E (l.foldlM f b) (I l) := by
  suffices h : ∀ rest done s, l = done ++ rest → I done s → Sat E (rest.foldlM f s) (I l) from
    h l [] b rfl hb
  intro rest
  induction rest with
  | nil =>
    intro done s hl hs
    simpa [hl] using hs
  | cons a rest ih =>
    intro done s hl hs
    rw [List.foldlM_cons]
    apply (hstep done a rest s hl hs).bind
    intro s' hs'
    exact ih (done ++ [a]) s' (by simp [hl]) hs'

end Outcome
