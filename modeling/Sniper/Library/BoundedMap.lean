import Mathlib.Tactic
import Mathlib.Data.Finset.Card

/-- What happens to a map that has to push a key out now and then to make room. -/
inductive MapEvent (K V : Type) where
  | insert (key : K) (value : V) (evicted : Option K)
  | modify (key : K) (f : V → V)
  | remove (key : K)

namespace MapEvent

variable {K V : Type} [DecidableEq K]

def apply (m : K → Option V) : MapEvent K V → K → Option V
  | insert key value evicted =>
    fun j => if j = key then some value else if evicted = some j then none else m j
  | modify key f => fun j => if j = key then (m j).map f else m j
  | remove key => fun j => if j = key then none else m j

/-- The map after the events, from the empty map on. -/
def content (events : List (MapEvent K V)) : K → Option V :=
  events.foldl apply fun _ => none

/-- The key gets a new value, or leaves the map. -/
def Resets (key : K) : MapEvent K V → Prop
  | insert j _ evicted => j = key ∨ evicted = some key
  | modify _ _ => False
  | remove j => j = key

/-- What an event that does not reset the key does to its value. -/
def change (key : K) (v : V) : MapEvent K V → V
  | modify j f => if j = key then f v else v
  | _ => v

/-- The key was inserted with this value, and `after` came since: it has been changed, but neither
pushed out nor removed. -/
def InsertedWith (events : List (MapEvent K V)) (key : K) (value : V)
    (after : List (MapEvent K V)) : Prop :=
  ∃ before evicted, events = before ++ insert key value evicted :: after ∧
    ∀ e ∈ after, ¬e.Resets key

variable {events : List (MapEvent K V)} {key : K} {e : MapEvent K V} {m : K → Option V}

theorem content_append (events : List (MapEvent K V)) (e : MapEvent K V) :
    content (events ++ [e]) = e.apply (content events) := by
  rw [content, List.foldl_append]
  rfl

theorem apply_of_not_resets (h : ¬e.Resets key) :
    e.apply m key = (m key).map fun v => e.change key v := by
  cases e with
  | insert j value evicted =>
    have hj : key ≠ j := fun he => h (.inl he.symm)
    have hev : evicted ≠ some key := fun he => h (.inr he)
    simp [apply, change, hj, hev]
  | modify j f =>
    by_cases hj : key = j
    · simp [apply, change, hj]
    · simp [apply, change, hj, Ne.symm hj]
  | remove j =>
    have hj : key ≠ j := fun he => h he.symm
    simp [apply, change, hj]

/-- After an event that resets the key, the key is in the map only if the event inserts it. -/
theorem apply_of_resets (h : e.Resets key) {v : V} :
    e.apply m key = some v ↔ ∃ evicted, e = insert key v evicted := by
  cases e with
  | insert j value evicted =>
    by_cases hj : key = j
    · subst hj
      simp [apply]
    · have hev : evicted = some key := h.resolve_left (Ne.symm hj)
      simp [apply, hj, hev, Ne.symm hj]
  | modify j f => exact h.elim
  | remove j =>
    have hj : key = j := Eq.symm h
    simp [apply, hj]

omit [DecidableEq K] in
/-- What the last event has to do with an insertion. -/
theorem insertedWith_append {value : V} {after : List (MapEvent K V)} :
    InsertedWith (events ++ [e]) key value after ↔
      after = [] ∧ (∃ evicted, e = insert key value evicted) ∨
      ∃ after', after = after' ++ [e] ∧ InsertedWith events key value after' ∧ ¬e.Resets key := by
  constructor
  · intro h
    obtain ⟨before, evicted, heq, hafter⟩ := h
    induction after using List.reverseRecOn with
    | nil =>
      left
      refine ⟨rfl, evicted, ?_⟩
      simpa using (List.append_inj' heq rfl).2
    | append_singleton after last _ =>
      right
      rw [← List.cons_append, ← List.append_assoc] at heq
      obtain ⟨hevents, hlast⟩ := List.append_inj' heq rfl
      obtain rfl : e = last := by simpa using hlast
      refine ⟨after, rfl, ⟨before, evicted, hevents, ?_⟩, hafter e (by simp)⟩
      intro e' he'
      exact hafter e' (List.mem_append_left _ he')
  · rintro (⟨rfl, evicted, rfl⟩ | ⟨after, rfl, ⟨before, evicted, rfl, hafter⟩, hlast⟩)
    · exact ⟨events, evicted, rfl, by simp⟩
    · refine ⟨before, evicted, by simp, ?_⟩
      intro e' he'
      rcases List.mem_append.mp he' with he' | he'
      · exact hafter e' he'
      · rwa [List.mem_singleton.mp he']

/-- A key is in the map exactly when it was inserted and not reset since; its value is the one it
was inserted with and changed since. -/
theorem content_eq_some {v : V} : content events key = some v ↔
    ∃ value after, InsertedWith events key value after ∧ v = after.foldl (change key) value := by
  induction events using List.reverseRecOn generalizing v with
  | nil =>
    constructor
    · intro h
      cases h
    · rintro ⟨value, after, ⟨before, evicted, h, -⟩, -⟩
      simp at h
  | append_singleton events e ih =>
    simp only [content_append, insertedWith_append]
    by_cases hreset : e.Resets key
    · rw [apply_of_resets hreset]
      constructor
      · intro h'
        obtain ⟨evicted, rfl⟩ := h'
        exact ⟨v, [], .inl ⟨rfl, evicted, rfl⟩, rfl⟩
      · rintro ⟨value, after, ⟨rfl, evicted, rfl⟩ | ⟨_, _, _, hnot⟩, rfl⟩
        · exact ⟨evicted, rfl⟩
        · exact absurd hreset hnot
    · rw [apply_of_not_resets hreset, Option.map_eq_some_iff]
      constructor
      · intro h'
        obtain ⟨u, hu, rfl⟩ := h'
        obtain ⟨value, after, h, rfl⟩ := ih.mp hu
        exact ⟨value, after ++ [e], .inr ⟨after, rfl, h, hreset⟩, by simp⟩
      · rintro ⟨value, _, ⟨rfl, evicted, rfl⟩ | ⟨after, rfl, h, -⟩, rfl⟩
        · exact absurd (.inl rfl) hreset
        · exact ⟨_, ih.mpr ⟨value, after, h, rfl⟩, by simp⟩

theorem content_isSome : (content events key).isSome = true ↔
    ∃ value after, InsertedWith events key value after := by
  rw [Option.isSome_iff_exists]
  constructor
  · intro h'
    obtain ⟨v, hv⟩ := h'
    obtain ⟨value, after, h, -⟩ := content_eq_some.mp hv
    exact ⟨value, after, h⟩
  · intro h'
    obtain ⟨value, after, h⟩ := h'
    exact ⟨_, content_eq_some.mpr ⟨value, after, h, rfl⟩⟩

end MapEvent
