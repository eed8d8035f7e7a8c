import Sniper.Fill

namespace Sniper

/-- The states a block may have above a block of the next level in state `y`. -/
def CState.Above : CState → CState → Prop
  | .invalid, _ => True
  | .shared, y => y ≠ .invalid
  | .exclusive, y => y = .exclusive ∨ y = .modified
  | .modified, y => y = .modified
  | _, _ => False

namespace CState

instance (x y : CState) : Decidable (x.Above y) := by
  cases x <;> unfold Above <;> infer_instance

theorem above_self {x : CState} (h : x.readable = true) : x.Above x := by
  cases x <;> simp_all [Above, readable]

theorem Above.modified {x y : CState} (h : x.Above y) : x.Above .modified := by
  cases x <;> simp_all [Above]

theorem Above.valid {x y : CState} (h : x.Above y) (hx : x ≠ .invalid) : y ≠ .invalid := by
  cases x <;> simp_all [Above]
  rcases h with rfl | rfl <;> decide

theorem Above.eq_modified {x y : CState} (h : x.Above y) (hx : x = .modified) : y = .modified := by
  subst hx
  exact h

theorem Above.restate_left {new x y : CState} (hn : new = .invalid ∨ new = .shared)
    (h : x.Above y) : (new.restate x).Above y := by
  rcases hn with rfl | rfl
  · rw [restate_to_invalid]
    trivial
  · unfold restate
    split
    · trivial
    · exact h.valid ‹_›

theorem Above.restate {new x y : CState} (hn : new = .invalid ∨ new = .shared)
    (h : x.Above y) : (new.restate x).Above (new.restate y) := by
  rcases hn with rfl | rfl
  · rw [restate_to_invalid]
    trivial
  · unfold CState.restate
    split
    · trivial
    · rw [if_neg (h.valid ‹_›)]
      decide

theorem shared_or_exclusive {x : CState} (hi : x ≠ .invalid) (hm : x ≠ .modified)
    (hu : ¬(x = .sharedUpgrading ∨ x = .owned)) : x = .shared ∨ x = .exclusive := by
  cases x <;> simp_all

/-- The states of a block that was not written to. -/
def Clean (x : CState) : Prop := x = .invalid ∨ x = .shared ∨ x = .exclusive

theorem Above.clean {x y : CState} (h : x.Above y) (hy : y ≠ .modified) : x.Clean := by
  cases x <;> simp_all [Above, Clean]

theorem Clean.above {x : CState} (h : x.Clean) : x.Above .modified := by
  rcases h with rfl | rfl | rfl <;> simp [Above]

theorem clean_restate {new : CState} (hn : new = .invalid ∨ new = .shared) (x : CState) :
    (new.restate x).Clean := by
  unfold restate
  split
  · exact .inl rfl
  · rcases hn with rfl | rfl
    · exact .inl rfl
    · exact .inr (.inl rfl)

end CState

/-- Inclusion and the dirty path, at every cache but for line `t` at the caches in `D`: these have
dropped the line while the levels above still hold unwritten copies. -/
structure Inclusive (H : Hierarchy) (D : Set CntlrId) (t : ℕ) (v : View) : Prop where
  above : ∀ d, d.level ≤ H.last → ∀ b ∈ H.prevCntlrs d, ∀ t', ¬(d ∈ D ∧ t' = t) →
    (v b t').Above (v d t')
  clean : ∀ d ∈ D, ∀ b ∈ H.prevCntlrs d, (v b t).Clean

/-- Every block is above a fitting block of the next level. -/
def Inclusion (H : Hierarchy) (v : View) : Prop :=
  ∀ d, d.level ≤ H.last → ∀ b ∈ H.prevCntlrs d, ∀ t, (v b t).Above (v d t)

namespace Inclusive

variable {H : Hierarchy} {D S : Set CntlrId} {t t' : ℕ} {v v' : View} {c : CntlrId}
  {st new : CState}

theorem of_inclusion (h : Inclusion H v) (t : ℕ) : Inclusive H ∅ t v :=
  ⟨fun d hd b hb t' _ => h d hd b hb t', fun _ h => absurd h (Set.notMem_empty _)⟩

theorem inclusion (h : Inclusive H ∅ t v) : Inclusion H v :=
  fun d hd b hb t' => h.above d hd b hb t' fun hn => absurd hn.1 (Set.notMem_empty _)

theorem snoop (h : Inclusive H D t v) (hS : H.forest.Closed S)
    (hn : new = .invalid ∨ new = .shared) : Inclusive H D t (v.snoop S t' new) := by
  constructor
  · intro d hl b hb u hu
    have ha := h.above d hl b hb u hu
    by_cases ht : u = t'
    · subst ht
      by_cases hd : d ∈ S
      · rw [View.snoop_of_mem hd, View.snoop_of_mem (hS d hd b hb)]
        exact ha.restate hn
      · rw [View.snoop_of_not_mem hd]
        by_cases hbS : b ∈ S
        · rw [View.snoop_of_mem hbS]
          exact ha.restate_left hn
        · rwa [View.snoop_of_not_mem hbS]
    · rwa [View.snoop_of_ne ht, View.snoop_of_ne ht]
  · intro d hd b hb
    have hc := h.clean d hd b hb
    unfold View.snoop
    split
    · exact CState.clean_restate hn _
    · exact hc

/-- A cache drops its unwritten copy. -/
theorem drop (h : Inclusive H D t v) (hl : c.level ≤ H.last) (hc : v c t ≠ .modified) :
    Inclusive H (insert c D) t (v.assign c t .invalid) := by
  constructor
  · intro d hd b hb u hu
    by_cases hbc : b = c ∧ u = t
    · rw [View.assign, if_pos hbc]
      trivial
    · have hdc : ¬(d = c ∧ u = t) := fun h => hu ⟨.inl h.1, h.2⟩
      rw [View.assign, if_neg hbc, View.assign, if_neg hdc]
      exact h.above d hd b hb u fun h => hu ⟨.inr h.1, h.2⟩
  · intro d hd b hb
    unfold View.assign
    split
    · exact .inl rfl
    · by_cases hdD : d ∈ D
      · exact h.clean d hdD b hb
      · obtain rfl : d = c := hd.resolve_right hdD
        exact (h.above d hl b hb t fun h => hdD h.1).clean hc

theorem insert_absent (h : Inclusive H D t v) (hl : c.level ≤ H.last) (hc : v c t = .invalid) :
    Inclusive H (insert c D) t v := by
  have := h.drop hl (by rw [hc]; decide)
  rwa [View.assign_eq hc] at this

/-- The copy comes back, from the next level. -/
theorem filled (h : Inclusive H (insert c D) t v) (hD : ∀ d ∈ D, d.level < c.level)
    (hfill : View.Filled H c t st v v')
    (hup : ∀ b ∈ H.prevCntlrs c, v b t ≠ .invalid → st = .modified)
    (hdown : ∀ d, d.level ≤ H.last → c ∈ H.prevCntlrs d → st.Above (v d t)) :
    Inclusive H D t v' := by
  -- before the evicted line goes; that takes a whole subtree with it
  have key : Inclusive H D t (v.assign c t st) := by
    constructor
    · intro d hd b hb u hu
      have hne : b ≠ d := by
        rintro rfl
        have := (H.mem_prevCntlrs.mp hb).1
        omega
      by_cases hut : u = t
      · subst hut
        by_cases hbc : b = c
        · subst hbc
          rw [View.assign_self, View.assign_of_ne hne.symm]
          exact hdown d hd hb
        · rw [View.assign_of_ne hbc]
          by_cases hdc : d = c
          · subst hdc
            rw [View.assign_self]
            by_cases hv : v b u = .invalid
            · rw [hv]
              trivial
            · rw [hup b hb hv]
              exact (h.clean d (.inl rfl) b hb).above
          · rw [View.assign_of_ne hdc]
            refine h.above d hd b hb u ?_
            intro h'
            obtain ⟨rfl | hdD, -⟩ := h'
            · exact hdc rfl
            · exact hu ⟨hdD, rfl⟩
      · rw [View.assign_of_ne_line hut, View.assign_of_ne_line hut]
        exact h.above d hd b hb u fun h => hut h.2
    · intro d hd b hb
      unfold View.assign
      split
      · rename_i hbc
        have h1 := (H.mem_prevCntlrs.mp hb).1
        have h2 := hD d hd
        rw [hbc.1] at h1
        omega
      · exact h.clean d (.inr hd) b hb
  rcases hfill with rfl | ⟨vt, -, -, rfl⟩
  · exact key
  · exact key.snoop (H.forest.closed_subtree c) (.inl rfl)

/-- A MODIFIED block is above a MODIFIED one, also where a level has dropped the line. -/
theorem dirty (h : Inclusive H D t v) {d b : CntlrId} (hd : d.level ≤ H.last)
    (hb : b ∈ H.prevCntlrs d) (hm : v b t' = .modified) : v d t' = .modified := by
  by_cases hdD : d ∈ D ∧ t' = t
  · have := h.clean d hdD.1 b hb
    rw [hdD.2] at hm
    rw [hm] at this
    simp [CState.Clean] at this
  · exact (h.above d hd b hb t' hdD).eq_modified hm

/-- Where no level has dropped the line above a copy, caches above one without the line have it not.
-/
theorem invalid_above (h : Inclusive H D t v) {a : CntlrId} (ha : a.level ≤ H.last)
    (hD : ∀ d ∈ D, ∀ b ∈ H.prevCntlrs d, v b t = .invalid) (hv : v a t = .invalid) :
    ∀ d ∈ H.forest.subtree a, v d t = .invalid := by
  intro d hd
  induction hd with
  | self => exact hv
  | @child a b d hb _ ih =>
    have hlevel := (H.mem_prevCntlrs.mp hb).1
    refine ih (by omega) ?_
    by_cases haD : a ∈ D
    · exact hD a haD b hb
    · have habove := h.above a ha b hb t fun hn => haD hn.1
      by_contra hne
      exact habove.valid hne hv

/-- The last level changes the state of its block. -/
theorem assign_last (h : Inclusive H D t v) (hl : c.level = H.last)
    (hD : ∀ d ∈ D, d.level < c.level)
    (hst : ∀ x : CState, x.Above (v c t) → x.Above st) : Inclusive H D t (v.assign c t st) := by
  have hparent : ∀ d, d.level ≤ H.last → c ∉ H.prevCntlrs d := by
    intro d hd hc
    have := (H.mem_prevCntlrs.mp hc).1
    omega
  constructor
  · intro d hd b hb u hu
    have hbc : b ≠ c := by
      rintro rfl
      exact hparent d hd hb
    rw [View.assign_of_ne hbc]
    by_cases hdc : d = c ∧ u = t
    · rw [View.assign, if_pos hdc]
      have := h.above d hd b hb u hu
      rw [hdc.1, hdc.2] at this
      rw [hdc.2]
      exact hst _ this
    · rw [View.assign, if_neg hdc]
      exact h.above d hd b hb u hu
  · intro d hd b hb
    have hbc : b ≠ c := by
      rintro rfl
      have := hD d hd
      exact hparent d (by omega) hb
    rw [View.assign_of_ne hbc]
    exact h.clean d hd b hb

end Inclusive
end Sniper
