import Sniper.Library.Forest
import Sniper.Hierarchy

namespace Sniper

namespace Hierarchy

variable (H : Hierarchy)

theorem mem_prevCntlrs {c j : CntlrId} :
    j ∈ H.prevCntlrs c ↔ j.level + 1 = c.level ∧ j.core < H.width j.level ∧
      H.master j.level j.core = j.core ∧ H.below j = c := by
  obtain ⟨l, m⟩ := c
  obtain ⟨l', m'⟩ := j
  cases l with
  | zero => simp [prevCntlrs]
  | succ l =>
    simp only [prevCntlrs, prev, List.mem_map, List.mem_filter, List.mem_range, Bool.and_eq_true,
      decide_eq_true_eq, below, node, nextCntlr, CntlrId.mk.injEq]
    constructor
    · rintro ⟨j, ⟨hj, h1, h2⟩, rfl, rfl⟩
      exact ⟨rfl, hj, h1, rfl, h2⟩
    · intro h
      obtain ⟨h0, hj, h1, h2, h3⟩ := h
      obtain rfl : l' = l := by omega
      exact ⟨m', ⟨hj, h1, h3⟩, rfl, rfl⟩

/-- The caches of a hierarchy; the children of a cache are its previous-level caches. -/
def forest : Forest CntlrId where
  children := H.prevCntlrs
  parent := H.below
  rank := CntlrId.level
  parent_of_mem h := ((H.mem_prevCntlrs).mp h).2.2.2
  rank_of_mem h := ((H.mem_prevCntlrs).mp h).1

theorem Node.mem_prevCntlrs {c : CntlrId} (h : H.Node c) :
    c ∈ H.prevCntlrs (H.below c) :=
  (H.mem_prevCntlrs).mpr ⟨rfl, h.1.2, h.2, rfl⟩

theorem lastCntlr_next {o : CntlrId} (hl : o.level < H.last) :
    H.lastCntlr (H.nextCntlr o) = H.lastCntlr o := by
  unfold lastCntlr
  have h : H.last - o.level = (H.last - (o.level + 1)) + 1 := by omega
  rw [h, Function.iterate_succ_apply]
  rfl

variable {H}

theorem Cntlr.node {o : CntlrId} (h : H.Cntlr o) : H.Node (H.node o) :=
  ⟨⟨h.1, H.master_lt h.2⟩, H.master_master h.2⟩

theorem Node.node_eq {c : CntlrId} (h : H.Node c) : H.node c = c := by
  unfold node
  rw [h.2]

theorem Cntlr.nextCntlr {o : CntlrId} (h : H.Cntlr o) (hl : o.level < H.last) :
    H.Cntlr (H.nextCntlr o) :=
  ⟨hl, H.next_lt hl h.2⟩

variable (H) in
theorem llc_isNode : H.Node H.llc :=
  ⟨⟨le_rfl, H.width_last⟩, H.master_last H.width_last⟩

/-- A controller and its master send their misses to one cache. -/
theorem Cntlr.below_node {o : CntlrId} (h : H.Cntlr o) (hl : o.level < H.last) :
    H.below (H.node o) = H.node (H.nextCntlr o) := by
  simp only [below, Hierarchy.node, Hierarchy.nextCntlr, CntlrId.mk.injEq, true_and]
  exact H.master_next hl h.2

theorem Cntlr.node_mem {o : CntlrId} (h : H.Cntlr o) (hl : o.level < H.last) :
    H.node o ∈ H.prevCntlrs (H.node (H.nextCntlr o)) := by
  rw [← h.below_node hl]
  exact h.node.mem_prevCntlrs

/-- The one cache of the last level. -/
theorem Cntlr.node_last {o : CntlrId} (h : H.Cntlr o) (hl : o.level = H.last) :
    H.node o = H.llc := by
  simp only [Hierarchy.node, llc, CntlrId.mk.injEq]
  exact ⟨hl, by rw [hl]; exact H.master_last (hl ▸ h.2)⟩

end Hierarchy

/-- The coherence state of every line in every cache. -/
abbrev View := CntlrId → ℕ → CState

namespace CState

/-- The state of a block that was told to go to `new`. -/
def restate (new x : CState) : CState := if x = .invalid then .invalid else new

@[simp] theorem restate_invalid (new : CState) : restate new .invalid = .invalid := if_pos rfl

@[simp] theorem restate_to_invalid (x : CState) : restate .invalid x = .invalid := by
  unfold restate
  split <;> rfl

theorem restate_eq_invalid {new x : CState} (h : new ≠ .invalid) :
    restate new x = .invalid ↔ x = .invalid := by
  unfold restate
  split <;> simp [*]

end CState

namespace View

open Classical in
/-- The copies of line `t` in the caches of `S` are told to go to state `new`. -/
noncomputable def snoop (S : Set CntlrId) (t : ℕ) (new : CState) (v : View) : View :=
  fun d t' => if t' = t ∧ d ∈ S then new.restate (v d t') else v d t'

/-- Line `t` of cache `c` gets state `st`. -/
def assign (c : CntlrId) (t : ℕ) (st : CState) (v : View) : View :=
  fun d t' => if d = c ∧ t' = t then st else v d t'

variable {S S' : Set CntlrId} {t t' : ℕ} {new st : CState} {v : View} {c d : CntlrId}

theorem snoop_of_mem (h : d ∈ S) : snoop S t new v d t = new.restate (v d t) := if_pos ⟨rfl, h⟩

theorem snoop_of_not_mem (h : d ∉ S) : snoop S t new v d t' = v d t' := if_neg fun h' => h h'.2

theorem snoop_of_ne (h : t' ≠ t) : snoop S t new v d t' = v d t' := if_neg fun h' => h h'.1

@[simp] theorem snoop_empty : snoop ∅ t new v = v := by
  funext d t'
  exact snoop_of_not_mem (Set.notMem_empty d)

theorem snoop_union : snoop S' t new (snoop S t new v) = snoop (S ∪ S') t new v := by
  funext d t'
  by_cases ht : t' = t
  · subst ht
    by_cases h' : d ∈ S' <;> by_cases h : d ∈ S
    · rw [snoop_of_mem h', snoop_of_mem h, snoop_of_mem (.inl h)]
      unfold CState.restate
      split <;> simp_all
    · rw [snoop_of_mem h', snoop_of_not_mem h, snoop_of_mem (.inr h')]
    · rw [snoop_of_not_mem h', snoop_of_mem h, snoop_of_mem (.inl h)]
    · rw [snoop_of_not_mem h', snoop_of_not_mem h, snoop_of_not_mem (by simp [h, h'])]
  · rw [snoop_of_ne ht, snoop_of_ne ht, snoop_of_ne ht]

/-- A snoop makes no copy valid that was not. -/
theorem snoop_invalid (h : v d t' = .invalid) : snoop S t new v d t' = .invalid := by
  unfold snoop
  split
  · rw [h, CState.restate_invalid]
  · exact h

@[simp] theorem assign_self : assign c t st v c t = st := if_pos ⟨rfl, rfl⟩

theorem assign_eq (h : v c t = st) : assign c t st v = v := by
  funext d t'
  unfold assign
  split
  · rename_i hd
    rw [hd.1, hd.2, h]
  · rfl

theorem assign_of_ne_line (h : t' ≠ t) : assign c t st v d t' = v d t' := if_neg fun h' => h h'.2

theorem assign_of_ne (h : d ≠ c) : assign c t st v d t' = v d t' := if_neg fun h' => h h'.1

end View
end Sniper
