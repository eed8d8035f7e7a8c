import Mathlib.Tactic
import Mathlib.Logic.Function.Iterate
import Mathlib.Data.Set.Basic

/-- Nodes with ranked lists of children. -/
structure Forest (α : Type) where
  children : α → List α
  parent : α → α
  rank : α → ℕ
  parent_of_mem : ∀ {a b}, b ∈ children a → parent b = a
  rank_of_mem : ∀ {a b}, b ∈ children a → rank b + 1 = rank a

namespace Forest

variable {α : Type} (F : Forest α)

/-- `a` is `d` or an ancestor of `d`. -/
inductive Covers : α → α → Prop where
  | self (a : α) : Covers a a
  | child {a b d : α} (hb : b ∈ F.children a) (h : Covers b d) : Covers a d

/-- The nodes of the subtree of `a`. -/
def subtree (a : α) : Set α := {d | F.Covers a d}

/-- The nodes of the subtrees of the nodes in `l`. -/
def subtrees (l : List α) : Set α := {d | ∃ a ∈ l, F.Covers a d}

variable {F}

theorem Covers.rank_le {a d : α} (h : F.Covers a d) : F.rank d ≤ F.rank a := by
  induction h with
  | self => exact le_refl _
  | child hb _ ih =>
    have := F.rank_of_mem hb
    omega

theorem Covers.iterate {a d : α} (h : F.Covers a d) :
    F.parent^[F.rank a - F.rank d] d = a := by
  induction h with
  | self => simp
  | @child a b d hb h ih =>
    have hr := F.rank_of_mem hb
    have hle := h.rank_le
    have hn : F.rank a - F.rank d = (F.rank b - F.rank d) + 1 := by omega
    rw [hn, Function.iterate_succ_apply', ih, F.parent_of_mem hb]

/-- Subtrees of different nodes of one rank are disjoint. -/
theorem Covers.unique {a a' d : α} (h : F.Covers a d) (h' : F.Covers a' d)
    (hr : F.rank a = F.rank a') : a = a' := by
  rw [← h.iterate, ← h'.iterate, hr]

theorem Covers.trans {a b d : α} (h : F.Covers a b) (h' : F.Covers b d) : F.Covers a d := by
  induction h with
  | self => exact h'
  | child hb _ ih => exact .child hb (ih h')

theorem covers_iff {a d : α} :
    F.Covers a d ↔ d = a ∨ ∃ b ∈ F.children a, F.Covers b d := by
  constructor
  · rintro (_ | ⟨hb, h⟩)
    · exact .inl rfl
    · exact .inr ⟨_, hb, h⟩
  · rintro (rfl | ⟨b, hb, h⟩)
    · exact .self _
    · exact .child hb h

/-- A node is in no subtree of its children. -/
theorem not_covers_of_child {a b : α} (hb : b ∈ F.children a) : ¬F.Covers b a := by
  intro h
  have := F.rank_of_mem hb
  have := h.rank_le
  omega

variable (F) in
/-- With each node, the set has the children of the node. -/
def Closed (S : Set α) : Prop := ∀ d ∈ S, ∀ b ∈ F.children d, b ∈ S

theorem mem_subtree_self (a : α) : a ∈ F.subtree a := .self a

theorem closed_subtree (a : α) : F.Closed (F.subtree a) :=
  fun _ hd _ hb => Covers.trans hd (.child hb (.self _))

theorem closed_subtrees (l : List α) : F.Closed (F.subtrees l) := by
  intro d h' b hb
  obtain ⟨a, ha, h⟩ := h'
  exact ⟨a, ha, h.trans (.child hb (.self _))⟩

theorem mem_subtrees_append {l : List α} {a d : α} :
    d ∈ F.subtrees (l ++ [a]) ↔ d ∈ F.subtrees l ∨ d ∈ F.subtree a := by
  simp only [subtrees, subtree, Set.mem_ofPred_eq, List.mem_append, List.mem_singleton]
  constructor
  · intro h'
    obtain ⟨b, hb | rfl, h⟩ := h'
    · exact .inl ⟨b, hb, h⟩
    · exact .inr h
  · rintro (⟨b, hb, h⟩ | h)
    · exact ⟨b, .inl hb, h⟩
    · exact ⟨a, .inr rfl, h⟩

theorem subtree_eq (a : α) : F.subtree a = F.subtrees (F.children a) ∪ {a} := by
  ext d
  exact covers_iff.trans or_comm

theorem subtrees_append (l : List α) (a : α) :
    F.subtrees (l ++ [a]) = F.subtrees l ∪ F.subtree a := by
  ext d
  exact mem_subtrees_append

@[simp] theorem subtrees_nil : F.subtrees [] = ∅ := by
  ext d
  simp [subtrees]

/-- A node of a subtree that is not the root has its parent in the subtree. -/
theorem Covers.parent {a b d : α} (h : F.Covers a b) (hb : b ∈ F.children d) (hne : b ≠ a) :
    F.Covers a d := by
  induction h with
  | self => exact absurd rfl hne
  | @child a c b hc h ih =>
    by_cases hbc : b = c
    · subst hbc
      rw [← F.parent_of_mem hb, F.parent_of_mem hc]
      exact .self _
    · exact .child hc (ih hb hbc)

section deepest

variable {P : α → Prop} {a b d : α}

variable (F P) in
/-- In the subtree of `a` the nodes with `P` form a path from the root on. -/
structure Path (a : α) : Prop where
  parent : ∀ d ∈ F.subtree a, ∀ b ∈ F.children d, P b → P d
  unique : ∀ d ∈ F.subtree a, ∀ e ∈ F.subtree a, F.rank d = F.rank e → P d → P e → d = e

variable (F P) in
/-- The node with `P` farthest from the root of the subtree, or the root when no node has `P`. -/
def Deepest (a d : α) : Prop :=
  d ∈ F.subtree a ∧ (P d ∧ (∀ e ∈ F.subtree a, P e → F.rank d ≤ F.rank e) ∨
    d = a ∧ ∀ e ∈ F.subtree a, ¬P e)

theorem Path.child (h : F.Path P a) (hb : b ∈ F.children a) : F.Path P b where
  parent d hd := h.parent d (.child hb hd)
  unique d hd e he := h.unique d (.child hb hd) e (.child hb he)

theorem Path.congr {Q : α → Prop} (h : F.Path P a) (hq : ∀ d ∈ F.subtree a, Q d ↔ P d) :
    F.Path Q a where
  parent d hd b hb hQ := by
    have hbs := F.closed_subtree a d hd b hb
    exact (hq d hd).mpr (h.parent d hd b hb ((hq b hbs).mp hQ))
  unique d hd e he hr hQd hQe := h.unique d hd e he hr ((hq d hd).mp hQd) ((hq e he).mp hQe)

/-- The nodes above a node with `P` have it too. -/
theorem Path.root (h : F.Path P a) (hd : F.Covers a d) (hP : P d) : P a := by
  induction hd with
  | self => exact hP
  | @child a b d hb hd ih => exact h.parent a (.self a) b hb (ih (h.child hb) hP)

theorem Deepest.eq_root (h : F.Path P a) (hd : F.Deepest P a d)
    (hn : ∀ b ∈ F.children a, ¬P b) : d = a := by
  rcases hd with ⟨hcov, ⟨hP, -⟩ | ⟨rfl, -⟩⟩
  · rcases covers_iff.mp hcov with rfl | ⟨b, hb, hcov⟩
    · rfl
    · exact absurd ((h.child hb).root hcov hP) (hn b hb)
  · rfl

theorem Deepest.child (h : F.Path P a) (hd : F.Deepest P a d) (hb : b ∈ F.children a) (hP : P b) :
    F.Deepest P b d := by
  have hba : b ∈ F.subtree a := .child hb (.self b)
  rcases hd with ⟨hcov, ⟨hPd, hmin⟩ | ⟨-, hnone⟩⟩
  · have hrank := F.rank_of_mem hb
    have hle := hmin b hba hP
    rcases covers_iff.mp hcov with rfl | ⟨b', hb', hcov⟩
    · omega
    · -- the child the node lies under is the one with `P`
      have hb'P := (h.child hb').root hcov hPd
      have heq : b' = b := by
        apply h.unique b' (.child hb' (.self b')) b hba _ hb'P hP
        have := F.rank_of_mem hb'
        omega
      subst heq
      exact ⟨hcov, .inl ⟨hPd, fun e he => hmin e (.child hb he)⟩⟩
  · exact absurd hP (hnone b hba)

theorem exists_deepest (P : α → Prop) (a : α) : ∃ d, F.Deepest P a d := by
  by_cases h : ∃ d ∈ F.subtree a, P d
  · obtain ⟨d, ⟨hd, hP⟩, hmin⟩ := (measure F.rank).wf.has_min {d | d ∈ F.subtree a ∧ P d} h
    refine ⟨d, hd, .inl ⟨hP, ?_⟩⟩
    intro e he hPe
    exact Nat.le_of_not_lt (hmin e ⟨he, hPe⟩)
  · refine ⟨a, .self a, .inr ⟨rfl, ?_⟩⟩
    intro e he hPe
    exact h ⟨e, he, hPe⟩

theorem Deepest.unique (h : F.Path P a) {e : α} (hd : F.Deepest P a d) (he : F.Deepest P a e) :
    d = e := by
  rcases hd with ⟨hcd, ⟨hPd, hmind⟩ | ⟨rfl, hnone⟩⟩
  · rcases he with ⟨hce, ⟨hPe, hmine⟩ | ⟨rfl, hnone⟩⟩
    · exact h.unique d hcd e hce (le_antisymm (hmind e hce hPe) (hmine d hcd hPd)) hPd hPe
    · exact absurd hPd (hnone d hcd)
  · rcases he with ⟨hce, ⟨hPe, -⟩ | ⟨rfl, -⟩⟩
    · exact absurd hPe (hnone e hce)
    · rfl

/-- Only the nodes of the subtree matter. -/
theorem Deepest.congr {Q : α → Prop} (h : ∀ d ∈ F.subtree a, P d ↔ Q d) :
    F.Deepest P a d ↔ F.Deepest Q a d := by
  unfold Deepest
  constructor
  · rintro ⟨hd, ⟨hP, hmin⟩ | ⟨he, hnone⟩⟩
    · exact ⟨hd, .inl ⟨(h d hd).mp hP, fun e he hQ => hmin e he ((h e he).mpr hQ)⟩⟩
    · exact ⟨hd, .inr ⟨he, fun e he hQ => hnone e he ((h e he).mpr hQ)⟩⟩
  · rintro ⟨hd, ⟨hQ, hmin⟩ | ⟨he, hnone⟩⟩
    · exact ⟨hd, .inl ⟨(h d hd).mpr hQ, fun e he hP => hmin e he ((h e he).mp hP)⟩⟩
    · exact ⟨hd, .inr ⟨he, fun e he hP => hnone e he ((h e he).mp hP)⟩⟩

end deepest

end Forest
