import Mathlib.Algebra.BigOperators.Group.List.Basic
import Mathlib.Algebra.Order.BigOperators.Group.List
import Mathlib.Tactic

namespace Segments

variable {α : Type}

/-- A run with marks `none` in it: for each mark what it comes after, and what has come so far. With
`keep` both begin at the start of the run, otherwise after the mark before. -/
def cut (keep : Bool) (run : List (Option α)) : List (List α) × List α :=
  run.foldl (fun S x => match x with
    | none => (S.1 ++ [S.2], if keep then S.2 else [])
    | some x => (S.1, S.2 ++ [x])) ([], [])

/-- The segments that a mark has ended. -/
def ended (run : List (Option α)) : List (List α) := (cut false run).1

/-- What came after the last mark. -/
def current (run : List (Option α)) : List α := (cut false run).2

/-- For each mark all that came before it. -/
def before (run : List (Option α)) : List (List α) := (cut true run).1

def all (run : List (Option α)) : List α := (cut true run).2

variable (keep : Bool) (run : List (Option α)) (x : α)

theorem cut_some : cut keep (run ++ [some x]) = ((cut keep run).1, (cut keep run).2 ++ [x]) := by
  simp [cut]

theorem cut_none : cut keep (run ++ [none]) =
    ((cut keep run).1 ++ [(cut keep run).2], if keep then (cut keep run).2 else []) := by
  simp [cut]

@[simp] theorem ended_some : ended (run ++ [some x]) = ended run := by
  simp only [ended, cut_some]

@[simp] theorem current_some : current (run ++ [some x]) = current run ++ [x] := by
  simp only [current, cut_some]

@[simp] theorem ended_none : ended (run ++ [none]) = ended run ++ [current run] := by
  simp only [ended, current, cut_none]

@[simp] theorem current_none : current (run ++ [none]) = [] := by
  simp only [current, cut_none, Bool.false_eq_true, if_false]

@[simp] theorem before_some : before (run ++ [some x]) = before run := by
  simp only [before, cut_some]

@[simp] theorem all_some : all (run ++ [some x]) = all run ++ [x] := by
  simp only [all, cut_some]

@[simp] theorem before_none : before (run ++ [none]) = before run ++ [all run] := by
  simp only [before, all, cut_none]

@[simp] theorem all_none : all (run ++ [none]) = all run := by
  simp only [all, cut_none, if_true]

/-- Nothing of a run is in no segment, or out of its place. -/
theorem join : (ended run).flatMap (fun s => s.map some ++ [none]) ++ (current run).map some =
    run := by
  induction run using List.reverseRecOn with
  | nil => rfl
  | append_singleton run x ih =>
    cases x with
    | none =>
      rw [ended_none, current_none, List.flatMap_append, List.flatMap_singleton, List.map_nil,
        List.append_nil, ← List.append_assoc, ih]
    | some x =>
      rw [ended_some, current_some, List.map_append, ← List.append_assoc, ih]
      rfl

theorem all_eq : all run = (ended run).flatten ++ current run := by
  induction run using List.reverseRecOn with
  | nil => rfl
  | append_singleton run x ih =>
    cases x with
    | none =>
      rw [all_none, ended_none, current_none, List.flatten_append, List.flatten_singleton,
        List.append_nil, ih]
    | some x => rw [all_some, ended_some, current_some, ih, List.append_assoc]

variable {run} {s : List α} {x}

theorem mem_ended (hs : s ∈ ended run) (hx : x ∈ s) : some x ∈ run := by
  rw [← join run]
  refine List.mem_append_left _ (List.mem_flatMap.mpr ⟨s, hs, ?_⟩)
  exact List.mem_append_left _ (List.mem_map_of_mem hx)

theorem mem_current (hx : x ∈ current run) : some x ∈ run := by
  rw [← join run]
  exact List.mem_append_right _ (List.mem_map_of_mem hx)

theorem mem_flatten_ended (hx : x ∈ (ended run).flatten) : some x ∈ run := by
  obtain ⟨s, hs, hx⟩ := List.mem_flatten.mp hx
  exact mem_ended hs hx

/-- What comes before a mark comes before the last one. -/
theorem prefix_of_mem_before (hs : s ∈ before run) : s <+: (ended run).flatten := by
  induction run using List.reverseRecOn with
  | nil => cases hs
  | append_singleton run x ih =>
    cases x with
    | none =>
      rw [ended_none, List.flatten_append, List.flatten_singleton]
      rcases List.mem_append.mp ((before_none run) ▸ hs) with hs | hs
      · exact (ih hs).trans (List.prefix_append ..)
      · rw [List.mem_singleton.mp hs, all_eq]
    | some x =>
      rw [ended_some]
      exact ih ((before_some run x) ▸ hs)

/-- The last mark comes after all ended segments. -/
theorem flatten_ended_mem (run : List (Option α)) :
    (ended run).flatten = [] ∨ (ended run).flatten ∈ before run := by
  induction run using List.reverseRecOn with
  | nil => exact .inl rfl
  | append_singleton run x ih =>
    cases x with
    | none =>
      right
      rw [ended_none, before_none, List.flatten_append, List.flatten_singleton, ← all_eq]
      exact List.mem_append_right _ (List.mem_singleton_self _)
    | some x =>
      rw [ended_some, before_some]
      exact ih

end Segments

/-- Counters of which each has a saved and a potential value. -/
structure Bank (κ M : Type) where
  saved : κ → M
  poten : κ → M

namespace Bank
open Segments

variable {κ M : Type} [DecidableEq κ]

/-- What the amounts of one counter add up to. -/
def total [AddMonoid M] (c : κ) (s : List (κ × M)) : M :=
  (s.map fun x => if x.1 = c then x.2 else 0).sum

theorem total_append [AddMonoid M] (c : κ) (s s' : List (κ × M)) :
    total c (s ++ s') = total c s + total c s' := by
  simp [total]

theorem total_eq_countP [AddMonoidWithOne M] {c : κ} {s : List (κ × M)}
    (h : ∀ n, (c, n) ∈ s → n = 1) : total c s = (s.countP fun x => x.1 = c : ℕ) := by
  induction s using List.reverseRecOn with
  | nil => simp [total]
  | append_singleton s x ih =>
    rw [total_append, ih fun n hn => h n (List.mem_append_left _ hn), List.countP_append,
      Nat.cast_add]
    congr 1
    obtain ⟨d, n⟩ := x
    by_cases hd : d = c
    · subst hd
      simp [total, h n (by simp)]
    · simp [total, hd]

section max

variable [LinearOrder M] {l : List M} {a b : M}

theorem foldl_max_le_iff : l.foldl max a ≤ b ↔ a ≤ b ∧ ∀ x ∈ l, x ≤ b := by
  induction l generalizing a with
  | nil => simp
  | cons x l ih => rw [List.foldl_cons, ih, max_le_iff, List.forall_mem_cons, and_assoc]

theorem foldl_max_lt_iff : l.foldl max a < b ↔ a < b ∧ ∀ x ∈ l, x < b := by
  induction l generalizing a with
  | nil => simp
  | cons x l ih => rw [List.foldl_cons, ih, max_lt_iff, List.forall_mem_cons, and_assoc]

/-- The largest value of a list is one that is in it and not exceeded. -/
theorem foldl_max_eq (ha : a ≤ b) (hle : ∀ x ∈ l, x ≤ b) (hmem : b = a ∨ b ∈ l) :
    l.foldl max a = b := by
  apply le_antisymm (foldl_max_le_iff.mpr ⟨ha, hle⟩)
  have h := foldl_max_le_iff.mp (le_refl (l.foldl max a))
  rcases hmem with rfl | hmem
  · exact h.1
  · exact h.2 b hmem

end max

variable [AddMonoid M] [LinearOrder M] (wrap : M → M) (kept : κ → Prop) [DecidablePred kept]

/-- An amount is added to a potential value, in a number of some width. A mark saves the potential
values that are larger than the saved ones, and sets those to zero that are not kept. -/
def step (B : Bank κ M) : Option (κ × M) → Bank κ M
  | some (c, n) => { B with poten := Function.update B.poten c (wrap (B.poten c + n)) }
  | none => ⟨fun c => max (B.poten c) (B.saved c), fun c => if kept c then B.poten c else 0⟩

def zero : Bank κ M := ⟨fun _ => 0, fun _ => 0⟩

/-- All counters after a run. -/
def after (run : List (Option (κ × M))) : Bank κ M := run.foldl (step wrap kept) zero

variable (run : List (Option (κ × M))) {c : κ}

theorem after_append (x : Option (κ × M)) :
    after wrap kept (run ++ [x]) = step wrap kept (after wrap kept run) x := List.foldl_append

variable {wrap}

/-- The potential value of a counter is the total since it was last set to zero, the saved value the
largest that a mark has found. Only these totals are wrapped: a sum may wrap before it is complete.
-/
theorem after_eq (hzero : wrap 0 = 0) (hadd : ∀ a b, wrap (wrap a + b) = wrap (a + b)) (c : κ) :
    (after wrap kept run).poten c = wrap (total c (cut (kept c) run).2) ∧
      (after wrap kept run).saved c =
        ((cut (kept c) run).1.map fun s => wrap (total c s)).foldl max 0 := by
  induction run using List.reverseRecOn with
  | nil => exact ⟨hzero.symm, rfl⟩
  | append_singleton run x ih =>
    obtain ⟨hpoten, hsaved⟩ := ih
    rw [after_append]
    cases x with
    | none =>
      rw [cut_none, List.map_append, List.foldl_append, ← hsaved]
      refine ⟨?_, ?_⟩
      · by_cases hc : kept c
        · simp only [step, if_pos hc, hpoten, decide_eq_true hc, if_true]
        · simp only [step, if_neg hc, decide_eq_false hc]
          exact hzero.symm
      · simp only [step, List.map_cons, List.map_nil, List.foldl_cons, List.foldl_nil, ← hpoten]
        exact max_comm ..
    | some x =>
      obtain ⟨d, n⟩ := x
      rw [cut_some, total_append]
      refine ⟨?_, hsaved⟩
      by_cases hd : d = c
      · subst hd
        simp only [step, Function.update_self, hpoten, hadd]
        simp [total]
      · simp only [step, Function.update_of_ne (Ne.symm hd), hpoten]
        simp [total, hd]

variable {kept}

theorem after_of_not_kept (hzero : wrap 0 = 0) (hadd : ∀ a b, wrap (wrap a + b) = wrap (a + b))
    (hc : ¬kept c) : (after wrap kept run).poten c = wrap (total c (current run)) ∧
      (after wrap kept run).saved c = ((ended run).map fun s => wrap (total c s)).foldl max 0 := by
  have h := after_eq kept run hzero hadd c
  rwa [decide_eq_false hc] at h

theorem after_of_kept (hzero : wrap 0 = 0) (hadd : ∀ a b, wrap (wrap a + b) = wrap (a + b))
    (hc : kept c) : (after wrap kept run).poten c = wrap (total c (all run)) ∧
      (after wrap kept run).saved c = ((before run).map fun s => wrap (total c s)).foldl max 0 := by
  have h := after_eq kept run hzero hadd c
  rwa [decide_eq_true hc] at h

end Bank

namespace Bank
open Segments

variable {κ M : Type} [DecidableEq κ] [AddMonoid M] [LinearOrder M] [AddLeftMono M]
  {run : List (Option (κ × M))} {c : κ} {s s' : List (κ × M)}

theorem total_nonneg (h : ∀ n, (c, n) ∈ s → 0 ≤ n) : 0 ≤ total c s := by
  apply List.sum_nonneg
  intro m hm
  obtain ⟨x, hx, rfl⟩ := List.mem_map.mp hm
  split
  · rename_i hc
    exact h x.2 (hc ▸ hx)
  · exact le_rfl

theorem total_le_of_prefix (hpre : s <+: s') (h : ∀ n, (c, n) ∈ s' → 0 ≤ n) :
    total c s ≤ total c s' := by
  obtain ⟨t, rfl⟩ := hpre
  rw [total_append]
  exact le_add_of_nonneg_right (total_nonneg fun n hn => h n (List.mem_append_right _ hn))

/-- Where no amount is negative, the largest total that a mark finds is that of the last mark. -/
theorem foldl_max_before (h : ∀ n, some (c, n) ∈ run → 0 ≤ n) :
    ((before run).map (total c)).foldl max 0 = total c (ended run).flatten := by
  have hpos : ∀ n, (c, n) ∈ (ended run).flatten → 0 ≤ n := fun n hn => h n (mem_flatten_ended hn)
  apply foldl_max_eq (total_nonneg hpos)
  · intro m hm
    obtain ⟨s, hs, rfl⟩ := List.mem_map.mp hm
    exact total_le_of_prefix (prefix_of_mem_before hs) hpos
  · rcases flatten_ended_mem run with hnil | hmem
    · rw [hnil]
      exact .inl rfl
    · exact .inr (List.mem_map_of_mem hmem)

end Bank
