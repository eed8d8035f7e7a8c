import Sniper.Library.ForLoop
import Sniper.Registry

namespace Sniper
open ForLoop

namespace MagicServer

variable (m : MagicServer) (arg0 arg1 : ℕ)

/-- The loop of `SIM_CMD_ADD_APPROX_ADDRS`: an `unsigned int` index, a `UInt64` bound. -/
def addApproxAddrs (fuel : ℕ) : Option (Except Empty MagicServer) :=
  forLoop 32 (fun i => i < arg1) (fun i m => .ok (m.addApprox ((arg0 + i) % 2 ^ 64) 0).1) fuel 0 m

/-- The loop of `SIM_CMD_DEL_APPROX_ADDRS`. -/
def delApproxAddrs (fuel : ℕ) : Option (Except Empty MagicServer) :=
  forLoop 32 (fun i => i < arg1) (fun i m => .ok (m.delApprox ((arg0 + i) % 2 ^ 64)).1) fuel 0 m

/-- The loops end, and leave these servers. -/
def AddEnds (m' : MagicServer) : Prop := ∃ fuel, m.addApproxAddrs arg0 arg1 fuel = some (.ok m')

def DelEnds (m' : MagicServer) : Prop := ∃ fuel, m.delApproxAddrs arg0 arg1 fuel = some (.ok m')

end MagicServer

/-- To register a range adds its addresses, to remove it takes them away, and the one after the
other changes nothing when none of them was there. -/
structure RangeAlgebra (m : MagicServer) (arg0 arg1 : ℕ) : Prop where
  add : ∃ m', m.AddEnds arg0 arg1 m' ∧ ∀ a, m'.approx_vars.find a =
    if InRange arg0 arg1 a then some ((m.approx_vars.find a).getD .create) else m.approx_vars.find a
  del : ∃ m', m.DelEnds arg0 arg1 m' ∧ ∀ a, m'.approx_vars.find a =
    if InRange arg0 arg1 a then none else m.approx_vars.find a
  restore : (∀ a, InRange arg0 arg1 a → a ∉ m.approx_vars.keys) →
    ∃ m' m'', m.AddEnds arg0 arg1 m' ∧ m'.DelEnds arg0 arg1 m'' ∧
      ∀ a, m''.approx_vars.find a = m.approx_vars.find a

namespace MagicServer

variable {m : MagicServer} {arg0 a n : ℕ}

theorem inRange_succ : InRange arg0 (n + 1) a ↔ InRange arg0 n a ∨ (arg0 + n) % 2 ^ 64 = a := by
  unfold InRange
  constructor
  · intro h'
    obtain ⟨i, hi, h⟩ := h'
    by_cases hin : i = n
    · exact .inr (hin ▸ h)
    · exact .inl ⟨i, by omega, h⟩
  · rintro (⟨i, hi, h⟩ | h)
    · exact ⟨i, by omega, h⟩
    · exact ⟨n, Nat.lt_succ_self n, h⟩

theorem find_addApprox (b : ℕ) : (m.addApprox b 0).1.approx_vars.find a =
    if b = a then some ((m.approx_vars.find a).getD .create) else m.approx_vars.find a := by
  split
  · rename_i h
    subst h
    by_cases hb : b ∈ m.approx_vars.keys
    · rw [addApprox_of_mem hb, SortedMap.find_of_mem _ hb, Option.getD_some]
    · rw [find_addApprox_self hb, SortedMap.find_of_notMem _ hb, Option.getD_none]
  · rename_i h
    exact find_addApprox_of_ne (Ne.symm h) 0

theorem find_delApprox (b : ℕ) : (m.delApprox b).1.approx_vars.find a =
    if b = a then none else m.approx_vars.find a := by
  split
  · rename_i h
    subst h
    rw [SortedMap.find_eq_none]
    exact fun hb => (mem_delApprox.mp hb).1 rfl
  · rename_i h
    exact find_delApprox_of_ne (Ne.symm h)

/-- Both commands do to each address of the range what one step does to its own, and to do it twice
is to do it once: a range may come to an address again when it wraps. -/
theorem find_range (op : ℕ → MagicServer → MagicServer) (f : Option AppVar → Option AppVar)
    (hop : ∀ b m, (op b m).approx_vars.find a =
      if b = a then f (m.approx_vars.find a) else m.approx_vars.find a)
    (hf : ∀ o, f (f o) = f o) :
    ((List.range n).foldl (fun m i => op ((arg0 + i) % 2 ^ 64) m) m).approx_vars.find a =
      if InRange arg0 n a then f (m.approx_vars.find a) else m.approx_vars.find a := by
  induction n with
  | zero => exact (if_neg fun ⟨_, hi, _⟩ => absurd hi (Nat.not_lt_zero _)).symm
  | succ n ih =>
    rw [List.range_succ, List.foldl_append, List.foldl_cons, List.foldl_nil, hop, ih]
    by_cases hin : InRange arg0 n a
    · rw [if_pos hin, if_pos (inRange_succ.mpr (.inl hin)), hf, ite_self]
    · rw [if_neg hin]
      exact if_congr (by rw [inRange_succ, or_iff_right hin]) rfl rfl

theorem find_addRange : ((List.range n).foldl
    (fun m i => (m.addApprox ((arg0 + i) % 2 ^ 64) 0).1) m).approx_vars.find a =
      if InRange arg0 n a then some ((m.approx_vars.find a).getD .create)
      else m.approx_vars.find a :=
  find_range (fun b m => (m.addApprox b 0).1) (fun o => some (o.getD .create))
    (fun b _ => find_addApprox b) fun _ => rfl

theorem find_delRange : ((List.range n).foldl
    (fun m i => (m.delApprox ((arg0 + i) % 2 ^ 64)).1) m).approx_vars.find a =
      if InRange arg0 n a then none else m.approx_vars.find a :=
  find_range (fun b m => (m.delApprox b).1) (fun _ => none)
    (fun b _ => find_delApprox b) fun _ => rfl

end MagicServer

open MagicServer in
/-- The loops end, and do what they should, for the lengths that an `unsigned int` can hold. -/
theorem rangeAlgebra_iff (m : MagicServer) (arg0 arg1 : ℕ) :
    RangeAlgebra m arg0 arg1 ↔ arg1 < 2 ^ 32 := by
  constructor
  · intro h
    by_contra hlong
    obtain ⟨m', hends, -⟩ := h.add
    exact not_ends_above (by omega) _ m hends
  · intro h
    have hadd : ∀ m : MagicServer, m.AddEnds arg0 arg1 ((List.range arg1).foldl
        (fun m i => (m.addApprox ((arg0 + i) % 2 ^ 64) 0).1) m) := fun m => ends_below h _ m
    have hdel : ∀ m : MagicServer, m.DelEnds arg0 arg1 ((List.range arg1).foldl
        (fun m i => (m.delApprox ((arg0 + i) % 2 ^ 64)).1) m) := fun m => ends_below h _ m
    refine ⟨⟨_, hadd m, fun a => find_addRange⟩, ⟨_, hdel m, fun a => find_delRange⟩, ?_⟩
    intro hnew
    refine ⟨_, _, hadd m, hdel _, ?_⟩
    intro a
    rw [find_delRange, find_addRange]
    split
    · rename_i hin
      rw [SortedMap.find_of_notMem _ (hnew a hin)]
    · rfl

/-- A range of `2 ^ 32` bytes keeps the loop going for ever. -/
theorem rangeAlgebra_long : ¬RangeAlgebra .init 0 (2 ^ 32) ∧
    ∀ fuel, MagicServer.init.addApproxAddrs 0 (2 ^ 32) fuel = none := by
  have hnone : ∀ fuel, MagicServer.init.addApproxAddrs 0 (2 ^ 32) fuel = none := by
    intro fuel
    by_contra h
    obtain ⟨r, hr⟩ := Option.ne_none_iff_exists'.mp h
    exact not_ends_above le_rfl _ _ ⟨fuel, hr⟩
  refine ⟨?_, hnone⟩
  intro h
  obtain ⟨m', ⟨fuel, hends⟩, -⟩ := h.add
  rw [hnone fuel] at hends
  cases hends

end Sniper
