import Mathlib.Topology.Instances.Rat
import Mathlib.Topology.Algebra.Monoid
import Mathlib.Topology.Order.Basic
import Sniper.Library.NestedLoops
import Sniper.ApproxLog
import Sniper.LoadProbvals

namespace Sniper
namespace ProbabilityAnalysis
open NestedLoops Outcome

/-- The tables that `main` loads. -/
structure Tables where
  sram_read_L1 : List AppPack
  sram_write_L1 : List AppPack
  sram_read_L2 : List AppPack
  sram_write_L2 : List AppPack
  approx_add : List AppPack
  approx_mul : List AppPack
  dram_hold_time : List AppPack

structure IdxPack where
  L1_idx : ℕ
  L2_idx : ℕ
  add_idx : ℕ
  mul_idx : ℕ
  dram_idx : ℕ
deriving DecidableEq

def IdxPack.indices (x : IdxPack) : List ℕ :=
  [x.L1_idx, x.L2_idx, x.add_idx, x.mul_idx, x.dram_idx]

structure ResPack where
  prob : ℚ
  idxes : IdxPack
deriving DecidableEq

/-- `std::out_of_range`. -/
inductive OutOfRange where
  | vectorAt (i size : ℕ)
deriving DecidableEq

/-- `v.at(i).prob`. -/
def probAt (v : List AppPack) (i : ℕ) : Except OutOfRange ℚ :=
  match v[i]? with
  | some p => .ok p.prob
  | none => .error (.vectorAt i v.length)

/-- The loop over the variables, which is given the indices of the loops around it. -/
def meanLoop (approx_vars : List (Row ℚ)) (T : Tables) (i j k l : ℕ) : Except OutOfRange ℚ := do
  let mut Pmean := 0
  for v in approx_vars do
    let P_L1_reads := (← probAt T.sram_read_L1 i) ^ v.L1_reads
    let P_L1_writes := (← probAt T.sram_write_L1 i) ^ v.L1_writes
    let P_L2_reads := (← probAt T.sram_read_L2 j) ^ v.L2_reads
    let P_L2_writes := (← probAt T.sram_write_L2 j) ^ v.L2_writes
    let P_add_cnt := (← probAt T.approx_add k) ^ v.add_cnt
    let P_mul_cnt := (← probAt T.approx_mul l) ^ v.mul_cnt
    let P_dram_hold := 1
    Pmean := Pmean +
      P_L1_reads * P_L1_writes * P_L2_reads * P_L2_writes * P_add_cnt * P_mul_cnt * P_dram_hold
  return Pmean / approx_vars.length

/-- The search of `main`. Without `knobTests` only the DRAM table is tested before a `break`. -/
def searchLoops (knobTests : Bool) (approx_vars : List (Row ℚ)) (Ptarget : ℚ) (T : Tables) :
    Except OutOfRange (List ResPack) := do
  let mut final_res := []
  for i in List.range T.sram_read_L1.length do
    for j in List.range T.sram_read_L2.length do
      for k in List.range T.approx_add.length do
        for l in List.range T.approx_mul.length do
          for z in List.range T.dram_hold_time.length do
            if (knobTests && ((← probAt T.sram_read_L1 i) < Ptarget ||
                (← probAt T.sram_read_L2 j) < Ptarget ||
                (← probAt T.approx_add k) < Ptarget ||
                (← probAt T.approx_mul l) < Ptarget)) ||
                (← probAt T.dram_hold_time z) < Ptarget then
              break
            let Pmean ← meanLoop approx_vars T i j k l
            if Pmean > Ptarget then
              final_res := final_res ++ [⟨Pmean, ⟨i, j, k, l, z⟩⟩]
  return final_res

def search (approx_vars : List (Row ℚ)) (Ptarget : ℚ) (T : Tables) :
    Except OutOfRange (List ResPack) :=
  searchLoops true approx_vars Ptarget T

def entry (v : List AppPack) (i : ℕ) : ℚ := (v[i]?.map AppPack.prob).getD 0

theorem probAt_of_lt {v : List AppPack} {i : ℕ} (h : i < v.length) :
    probAt v i = .ok (entry v i) := by
  unfold probAt entry
  rw [List.getElem?_eq_getElem h]
  rfl

namespace Tables

variable (T : Tables) (x : IdxPack) (approx_vars : List (Row ℚ)) (Ptarget : ℚ)

def InRange : Prop :=
  x.L1_idx < T.sram_read_L1.length ∧ x.L2_idx < T.sram_read_L2.length ∧
    x.add_idx < T.approx_add.length ∧ x.mul_idx < T.approx_mul.length ∧
      x.dram_idx < T.dram_hold_time.length

/-- The probability that no operation on a variable fails. -/
def success (i j k l : ℕ) (v : Row ℚ) : ℚ :=
  entry T.sram_read_L1 i ^ v.L1_reads * entry T.sram_write_L1 i ^ v.L1_writes *
    entry T.sram_read_L2 j ^ v.L2_reads * entry T.sram_write_L2 j ^ v.L2_writes *
      entry T.approx_add k ^ v.add_cnt * entry T.approx_mul l ^ v.mul_cnt

def mean (i j k l : ℕ) : ℚ :=
  (approx_vars.map (T.success i j k l)).sum / approx_vars.length

/-- Some knob but that of the DRAM is below the target. -/
def Discards (i j k l : ℕ) : Prop :=
  entry T.sram_read_L1 i < Ptarget ∨ entry T.sram_read_L2 j < Ptarget ∨
    entry T.approx_add k < Ptarget ∨ entry T.approx_mul l < Ptarget

instance (i j k l : ℕ) : Decidable (T.Discards Ptarget i j k l) :=
  inferInstanceAs (Decidable (_ ∨ _ ∨ _ ∨ _))

/-- All five entries reach the target, and the mean is above it. -/
def Passes : Prop :=
  Ptarget ≤ entry T.sram_read_L1 x.L1_idx ∧ Ptarget ≤ entry T.sram_read_L2 x.L2_idx ∧
    Ptarget ≤ entry T.approx_add x.add_idx ∧ Ptarget ≤ entry T.approx_mul x.mul_idx ∧
      Ptarget ≤ entry T.dram_hold_time x.dram_idx ∧
        Ptarget < T.mean approx_vars x.L1_idx x.L2_idx x.add_idx x.mul_idx

instance : DecidablePred fun x => T.Passes x approx_vars Ptarget :=
  fun _ => inferInstanceAs (Decidable (_ ∧ _ ∧ _ ∧ _ ∧ _ ∧ _))

/-- All tuples of indices, from the first to the last. -/
def tuples : List IdxPack :=
  (List.range T.sram_read_L1.length).flatMap fun i =>
    (List.range T.sram_read_L2.length).flatMap fun j =>
      (List.range T.approx_add.length).flatMap fun k =>
        (List.range T.approx_mul.length).flatMap fun l =>
          (List.range T.dram_hold_time.length).map fun z => ⟨i, j, k, l, z⟩

def result : ResPack := ⟨T.mean approx_vars x.L1_idx x.L2_idx x.add_idx x.mul_idx, x⟩

/-- The write tables have entries where the read tables have. -/
def WritesCover : Prop :=
  T.sram_read_L1.length ≤ T.sram_write_L1.length ∧ T.sram_read_L2.length ≤ T.sram_write_L2.length

end Tables

section
variable {T : Tables} {approx_vars : List (Row ℚ)} {Ptarget : ℚ} {i j k l z : ℕ}

theorem meanLoop_eq (hT : T.WritesCover) (hi : i < T.sram_read_L1.length)
    (hj : j < T.sram_read_L2.length) (hk : k < T.approx_add.length) (hl : l < T.approx_mul.length) :
    meanLoop approx_vars T i j k l = .ok (T.mean approx_vars i j k l) := by
  have hfold : ∀ Pmean, approx_vars.foldl (fun Pmean v => Pmean + T.success i j k l v) Pmean =
      Pmean + (approx_vars.map (T.success i j k l)).sum := by
    induction approx_vars with
    | nil => exact fun Pmean => (add_zero Pmean).symm
    | cons v approx_vars ih =>
      intro Pmean
      rw [List.foldl_cons, ih, List.map_cons, List.sum_cons, add_assoc]
  unfold meanLoop
  dsimp only
  rw [forIn_fold (g := fun Pmean v => Pmean + T.success i j k l v), hfold, zero_add]
  · rfl
  · intro v _ Pmean
    simp only [probAt_of_lt hi, probAt_of_lt hj, probAt_of_lt hk, probAt_of_lt hl,
      probAt_of_lt (hi.trans_le hT.1), probAt_of_lt (hj.trans_le hT.2), ok_bind, mul_one]
    rfl

theorem searchLoops_eq (knobTests : Bool) (hT : T.WritesCover) :
    searchLoops knobTests approx_vars Ptarget T = .ok (
      (List.range T.sram_read_L1.length).flatMap fun i =>
        (List.range T.sram_read_L2.length).flatMap fun j =>
          (List.range T.approx_add.length).flatMap fun k =>
            (List.range T.approx_mul.length).flatMap fun l =>
              ((List.range T.dram_hold_time.length).takeWhile fun z =>
                !(knobTests && T.Discards Ptarget i j k l) &&
                  Ptarget ≤ entry T.dram_hold_time z).flatMap fun z =>
                if Ptarget < T.mean approx_vars i j k l then
                  [⟨T.mean approx_vars i j k l, ⟨i, j, k, l, z⟩⟩]
                else []) := by
  unfold searchLoops
  dsimp only
  refine bind_eq_ok.mpr ⟨_, forIn_append (fun i hi _ => ?_) [], rfl⟩
  refine forIn_turn (fun j hj _ => ?_) _
  refine forIn_turn (fun k hk _ => ?_) _
  refine forIn_turn (fun l hl _ => ?_) _
  refine bind_eq_ok.mpr ⟨_, forIn_break (fun z hz b => ?_) _, rfl⟩
  rw [List.mem_range] at hi hj hk hl hz
  simp only [probAt_of_lt hi, probAt_of_lt hj, probAt_of_lt hk, probAt_of_lt hl, probAt_of_lt hz,
    meanLoop_eq hT hi hj hk hl, ok_bind]
  have htest : ((knobTests && (decide (entry T.sram_read_L1 i < Ptarget) ||
      decide (entry T.sram_read_L2 j < Ptarget) || decide (entry T.approx_add k < Ptarget) ||
        decide (entry T.approx_mul l < Ptarget))) || decide (entry T.dram_hold_time z < Ptarget)) =
      !(!(knobTests && decide (T.Discards Ptarget i j k l)) &&
        decide (Ptarget ≤ entry T.dram_hold_time z)) := by
    rw [Bool.eq_iff_iff]
    simp only [Bool.or_eq_true, Bool.and_eq_true, decide_eq_true_eq, Bool.not_eq_true',
      Bool.and_eq_false_iff, Bool.not_eq_false', decide_eq_false_iff_not, not_le, or_assoc]
    exact Iff.rfl
  rw [htest]
  cases !(knobTests && decide (T.Discards Ptarget i j k l)) &&
      decide (Ptarget ≤ entry T.dram_hold_time z) with
  | false => rfl
  | true =>
    by_cases hmean : Ptarget < T.mean approx_vars i j k l
    · simp only [if_pos hmean]
      rfl
    · simp only [if_neg hmean, List.append_nil]
      rfl

theorem mem_tuples {x : IdxPack} : x ∈ T.tuples ↔ T.InRange x := by
  obtain ⟨i, j, k, l, z⟩ := x
  simp only [Tables.tuples, List.mem_flatMap, List.mem_map, List.mem_range, IdxPack.mk.injEq]
  constructor
  · intro h
    obtain ⟨i, hi, j, hj, k, hk, l, hl, z, hz, rfl, rfl, rfl, rfl, rfl⟩ := h
    exact ⟨hi, hj, hk, hl, hz⟩
  · intro h
    obtain ⟨hi, hj, hk, hl, hz⟩ := h
    exact ⟨i, hi, j, hj, k, hk, l, hl, z, hz, rfl, rfl, rfl, rfl, rfl⟩

/-- The tuples are in the lexicographic order of their indices, and none is there twice. -/
theorem pairwise_tuples (T : Tables) : T.tuples.Pairwise fun x y => x.indices < y.indices := by
  have hmap : T.tuples.map IdxPack.indices = indices [T.sram_read_L1.length, T.sram_read_L2.length,
      T.approx_add.length, T.approx_mul.length, T.dram_hold_time.length] := by
    simp only [Tables.tuples, indices, List.map_flatMap, List.map_map, List.map_cons, List.map_nil,
      ← List.map_eq_flatMap]
    rfl
  have hlex := pairwise_indices [T.sram_read_L1.length, T.sram_read_L2.length,
    T.approx_add.length, T.approx_mul.length, T.dram_hold_time.length]
  rw [← hmap, List.pairwise_map] at hlex
  exact hlex

theorem not_discards : ¬T.Discards Ptarget i j k l ↔ Ptarget ≤ entry T.sram_read_L1 i ∧
    Ptarget ≤ entry T.sram_read_L2 j ∧ Ptarget ≤ entry T.approx_add k ∧
      Ptarget ≤ entry T.approx_mul l := by
  simp only [Tables.Discards, not_or, not_lt]

theorem decide_passes (x : IdxPack) : decide (T.Passes x approx_vars Ptarget) =
    (!(true && decide (T.Discards Ptarget x.L1_idx x.L2_idx x.add_idx x.mul_idx)) &&
      decide (Ptarget ≤ entry T.dram_hold_time x.dram_idx) &&
        decide (Ptarget < T.mean approx_vars x.L1_idx x.L2_idx x.add_idx x.mul_idx)) := by
  rw [Bool.eq_iff_iff]
  simp only [Bool.true_and, Bool.and_eq_true, Bool.not_eq_true', decide_eq_true_eq,
    decide_eq_false_iff_not, not_discards, and_assoc]
  exact Iff.rfl

/-- In a table that does not increase, the entries from the target on come first. -/
theorem takeWhile_entry {v : List AppPack} (h : v.Pairwise fun p q => q.prob ≤ p.prob)
    (Ptarget : ℚ) (goOn : Bool) :
    ((List.range v.length).takeWhile fun z => goOn && decide (Ptarget ≤ entry v z)) =
      (List.range v.length).filter fun z => goOn && decide (Ptarget ≤ entry v z) := by
  refine takeWhile_eq_filter (List.pairwise_lt_range.imp_of_mem fun {x y} hx hy hxy hpy => ?_)
  rw [List.mem_range] at hx hy
  simp only [Bool.and_eq_true, decide_eq_true_eq] at hpy ⊢
  have hle := List.pairwise_iff_getElem.mp h x y hx hy hxy
  refine ⟨hpy.1, hpy.2.trans ?_⟩
  simpa [entry, hx, hy] using hle

end

/-- The search returns the tuples that pass its tests, in lexicographic order and each once. -/
theorem search_eq_filter (approx_vars : List (Row ℚ)) (Ptarget : ℚ) (T : Tables)
    (hT : T.WritesCover) (hdram : T.dram_hold_time.Pairwise fun p q => q.prob ≤ p.prob) :
    search approx_vars Ptarget T =
        .ok ((T.tuples.filter (T.Passes · approx_vars Ptarget)).map (T.result · approx_vars)) ∧
      T.tuples.Pairwise (fun x y => x.indices < y.indices) ∧
        ∀ x, x ∈ T.tuples ↔ T.InRange x := by
  refine ⟨?_, pairwise_tuples T, fun x => mem_tuples⟩
  unfold search
  rw [searchLoops_eq true hT]
  simp only [takeWhile_entry hdram, filter_flatMap_ite, Tables.tuples, List.filter_flatMap,
    List.map_flatMap, List.filter_map, List.map_map, Function.comp_def, decide_passes]
  rfl

/-- Two entries in the tables of the additions and of the DRAM, of which the second are pruned. -/
def twoEntries : Tables where
  sram_read_L1 := [⟨0, 1⟩]
  sram_write_L1 := [⟨0, 1⟩]
  sram_read_L2 := [⟨0, 1⟩]
  sram_write_L2 := [⟨0, 1⟩]
  approx_add := [⟨0, 1⟩, ⟨1, 1 / 2⟩]
  approx_mul := [⟨0, 1⟩]
  dram_hold_time := [⟨1, 1⟩, ⟨2, 1 / 2⟩]

theorem search_eq_filter_twoEntries : ∃ final_res,
    search [⟨0, 1, 1, 1, 1, 0, 1, 1⟩] (3 / 4) twoEntries = .ok final_res ∧
      final_res.map (·.idxes.indices) = [[0, 0, 0, 0, 0]] := by
  refine ⟨_, (search_eq_filter [⟨0, 1, 1, 1, 1, 0, 1, 1⟩] (3 / 4) twoEntries
    ⟨by decide, by decide⟩ (by norm_num [twoEntries])).1, ?_⟩
  decide +kernel

/-- The operations of which the tables of the knobs are tested. -/
inductive KnobOp where
  | L1_reads | L2_reads | add_cnt | mul_cnt
deriving DecidableEq

def KnobOp.count (v : Row ℚ) : KnobOp → ℕ
  | .L1_reads => v.L1_reads
  | .L2_reads => v.L2_reads
  | .add_cnt => v.add_cnt
  | .mul_cnt => v.mul_cnt

/-- The mean of the probabilities that the operations of one kind do not fail, when each of them
does not with probability `p`. -/
def KnobOp.meanPow (approx_vars : List (Row ℚ)) (op : KnobOp) (p : ℚ) : ℚ :=
  (approx_vars.map fun v => p ^ op.count v).sum / approx_vars.length

namespace Tables

variable (T : Tables)

def knob (i j k l : ℕ) : KnobOp → ℚ
  | .L1_reads => entry T.sram_read_L1 i
  | .L2_reads => entry T.sram_read_L2 j
  | .add_cnt => entry T.approx_add k
  | .mul_cnt => entry T.approx_mul l

/-- The entries are probabilities, and the write tables are long enough. -/
structure Proper : Prop where
  covers : T.WritesCover
  unit : ∀ v ∈ [T.sram_read_L1, T.sram_write_L1, T.sram_read_L2, T.sram_write_L2, T.approx_add,
    T.approx_mul, T.dram_hold_time], ∀ p ∈ v, 0 ≤ p.prob ∧ p.prob ≤ 1

/-- No tuple that a knob discards has a mean above the target, and the search without the tests of
the knobs returns the same. -/
structure Lossless (approx_vars : List (Row ℚ)) (Ptarget : ℚ) : Prop where
  mean_le : ∀ x, T.InRange x → T.Discards Ptarget x.L1_idx x.L2_idx x.add_idx x.mul_idx →
    T.mean approx_vars x.L1_idx x.L2_idx x.add_idx x.mul_idx ≤ Ptarget
  search_eq : search approx_vars Ptarget T = searchLoops false approx_vars Ptarget T

/-- Entry `k` is the largest of those with the property. -/
def Largest (v : List AppPack) (P : ℚ → Prop) (k : ℕ) : Prop :=
  k < v.length ∧ P (entry v k) ∧ ∀ k' < v.length, P (entry v k') → entry v k' ≤ entry v k

/-- A tuple that a knob discards, with the largest entries for the adder and the multiplier: of all
entries, or of those below the target for the one that discards it. -/
def MostProbable (Ptarget : ℚ) (i j k l : ℕ) : Prop :=
  (entry T.sram_read_L1 i < Ptarget ∨ entry T.sram_read_L2 j < Ptarget) ∧
      Largest T.approx_add (fun _ => True) k ∧ Largest T.approx_mul (fun _ => True) l ∨
    Largest T.approx_add (· < Ptarget) k ∧ Largest T.approx_mul (fun _ => True) l ∨
    Largest T.approx_add (fun _ => True) k ∧ Largest T.approx_mul (· < Ptarget) l

/-- One entry in each table. -/
def single (p : KnobOp → ℚ) : Tables where
  sram_read_L1 := [⟨0, p .L1_reads⟩]
  sram_write_L1 := [⟨0, 1⟩]
  sram_read_L2 := [⟨0, p .L2_reads⟩]
  sram_write_L2 := [⟨0, 1⟩]
  approx_add := [⟨0, p .add_cnt⟩]
  approx_mul := [⟨0, p .mul_cnt⟩]
  dram_hold_time := [⟨1, 1⟩]

variable {T} {i j k l : ℕ} {approx_vars : List (Row ℚ)} {Ptarget : ℚ}

theorem discards_iff : T.Discards Ptarget i j k l ↔ ∃ op, T.knob i j k l op < Ptarget := by
  constructor
  · rintro (h | h | h | h)
    · exact ⟨.L1_reads, h⟩
    · exact ⟨.L2_reads, h⟩
    · exact ⟨.add_cnt, h⟩
    · exact ⟨.mul_cnt, h⟩
  · intro h'
    obtain ⟨op, h⟩ := h'
    cases op with
    | L1_reads => exact .inl h
    | L2_reads => exact .inr (.inl h)
    | add_cnt => exact .inr (.inr (.inl h))
    | mul_cnt => exact .inr (.inr (.inr h))

theorem entry_unit {v : List AppPack} (h : ∀ p ∈ v, 0 ≤ p.prob ∧ p.prob ≤ 1) (i : ℕ) :
    0 ≤ entry v i ∧ entry v i ≤ 1 := by
  unfold entry
  cases hi : v[i]? with
  | none => exact ⟨le_rfl, zero_le_one⟩
  | some p => exact h p (List.mem_of_getElem? hi)

/-- A product of numbers of the unit interval is at most each of them. -/
theorem prod_le {q : List ℚ} (h : ∀ x ∈ q, 0 ≤ x ∧ x ≤ 1) :
    (0 ≤ q.prod ∧ q.prod ≤ 1) ∧ ∀ x ∈ q, q.prod ≤ x := by
  induction q with
  | nil => exact ⟨⟨zero_le_one, le_rfl⟩, fun x hx => by cases hx⟩
  | cons y q ih =>
    obtain ⟨⟨hpos, hone⟩, hle⟩ := ih fun x hx => h x (List.mem_cons_of_mem y hx)
    obtain ⟨hy, hy'⟩ := h y (List.mem_cons_self ..)
    rw [List.prod_cons]
    refine ⟨⟨mul_nonneg hy hpos, mul_le_one₀ hy' hpos hone⟩, fun x hx => ?_⟩
    rcases List.mem_cons.mp hx with rfl | hx
    · exact mul_le_of_le_one_right hy hone
    · exact (mul_le_of_le_one_left hpos hy').trans (hle x hx)

/-- No variable is more probable to be without a failure than its operations of one kind. -/
theorem success_le (hT : T.Proper) (v : Row ℚ) (op : KnobOp) :
    T.success i j k l v ≤ T.knob i j k l op ^ op.count v := by
  have hpow : ∀ w ∈ [T.sram_read_L1, T.sram_write_L1, T.sram_read_L2, T.sram_write_L2,
      T.approx_add, T.approx_mul, T.dram_hold_time], ∀ i n,
      0 ≤ entry w i ^ n ∧ entry w i ^ n ≤ 1 := by
    intro w hw i n
    obtain ⟨hpos, hone⟩ := entry_unit (hT.unit w hw) i
    exact ⟨pow_nonneg hpos n, pow_le_one₀ hpos hone⟩
  have hprod : T.success i j k l v = [entry T.sram_read_L1 i ^ v.L1_reads,
      entry T.sram_write_L1 i ^ v.L1_writes, entry T.sram_read_L2 j ^ v.L2_reads,
      entry T.sram_write_L2 j ^ v.L2_writes, entry T.approx_add k ^ v.add_cnt,
      entry T.approx_mul l ^ v.mul_cnt].prod := by
    simp only [success, List.prod_cons, List.prod_nil, mul_one, mul_assoc]
  rw [hprod]
  refine (prod_le ?_).2 _ ?_
  · intro x hx
    simp only [List.mem_cons, List.not_mem_nil, or_false] at hx
    rcases hx with rfl | rfl | rfl | rfl | rfl | rfl <;> exact hpow _ (by simp) _ _
  · cases op <;> simp [knob, KnobOp.count]

/-- A tuple that a knob discards adds nothing to the result without the test either. -/
theorem search_eq_of_mean_le (hT : T.WritesCover)
    (h : ∀ x, T.InRange x → T.Discards Ptarget x.L1_idx x.L2_idx x.add_idx x.mul_idx →
      T.mean approx_vars x.L1_idx x.L2_idx x.add_idx x.mul_idx ≤ Ptarget) :
    search approx_vars Ptarget T = searchLoops false approx_vars Ptarget T := by
  unfold search
  rw [searchLoops_eq true hT, searchLoops_eq false hT]
  congr 1
  refine List.flatMap_congr fun i hi => List.flatMap_congr fun j hj =>
    List.flatMap_congr fun k hk =>
    List.flatMap_congr fun l hl => ?_
  rw [List.mem_range] at hi hj hk hl
  by_cases hdis : T.Discards Ptarget i j k l
  · have hnone : ∀ p : ℕ → Bool, (((List.range T.dram_hold_time.length).takeWhile p).flatMap
        fun z => if Ptarget < T.mean approx_vars i j k l then
          [(⟨T.mean approx_vars i j k l, ⟨i, j, k, l, z⟩⟩ : ResPack)] else []) = [] := by
      intro p
      refine List.flatMap_eq_nil_iff.mpr fun z hz => if_neg ?_
      have hrange := List.mem_range.mp ((List.takeWhile_sublist p).subset hz)
      exact not_lt.mpr (h ⟨i, j, k, l, z⟩ ⟨hi, hj, hk, hl, hrange⟩ hdis)
    rw [hnone, hnone]
  · simp only [decide_eq_false hdis, Bool.and_false]

theorem exists_largest {v : List AppPack} {P : ℚ → Prop} {k : ℕ} (hk : k < v.length)
    (hP : P (entry v k)) : ∃ k', Largest v P k' ∧ entry v k ≤ entry v k' := by
  classical
  obtain ⟨k', hmem, hmax⟩ := Finset.exists_max_image
    ((Finset.range v.length).filter fun k => P (entry v k)) (entry v)
    ⟨k, Finset.mem_filter.mpr ⟨Finset.mem_range.mpr hk, hP⟩⟩
  rw [Finset.mem_filter, Finset.mem_range] at hmem
  have hle : ∀ k'' < v.length, P (entry v k'') → entry v k'' ≤ entry v k' := fun k'' hk'' hP'' =>
    hmax k'' (Finset.mem_filter.mpr ⟨Finset.mem_range.mpr hk'', hP''⟩)
  exact ⟨k', ⟨hmem.1, hmem.2, hle⟩, hle k hk hP⟩

/-- Larger entries for the adder and the multiplier give a mean no smaller. -/
theorem mean_mono (hT : T.Proper) {k' l' : ℕ} (hk : entry T.approx_add k ≤ entry T.approx_add k')
    (hl : entry T.approx_mul l ≤ entry T.approx_mul l') :
    T.mean approx_vars i j k l ≤ T.mean approx_vars i j k' l' := by
  have hunit : ∀ v ∈ [T.sram_read_L1, T.sram_write_L1, T.sram_read_L2, T.sram_write_L2,
      T.approx_add, T.approx_mul, T.dram_hold_time], ∀ i, 0 ≤ entry v i :=
    fun v hv i => (entry_unit (hT.unit v hv) i).1
  have hread₁ := hunit T.sram_read_L1 (by simp) i
  have hwrite₁ := hunit T.sram_write_L1 (by simp) i
  have hread₂ := hunit T.sram_read_L2 (by simp) j
  have hwrite₂ := hunit T.sram_write_L2 (by simp) j
  have hadd := hunit T.approx_add (by simp) k
  have hadd' := hunit T.approx_add (by simp) k'
  have hmul := hunit T.approx_mul (by simp) l
  unfold mean success
  refine div_le_div_of_nonneg_right (List.sum_le_sum fun v _ => ?_) (Nat.cast_nonneg _)
  gcongr

/-- The most probable of the discarded tuples decide whether one of them has a mean above the
target. -/
theorem lossless_iff (hT : T.Proper) : T.Lossless approx_vars Ptarget ↔
    (T.dram_hold_time ≠ [] → ∀ i < T.sram_read_L1.length, ∀ j < T.sram_read_L2.length, ∀ k l,
      T.MostProbable Ptarget i j k l → T.mean approx_vars i j k l ≤ Ptarget) := by
  constructor
  · intro h hdram i hi j hj k l hmost
    have hz := List.length_pos_of_ne_nil hdram
    rcases hmost with ⟨hread, hk, hl⟩ | ⟨hk, hl⟩ | ⟨hk, hl⟩
    · apply h.mean_le ⟨i, j, k, l, 0⟩ ⟨hi, hj, hk.1, hl.1, hz⟩
      exact hread.imp_right Or.inl
    · exact h.mean_le ⟨i, j, k, l, 0⟩ ⟨hi, hj, hk.1, hl.1, hz⟩ (.inr (.inr (.inl hk.2.1)))
    · exact h.mean_le ⟨i, j, k, l, 0⟩ ⟨hi, hj, hk.1, hl.1, hz⟩ (.inr (.inr (.inr hl.2.1)))
  · intro h
    have hmean : ∀ x, T.InRange x → T.Discards Ptarget x.L1_idx x.L2_idx x.add_idx x.mul_idx →
        T.mean approx_vars x.L1_idx x.L2_idx x.add_idx x.mul_idx ≤ Ptarget := by
      intro x hx hdis
      obtain ⟨hi, hj, hk, hl, hz⟩ := hx
      have hmost := h (List.ne_nil_of_length_pos (by omega)) x.L1_idx hi x.L2_idx hj
      obtain ⟨k, hkmax, hkle⟩ := exists_largest (P := fun _ => True) hk trivial
      obtain ⟨l, hlmax, hlle⟩ := exists_largest (P := fun _ => True) hl trivial
      rcases hdis with hread | hread | hadd | hmul
      · exact (mean_mono hT hkle hlle).trans (hmost k l (.inl ⟨.inl hread, hkmax, hlmax⟩))
      · exact (mean_mono hT hkle hlle).trans (hmost k l (.inl ⟨.inr hread, hkmax, hlmax⟩))
      · obtain ⟨k', hkmax', hkle'⟩ := exists_largest (P := (· < Ptarget)) hk hadd
        exact (mean_mono hT hkle' hlle).trans (hmost k' l (.inr (.inl ⟨hkmax', hlmax⟩)))
      · obtain ⟨l', hlmax', hlle'⟩ := exists_largest (P := (· < Ptarget)) hl hmul
        exact (mean_mono hT hkle hlle').trans (hmost k l' (.inr (.inr ⟨hkmax, hlmax'⟩)))
    exact ⟨hmean, search_eq_of_mean_le hT.covers hmean⟩

/-- Where the mean for the operations of each kind is no more than the target at the target, no
tuple is lost. -/
theorem lossless_of_meanPow (hT : T.Proper)
    (h : ∀ op : KnobOp, op.meanPow approx_vars Ptarget ≤ Ptarget) :
    T.Lossless approx_vars Ptarget := by
  have hmean : ∀ x, T.InRange x → T.Discards Ptarget x.L1_idx x.L2_idx x.add_idx x.mul_idx →
      T.mean approx_vars x.L1_idx x.L2_idx x.add_idx x.mul_idx ≤ Ptarget := by
    intro x _ hdis
    obtain ⟨op, hop⟩ := discards_iff.mp hdis
    have hknob : 0 ≤ T.knob x.L1_idx x.L2_idx x.add_idx x.mul_idx op := by
      cases op <;> exact (entry_unit (hT.unit _ (by simp)) _).1
    refine le_trans ?_ (h op)
    unfold mean KnobOp.meanPow
    refine div_le_div_of_nonneg_right (List.sum_le_sum fun v _ => ?_) (Nat.cast_nonneg _)
    exact (success_le hT v op).trans (pow_le_pow_left₀ hknob hop.le _)
  exact ⟨hmean, search_eq_of_mean_le hT.covers hmean⟩

theorem ite_unit {q : ℚ} (hpos : 0 ≤ q) (hone : q ≤ 1) (op o : KnobOp) :
    0 ≤ (if o = op then q else 1) ∧ (if o = op then q else 1) ≤ 1 := by
  split
  · exact ⟨hpos, hone⟩
  · exact ⟨zero_le_one, le_rfl⟩

theorem single_proper {p : KnobOp → ℚ} (hp : ∀ op, 0 ≤ p op ∧ p op ≤ 1) : (single p).Proper := by
  refine ⟨⟨le_rfl, le_rfl⟩, ?_⟩
  intro v hv q hq
  simp only [single, List.mem_cons, List.not_mem_nil, or_false] at hv
  rcases hv with rfl | rfl | rfl | rfl | rfl | rfl | rfl <;>
    obtain rfl := List.mem_singleton.mp hq <;> first | exact hp _ | norm_num

/-- With only one table that is not all ones, the mean is that of its operations. -/
theorem mean_single (op : KnobOp) (q : ℚ) :
    (single fun o => if o = op then q else 1).mean approx_vars 0 0 0 0 =
      op.meanPow approx_vars q := by
  have hsuccess : (single fun o => if o = op then q else 1).success 0 0 0 0 =
      fun v => q ^ op.count v := by
    funext v
    cases op <;> simp [success, single, entry, KnobOp.count]
  unfold mean KnobOp.meanPow
  rw [hsuccess]

end Tables

theorem KnobOp.continuous_meanPow (approx_vars : List (Row ℚ)) (op : KnobOp) :
    Continuous (op.meanPow approx_vars) :=
  (continuous_list_sum approx_vars fun _ _ => continuous_pow _).div_const _

/-- For one target the search without the tests of the knobs returns the same, whatever the tables,
exactly when the mean for the operations of each kind is no more than the target at the target. -/
theorem forall_lossless_iff {approx_vars : List (Row ℚ)} {Ptarget : ℚ} (hpos : 0 < Ptarget)
    (hone : Ptarget < 1) : (∀ T : Tables, T.Proper → T.Lossless approx_vars Ptarget) ↔
      ∀ op : KnobOp, op.meanPow approx_vars Ptarget ≤ Ptarget := by
  refine ⟨fun h op => ?_, fun h T hT => Tables.lossless_of_meanPow hT h⟩
  by_contra hgt
  -- an entry that is only just below the target still has a mean above it
  have hnear := ((op.continuous_meanPow approx_vars).tendsto Ptarget).eventually
    (lt_mem_nhds (not_le.mp hgt))
  obtain ⟨q, hq, hq0, hqt⟩ := ((hnear.filter_mono nhdsWithin_le_nhds).and
    (Ioo_mem_nhdsLT hpos)).exists
  have hproper := Tables.single_proper (Tables.ite_unit hq0.le (hqt.trans hone).le op)
  have hle := (h _ hproper).mean_le ⟨0, 0, 0, 0, 0⟩
    ⟨one_pos, one_pos, one_pos, one_pos, one_pos⟩
    (Tables.discards_iff.mpr
      ⟨op, by cases op <;> simpa [Tables.knob, Tables.single, entry] using hqt⟩)
  rw [Tables.mean_single] at hle
  exact absurd hq (not_lt.mpr hle)

/-- The condition holds for all targets exactly when every variable has operations of each kind: a
variable without them keeps the mean at one over the number of variables or above. -/
theorem forall_meanPow_le_iff {approx_vars : List (Row ℚ)} :
    (∀ Ptarget : ℚ, 0 < Ptarget → Ptarget < 1 → ∀ op : KnobOp,
      op.meanPow approx_vars Ptarget ≤ Ptarget) ↔
    ∀ v ∈ approx_vars, ∀ op : KnobOp, op.count v ≠ 0 := by
  constructor
  · intro h v hv op hzero
    have hlen : (1 : ℚ) ≤ approx_vars.length := by
      exact_mod_cast List.length_pos_of_mem hv
    have htarget : (0 : ℚ) < 1 / (2 * approx_vars.length) := by positivity
    have hle := h (1 / (2 * approx_vars.length)) htarget (by
      rw [div_lt_one (by linarith)]
      linarith) op
    have hsum : 1 ≤ (approx_vars.map fun v =>
      (1 / (2 * approx_vars.length : ℚ)) ^ op.count v).sum := by
      refine List.single_le_sum (fun x hx => ?_) 1
        (List.mem_map.mpr ⟨v, hv, by rw [hzero, pow_zero]⟩)
      obtain ⟨w, -, rfl⟩ := List.mem_map.mp hx
      exact pow_nonneg htarget.le _
    unfold KnobOp.meanPow at hle
    rw [div_le_iff₀ (by linarith)] at hle
    have hhalf : 1 / (2 * approx_vars.length : ℚ) * approx_vars.length = 1 / 2 := by
      field_simp
    linarith
  · intro h Ptarget hpos hone op
    unfold KnobOp.meanPow
    refine div_le_of_le_mul₀ (Nat.cast_nonneg _) hpos.le ?_
    have hterm : ∀ x ∈ approx_vars.map fun v => Ptarget ^ op.count v, x ≤ Ptarget := by
      intro x hx
      obtain ⟨v, hv, rfl⟩ := List.mem_map.mp hx
      exact pow_le_of_le_one hpos.le hone.le (h v hv op)
    have hsum := List.sum_le_card_nsmul _ Ptarget hterm
    rwa [List.length_map, nsmul_eq_mul, mul_comm] at hsum

/-- With which tables, for which targets, and for which variables, the tests of the knobs lose no
tuple. -/
theorem pruning_lossless_iff (approx_vars : List (Row ℚ)) :
    (∀ (Ptarget : ℚ) (T : Tables), T.Proper → (T.Lossless approx_vars Ptarget ↔
      (T.dram_hold_time ≠ [] → ∀ i < T.sram_read_L1.length, ∀ j < T.sram_read_L2.length, ∀ k l,
        T.MostProbable Ptarget i j k l → T.mean approx_vars i j k l ≤ Ptarget))) ∧
    (∀ Ptarget : ℚ, 0 < Ptarget → Ptarget < 1 →
      ((∀ T : Tables, T.Proper → T.Lossless approx_vars Ptarget) ↔
        ∀ op : KnobOp, op.meanPow approx_vars Ptarget ≤ Ptarget)) ∧
    ((∀ Ptarget : ℚ, 0 < Ptarget → Ptarget < 1 → ∀ T : Tables, T.Proper →
      T.Lossless approx_vars Ptarget) ↔ ∀ v ∈ approx_vars, ∀ op : KnobOp, op.count v ≠ 0) := by
  refine ⟨fun Ptarget T hT => Tables.lossless_iff hT,
    fun Ptarget hpos hone => forall_lossless_iff hpos hone, ?_⟩
  rw [← forall_meanPow_le_iff]
  exact forall_congr' fun Ptarget => forall_congr' fun hpos => forall_congr' fun hone =>
    forall_lossless_iff hpos hone

/-- A variable that is only written to, in a cache that fails in every read. -/
theorem pruning_loses_unread : ∃ T : Tables, T.Proper ∧
    search [⟨0, 0, 1, 0, 0, 0, 0, 0⟩] (1 / 2) T = .ok [] ∧
    searchLoops false [⟨0, 0, 1, 0, 0, 0, 0, 0⟩] (1 / 2) T = .ok [⟨1, ⟨0, 0, 0, 0, 0⟩⟩] ∧
    ¬T.Lossless [⟨0, 0, 1, 0, 0, 0, 0, 0⟩] (1 / 2) := by
  have hpruned : search [⟨0, 0, 1, 0, 0, 0, 0, 0⟩] (1 / 2)
      (.single fun o => if o = .L1_reads then 0 else 1) = .ok [] := by
    decide +kernel
  have hfull : searchLoops false [⟨0, 0, 1, 0, 0, 0, 0, 0⟩] (1 / 2)
      (.single fun o => if o = .L1_reads then 0 else 1) = .ok [⟨1, ⟨0, 0, 0, 0, 0⟩⟩] := by
    decide +kernel
  refine ⟨_, Tables.single_proper (Tables.ite_unit le_rfl zero_le_one .L1_reads), hpruned, hfull,
    fun h => ?_⟩
  have hsame := h.search_eq
  rw [hpruned, hfull] at hsame
  cases hsame

end ProbabilityAnalysis
end Sniper
