import Mathlib.Data.Nat.Dist
import Sniper.Accounting

namespace Sniper
namespace AppVar

/-- The part of an entry that is not about lifetimes. -/
def counts (v : AppVar) : ℕ × (Counter → ℤ) × (Counter → ℤ) := (v.set_num, v.footprint, v.poten)

theorem counts_raise (v : AppVar) (inter : ℕ) : (v.raise inter).counts = v.counts := by
  unfold raise
  split <;> rfl

theorem counts_settle (v : AppVar) (RW : Bool) : (v.settle RW).counts = v.counts := by
  unfold settle
  split
  · rfl
  · split <;> rfl

end AppVar

namespace MagicServer

variable {m : MagicServer} {RW realend : Bool} {address block_size n i a b : ℕ}
  {vars : SortedMap ℕ AppVar}

section walk

variable (hwrap : address + block_size < 2 ^ 64)
include hwrap

/-- Once past the block, the walk changes nothing. -/
theorem settleBlock_past : ∀ {n i : ℕ} {it : Option ℕ},
    (∀ a, it = some a → address + block_size ≤ a) →
    settleBlock RW address block_size n i it true vars = vars := by
  intro n
  induction n with
  | zero => exact fun _ => rfl
  | succ n ih =>
    intro i it hit
    cases it with
    | none => exact if_pos rfl
    | some a =>
      have ha := hit a rfl
      unfold settleBlock
      rw [Nat.mod_eq_of_lt hwrap, if_neg (by omega)]
      refine ih fun a' ha' => ?_
      have := (vars.next_eq_some ha').2.1
      omega

/-- From a registered byte of the block the walk reaches all that come after it. -/
theorem find_settleBlock_walk (b : ℕ) : ∀ {n i a : ℕ} {realend : Bool} {vars : SortedMap ℕ AppVar},
    a ∈ vars.keys → address ≤ a → a < address + block_size → address + block_size ≤ a + n →
    (settleBlock RW address block_size n i (some a) realend vars).find b =
      if a ≤ b ∧ b < address + block_size then (vars.find b).map fun v => v.settle RW
      else vars.find b := by
  intro n
  induction n with
  | zero => exact fun _ _ _ _ => by omega
  | succ n ih =>
    intro i a realend vars hmem h1 h2 hn
    unfold settleBlock
    rw [Nat.mod_eq_of_lt hwrap, if_pos ⟨h1, h2⟩]
    generalize hvars : vars.modify a (fun v => v.settle RW) = vars'
    have hkeys : vars'.keys = vars.keys := by rw [← hvars, SortedMap.keys_modify]
    have hself : vars'.find a = (vars.find a).map fun v => v.settle RW := by
      rw [← hvars, SortedMap.find_modify_self]
    have hother : ∀ c, c ≠ a → vars'.find c = vars.find c := by
      intro c hc
      rw [← hvars, SortedMap.find_modify_of_ne _ hc]
    -- the bytes between `a` and the next entry are not registered
    have hdone : (∀ c ∈ vars.keys, a < c → address + block_size ≤ c) → vars'.find b =
        if a ≤ b ∧ b < address + block_size then (vars.find b).map fun v => v.settle RW
        else vars.find b := by
      intro hlast
      by_cases hb : b = a
      · rw [hb, hself, if_pos ⟨le_rfl, h2⟩]
      · rw [hother b hb]
        split
        · rename_i hin
          rw [vars.find_of_notMem fun hc => absurd (hlast b hc (by omega)) (by omega)]
          rfl
        · rfl
    cases hnext : vars.next a with
    | none =>
      rw [settleBlock_past hwrap fun _ h => by cases h]
      refine hdone fun c hc hac => ?_
      have := vars.next_eq_none.mp hnext c hc
      omega
    | some a' =>
      obtain ⟨hmem', hlt, hleast⟩ := vars.next_eq_some hnext
      by_cases ha' : a' < address + block_size
      · rw [ih (by rwa [hkeys]) (by omega) ha' (by omega)]
        by_cases hb : b = a
        · rw [hb, hself, if_neg (by omega), if_pos ⟨le_rfl, h2⟩]
        · rw [hother b hb]
          by_cases hin : a ≤ b ∧ b < address + block_size
          · by_cases hb' : a' ≤ b
            · rw [if_pos ⟨hb', hin.2⟩, if_pos hin]
            · rw [if_neg (by omega), if_pos hin,
                vars.find_of_notMem fun hc => hb' (hleast b hc (by omega))]
              rfl
          · rw [if_neg (by omega), if_neg hin]
      · rw [settleBlock_past hwrap fun c hc => by cases hc; omega]
        refine hdone fun c hc hac => ?_
        have := hleast c hc hac
        omega

/-- Before it has found a registered byte the walk looks one byte further in each turn. -/
theorem find_settleBlock_search (b : ℕ) : ∀ {n i : ℕ}, i + n = block_size + 1 →
    (∀ c, address ≤ c → c < address + i → c ∉ vars.keys) →
    (settleBlock RW address block_size n i none false vars).find b =
      if address ≤ b ∧ b < address + block_size then (vars.find b).map fun v => v.settle RW
      else vars.find b := by
  intro n
  induction n with
  | zero =>
    intro i hi hno
    refine (ite_eq_right_iff.mpr fun hin => ?_).symm
    have hb := vars.find_of_notMem (hno b hin.1 (by omega))
    rw [hb]
    exact hb.symm
  | succ n ih =>
    intro i hi hno
    unfold settleBlock
    rw [if_neg (by decide), Nat.mod_eq_of_lt (by omega)]
    by_cases hmem : address + i ∈ vars.keys
    · rw [SortedMap.iter, if_pos hmem]
      by_cases hlast : i < block_size
      · rw [find_settleBlock_walk hwrap b hmem (by omega) (by omega) (by omega)]
        by_cases hin : address ≤ b ∧ b < address + block_size
        · rw [if_pos hin]
          split
          · rfl
          · rw [vars.find_of_notMem (hno b hin.1 (by omega))]
            rfl
        · rw [if_neg hin, if_neg (by omega)]
      · obtain rfl : n = 0 := by omega
        refine (ite_eq_right_iff.mpr fun hin => ?_).symm
        have hb := vars.find_of_notMem (hno b hin.1 (by omega))
        rw [hb]
        exact hb.symm
    · rw [SortedMap.iter, if_neg hmem]
      refine ih (by omega) fun c h1 h2 => ?_
      by_cases hc : c = address + i
      · rwa [hc]
      · exact hno c h1 (by omega)

/-- The walk settles the registered bytes of the block. -/
theorem find_settleAccess (b : ℕ) : (m.settleAccess RW address block_size).approx_vars.find b =
    if address ≤ b ∧ b < address + block_size then (m.approx_vars.find b).map fun v => v.settle RW
    else m.approx_vars.find b := by
  change (settleBlock RW address block_size (block_size + 1) 0 (m.approx_vars.iter address) false
    m.approx_vars).find b = _
  by_cases hmem : address ∈ m.approx_vars.keys
  · rw [SortedMap.iter, if_pos hmem]
    by_cases hpos : 0 < block_size
    · exact find_settleBlock_walk hwrap b hmem le_rfl (by omega) (by omega)
    · obtain rfl : block_size = 0 := by omega
      rw [if_neg (by omega)]
      unfold settleBlock
      rw [Nat.mod_eq_of_lt hwrap, if_neg (by omega)]
      rfl
  · rw [SortedMap.iter, if_neg hmem]
    exact find_settleBlock_search hwrap b (by omega) fun c h1 h2 => by omega

end walk

/-- The page of an address comes before the last one. -/
def PageFits (address : ℕ) : Prop := (address / PAGE_SIZE + 1) * PAGE_SIZE < 2 ^ 64

instance (address : ℕ) : Decidable (PageFits address) := inferInstanceAs (Decidable (_ < _))

theorem find_raisePage (hpage : PageFits address) (inter b : ℕ) :
    (m.raisePage address inter).approx_vars.find b =
    if b / PAGE_SIZE = address / PAGE_SIZE then (m.approx_vars.find b).map fun v => v.raise inter
    else m.approx_vars.find b := by
  unfold raisePage withVars
  rw [SortedMap.find_modifyRange, Nat.mod_eq_of_lt hpage]
  refine if_congr ?_ rfl rfl
  unfold PAGE_SIZE
  omega

theorem mem_raisePage (inter : ℕ) :
    b ∈ (m.raisePage address inter).approx_vars.keys ↔ b ∈ m.approx_vars.keys := by
  unfold raisePage withVars
  rw [SortedMap.keys_modifyRange]

/-- What an access makes of the lifetimes of a registered byte. -/
theorem find_updateLiftime (hwrap : address + block_size < 2 ^ 64) (hpage : PageFits address)
    (now lpacc b : ℕ) :
    (m.updateLiftime address now lpacc RW block_size).1.approx_vars.find b =
      (m.approx_vars.find b).map fun v =>
        let v := if b / PAGE_SIZE = address / PAGE_SIZE then v.raise (Nat.dist now lpacc) else v
        if address ≤ b ∧ b < address + block_size then v.settle RW else v := by
  have hinter : (if lpacc ≤ now then now - lpacc else lpacc - now) = Nat.dist now lpacc := by
    unfold Nat.dist
    split <;> omega
  unfold updateLiftime
  simp only [hinter]
  split
  · rename_i hout
    rw [find_raisePage hpage]
    by_cases hin : address ≤ b ∧ b < address + block_size
    · rw [m.approx_vars.find_of_notMem (hout.notMem hwrap hin.1 hin.2)]
      split <;> rfl
    · simp only [if_neg hin]
      split <;> simp [*]
  · rw [find_settleAccess hwrap, find_raisePage hpage]
    by_cases hin : address ≤ b ∧ b < address + block_size
    · simp only [if_pos hin]
      split <;> simp [*, Option.map_map, Function.comp_def]
    · simp only [if_neg hin]
      split <;> simp [*]

theorem map_find_settleBlock (b : ℕ) : ∀ {n i : ℕ} {it : Option ℕ} {realend : Bool}
    {vars : SortedMap ℕ AppVar},
    ((settleBlock RW address block_size n i it realend vars).find b).map AppVar.counts =
      (vars.find b).map AppVar.counts := by
  intro n
  induction n with
  | zero => exact rfl
  | succ n ih =>
    intro i it realend vars
    cases it with
    | none =>
      unfold settleBlock
      split
      · rfl
      · exact ih
    | some a =>
      unfold settleBlock
      split
      · rw [ih, SortedMap.map_find_modify _ fun v => v.counts_settle RW]
      · exact ih

/-- An access changes nothing but lifetimes, wherever it is. -/
theorem map_find_updateLiftime (m : MagicServer) (address now lpacc : ℕ) (RW : Bool)
    (block_size b : ℕ) :
    ((m.updateLiftime address now lpacc RW block_size).1.approx_vars.find b).map AppVar.counts =
      (m.approx_vars.find b).map AppVar.counts := by
  have hraise : ∀ inter, ((m.raisePage address inter).approx_vars.find b).map AppVar.counts =
      (m.approx_vars.find b).map AppVar.counts :=
    fun inter => SortedMap.map_find_modifyRange _ (fun v => v.counts_raise inter) b
  unfold updateLiftime
  simp only
  split
  · exact hraise _
  · exact (map_find_settleBlock b).trans (hraise _)

theorem mem_updateLiftime (now lpacc : ℕ) :
    b ∈ (m.updateLiftime address now lpacc RW block_size).1.approx_vars.keys ↔
      b ∈ m.approx_vars.keys := by
  rw [← SortedMap.find_isSome, ← SortedMap.find_isSome, ← Option.isSome_map, map_find_updateLiftime,
    Option.isSome_map]

end MagicServer
end Sniper
