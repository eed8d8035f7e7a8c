import Mathlib.Data.Nat.Log
import Sniper.Library.Recency
import Sniper.CacheSet

namespace Sniper

/-- `m_lru_bits`. -/
abbrev LruBits := ℕ → UInt8

/-- `CacheSet::isValidReplacement`. -/
def isValidReplacement (info : ℕ → CacheBlockInfo) (index : ℕ) : Bool :=
  (info index).cstate ≠ .sharedUpgrading

namespace CacheSetLRU2

variable (associativity : ℕ)

/-- The ways below `approx_margin` are exact, the others approximate. -/
def approx_margin : ℕ := Nat.log2 associativity

/-- The first of the ways of a partition, and the one after the last. -/
def first (approx : Bool) : ℕ := if approx then approx_margin associativity else 0

def last (approx : Bool) : ℕ := if approx then associativity else approx_margin associativity

/-- The ways of a partition, in the order in which the loops go through them. -/
def ways (approx : Bool) : List ℕ :=
  List.range' (first associativity approx) (last associativity approx - first associativity approx)

def create : LruBits := fun i =>
  if i < approx_margin associativity then UInt8.ofNat i
  else UInt8.ofNat (i - approx_margin associativity)

/-- The body of the loop of `updateReplacementIndex`, on the array in place. -/
def bump (accessed_index : ℕ) (bits : LruBits) (i : ℕ) : LruBits :=
  if bits i < bits accessed_index then Function.update bits i (bits i + 1) else bits

def updateReplacementIndex (bits : LruBits) (accessed_index : ℕ) : LruBits :=
  let approx := !decide (accessed_index < approx_margin associativity)
  Function.update ((ways associativity approx).foldl (bump accessed_index) bits) accessed_index 0

/-- The body of the loop that looks for the maximum: `index` and `max_bits`. -/
def findMax (bits : LruBits) (info : ℕ → CacheBlockInfo) (found : ℕ × UInt8) (i : ℕ) : ℕ × UInt8 :=
  if found.2 < bits i ∧ isValidReplacement info i = true then (i, bits i) else found

/-- The index `getReplacementIndex` returns: the first way that is not valid, or else the maximum
found from `index` and `max_bits` of 0 on. -/
def victim (bits : LruBits) (info : ℕ → CacheBlockInfo) (approx : Bool) : ℕ :=
  match (ways associativity approx).find? fun i => !(info i).isValid with
  | some i => i
  | none => ((ways associativity approx).foldl (findMax bits info)
      (first associativity approx, 0)).1

variable {associativity : ℕ} {approx : Bool} {bits : LruBits} {info : ℕ → CacheBlockInfo}

@[simp] theorem first_exact : first associativity false = 0 := rfl

@[simp] theorem first_approx : first associativity true = approx_margin associativity := rfl

@[simp] theorem last_exact : last associativity false = approx_margin associativity := rfl

@[simp] theorem last_approx : last associativity true = associativity := rfl

theorem first_lt_last (h : 2 ≤ associativity) (approx : Bool) :
    first associativity approx < last associativity approx := by
  have hpos : 0 < Nat.log2 associativity := by
    rw [Nat.log2_eq_log_two]
    exact Nat.log_pos one_lt_two h
  have hlt : Nat.log2 associativity < associativity := by
    rw [Nat.log2_eq_log_two]
    exact Nat.log_lt_self 2 (by omega)
  unfold first last approx_margin
  cases approx
  · exact hpos
  · exact hlt

theorem last_le (h : 2 ≤ associativity) (approx : Bool) :
    last associativity approx ≤ associativity := by
  cases approx
  · exact (first_lt_last h true).le
  · exact le_rfl

theorem mem_ways {i : ℕ} : i ∈ ways associativity approx ↔
    first associativity approx ≤ i ∧ i < last associativity approx := by
  unfold ways
  rw [List.mem_range'_1]
  omega

variable (bits info) in
theorem findMax_mem (l : List ℕ) : ∀ found : ℕ × UInt8,
    (l.foldl (findMax bits info) found).1 = found.1 ∨
      (l.foldl (findMax bits info) found).1 ∈ l := by
  induction l with
  | nil => exact fun _ => .inl rfl
  | cons i l ih =>
    intro found
    rw [List.foldl_cons]
    rcases ih (findMax bits info found i) with h | h
    · rw [h]
      unfold findMax
      split
      · exact .inr List.mem_cons_self
      · exact .inl rfl
    · exact .inr (List.mem_cons_of_mem i h)

theorem victim_mem (h : 2 ≤ associativity) :
    victim associativity bits info approx ∈ ways associativity approx := by
  unfold victim
  split
  · rename_i hfind
    exact List.mem_of_find?_eq_some hfind
  · rcases findMax_mem bits info (ways associativity approx)
      (first associativity approx, 0) with hmax | hmax
    · rw [hmax]
      exact mem_ways.mpr ⟨le_rfl, first_lt_last h approx⟩
    · exact hmax

theorem ways_nodup : (ways associativity approx).Nodup := List.nodup_range'

theorem ways_of_mem {a : ℕ} (ha : a ∈ ways associativity approx) :
    (!decide (a < approx_margin associativity)) = approx := by
  obtain ⟨h1, h2⟩ := mem_ways.mp ha
  cases approx
  · simpa using h2
  · simpa using h1

/-- The loop compares with the cell of the accessed way, which it leaves as it is. -/
theorem foldl_bump (a : ℕ) {l : List ℕ} (hl : l.Nodup) : ∀ (bits : LruBits) (j : ℕ),
    l.foldl (bump a) bits j = if j ∈ l ∧ bits j < bits a then bits j + 1 else bits j := by
  induction l with
  | nil =>
    intro bits j
    simp
  | cons i l ih =>
    intro bits j
    obtain ⟨hi, hl⟩ := List.nodup_cons.mp hl
    have hself : bump a bits i a = bits a := by
      unfold bump
      split
      · rename_i hlt
        apply Function.update_of_ne
        intro he
        exact absurd (he ▸ hlt) (UInt8.lt_irrefl _)
      · rfl
    have hother : ∀ k ≠ i, bump a bits i k = bits k := by
      intro k hk
      unfold bump
      split
      · exact Function.update_of_ne hk ..
      · rfl
    rw [List.foldl_cons, ih hl, hself]
    by_cases hj : j = i
    · subst hj
      unfold bump
      by_cases hlt : bits j < bits a
      · simp [hi, hlt]
      · simp [hlt]
    · rw [hother j hj]
      simp [hj]

/-- In its partition an access moves the ranks as a use does; the other partition keeps them. -/
theorem updateReplacementIndex_ranks {a : ℕ} (ha : a ∈ ways associativity approx) (bits : LruBits)
    (j : ℕ) : (updateReplacementIndex associativity bits a j).toNat =
      if j ∈ ways associativity approx then Recency.touch (fun i => (bits i).toNat) a j
      else (bits j).toNat := by
  unfold updateReplacementIndex
  simp only [ways_of_mem ha]
  by_cases hj : j = a
  · subst hj
    rw [Function.update_self, if_pos ha, Recency.touch, if_pos rfl]
    rfl
  · rw [Function.update_of_ne hj, foldl_bump a ways_nodup]
    by_cases hmem : j ∈ ways associativity approx
    · simp only [hmem, true_and, if_true, Recency.touch, if_neg hj, UInt8.lt_iff_toNat_lt]
      split
      · rename_i hlt
        -- the other cell is larger, so that the increment does not wrap round
        have hbound := (bits a).toNat_lt
        rw [UInt8.toNat_add]
        exact Nat.mod_eq_of_lt (Nat.lt_of_le_of_lt hlt hbound)
      · rfl
    · simp only [hmem, false_and, if_false]

/-- The set with the LRU2 policy. -/
def policy (h : 2 ≤ associativity) : Replacement LruBits associativity where
  getReplacementIndex bits info approx :=
    (⟨victim associativity bits info approx,
      (mem_ways.mp (victim_mem h)).2.trans_le (last_le h approx)⟩,
      updateReplacementIndex associativity bits (victim associativity bits info approx))
  updateReplacementIndex := updateReplacementIndex associativity

end CacheSetLRU2

/-- A cache whose sets are `CacheSetLRU2`. -/
def lru2 (g : Geometry) (h : 2 ≤ g.associativity) : CacheParams LruBits :=
  { g with policy := CacheSetLRU2.policy h }

end Sniper
