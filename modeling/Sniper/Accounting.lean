import Sniper.Registry

namespace Sniper
namespace MagicServer

variable {m : MagicServer} {address cid n : ℕ} {cachelvl : CacheName}

/-- `b` is one of the bytes that the loop over `n` bytes from `address` on reaches. -/
def Reached (m : MagicServer) (address n b : ℕ) : Prop :=
  ¬m.Outside address n ∧ ∃ i < n, (address + i) % 2 ^ 64 = b ∧
    ∀ j ≤ i, (address + j) % 2 ^ 64 ∈ m.approx_vars.keys

instance (address n b : ℕ) : Decidable (m.Reached address n b) :=
  inferInstanceAs (Decidable (_ ∧ _))

theorem Reached.inRange {b : ℕ} (h : m.Reached address n b) : InRange address n b := by
  obtain ⟨-, i, hi, hib, -⟩ := h
  exact ⟨i, hi, hib⟩

/-- The loop of the accounting counts the registered bytes before the first one that is not. -/
theorem find_countBytes (inc : AppVar → AppVar) (n : ℕ) (hn : n ≤ 2 ^ 64) :
    ∀ address (vars : SortedMap ℕ AppVar) b, (countBytes inc address n vars).find b =
      if ∃ i < n, (address + i) % 2 ^ 64 = b ∧ ∀ j ≤ i, (address + j) % 2 ^ 64 ∈ vars.keys then
        (vars.find b).map inc
      else vars.find b := by
  induction n with
  | zero =>
    intro address vars b
    exact (if_neg fun h => by obtain ⟨i, hi, -⟩ := h; omega).symm
  | succ n ih =>
    intro address vars b
    unfold countBytes
    split
    · rename_i hmem
      rw [ih (by omega)]
      simp only [SortedMap.keys_modify]
      by_cases hb : b = address % 2 ^ 64
      -- the loop does not come to its first byte again
      · subst hb
        rw [if_neg, SortedMap.find_modify_self, if_pos]
        · refine ⟨0, by omega, rfl, fun j hj => ?_⟩
          obtain rfl : j = 0 := by omega
          exact hmem
        · intro h
          obtain ⟨i, hi, hib, -⟩ := h
          omega
      · rw [SortedMap.find_modify_of_ne _ hb]
        refine if_congr ⟨fun h => ?_, fun h => ?_⟩ rfl rfl
        · obtain ⟨i, hi, hib, hall⟩ := h
          refine ⟨i + 1, by omega, by rw [← hib]; congr 1; omega, fun j hj => ?_⟩
          cases j with
          | zero => exact hmem
          | succ j =>
            have := hall j (by omega)
            rwa [show address + (j + 1) = address + 1 + j by omega]
        · obtain ⟨i, hi, hib, hall⟩ := h
          cases i with
          | zero => exact absurd hib.symm hb
          | succ i =>
            refine ⟨i, by omega, by rw [← hib]; congr 1; omega, fun j hj => ?_⟩
            have := hall (j + 1) (by omega)
            rwa [show address + 1 + j = address + (j + 1) by omega]
    · rename_i hmem
      refine (if_neg fun h => ?_).symm
      obtain ⟨i, -, -, hall⟩ := h
      exact hmem (hall 0 (Nat.zero_le i))

/-- The accounting keeps of an entry what an increment keeps. -/
theorem map_find_addAcc {γ : Type} {g : AppVar → γ} {inc : AppVar → AppVar}
    (hinc : ∀ v, g (inc v) = g v) (address n b : ℕ) :
    ((m.addAcc inc address n).approx_vars.find b).map g = (m.approx_vars.find b).map g := by
  have hloop : ∀ n address (vars : SortedMap ℕ AppVar),
      ((countBytes inc address n vars).find b).map g = (vars.find b).map g := by
    intro n
    induction n with
    | zero => exact fun _ _ => rfl
    | succ n ih =>
      intro address vars
      unfold countBytes
      split
      · rw [ih, SortedMap.map_find_modify _ hinc]
      · rfl
  unfold addAcc
  split
  · rfl
  · exact hloop n address m.approx_vars

/-- No registered byte lies outside the bounds when the sum of the test does not wrap. -/
theorem Outside.notMem (h : m.Outside address n) (hwrap : address + n < 2 ^ 64) {b : ℕ}
    (h1 : address ≤ b) (h2 : b < address + n) : b ∉ m.approx_vars.keys := by
  intro hb
  obtain ⟨hlo, hhi⟩ := m.within b hb
  unfold Outside at h
  rw [Nat.mod_eq_of_lt hwrap] at h
  rcases h with h | h <;> omega

theorem Outside.isBlockApprox (h : m.Outside address n) (hwrap : address + n < 2 ^ 64) :
    m.isBlockApprox address n = false := by
  rw [← Bool.not_eq_true, isBlockApprox_iff]
  intro h'
  obtain ⟨i, hi, hmem⟩ := h'
  rw [Nat.mod_eq_of_lt (by omega)] at hmem
  exact h.notMem hwrap (by omega) (by omega) hmem

theorem find_addAcc (inc : AppVar → AppVar) (hn : n ≤ 2 ^ 64) (b : ℕ) :
    (m.addAcc inc address n).approx_vars.find b =
      if m.Reached address n b then (m.approx_vars.find b).map inc else m.approx_vars.find b := by
  unfold addAcc
  split
  · rename_i hout
    rw [if_neg fun h => h.1 hout]
  · rename_i hout
    refine (find_countBytes inc n hn address m.approx_vars b).trans ?_
    exact if_congr (and_iff_right hout).symm rfl rfl

/-- In a block that does not wrap the loop reaches a byte when those before it are registered. -/
theorem reached_iff (hwrap : address + n < 2 ^ 64) {b : ℕ} : m.Reached address n b ↔
    (address ≤ b ∧ b < address + n) ∧ ∀ a, address ≤ a → a ≤ b → a ∈ m.approx_vars.keys := by
  constructor
  · intro h
    obtain ⟨-, i, hi, hib, hall⟩ := h
    rw [Nat.mod_eq_of_lt (by omega)] at hib
    refine ⟨by omega, fun a h1 h2 => ?_⟩
    have := hall (a - address) (by omega)
    rwa [Nat.add_sub_cancel' h1, Nat.mod_eq_of_lt (by omega)] at this
  · intro h
    obtain ⟨hb, hall⟩ := h
    refine ⟨fun hout => ?_, b - address, by omega, ?_, fun j hj => ?_⟩
    · exact hout.notMem hwrap hb.1 hb.2 (hall b hb.1 le_rfl)
    · rw [Nat.mod_eq_of_lt (by omega)]
      omega
    · rw [Nat.mod_eq_of_lt (by omega)]
      exact hall _ (by omega) (by omega)

/-- No byte of the block that is not registered comes before one that is. -/
def Contiguous (m : MagicServer) (address n : ℕ) : Prop :=
  ∀ i j, i < j → j < n → m.isApprox (address + j) = true → m.isApprox (address + i) = true

/-- An access is counted once, in one counter, at every registered byte of the block and nowhere
else, and no block with a registered byte is left out. -/
structure Counted (m m' : MagicServer) (address n : ℕ) (c : Counter) : Prop where
  find : ∀ b, m'.approx_vars.find b =
    if address ≤ b ∧ b < address + n then (m.approx_vars.find b).map fun v => v.bump c 1
    else m.approx_vars.find b
  outside : m.isBlockApprox address n = true → ¬m.Outside address n

/-- An increment is seen, even where it wraps. -/
theorem bump_poten_ne (v : AppVar) (c : Counter) : (v.bump c 1).poten ≠ v.poten := by
  intro h
  have hc := congrFun h c
  simp only [AppVar.bump, Function.update_self, asInt] at hc
  have hmod : Int.bmod (v.poten c + 1) (2 ^ 32) % (2 ^ 32 : ℕ) = _ := Int.bmod_emod
  rw [hc] at hmod
  omega

theorem addAcc_counted_iff (hwrap : address + n < 2 ^ 64) {inc : AppVar → AppVar} {c : Counter}
    (hinc : inc = fun v => v.bump c 1) :
    Counted m (m.addAcc inc address n) address n c ↔ m.Contiguous address n := by
  subst hinc
  constructor
  · intro h i j hij hj hmem
    rw [isApprox_iff] at hmem ⊢
    by_contra hi
    have hskip : ¬m.Reached address n (address + j) := by
      rw [reached_iff hwrap]
      exact fun hc => hi (hc.2 (address + i) (by omega) (by omega))
    have hfind := h.find (address + j)
    rw [find_addAcc _ (by omega), if_neg hskip, if_pos (by omega),
      SortedMap.find_of_mem _ hmem] at hfind
    exact bump_poten_ne _ c (congrArg AppVar.poten (Option.some.inj hfind).symm)
  · intro hcont
    refine ⟨fun b => ?_, fun happrox hout => ?_⟩
    · rw [find_addAcc _ (by omega)]
      by_cases hb : address ≤ b ∧ b < address + n
      · rw [if_pos hb]
        by_cases hmem : b ∈ m.approx_vars.keys
        · rw [if_pos]
          refine (reached_iff hwrap).mpr ⟨hb, fun a h1 h2 => ?_⟩
          by_cases hab : a = b
          · rwa [hab]
          · have := hcont (a - address) (b - address) (by omega) (by omega)
            rw [Nat.add_sub_cancel' h1, Nat.add_sub_cancel' hb.1, isApprox_iff,
              isApprox_iff] at this
            exact this hmem
        · rw [SortedMap.find_of_notMem _ hmem]
          split <;> rfl
      · rw [if_neg hb, if_neg fun hc => hb ((reached_iff hwrap).mp hc).1]
    · rw [hout.isBlockApprox hwrap] at happrox
      cases happrox

end MagicServer

theorem Counter.read_isSome {cid : ℕ} {cachelvl : CacheName} (hcid : cid < 4)
    (hlvl : cachelvl ≠ .other) : ∃ c, Counter.read cid cachelvl = some c := by
  cases cachelvl with
  | l1d => interval_cases cid <;> exact ⟨_, rfl⟩
  | l2 => interval_cases cid <;> exact ⟨_, rfl⟩
  | other => exact absurd rfl hlvl

theorem Counter.write_isSome {cid : ℕ} {cachelvl : CacheName} (hcid : cid < 4)
    (hlvl : cachelvl ≠ .other) : ∃ c, Counter.write cid cachelvl = some c := by
  cases cachelvl with
  | l1d => interval_cases cid <;> exact ⟨_, rfl⟩
  | l2 => interval_cases cid <;> exact ⟨_, rfl⟩
  | other => exact absurd rfl hlvl

/-- Every access of a block reaches all its registered bytes exactly when these come first in the
block without a gap. -/
theorem access_counted_iff (m : MagicServer) (address block_size cid : ℕ) (cachelvl : CacheName)
    (hwrap : address + block_size < 2 ^ 64) (hcid : cid < 4) (hlvl : cachelvl ≠ .other) :
    ((∃ c, Counter.read cid cachelvl = some c ∧
      m.Counted (m.addReadAcc address cid cachelvl block_size) address block_size c) ↔
        m.Contiguous address block_size) ∧
    ((∃ c, Counter.write cid cachelvl = some c ∧
      m.Counted (m.addWriteAcc address cid cachelvl block_size) address block_size c) ↔
        m.Contiguous address block_size) := by
  obtain ⟨r, hr⟩ := Counter.read_isSome hcid hlvl
  obtain ⟨w, hw⟩ := Counter.write_isSome hcid hlvl
  have hread : m.Counted (m.addReadAcc address cid cachelvl block_size) address block_size r ↔
      m.Contiguous address block_size :=
    MagicServer.addAcc_counted_iff hwrap (by simp only [AppVar.incReadCnt, hr])
  have hwrite : m.Counted (m.addWriteAcc address cid cachelvl block_size) address block_size w ↔
      m.Contiguous address block_size :=
    MagicServer.addAcc_counted_iff hwrap (by simp only [AppVar.incWriteCnt, hw])
  refine ⟨Iff.trans ?_ hread, Iff.trans ?_ hwrite⟩
  · rw [hr]
    exact ⟨fun ⟨c, hc, h⟩ => Option.some.inj hc ▸ h, fun h => ⟨r, rfl, h⟩⟩
  · rw [hw]
    exact ⟨fun ⟨c, hc, h⟩ => Option.some.inj hc ▸ h, fun h => ⟨w, rfl, h⟩⟩

/-- One registered byte at the start of a block is counted. -/
theorem access_counted_iff_first : ∃ c, Counter.read 0 .l1d = some c ∧
    (MagicServer.init.addApprox 64 0).1.Counted
      ((MagicServer.init.addApprox 64 0).1.addReadAcc 64 0 .l1d 2) 64 2 c := by
  refine (access_counted_iff (MagicServer.init.addApprox 64 0).1 64 2 0 .l1d (by decide)
    (by decide) (by decide)).1.mpr ?_
  intro i j hij hj hmem
  obtain ⟨rfl, rfl⟩ : i = 0 ∧ j = 1 := by omega
  revert hmem
  decide

/-- One registered byte after the start of a block is not. -/
theorem access_skips_registered : ¬∃ c, Counter.read 0 .l1d = some c ∧
    (MagicServer.init.addApprox 65 0).1.Counted
      ((MagicServer.init.addApprox 65 0).1.addReadAcc 64 0 .l1d 64) 64 64 c := by
  intro h'
  obtain ⟨c, hc, h⟩ := h'
  have hcont := (MagicServer.addAcc_counted_iff (by decide)
    (by simp only [AppVar.incReadCnt, hc])).mp h
  exact absurd (hcont 0 1 (by decide) (by decide) (by decide)) (by decide)

end Sniper
