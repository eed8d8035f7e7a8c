import Sniper.Registry

namespace Sniper
namespace MagicServer

variable (m : MagicServer)

/-- `SIM_CMD_ADD_CNT` and `SIM_CMD_MUL_CNT`, with what they return. -/
def addCnt (arg0 arg1 : ℕ) : MagicServer × ℕ :=
  if arg0 ∈ m.approx_vars.keys then
    (m.withVars (m.approx_vars.modify arg0 fun v => v.incAddCnt (toInt arg1))
      (SortedMap.keys_modify _), 1)
  else (m, 0)

def mulCnt (arg0 arg1 : ℕ) : MagicServer × ℕ :=
  if arg0 ∈ m.approx_vars.keys then
    (m.withVars (m.approx_vars.modify arg0 fun v => v.incMulCnt (toInt arg1))
      (SortedMap.keys_modify _), 1)
  else (m, 0)

/-- The end of a read of `coreInitiateMemoryAccess`, with `mem_footprint/enable`. -/
def commitRead (address len : ℕ) : MagicServer :=
  (m.upsaveCnters address len).resetCnters address len

/-- The columns of the rows of a dump. -/
def rows : List (List ℤ) := m.approx_vars.entries.map fun e => e.2.columns e.1

/-- The loop of the `SIM_CMD_MARKER` dump saves the counters of an entry before it prints them. -/
def upsaveAll : MagicServer := m.withVars (m.approx_vars.mapValues fun _ v => v.upsave) rfl

def markerRows : List (List ℤ) := m.upsaveAll.rows

/-- The loop of the `SIM_CMD_DEL_APPROX_ADDRS` dump. -/
def delRows : List (List ℤ) := m.rows

variable {m} {a b address len : ℕ}

theorem find_commitRead : (m.commitRead address len).approx_vars.find b =
    (m.approx_vars.find b).map fun v =>
      if InRange address len b then v.upsave.reset else v := by
  have hupsave : ∀ v : AppVar, v.upsave.upsave = v.upsave := by
    intro v
    simp [AppVar.upsave]
  have hreset : ∀ v : AppVar, v.reset.reset = v.reset := by
    intro v
    unfold AppVar.reset
    congr 1
    funext c
    cases c <;> rfl
  unfold commitRead resetCnters upsaveCnters withVars
  simp only [SortedMap.find_modifyAll _ hupsave, SortedMap.find_modifyAll _ hreset, mem_bytesFrom]
  split
  · rw [Option.map_map]
    rfl
  · simp

theorem find_addCnt (arg1 : ℕ) : (m.addCnt a arg1).1.approx_vars.find b =
    (m.approx_vars.find b).map fun v => if b = a then v.incAddCnt (toInt arg1) else v := by
  unfold addCnt
  split
  · simp only [withVars, SortedMap.find_modify]
  · rename_i hmem
    rw [← SortedMap.find_modify, SortedMap.modify_of_notMem _ hmem]

theorem find_mulCnt (arg1 : ℕ) : (m.mulCnt a arg1).1.approx_vars.find b =
    (m.approx_vars.find b).map fun v => if b = a then v.incMulCnt (toInt arg1) else v := by
  unfold mulCnt
  split
  · simp only [withVars, SortedMap.find_modify]
  · rename_i hmem
    rw [← SortedMap.find_modify, SortedMap.modify_of_notMem _ hmem]

/-- No count that the dumps print is potential only. -/
def AllSaved (m : MagicServer) : Prop :=
  ∀ a v, m.approx_vars.find a = some v → ∀ c ∈ AppVar.printed, v.poten c ≤ v.footprint c

theorem columns_upsave_iff (v : AppVar) (addr : ℕ) : v.columns addr = v.upsave.columns addr ↔
    ∀ c ∈ AppVar.printed, v.poten c ≤ v.footprint c := by
  simp [AppVar.columns, AppVar.printed, AppVar.upsave]

/-- The two dumps print the same rows exactly when nothing is left to save. -/
theorem delRows_eq_markerRows_iff : m.delRows = m.markerRows ↔ m.AllSaved := by
  have hrows : m.markerRows = m.approx_vars.entries.map fun e => e.2.upsave.columns e.1 := by
    unfold markerRows upsaveAll rows withVars
    rw [SortedMap.entries_mapValues, List.map_map]
    rfl
  unfold delRows rows
  rw [hrows, List.map_inj_left]
  constructor
  · intro h a v hv
    have hmem := (SortedMap.find_isSome _).mp (Option.isSome_iff_exists.mpr ⟨v, hv⟩)
    rw [SortedMap.find_of_mem _ hmem] at hv
    have hentry : (a, v) ∈ m.approx_vars.entries :=
      (SortedMap.mem_entries _).mpr ⟨hmem, (Option.some.inj hv).symm⟩
    exact (columns_upsave_iff v a).mp (h (a, v) hentry)
  · intro h h' hentry
    obtain ⟨a, v⟩ := h'
    obtain ⟨hmem, hv⟩ := (SortedMap.mem_entries _).mp hentry
    refine (columns_upsave_iff v a).mpr (h a v ?_)
    rw [SortedMap.find_of_mem _ hmem]
    exact congrArg some hv.symm

end MagicServer

end Sniper
