import Sniper.DataMap
import Sniper.FaultInjection

namespace Sniper
open Outcome

/-- A DRAM controller. `pages` has `lastacc` by the `staddr` of a page. -/
structure DramCntlr where
  m_data_map : DataMap
  pages : SortedMap ℕ ℕ
  m_reads : ℕ
  m_writes : ℕ
  overall_addr_cnter : ℕ
  approx_addr_cnter : ℕ

/-- What all controllers share: `total_addrs` and `approx_addrs`. -/
structure PageSets where
  total_addrs : Finset ℕ
  approx_addrs : Finset ℕ

/-- A controller, with what its calls change outside it. -/
structure DramState where
  cntlr : DramCntlr
  sets : PageSets
  env : Env

/-- `getCacheBlockSize()`, and the fault-injection manager if there is one. -/
structure DramParams where
  blocksize : ℕ
  manager : Option FaultinjectionManager

namespace DramCntlr

def init : DramCntlr where
  m_data_map _ := none
  pages := ⟨∅, fun _ => 0⟩
  m_reads := 0
  m_writes := 0
  overall_addr_cnter := 0
  approx_addr_cnter := 0

def staddr (address : ℕ) : ℕ := address / MagicServer.PAGE_SIZE * MagicServer.PAGE_SIZE

variable (k : DramParams) (D : DramState)

/-- The page of an access: its entry, the lifetimes of its bytes, its latest access. -/
def accessPage (address now : ℕ) (RW : Bool) : DramState :=
  let pages := D.cntlr.pages.insertNew (staddr address) 0
  let lastacc := (pages.find (staddr address)).getD 0
  let magic := (D.env.magic.updateLiftime address now lastacc RW k.blocksize).1
  let pages := if lastacc < now then pages.modify (staddr address) fun _ => now else pages
  { D with
    cntlr := { D.cntlr with pages := pages }
    env := { D.env with magic := magic } }

/-- The counts of pages, and of pages with approximate data. -/
def countPage (address : ℕ) : DramState :=
  let page_st_addr := address / MagicServer.PAGE_SIZE
  let approx := D.env.magic.isBlockApprox address k.blocksize = true
  { D with
    cntlr := { D.cntlr with
      overall_addr_cnter := D.cntlr.overall_addr_cnter +
        if page_st_addr ∈ D.sets.total_addrs then 0 else 1
      approx_addr_cnter := D.cntlr.approx_addr_cnter +
        if approx ∧ page_st_addr ∉ D.sets.approx_addrs then 1 else 0 }
    sets :=
      { total_addrs := insert page_st_addr D.sets.total_addrs
        approx_addrs := if approx then insert page_st_addr D.sets.approx_addrs
          else D.sets.approx_addrs } }

/-- Stores a block after an injector function has run on it in place. -/
def storeBlock (f : Env → ℕ → ℕ → (ℕ → Byte) → (ℕ → Byte) × Env) (address : ℕ)
    (block : ℕ → Byte) : DramState :=
  let (fault, env) := f D.env address k.blocksize block
  { D with
    cntlr := { D.cntlr with
      m_data_map := Function.update D.cntlr.m_data_map address
        (some (Buffer.copy block 0 fault 0 k.blocksize)) }
    env := env }

def getDataFromDram (address : ℕ) (data_buf : ℕ → Byte) (now : ℕ) : DramState × (ℕ → Byte) :=
  let D := accessPage k D address now true
  let (D, data_buf) := match k.manager with
    | some manager =>
      let D := storeBlock k D manager.getFaultInjector.preRead address
        (D.cntlr.m_data_map.block address)
      (D, Buffer.copy data_buf 0 (D.cntlr.m_data_map.block address) 0 k.blocksize)
    | none => (D, data_buf)
  let D := { D with cntlr := { D.cntlr with m_reads := D.cntlr.m_reads + 1 } }
  (countPage k D address, data_buf)

/-- The data of `putDataToDram`. -/
def writeBlock (address : ℕ) (data_buf : ℕ → Byte) : Except Abort DramState :=
  match k.manager with
  | some manager =>
    match D.cntlr.m_data_map address with
    | some block => .ok (storeBlock k D manager.getFaultInjector.postWrite address
        (Buffer.copy block 0 data_buf 0 k.blocksize))
    | none => .error .noDataBuffer
  | none => .ok D

def putDataToDram (address : ℕ) (data_buf : ℕ → Byte) (now : ℕ) : Except Abort DramState := do
  let D ← writeBlock k (accessPage k D address now false) address data_buf
  let D := { D with cntlr := { D.cntlr with m_writes := D.cntlr.m_writes + 1 } }
  return countPage k D address

variable {k : DramParams} {D D' : DramState} {address now : ℕ} {data_buf : ℕ → Byte}

theorem storeBlock_magic {f : Env → ℕ → ℕ → (ℕ → Byte) → (ℕ → Byte) × Env} (hf : Confined f)
    (block : ℕ → Byte) : (storeBlock k D f address block).env.magic = D.env.magic :=
  hf.magic ..

/-- A read changes the registry and the pages by its bookkeeping only. -/
theorem getDataFromDram_accessPage : (getDataFromDram k D address data_buf now).1.env.magic =
      (accessPage k D address now true).env.magic ∧
    (getDataFromDram k D address data_buf now).1.cntlr.pages =
      (accessPage k D address now true).cntlr.pages := by
  unfold getDataFromDram
  cases k.manager with
  | none => exact ⟨rfl, rfl⟩
  | some manager => exact ⟨storeBlock_magic manager.preRead_confined _, rfl⟩

theorem putDataToDram_accessPage (h : putDataToDram k D address data_buf now = .ok D') :
    D'.env.magic = (accessPage k D address now false).env.magic ∧
      D'.cntlr.pages = (accessPage k D address now false).cntlr.pages := by
  obtain ⟨D₁, h₁, h⟩ := bind_eq_ok.mp h
  cases h
  unfold writeBlock at h₁
  cases hk : k.manager with
  | none =>
    rw [hk] at h₁
    cases h₁
    exact ⟨rfl, rfl⟩
  | some manager =>
    rw [hk] at h₁
    simp only at h₁
    split at h₁
    · cases h₁
      exact ⟨storeBlock_magic manager.postWrite_confined _, rfl⟩
    · cases h₁

theorem accessPage_magic (RW : Bool) : (accessPage k D address now RW).env.magic =
    (D.env.magic.updateLiftime address now ((D.cntlr.pages.find (staddr address)).getD 0) RW
      k.blocksize).1 := by
  unfold accessPage
  by_cases h : staddr address ∈ D.cntlr.pages.keys
  · simp only [SortedMap.insertNew_of_mem _ h]
  · simp only [SortedMap.find_insertNew_self _ h, SortedMap.find_of_notMem _ h, Option.getD]

/-- The latest access of a page is the one with the largest time. -/
theorem accessPage_lastacc (RW : Bool) (st : ℕ) :
    ((accessPage k D address now RW).cntlr.pages.find st).getD 0 =
      if st = staddr address then max ((D.cntlr.pages.find st).getD 0) now
      else (D.cntlr.pages.find st).getD 0 := by
  have hnew : ((D.cntlr.pages.insertNew (staddr address) 0).find st).getD 0 =
      (D.cntlr.pages.find st).getD 0 := by
    by_cases h : staddr address ∈ D.cntlr.pages.keys
    · rw [SortedMap.insertNew_of_mem _ h]
    · by_cases hst : st = staddr address
      · rw [hst, SortedMap.find_insertNew_self _ h, SortedMap.find_of_notMem _ h]
        rfl
      · rw [SortedMap.find_insertNew_of_ne _ hst]
  have hmem : staddr address ∈ (D.cntlr.pages.insertNew (staddr address) 0).keys :=
    (SortedMap.mem_insertNew _).mpr (.inl rfl)
  unfold accessPage
  generalize D.cntlr.pages.insertNew (staddr address) 0 = pages at hnew hmem
  by_cases hst : st = staddr address
  · subst hst
    rw [if_pos rfl, ← hnew]
    have hfind := SortedMap.find_of_mem _ hmem
    simp only [hfind, Option.getD_some]
    split
    · rename_i hlt
      rw [SortedMap.find_modify_self, hfind]
      exact (max_eq_right hlt.le).symm
    · rename_i hle
      rw [hfind]
      exact (max_eq_left (not_lt.mp hle)).symm
  · rw [if_neg hst, ← hnew]
    simp only
    split
    · rw [SortedMap.find_modify_of_ne _ hst]
    · rfl

end DramCntlr
end Sniper
