import Sniper.Library.Machine
import Sniper.DramCntlr

namespace Sniper
open Outcome

/-- Caches and DRAM controllers built from one configuration. As there is a fault-injection manager,
the sets of every cache allocate `m_blocks`. -/
structure MemoryParams (ι σ : Type) where
  cache : ι → CacheParams σ
  stores : ∀ i, (cache i).stores = true
  core_id : ι → ℕ
  name : ι → CacheName
  dram_blocksize : ℕ
  manager : FaultinjectionManager

/-- The caches and the DRAM controllers share the magic server; each has an injector of its own. -/
structure Memory (ι κ σ : Type) where
  m_cache : ι → Cache σ
  m_dram : κ → DramCntlr
  sets : PageSets
  magic : MagicServer
  rng : ι ⊕ κ → RandomState

inductive MemoryOp (ι κ : Type) where
  | insertSingleLine (i : ι) (addr : ℕ) (fill_buff : Option (ℕ → Byte)) (evict_buff : ℕ → Byte)
  | accessSingleLine (i : ι) (addr : ℕ) (access_type : AccessType) (buff : Option (ℕ → Byte))
      (bytes : ℕ) (update_replacement : Bool)
  | getDataFromDram (d : κ) (address : ℕ) (data_buf : ℕ → Byte) (now : ℕ)
  | putDataToDram (d : κ) (address : ℕ) (data_buf : ℕ → Byte) (now : ℕ)
  | addApprox (address set_number : ℕ)
  | delApprox (address : ℕ)

/-- What an operation hands back to its caller, with where it was asked for. -/
inductive MemoryOut (ι : Type) where
  | inserted (i : ι) (evicted : Option (ℕ × CacheSet.Evicted))
  | accessed (addr bytes : ℕ) (info : Option CacheBlockInfo) (buff : Option (ℕ → Byte))
  | data (address : ℕ) (data_buf : ℕ → Byte)
  | done

namespace MemoryParams

variable {ι κ σ : Type} (P : MemoryParams ι σ)

/-- The calls a cache makes with `ENABLE_RAUL_CACHELOG`, and its injector. -/
def probe (i : ι) : Probe Env where
  addReadAcc e addr := { e with
    magic := e.magic.addReadAcc addr (P.core_id i) (P.name i) (P.cache i).blocksize }
  addWriteAcc e addr := { e with
    magic := e.magic.addWriteAcc addr (P.core_id i) (P.name i) (P.cache i).blocksize }
  isBlockApprox e addr := e.magic.isBlockApprox addr (P.cache i).blocksize
  injector := P.manager.getFaultInjector

def dram : DramParams := ⟨P.dram_blocksize, some P.manager⟩

end MemoryParams

namespace Memory

variable {ι κ σ : Type} [DecidableEq ι] [DecidableEq κ] (P : MemoryParams ι σ)
  (M : Memory ι κ σ)

def cacheEnv (i : ι) : Env := ⟨M.magic, M.rng (.inl i)⟩

/-- The memory after an operation of cache `i`. -/
def putCache (i : ι) (C : Cache σ) (e : Env) : Memory ι κ σ :=
  { M with
    m_cache := Function.update M.m_cache i C
    magic := e.magic
    rng := Function.update M.rng (.inl i) e.rng }

def dramState (d : κ) : DramState := ⟨M.m_dram d, M.sets, ⟨M.magic, M.rng (.inr d)⟩⟩

/-- The memory after an operation of DRAM controller `d`. -/
def putDram (d : κ) (D : DramState) : Memory ι κ σ :=
  { M with
    m_dram := Function.update M.m_dram d D.cntlr
    sets := D.sets
    magic := D.env.magic
    rng := Function.update M.rng (.inr d) D.env.rng }

def exec : MemoryOp ι κ → Except Abort (Memory ι κ σ × MemoryOut ι)
  | .insertSingleLine i addr fill_buff evict_buff =>
    let r := (M.m_cache i).insertSingleLine (P.probe i) (P.cache i) (M.cacheEnv i) addr fill_buff
      evict_buff
    .ok (M.putCache i r.cache r.env, .inserted i r.evicted)
  | .accessSingleLine i addr access_type buff bytes update_replacement => do
    let r ← (M.m_cache i).accessSingleLine (P.probe i) (P.cache i) (M.cacheEnv i) addr access_type
      buff bytes update_replacement
    return (M.putCache i r.cache r.env, .accessed addr bytes r.info r.buff)
  | .getDataFromDram d address data_buf now =>
    let (D, data_buf) := DramCntlr.getDataFromDram P.dram (M.dramState d) address data_buf now
    .ok (M.putDram d D, .data address data_buf)
  | .putDataToDram d address data_buf now => do
    let D ← DramCntlr.putDataToDram P.dram (M.dramState d) address data_buf now
    return (M.putDram d D, .done)
  | .addApprox address set_number =>
    .ok ({ M with magic := (M.magic.addApprox address set_number).1 }, .done)
  | .delApprox address => .ok ({ M with magic := (M.magic.delApprox address).1 }, .done)

/-- The memory with what its operations have handed back so far. -/
def machine : Machine (Memory ι κ σ × List (MemoryOut ι)) (MemoryOp ι κ) Abort where
  enabled _ _ := True
  exec S op := do
    let (M, out) ← S.1.exec P op
    return (M, S.2 ++ [out])

theorem four_bytes_pos : 0 < 4 := by decide

/-- One cache of one way of four bytes. -/
def oneWay : MemoryParams Unit Unit where
  cache _ :=
    { associativity := 1
      blocksize := 4
      blocksize_pos := four_bytes_pos
      setIndex _ := 0
      stores := true
      policy := ⟨fun _ _ _ => (⟨0, Nat.one_pos⟩, ()), fun _ _ => ()⟩ }
  stores _ := rfl
  core_id _ := 0
  name _ := .l1d
  dram_blocksize := 4
  manager := ⟨.set0, .random⟩

/-- Nothing stored, nothing registered, and these outcomes of the draws. -/
def start (outcome : Generator → ℕ → Bool) : Memory Unit Unit Unit where
  m_cache _ := ⟨fun _ => ⟨fun _ => .create, fun _ => 0, ()⟩⟩
  m_dram _ := .init
  sets := ⟨∅, ∅⟩
  magic := .init
  rng _ := ⟨outcome, fun _ => 0, []⟩

/-- No fault, or one at the first write. -/
def noFault : Generator → ℕ → Bool := fun _ _ => false
def firstWrite : Generator → ℕ → Bool := fun g n => g = .W ∧ n = 0

theorem run_of_foldlM {ops : List (MemoryOp Unit Unit)} {outcome : Generator → ℕ → Bool}
    {S : Memory Unit Unit Unit × List (MemoryOut Unit)}
    (h : ops.foldlM (machine oneWay).exec (start outcome, []) = .ok S) :
    (machine oneWay).Run (start outcome, []) ops S :=
  .of_foldlM ops (fun _ _ _ _ _ _ => trivial) S h

end Memory
end Sniper
