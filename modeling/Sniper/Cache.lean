import Sniper.CacheSet

namespace Sniper
open Outcome

structure Cache (σ : Type) where
  m_sets : ℕ → CacheSet σ

/-- The two virtual functions of `FaultInjector`. They are given the bytes from the `fault`
pointer on and leave them, and the state `ε` of the injector, changed or not. -/
structure FaultInjector (ε : Type) where
  preRead : ε → ℕ → ℕ → (ℕ → Byte) → (ℕ → Byte) × ε
  postWrite : ε → ℕ → ℕ → (ℕ → Byte) → (ℕ → Byte) × ε

/-- `FaultInjector::preRead` and `postWrite` of the base class do nothing. -/
def FaultInjector.none (ε : Type) : FaultInjector ε where
  preRead e _ _ fault := (fault, e)
  postWrite e _ _ fault := (fault, e)

/-- What a cache calls outside itself: the magic server and the fault injector. -/
structure Probe (ε : Type) where
  addReadAcc : ε → ℕ → ε
  addWriteAcc : ε → ℕ → ε
  isBlockApprox : ε → ℕ → Bool
  injector : FaultInjector ε

/-- No registered addresses and the injector that never alters data. -/
def Probe.quiet : Probe Unit where
  addReadAcc e _ := e
  addWriteAcc e _ := e
  isBlockApprox _ _ := false
  injector := .none Unit

/-- `CacheBase::access_t`. -/
inductive AccessType where
  | load | store
deriving DecidableEq

namespace Cache

variable {σ ε : Type} (pr : Probe ε) (k : CacheParams σ) (C : Cache σ)

/-- `CacheBase::splitAddress`: the tag is the line number. -/
def tagOf (addr : ℕ) : ℕ := addr / k.blocksize

def blockOffset (addr : ℕ) : ℕ := addr % k.blocksize

def tagToAddress (tag : ℕ) : ℕ := tag * k.blocksize

def setOf (addr : ℕ) : CacheSet σ := C.m_sets (k.setIndex (tagOf k addr))

def putSet (addr : ℕ) (S : CacheSet σ) : Cache σ :=
  ⟨Function.update C.m_sets (k.setIndex (tagOf k addr)) S⟩

/-- The way that holds the line of `addr`. -/
def way (addr : ℕ) : Option ℕ := (C.setOf k addr).find k (tagOf k addr)

def peekSingleLine (addr : ℕ) : Option CacheBlockInfo :=
  (C.way k addr).map (C.setOf k addr).m_cache_block_info_array

def invalidateSingleLine (addr : ℕ) : Cache σ :=
  C.putSet k addr ((C.setOf k addr).invalidate k (tagOf k addr))

/-- The result of `accessSingleLine`: `info` is `none` for a NULL return. -/
structure Accessed (σ ε : Type) where
  cache : Cache σ
  env : ε
  buff : Option (ℕ → Byte)
  info : Option CacheBlockInfo

/-- Runs an injector function on the bytes from `ptr` on, in place. -/
def inject (f : ε → ℕ → ℕ → (ℕ → Byte) → (ℕ → Byte) × ε) (S : CacheSet σ) (e : ε)
    (addr bytes ptr : ℕ) : CacheSet σ × ε :=
  if k.stores then
    let (fault, e') := f e addr bytes fun i => S.m_blocks (ptr + i)
    ({ S with m_blocks := Buffer.copy S.m_blocks ptr fault 0 bytes }, e')
  else (S, e)

def accessSingleLine (e : ε) (addr : ℕ) (access_type : AccessType) (buff : Option (ℕ → Byte))
    (bytes : ℕ) (update_replacement : Bool) : Except Abort (Accessed σ ε) :=
  let S := C.setOf k addr
  let off := blockOffset k addr
  match C.way k addr with
  | none => return ⟨C, e, buff, none⟩
  | some line_index =>
    let info := some (S.m_cache_block_info_array line_index)
    let ptr := CacheSet.getDataPtr k line_index off
    match access_type with
    | .load => do
      let (S, e) := inject k pr.injector.preRead S (pr.addReadAcc e addr) addr bytes ptr
      let (S, buff) ← S.readLine k line_index off buff bytes update_replacement
      return ⟨C.putSet k addr S, e, buff, info⟩
    | .store => do
      let S ← S.writeLine k line_index off buff bytes update_replacement
      let (S, e) := inject k pr.injector.postWrite S (pr.addWriteAcc e addr) addr bytes ptr
      return ⟨C.putSet k addr S, e, buff, info⟩

/-- The result of `insertSingleLine`: the block evicted, when there is one, with its address. -/
structure Inserted (σ ε : Type) where
  cache : Cache σ
  env : ε
  evicted : Option (ℕ × CacheSet.Evicted)

def insertSingleLine (e : ε) (addr : ℕ) (fill_buff : Option (ℕ → Byte)) (evict_buff : ℕ → Byte) :
    Inserted σ ε :=
  let tag := tagOf k addr
  let (S, evicted) := (C.setOf k addr).insert k ⟨some tag, .invalid⟩ fill_buff evict_buff
    (pr.isBlockApprox e (tagToAddress k tag))
  let (S, e) := match S.find k tag with
    | some line_index => inject k pr.injector.postWrite S e addr k.blocksize
        (CacheSet.getDataPtr k line_index 0)
    | none => (S, e)
  ⟨C.putSet k addr S, e, evicted.map fun v => (tagToAddress k (v.info.tag.getD 0), v)⟩

/-- Sets the coherence state of the block found for `addr`, if there is one. -/
def setCState (addr : ℕ) (st : CState) : Cache σ :=
  match C.way k addr with
  | some w => C.putSet k addr ((C.setOf k addr).setInfo w
      { (C.setOf k addr).m_cache_block_info_array w with cstate := st })
  | none => C

end Cache
end Sniper
