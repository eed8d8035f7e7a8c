import Mathlib.Data.UInt
import Sniper.Library.Outcome
import Sniper.Library.Buffer

namespace Sniper

abbrev Byte := UInt8

/-- `CacheState::cstate_t`. -/
inductive CState where
  | invalid | shared | sharedUpgrading | exclusive | owned | modified
deriving DecidableEq, Repr

namespace CState

/-- `CacheState::readable`: SHARED, EXCLUSIVE and MODIFIED. -/
def readable : CState → Bool
  | shared | exclusive | modified => true
  | _ => false

/-- `CacheState::writable`: MODIFIED only. -/
def writable : CState → Bool
  | modified => true
  | _ => false

theorem writable_iff {s : CState} : s.writable = true ↔ s = modified := by
  cases s <;> decide

theorem readable_ne_invalid {s : CState} (h : s.readable = true) : s ≠ invalid := by
  rintro rfl
  cases h

end CState

/-- `Core::mem_op_t`. -/
inductive MemOp where
  | read | readEx | write
deriving DecidableEq, Repr

/-- The states in which an operation may proceed in a cache. -/
def MemOp.permits : MemOp → CState → Bool
  | .read, s => s.readable
  | .readEx, s | .write, s => s.writable

theorem MemOp.permits_read {s : CState} : MemOp.read.permits s = s.readable := rfl

theorem MemOp.permits_of_ne_read {op : MemOp} (h : op ≠ .read) (s : CState) :
    op.permits s = s.writable := by
  cases op
  · exact absurd rfl h
  · rfl
  · rfl

theorem MemOp.readable_of_permits {op : MemOp} {s : CState} (h : op.permits s = true) :
    s.readable = true := by
  cases op
  · exact h
  · rw [CState.writable_iff.mp h]
    rfl
  · rw [CState.writable_iff.mp h]
    rfl

theorem MemOp.permits_modified (op : MemOp) : op.permits .modified = true := by
  cases op <;> rfl

theorem MemOp.not_modified {op : MemOp} {s : CState} (h : op.permits s = false) :
    s ≠ .modified := by
  rintro rfl
  rw [MemOp.permits_modified] at h
  cases h

/-- `CacheBlockInfo`: the tag is `none` for `~0`, the tag of an invalidated block. -/
structure CacheBlockInfo where
  tag : Option ℕ
  cstate : CState
deriving DecidableEq, Repr

namespace CacheBlockInfo

/-- `CacheBlockInfo::create`. -/
def create : CacheBlockInfo := ⟨none, .invalid⟩

def isValid (b : CacheBlockInfo) : Bool := b.tag.isSome

end CacheBlockInfo

/-- The assertions and error exits of the modelled code, one for each message. -/
inductive Abort where
  /-- `address at cache line + %x` -/
  | notLineAligned
  /-- `access until %u > %u` -/
  | accessPastBlock
  /-- `offset + bytes <= m_blocksize` in `read_line` and `write_line` -/
  | lineOverrun
  /-- `Expected to find address(0x%x) in L1 Cache` -/
  | unlockMiss
  /-- `Tried to read in next-level cache, but data is already gone` -/
  | fillGone
  /-- `Tried to read from next-level cache, but data is already gone` -/
  | nextLevelGone
  /-- `Expected %x to be valid in L1` -/
  | notValidInL1
  /-- `old_cstate != CacheState::MODIFIED` in `invalidateCacheBlock` -/
  | invalidateModified
  /-- `old_cstate != CacheState::INVALID` in `invalidateCacheBlock` -/
  | invalidateInvalid
  /-- `Expected block to be there but it wasn't` -/
  | blockNotThere
  /-- `we already have this line, can't add it again` -/
  | alreadyHaveLine
  /-- `Non-coherent cache is throwing away dirty data` -/
  | throwingAwayDirty
  /-- `evict_address(0x%x), evict_state(%u)` -/
  | evictState
  /-- `Evicted address did not become invalid, now in state %s` -/
  | evictedNotInvalid
  /-- `MODIFIED data is about to get lost!` -/
  | dataLost
  /-- `Cannot change block status to %c` -/
  | cannotChangeStatus
  /-- `state didn't change as we wanted: %c instead of %c` -/
  | stateDidNotChange
  /-- `out_buf passed in but never written to` -/
  | outBufNotWritten
  /-- `writethrough expected a hit at next-level cache but got miss` -/
  | writethroughMiss
  /-- `Got writeback for non-MODIFIED line` -/
  | writebackNonModified
  /-- `offset==0`, `data_length==getCacheBlockSize()` when writing to an evict buffer -/
  | evictBufferPart
  /-- `Writethrough enabled on last-level cache !?` -/
  | writethroughLastLevel
  /-- `ExReq for a Cacheblock in S, should be a UpgradeReq` and `cstate == INVALID` -/
  | exReqState
  /-- `cstate == CacheState::SHARED` in `processUpgradeReqToDirectory` -/
  | upgradeReqState
  /-- `Trying to upgrade a block that is now INV and no data in the shmem_msg` -/
  | upgradeNoData
  /-- `Trying to upgrade a block that is not SHARED_UPGRADING but %c (%lx)` -/
  | upgradeState
  /-- `Cannot do passthrough on an LLC` -/
  | passthroughLastLevel
  /-- `Data Buffer does not exist` -/
  | noDataBuffer
  /-- `isFirstLevel()` in `acquireLock` -/
  | notFirstLevel
  /-- `Unrecognized msg type: %u` -/
  | unrecognizedMsg
  /-- a NULL pointer is followed -/
  | nullPointer
deriving DecidableEq, Repr

end Sniper
