import Sniper.Hierarchy
import Sniper.DataMap

namespace Sniper
open Outcome

/-- `Core::lock_signal_t`. -/
inductive LockSignal where
  | none | lock | unlock
deriving DecidableEq, Repr

/-- `HitWhere::where_t`, without the sibling and remote variants that only statistics tell apart. -/
inductive HitWhere where
  | miss
  | cache (level : ℕ)
  | dram
deriving DecidableEq, Repr

/-- What happens to the set lock of index `set`. -/
inductive LockEvent where
  | acquireShared (set : ℕ)
  | releaseShared (set : ℕ)
  | acquireExclusive (set : ℕ)
  | releaseExclusive (set : ℕ)
  | upgrade (set : ℕ)
  | downgrade (set : ℕ)
deriving DecidableEq, Repr

/-- `ShmemMsg::msg_t`, the messages between the last-level cache and the directory. -/
inductive MsgType where
  | exReq | shReq | upgradeReq | invReq | flushReq | wbReq
  | exRep | shRep | upgradeRep | invRep | flushRep | wbRep
deriving DecidableEq, Repr

structure ShmemMsg where
  type : MsgType
  address : ℕ
  data_buf : Option (ℕ → Byte)

structure CacheDirectoryWaiter where
  exclusive : Bool
  cache_cntlr : CntlrId
deriving DecidableEq, Repr

/-- The state of a hierarchy. `m_evicting c` holds `m_evicting_address` and `m_evicting_buf`, and
is `none` while the buffer pointer is NULL. -/
structure State (σ : Type) where
  m_cache : CntlrId → Cache σ
  m_evicting : CntlrId → Option (ℕ × (ℕ → Byte))
  m_data_map : DataMap
  m_directory_waiters : ℕ → List CacheDirectoryWaiter
  sent : List ShmemMsg
  locks : List LockEvent

namespace State

variable {σ : Type} (s : State σ)

def putCache (c : CntlrId) (C : Cache σ) : State σ :=
  { s with m_cache := Function.update s.m_cache c C }

def setEvicting (c : CntlrId) (e : Option (ℕ × (ℕ → Byte))) : State σ :=
  { s with m_evicting := Function.update s.m_evicting c e }

def send (m : ShmemMsg) : State σ := { s with sent := s.sent ++ [m] }

def lockEvent (e : LockEvent) : State σ := { s with locks := s.locks ++ [e] }

def setWaiters (a : ℕ) (l : List CacheDirectoryWaiter) : State σ :=
  { s with m_directory_waiters := Function.update s.m_directory_waiters a l }

end State

namespace CacheCntlr

variable {σ : Type} (K : Config σ)

def getCacheBlockInfo (s : State σ) (c : CntlrId) (address : ℕ) : Option CacheBlockInfo :=
  (s.m_cache c).peekSingleLine (K.params c) address

def getCacheState (s : State σ) (c : CntlrId) (address : ℕ) : CState :=
  match getCacheBlockInfo K s c address with
  | some b => b.cstate
  | none => .invalid

def setCacheState (s : State σ) (c : CntlrId) (address : ℕ) (st : CState) : State σ :=
  s.putCache c ((s.m_cache c).setCState (K.params c) address st)

def accessSingleLine (s : State σ) (c : CntlrId) (addr : ℕ) (access_type : AccessType)
    (buff : Option (ℕ → Byte)) (bytes : ℕ) (update_replacement : Bool) :
    Except Abort (State σ × Option (ℕ → Byte) × Option CacheBlockInfo) := do
  let r ← (s.m_cache c).accessSingleLine .quiet (K.params c) () addr access_type buff bytes
    update_replacement
  return (s.putCache c r.cache, r.buff, r.info)

def invalidateCacheBlock (s : State σ) (c : CntlrId) (address : ℕ) : Except Abort (State σ) := do
  require (getCacheState K s c address ≠ .modified) .invalidateModified
  require (getCacheState K s c address ≠ .invalid) .invalidateInvalid
  return s.putCache c ((s.m_cache c).invalidateSingleLine (K.params c) address)

def retrieveCacheBlock (s : State σ) (c : CntlrId) (address : ℕ) (data_buf : ℕ → Byte)
    (update_replacement : Bool) : Except Abort (State σ × (ℕ → Byte)) := do
  let (s, buf, info) ← accessSingleLine K s c address .load (some data_buf) K.blocksize
    update_replacement
  require (info.isSome) .blockNotThere
  return (s, buf.getD data_buf)

/-- `writeCacheBlock` in the cache itself, before a write-through passes the data on. -/
def writeOwnBlock (s : State σ) (c : CntlrId) (address offset : ℕ) (data_buf : Option (ℕ → Byte))
    (data_length : ℕ) : Except Abort (State σ) :=
  match s.m_evicting c with
  | some (evicting_address, evicting_buf) =>
    if address = evicting_address then do
      require (offset = 0 ∧ data_length = K.blocksize) .evictBufferPart
      return s.setEvicting c (some (evicting_address, match data_buf with
        | some buf => Buffer.copy evicting_buf offset buf 0 data_length
        | none => evicting_buf))
    else store
  | none => store
where
  store : Except Abort (State σ) := do
    let (s, _, info) ← accessSingleLine K s c (address + offset) .store data_buf data_length false
    require (info.isSome) .writethroughMiss
    require (info.map CacheBlockInfo.cstate = some .modified) .writebackNonModified
    return s

/-- `writeCacheBlock`; `r` is the number of levels below the controller `o`. The lock is taken
with `acquireStackLock(true)`, whose first parameter is the address. -/
def writeCacheBlock : ℕ → State σ → CntlrId → ℕ → ℕ → Option (ℕ → Byte) → ℕ → Except Abort (State σ)
  | 0, s, o, address, offset, data_buf, data_length => do
    let s ← writeOwnBlock K s (K.node o) address offset data_buf data_length
    require (K.m_cache_writethrough (K.node o) = false) .nullPointer
    return s
  | r + 1, s, o, address, offset, data_buf, data_length => do
    let s ← writeOwnBlock K s (K.node o) address offset data_buf data_length
    if K.m_cache_writethrough (K.node o) then
      let s := s.lockEvent (.acquireExclusive (K.getSetLock 1))
      let s ← writeCacheBlock r s (K.nextCntlr o) address offset data_buf data_length
      return s.lockEvent (.releaseExclusive (K.getSetLock 1))
    else
      return s

/-- `m_next_cache_cntlr->writeCacheBlock`. -/
def writeNext (s : State σ) (o : CntlrId) (address offset : ℕ) (data_buf : Option (ℕ → Byte))
    (data_length : ℕ) : Except Abort (State σ) :=
  writeCacheBlock K (K.last - (o.level + 1)) s (K.nextCntlr o) address offset data_buf data_length

/-- The step of `updateCacheBlock` that saves MODIFIED data: to the next level, or to `out_buf`. -/
def writeBackBlock (s : State σ) (c : CntlrId) (address : ℕ) (out_buf : Option (ℕ → Byte)) :
    Except Abort (State σ × Option (ℕ → Byte) × Bool) := do
  let (s, out_buf, buf_written) ←
    if K.m_cache_writethrough c then pure (s, out_buf, false)
    else if c.level < K.last then do
      let (s, data_buf) ← retrieveCacheBlock K s c address K.garbage false
      let s ← writeNext K s c address 0 (some data_buf) K.blocksize
      pure (s, out_buf, false)
    else match out_buf with
      | some buf => do
        let (s, buf) ← retrieveCacheBlock K s c address buf false
        pure (s, some buf, true)
      | none => .error .dataLost
  return (setCacheState K s c address .shared, out_buf, buf_written)

def retrieveInto (s : State σ) (c : CntlrId) (address : ℕ) (out_buf : Option (ℕ → Byte))
    (buf_written : Bool) : Except Abort (State σ × Option (ℕ → Byte) × Bool) :=
  match out_buf with
  | some buf => do
    let (s, buf) ← retrieveCacheBlock K s c address buf false
    return (s, some buf, true)
  | none => return (s, none, buf_written)

/-- The data of a MODIFIED block are saved first. -/
def saveBlock (s : State σ) (c : CntlrId) (address : ℕ) (old_cstate : CState)
    (out_buf : Option (ℕ → Byte)) : Except Abort (State σ × Option (ℕ → Byte) × Bool) :=
  if old_cstate = .modified then writeBackBlock K s c address out_buf
  else return (s, out_buf, false)

/-- The transition of a present block to `new_cstate` in `updateCacheBlock`. -/
def changeBlock (s : State σ) (c : CntlrId) (address : ℕ) (old_cstate new_cstate : CState)
    (out_buf : Option (ℕ → Byte)) : Except Abort (State σ × Option (ℕ → Byte) × Bool) :=
  if new_cstate = old_cstate ∧ out_buf.isSome then
    retrieveInto K s c address out_buf false
  else do
    let (s, out_buf, buf_written) ← saveBlock K s c address old_cstate out_buf
    match new_cstate with
    | .invalid => do
      let (s, out_buf, buf_written) ← retrieveInto K s c address out_buf buf_written
      if K.m_coherent c then do
        let s ← invalidateCacheBlock K s c address
        return (s, out_buf, buf_written)
      else return (s, out_buf, buf_written)
    | .shared => do
      let (s, out_buf, buf_written) ← retrieveInto K s c address out_buf buf_written
      return (setCacheState K s c address .shared, out_buf, buf_written)
    | .modified => return (setCacheState K s c address .modified, out_buf, buf_written)
    | _ => .error .cannotChangeStatus

/-- The transition when the block is there; without it there is nothing to do. -/
def changeIfPresent (s : State σ) (c : CntlrId) (address : ℕ) (new_cstate : CState)
    (out_buf : Option (ℕ → Byte)) : Except Abort (State σ × Option (ℕ → Byte) × Bool) :=
  match getCacheBlockInfo K s c address with
  | none => return (s, out_buf, false)
  | some b => changeBlock K s c address b.cstate new_cstate out_buf

/-- `updateCacheBlock` once the previous levels have been updated. -/
def updateOwnBlock (s : State σ) (c : CntlrId) (address : ℕ) (new_cstate : CState)
    (out_buf : Option (ℕ → Byte)) : Except Abort (State σ × Option (ℕ → Byte)) := do
  let (s, out_buf, buf_written) ← changeIfPresent K s c address new_cstate out_buf
  -- asserted twice in the source, by address and through `cache_block_info`
  require (getCacheState K s c address = .invalid ∨ getCacheState K s c address = new_cstate ∨
    K.m_coherent c = false) .stateDidNotChange
  require (out_buf.isSome → buf_written) .outBufNotWritten
  return (s, out_buf)

/-- `updateCacheBlock` of master `m` at the level given first; returns `out_buf` as it is left. -/
def updateCacheBlock : ℕ → ℕ → State σ → ℕ → CState → Option (ℕ → Byte) →
    Except Abort (State σ × Option (ℕ → Byte))
  | 0, m, s, address, new_cstate, out_buf => updateOwnBlock K s ⟨0, m⟩ address new_cstate out_buf
  | l + 1, m, s, address, new_cstate, out_buf => do
    let s ← (K.prev l m).foldlM (fun s j => do
      let (s, _) ← updateCacheBlock l j s address new_cstate none
      return s) s
    updateOwnBlock K s ⟨l + 1, m⟩ address new_cstate out_buf

/-- The loops over `m_prev_cache_cntlrs` of the cache `c` that leave out `requester`. -/
def updatePrev (s : State σ) (c : CntlrId) (requester : Option CntlrId) (address : ℕ)
    (new_cstate : CState) : Except Abort (State σ) :=
  ((K.prevCntlrs c).filter fun j => decide (some j ≠ requester)).foldlM (fun s j => do
    let (s, _) ← updateCacheBlock K j.level j.core s address new_cstate none
    return s) s

/-- `DramCntlr::getDataFromDram` as the last-level cache uses it, with no faults injected. -/
def getDataFromDram (s : State σ) (address : ℕ) (data_buf : ℕ → Byte) : State σ × (ℕ → Byte) :=
  if K.stores then
    ({ s with m_data_map := s.m_data_map.touch address },
      Buffer.copy data_buf 0 (s.m_data_map.block address) 0 K.blocksize)
  else (s, data_buf)

/-- `DramCntlr::putDataToDram`. -/
def putDataToDram (s : State σ) (address : ℕ) (data_buf : ℕ → Byte) : Except Abort (State σ) :=
  if K.stores then
    match s.m_data_map address with
    | some block =>
      let block := Buffer.copy block 0 data_buf 0 K.blocksize
      return { s with m_data_map := Function.update s.m_data_map address (some block) }
    | none => .error .noDataBuffer
  else return s

/-- The snoop of the previous levels for an evicted line; they write MODIFIED data to the
eviction buffer. -/
def backInvalidate (s : State σ) (c : CntlrId) (evict_address : ℕ) (evict_buf : ℕ → Byte) :
    Except Abort (State σ × (ℕ → Byte)) := do
  if K.prevCntlrs c = [] then return (s, evict_buf)
  let s ← updatePrev K (s.setEvicting c (some (evict_address, evict_buf))) c none evict_address
    .invalid
  let evict_buf := match s.m_evicting c with
    | some (_, buf) => buf
    | none => evict_buf
  return (s.setEvicting c none, evict_buf)

/-- The end of an eviction: the line, in state `evict_state`, leaves the cache of `o`. -/
def disposeEvicted (s : State σ) (o : CntlrId) (evict_address : ℕ) (evict_state : CState)
    (evict_buf : ℕ → Byte) : Except Abort (State σ) :=
  let c := K.node o
  if K.m_perfect c then return s
  else if K.m_coherent c = false then do
    require (K.m_cache_writethrough c ∨ evict_state ≠ .modified) .throwingAwayDirty
    return s
  else if c.level < K.last then
    if K.m_cache_writethrough c = false ∧ evict_state = .modified then
      writeNext K s o evict_address 0 (some evict_buf) K.blocksize
    else return s
  else if K.m_dram_cntlr then
    if evict_state = .modified then putDataToDram K s evict_address evict_buf else return s
  else if evict_state = .modified then
    return s.send ⟨.flushRep, evict_address, some evict_buf⟩
  else do
    require (evict_state = .shared ∨ evict_state = .exclusive) .evictState
    return s.send ⟨.invRep, evict_address, none⟩

def insertCacheBlock (s : State σ) (o : CntlrId) (address : ℕ) (cstate : CState)
    (data_buf : Option (ℕ → Byte)) : Except Abort (State σ) := do
  let c := K.node o
  require (getCacheState K s c address = .invalid) .alreadyHaveLine
  let r := (s.m_cache c).insertSingleLine .quiet (K.params c) () address data_buf K.garbage
  let s := setCacheState K (s.putCache c r.cache) c address cstate
  match r.evicted with
  | none => return s
  | some (evict_address, evicted) =>
    let (s, evict_buf) ← backInvalidate K s c evict_address evicted.buf
    let s ← disposeEvicted K s o evict_address evicted.info.cstate evict_buf
    require (getCacheState K s c evict_address = .invalid) .evictedNotInvalid
    return s

def copyDataFromNextLevel (s : State σ) (o : CntlrId) (op : MemOp) (address : ℕ) :
    Except Abort (State σ) := do
  let n := K.node (K.nextCntlr o)
  require (op.permits (getCacheState K s n address)) .nextLevelGone
  let (s, data_buf) ← retrieveCacheBlock K s n address K.garbage false
  let cstate := getCacheState K s n address
  match getCacheBlockInfo K s (K.node o) address with
  | some _ => do
    let (s, _) ← updateCacheBlock K o.level (K.node o).core s address cstate none
    return s
  | none => insertCacheBlock K s o address cstate (some data_buf)

def processExReqToDirectory (s : State σ) (address : ℕ) : Except Abort (State σ) := do
  require (getCacheState K s K.llc address = .invalid) .exReqState
  return s.send ⟨.exReq, address, none⟩

def processUpgradeReqToDirectory (s : State σ) (address : ℕ) : Except Abort (State σ) := do
  require (getCacheState K s K.llc address = .shared) .upgradeReqState
  return (setCacheState K s K.llc address .sharedUpgrading).send ⟨.upgradeReq, address, none⟩

def processShReqToDirectory (s : State σ) (address : ℕ) : State σ :=
  s.send ⟨.shReq, address, none⟩

/-- Only the first waiter of an address sends a request. -/
def initiateDirectoryAccess (s : State σ) (o : CntlrId) (op : MemOp) (address : ℕ) :
    Except Abort (State σ) :=
  let exclusive := decide (op ≠ .read)
  let waiters := s.m_directory_waiters address ++ [⟨exclusive, o⟩]
  let s := s.setWaiters address waiters
  if waiters.length = 1 then
    if exclusive then
      if getCacheState K s K.llc address = .shared then processUpgradeReqToDirectory K s address
      else processExReqToDirectory K s address
    else return processShReqToDirectory s address
  else return s

/-- The state of the line once `m_perfect` or `m_passthrough` has had its say, with `cache_hit`. -/
def adjustHit (s : State σ) (o : CntlrId) (op : MemOp) (address : ℕ) (passthrough : Bool) :
    Except Abort (State σ × Bool) :=
  let c := K.node o
  let cache_hit := op.permits (getCacheState K s c address)
  if cache_hit = false ∧ K.m_perfect c then
    match getCacheBlockInfo K s c address with
    | some _ => return (setCacheState K s c address .modified, true)
    | none => do
      let s ← insertCacheBlock K s o address (if op = .read then .shared else .modified) none
      return (s, true)
  else if cache_hit ∧ passthrough then do
    require (c.level < K.last) .passthroughLastLevel
    return (s.putCache c ((s.m_cache c).invalidateSingleLine (K.params c) address), false)
  else return (s, cache_hit)

/-- The snoops of the other previous levels by a request that hits. -/
def snoopOnHit (s : State σ) (c requester : CntlrId) (op : MemOp) (address : ℕ) :
    Except Abort (State σ) :=
  if op ≠ .read then updatePrev K s c (some requester) address .invalid
  else if getCacheState K s c address = .modified then
    updatePrev K s c (some requester) address .shared
  else if getCacheState K s c address = .exclusive then
    updatePrev K s c (some requester) address .shared
  else return s

/-- A miss at the last level: silent upgrade, DRAM access or a request to the directory. -/
def lastLevelMiss (s : State σ) (o requester : CntlrId) (op : MemOp) (address : ℕ) :
    Except Abort (State σ × HitWhere) :=
  let c := K.node o
  let info := getCacheBlockInfo K s c address
  if info.map CacheBlockInfo.cstate = some .exclusive then do
    let s ← updatePrev K s c (some requester) address .invalid
    return (setCacheState K s c address .modified, .cache c.level)
  else if K.m_dram_cntlr then
    if info.isSome then return (setCacheState K s c address .modified, .cache c.level)
    else do
      let (s, data_buf) := getDataFromDram K s address K.garbage
      let s ← insertCacheBlock K s o address (if op = .read then .shared else .modified)
        (some data_buf)
      return (s, .dram)
  else do
    let s ← initiateDirectoryAccess K s o op address
    return (s, .miss)

/-- A write on a SHARED block first takes the copies of the other previous levels. -/
def snoopOnUpgrade (s : State σ) (c requester : CntlrId) (address : ℕ) : Except Abort (State σ) :=
  if (getCacheBlockInfo K s c address).map CacheBlockInfo.cstate = some .shared then
    updatePrev K s c (some requester) address .invalid
  else return s

def answerHit (s : State σ) (c requester : CntlrId) (op : MemOp) (address : ℕ)
    (update_replacement : Bool) : Except Abort (State σ × HitWhere) := do
  let s ← snoopOnHit K s c requester op address
  let (s, _) ← retrieveCacheBlock K s c address K.garbage update_replacement
  return (s, .cache c.level)

/-- The block is read once more when the line has come. -/
def answerMiss (s : State σ) (c : CntlrId) (address : ℕ) (hit_where : HitWhere) :
    Except Abort (State σ × HitWhere) :=
  if hit_where = .miss then return (s, hit_where)
  else do
    let (s, _) ← retrieveCacheBlock K s c address K.garbage false
    return (s, hit_where)

/-- Before the request goes to the next level the block is dropped. -/
def dropBlock (s : State σ) (c : CntlrId) (address : ℕ) : Except Abort (State σ) :=
  if (getCacheBlockInfo K s c address).isSome then invalidateCacheBlock K s c address
  else return s

def fillFromNextLevel (s : State σ) (o : CntlrId) (op : MemOp) (address : ℕ)
    (hit_where : HitWhere) : Except Abort (State σ) :=
  if hit_where = .miss then return s else copyDataFromNextLevel K s o op address

/-- `processShmemReqFromPrevCache` of the controller `o`, `r` levels above the last. -/
def processShmemReqFromPrevCache : ℕ → State σ → CntlrId → CntlrId → MemOp → ℕ → Bool →
    Except Abort (State σ × HitWhere)
  | r, s, o, requester, op, address, count => do
    let c := K.node o
    let first_hit := op.permits (getCacheState K s c address)
    let (s, cache_hit) ← adjustHit K s o op address (K.m_passthrough c && count)
    if cache_hit then answerHit K s c requester op address (first_hit && count)
    else
      let s ← snoopOnUpgrade K s c requester address
      match r with
      | 0 =>
        let (s, hit_where) ← lastLevelMiss K s o requester op address
        answerMiss K s c address hit_where
      | r + 1 =>
        let s ← dropBlock K s c address
        let (s, hit_where) ← processShmemReqFromPrevCache r s (K.nextCntlr o) o op address count
        let s ← fillFromNextLevel K s o op address hit_where
        answerMiss K s c address hit_where

end CacheCntlr
end Sniper
