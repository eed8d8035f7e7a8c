import Sniper.Library.Machine
import Sniper.CacheCntlr

namespace Sniper
open Outcome

/-- The arguments of one `processMemOpFromCore` call on the first-level controller `cntlr`. -/
structure MemAccess where
  cntlr : CntlrId
  lock_signal : LockSignal
  op : MemOp
  ca_address : ℕ
  offset : ℕ
  data_buf : Option (ℕ → Byte)
  data_length : ℕ
  count : Bool

/-- A call returns the buffer and where it hit, or waits for a message of the directory. -/
inductive Reply where
  | returned (data_buf : Option (ℕ → Byte)) (hit_where : HitWhere)
  | waiting

namespace CacheCntlr

variable {σ : Type} (K : Config σ)

/-- `lock_all`: the whole stack is locked from the start. -/
def lockAll (a : MemAccess) : Bool :=
  K.m_cache_writethrough (K.node a.cntlr) &&
    (decide (a.op = .write) || decide (a.lock_signal ≠ .none))

def acquireForAccess (s : State σ) (a : MemAccess) : Except Abort (State σ) :=
  if a.lock_signal = .unlock then return s
  else if lockAll K a then
    return s.lockEvent (.acquireExclusive (K.getSetLock a.ca_address))
  else do
    require (K.prevCntlrs (K.node a.cntlr) = []) .notFirstLevel
    return s.lockEvent (.acquireShared (K.getSetLock a.ca_address))

def releaseAfterAccess (s : State σ) (a : MemAccess) : Except Abort (State σ) :=
  if a.lock_signal = .lock then return s
  else if lockAll K a then
    return s.lockEvent (.releaseExclusive (K.getSetLock a.ca_address))
  else do
    require (K.prevCntlrs (K.node a.cntlr) = []) .notFirstLevel
    return s.lockEvent (.releaseShared (K.getSetLock a.ca_address))

/-- `accessCache`; returns `data_buf`, filled by a read. -/
def accessCache (s : State σ) (o : CntlrId) (op : MemOp) (ca_address offset : ℕ)
    (data_buf : Option (ℕ → Byte)) (data_length : ℕ) (update_replacement : Bool) :
    Except Abort (State σ × Option (ℕ → Byte)) :=
  let c := K.node o
  match op with
  | .read | .readEx => do
    let (s, buf, _) ← accessSingleLine K s c (ca_address + offset) .load data_buf data_length
      update_replacement
    return (s, buf)
  | .write => do
    let (s, buf, _) ← accessSingleLine K s c (ca_address + offset) .store data_buf data_length
      update_replacement
    if K.m_cache_writethrough c then do
      require (c.level < K.last) .writethroughLastLevel
      let s ← writeNext K s o ca_address offset data_buf data_length
      return (s, buf)
    else return (s, buf)

/-- The end of a call, from `accessCache` on. -/
def finishAccess (s : State σ) (a : MemAccess) (hit_where : HitWhere) :
    Except Abort (State σ × Reply) := do
  let own := decide (hit_where = .cache a.cntlr.level)
  let (s, buf) ← accessCache K s a.cntlr a.op a.ca_address a.offset a.data_buf a.data_length
    (own && a.count)
  let s ← releaseAfterAccess K s a
  return (s, .returned buf hit_where)

/-- The end of a miss: the line is in the next level and is copied from there. -/
def completeMiss (s : State σ) (a : MemAccess) (hit_where : HitWhere) :
    Except Abort (State σ × Reply) := do
  let s ← copyDataFromNextLevel K s a.cntlr a.op a.ca_address
  let s := if lockAll K a then s else s.lockEvent (.downgrade (K.getSetLock a.ca_address))
  require (a.op.permits (getCacheState K s (K.node a.cntlr) a.ca_address)) .notValidInL1
  finishAccess K s a hit_where

/-- The request to the next level. -/
def requestNext (s : State σ) (a : MemAccess) (count : Bool) :
    Except Abort (State σ × HitWhere) := do
  require (a.cntlr.level < K.last) .nullPointer
  processShmemReqFromPrevCache K (K.last - (a.cntlr.level + 1)) s (K.nextCntlr a.cntlr) a.cntlr
    a.op a.ca_address count

/-- The block is invalidated before the request is passed to the next level. -/
def dropForMiss (s : State σ) (c : CntlrId) (address : ℕ) : Except Abort (State σ) :=
  if getCacheState K s c address ≠ .invalid then invalidateCacheBlock K s c address else return s

/-- `processMemOpFromCore`, up to its return or up to `waitForNetworkThread`. -/
def processMemOpFromCore (s : State σ) (a : MemAccess) : Except Abort (State σ × Reply) := do
  let c := K.node a.cntlr
  require (a.ca_address % K.blocksize = 0) .notLineAligned
  require (a.offset + a.data_length ≤ K.blocksize) .accessPastBlock
  let s ← acquireForAccess K s a
  let (s, cache_hit) ← adjustHit K s a.cntlr a.op a.ca_address (K.m_passthrough c)
  if cache_hit then finishAccess K s a (.cache c.level)
  else
    require (a.lock_signal ≠ .unlock) .unlockMiss
    let s := if lockAll K a then s else s.lockEvent (.upgrade (K.getSetLock a.ca_address))
    let s ← dropForMiss K s c a.ca_address
    let (s, hit_where) ← requestNext K s a a.count
    if hit_where = .miss then
      return (s.lockEvent (.releaseExclusive (K.getSetLock a.ca_address)), .waiting)
    else completeMiss K s a hit_where

/-- The rest of a call that waited: the network thread passes the stack lock on. -/
def resumeMemOpFromCore (s : State σ) (a : MemAccess) : Except Abort (State σ × Reply) := do
  let (s, hit_where) ← requestNext K s a false
  require (hit_where ≠ .miss) .fillGone
  completeMiss K s a hit_where

end CacheCntlr

/-- Cores that call `processMemOpFromCore` on their first-level caches one after the other, each
call completed before the next. -/
def coreMachine {σ : Type} (K : Config σ) : Machine (State σ) MemAccess Abort where
  enabled _ a := K.Cntlr a.cntlr ∧ a.cntlr.level = 0
  exec s a := Prod.fst <$> CacheCntlr.processMemOpFromCore K s a

end Sniper
