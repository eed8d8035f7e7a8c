import Sniper.CoreAccess

namespace Sniper
open Outcome

/-- The replies, for which some core waits. -/
def MsgType.isReply : MsgType → Bool
  | .exRep | .shRep | .upgradeRep => true
  | _ => false

namespace CacheCntlr

variable {σ : Type} (K : Config σ)

def processExRepFromDramDirectory (s : State σ) (m : ShmemMsg) : Except Abort (State σ) :=
  insertCacheBlock K s K.llc m.address .exclusive m.data_buf

def processShRepFromDramDirectory (s : State σ) (m : ShmemMsg) : Except Abort (State σ) :=
  insertCacheBlock K s K.llc m.address .shared m.data_buf

def processUpgradeRepFromDramDirectory (s : State σ) (m : ShmemMsg) : Except Abort (State σ) :=
  match getCacheState K s K.llc m.address with
  | .invalid => do
    require (m.data_buf.isSome) .upgradeNoData
    let (s, _) ← updateCacheBlock K K.last 0 s m.address .modified m.data_buf
    return s
  | .sharedUpgrading => do
    let (s, _) ← updateCacheBlock K K.last 0 s m.address .modified none
    return s
  | _ => .error .upgradeState

def processInvReqFromDramDirectory (s : State σ) (m : ShmemMsg) : Except Abort (State σ) :=
  if getCacheState K s K.llc m.address ≠ .invalid then do
    let (s, _) ← updateCacheBlock K K.last 0 s m.address .invalid none
    return s.send ⟨.invRep, m.address, none⟩
  else return s

def processFlushReqFromDramDirectory (s : State σ) (m : ShmemMsg) : Except Abort (State σ) :=
  if getCacheState K s K.llc m.address ≠ .invalid then do
    let (s, data_buf) ← updateCacheBlock K K.last 0 s m.address .invalid (some K.garbage)
    return s.send ⟨.flushRep, m.address, data_buf⟩
  else return s

def processWbReqFromDramDirectory (s : State σ) (m : ShmemMsg) : Except Abort (State σ) :=
  if getCacheState K s K.llc m.address ≠ .invalid then
    if getCacheState K s K.llc m.address ≠ .sharedUpgrading then do
      let (s, data_buf) ← updateCacheBlock K K.last 0 s m.address .shared (some K.garbage)
      return s.send ⟨.wbRep, m.address, data_buf⟩
    else return s.send ⟨.wbRep, m.address, some K.garbage⟩
  else return s

/-- The `switch` of `handleMsgFromDramDirectory`. -/
def processMsgFromDramDirectory (s : State σ) (m : ShmemMsg) : Except Abort (State σ) :=
  match m.type with
  | .exRep => processExRepFromDramDirectory K s m
  | .shRep => processShRepFromDramDirectory K s m
  | .upgradeRep => processUpgradeRepFromDramDirectory K s m
  | .invReq => processInvReqFromDramDirectory K s m
  | .flushReq => processFlushReqFromDramDirectory K s m
  | .wbReq => processWbReqFromDramDirectory K s m
  | _ => .error .unrecognizedMsg

end CacheCntlr
end Sniper
