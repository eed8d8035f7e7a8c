import Sniper.LastLevel

namespace Sniper
open Outcome

/-- Where the network thread is in `handleMsgFromDramDirectory`. -/
inductive Handler where
  | idle
  /-- at the head of the loop over the waiters, with the stack lock -/
  | draining (address : ℕ)
  /-- the waiter has been woken and was passed the stack lock -/
  | waking (address : ℕ) (waiter : CacheDirectoryWaiter)
  /-- the woken core has released the stack lock -/
  | woken (address : ℕ)
  deriving DecidableEq

namespace Handler

/-- The address of the reply that is handled. -/
def address : Handler → Option ℕ
  | idle => none
  | draining address | waking address _ | woken address => some address

/-- The address whose stack lock the network thread, or the core it woke, has. -/
def locked : Handler → Option ℕ
  | idle | woken _ => none
  | draining address | waking address _ => some address

end Handler

/-- A hierarchy and the directory it talks to. `unanswered` has the requests in flight; the other
fields are the history of the waiters of each address. -/
structure Protocol (σ : Type) where
  sys : Sys σ
  handler : Handler
  unanswered : ℕ → List MsgType
  enqueued : ℕ → List CacheDirectoryWaiter
  woken : ℕ → List CacheDirectoryWaiter
  dequeued : ℕ → List CacheDirectoryWaiter

inductive ProtocolOp where
  /-- a core calls `processMemOpFromCore`; what it does under the stack lock is one step -/
  | access (a : MemAccess)
  /-- the network thread takes the next message up to the loop over the waiters -/
  | receive (m : ShmemMsg)
  /-- the head of the loop: it ends, stops to ask for an upgrade, or wakes the first waiter -/
  | drain
  /-- the woken core fetches the line and releases the stack lock -/
  | resume
  /-- the network thread takes the stack lock again and removes the waiter -/
  | dequeue

/-- The replies the directory gives to a request, when the last level has the line in state `st`. -/
def Answers (st : CState) : MsgType → MsgType → Prop
  | .shReq, .shRep | .shReq, .exRep | .exReq, .exRep => True
  | .upgradeReq, .upgradeRep => st = .sharedUpgrading
  | .upgradeReq, .exRep => st ≠ .sharedUpgrading
  | _, _ => False

namespace Protocol

variable {σ : Type} (K : Config σ) (P : Protocol σ)

def waiters (address : ℕ) : List CacheDirectoryWaiter := P.sys.mem.m_directory_waiters address

/-- The requests and the waiters that a step has added. -/
def record (sys : Sys σ) : Protocol σ :=
  { P with
    sys := sys
    unanswered := fun address => P.unanswered address ++
      ((requests sys.mem.sent).drop (requests P.sys.mem.sent).length).filterMap fun m =>
        if m.address = address then some m.type else none
    enqueued := fun address => P.enqueued address ++
      (sys.mem.m_directory_waiters address).drop (P.waiters address).length }

def Enabled : ProtocolOp → Prop
  | .access a => Sys.Enabled K P.sys (.access a) ∧
      ∀ address, P.handler.locked = some address → K.getSetLock a.ca_address ≠ K.getSetLock address
  | .receive m => P.handler = .idle ∧ (m.type.isReply = true →
      ∃ r, (P.unanswered m.address).head? = some r ∧
        Answers (CacheCntlr.getCacheState K P.sys.mem K.llc m.address) r m.type)
  | .drain => ∃ address, P.handler = .draining address
  | .resume => ∃ address w, P.handler = .waking address w
  | .dequeue => ∃ address, P.handler = .woken address

def exec (P : Protocol σ) : ProtocolOp → Except Abort (Protocol σ)
  | .access a => do
    let sys ← Sys.exec K P.sys (.access a)
    return P.record sys
  | .receive m => do
    let sys ← Sys.exec K P.sys (.receive m)
    if m.type.isReply then
      return { P with
        sys := sys
        handler := .draining m.address
        unanswered := Function.update P.unanswered m.address (P.unanswered m.address).tail }
    else return { P with sys := sys }
  | .drain =>
    match P.handler with
    | .draining address =>
      match P.waiters address with
      | [] => return { P with handler := .idle }
      | w :: _ =>
        if w.exclusive ∧ CacheCntlr.getCacheState K P.sys.mem K.llc address = .shared then do
          let sys ← Sys.exec K P.sys (.upgrade address)
          return { P.record sys with handler := .idle }
        else
          return { P with
            handler := .waking address w
            woken := Function.update P.woken address (P.woken address ++ [w]) }
    | _ => return P
  | .resume =>
    match P.handler with
    | .waking address w => do
      let sys ← Sys.exec K P.sys (.resume w.cache_cntlr)
      return { P with
        sys := sys
        handler := .woken address }
    | _ => return P
  | .dequeue =>
    match P.handler with
    | .woken address => do
      let sys ← Sys.exec K P.sys (.dequeue address)
      return { P with
        sys := sys
        handler := .draining address
        dequeued := Function.update P.dequeued address
          (P.dequeued address ++ (P.waiters address).take 1) }
    | _ => return P

def machine : Machine (Protocol σ) ProtocolOp Abort where
  enabled := Enabled K
  exec := exec K

def init (policy : CntlrId → ℕ → σ) : Protocol σ where
  sys := Sys.init policy
  handler := .idle
  unanswered _ := []
  enqueued _ := []
  woken _ := []
  dequeued _ := []

/-- The waiters that have not gone on: all but the one that has been woken and resumed. -/
def asleep (address : ℕ) : List CacheDirectoryWaiter :=
  match P.handler with
  | .woken a => if a = address then (P.waiters address).tail else P.waiters address
  | _ => P.waiters address

/-- The waiter that has been woken and is still in the queue. -/
def inHand (address : ℕ) : List CacheDirectoryWaiter :=
  match P.handler with
  | .waking a _ | .woken a => if a = address then (P.waiters address).take 1 else []
  | _ => []

end Protocol

/-- Nobody waits for a line, or some cores wait and one request is in flight, for which the last
level has no copy or a SHARED one it marked, and which is enough for the first of them. -/
inductive Outside (st : CState) : List CacheDirectoryWaiter → List MsgType → Prop where
  | quiet (state : st ≠ .sharedUpgrading) : Outside st [] []
  | asking {w : CacheDirectoryWaiter} {q : List CacheDirectoryWaiter} {r : MsgType}
      (state : st = .invalid ∨ st = .sharedUpgrading ∧ r = .upgradeReq)
      (first : r = .shReq → w.exclusive = false) : Outside st (w :: q) [r]

namespace Outside

variable {st : CState} {q : List CacheDirectoryWaiter} {u : List MsgType}

theorem length_le (h : Outside st q u) : u.length ≤ 1 := by
  cases h with
  | quiet => exact Nat.zero_le 1
  | asking => exact le_rfl

theorem upgrading (h : Outside st q u) (hst : st = .sharedUpgrading) : u = [.upgradeReq] := by
  cases h with
  | quiet state => exact absurd hst state
  | asking state =>
    rcases state with hinv | ⟨-, rfl⟩
    · cases hinv.symm.trans hst
    · rfl

end Outside

/-- What holds for a line: its state at the last level, its waiters and its requests in flight. -/
structure LineInv (st : CState) (waiters : List CacheDirectoryWaiter) (unanswered : List MsgType)
    (handler : Handler) (address : ℕ) : Prop where
  not_owned : st ≠ .owned
  outside : handler.address ≠ some address → Outside st waiters unanswered
  inside : handler.address = some address → unanswered = [] ∧ st.readable = true
  waking : ∀ w, handler = .waking address w →
    waiters.head? = some w ∧ (w.exclusive = true → st ≠ .shared)
  woken : handler = .woken address → waiters ≠ []

namespace LineInv

variable {st st' : CState} {q : List CacheDirectoryWaiter} {u : List MsgType} {h h' : Handler}
  {address : ℕ}

/-- The handler works on another line. -/
theorem of_outside (hs : st ≠ .owned) (ho : Outside st q u) (ha : h.address ≠ some address) :
    LineInv st q u h address where
  not_owned := hs
  outside _ := ho
  inside hi := absurd hi ha
  waking w hw := by
    subst hw
    exact absurd rfl ha
  woken hw := by
    subst hw
    exact absurd rfl ha

/-- A silent upgrade disturbs nobody. -/
theorem upgrade (hi : LineInv st q u h address)
    (hst : st' = st ∨ st = .exclusive ∧ st' = .modified) : LineInv st' q u h address := by
  rcases hst with rfl | ⟨rfl, rfl⟩
  · exact hi
  refine ⟨by decide, fun ha => ?_, fun ha => ⟨(hi.inside ha).1, rfl⟩,
    fun w hw => ⟨(hi.waking w hw).1, by simp⟩, hi.woken⟩
  cases hi.outside ha with
  | quiet => exact .quiet (by decide)
  | asking state first => simp at state

/-- A request of the directory for the line. -/
theorem request (hi : LineInv st q u h address) (ha : h.address ≠ some address) {type : MsgType}
    (hr : Received type st st') (ht : type.isReply = false) : LineInv st' q u h address := by
  have hinv : LineInv .invalid q u h address := by
    refine .of_outside (by decide) ?_ ha
    cases hi.outside ha with
    | quiet => exact .quiet (by decide)
    | asking state first => exact .asking (.inl rfl) first
  cases type with
  | exRep | shRep | upgradeRep => cases ht
  | invReq | flushReq =>
    obtain rfl : st' = .invalid := hr
    exact hinv
  | wbReq =>
    rcases hr with ⟨rfl, -⟩ | ⟨rfl, h1, h2⟩
    · exact hi
    · refine .of_outside (by decide) ?_ ha
      cases hi.outside ha with
      | quiet => exact .quiet (by decide)
      | asking state first => simp [h1, h2] at state
  | exReq | shReq | upgradeReq | invRep | flushRep | wbRep => exact hr.elim

/-- The reply brings the line, in a state that is enough for the first waiter. -/
theorem reply (hi : LineInv st q u h address) (ha : h.address ≠ some address)
    {r type : MsgType} (hu : u.head? = some r) (hans : Answers st r type)
    (hr : Received type st st') :
    (∃ w q', q = w :: q' ∧ (w.exclusive = true → st' ≠ .shared)) ∧
      LineInv st' q u.tail (.draining address) address := by
  cases hi.outside ha with
  | quiet => cases hu
  | @asking w q r' state first =>
    obtain rfl : r' = r := Option.some.inj hu
    have hst' : st'.readable = true ∧ (w.exclusive = true → st' ≠ .shared) := by
      cases type with
      | exRep =>
        rw [hr.2]
        exact ⟨rfl, fun _ => by decide⟩
      | shRep =>
        rw [hr.2]
        refine ⟨rfl, fun hex => ?_⟩
        cases r' with
        | shReq => simp [first rfl] at hex
        | _ => exact hans.elim
      | upgradeRep =>
        cases r' with
        | upgradeReq =>
          obtain rfl : st = .sharedUpgrading := hans
          rcases hr with ⟨-, rfl⟩ | ⟨h, -⟩
          · exact ⟨rfl, fun _ => by decide⟩
          · cases h
        | _ => exact hans.elim
      | _ => cases r' <;> exact hans.elim
    have hno : st' ≠ .owned := by
      rintro rfl
      cases hst'.1
    exact ⟨⟨w, q, rfl, hst'.2⟩, hno, fun h => absurd rfl h, fun _ => ⟨rfl, hst'.1⟩,
      (fun w hw => by cases hw), (fun hw => by cases hw)⟩

end LineInv
end Sniper
