import Sniper.DirtyPath
import Sniper.DirectoryProtocol
import Sniper.Resume

namespace Sniper
open Outcome

namespace Protocol

variable {σ : Type} {K : Config σ} {P P' : Protocol σ} {address : ℕ}

/-- The state of a line at the last level. -/
abbrev lineState (K : Config σ) (P : Protocol σ) (t : ℕ) : CState := P.sys.mem.line K K.llc t

/-- The waiter waits for an access of its core to the address. -/
def Linked (P : Protocol σ) (address : ℕ) (w : CacheDirectoryWaiter) : Prop :=
  ∃ a, P.sys.pending w.cache_cntlr = some a ∧ a.ca_address = address ∧
    w.exclusive = decide (a.op ≠ .read)

/-- What holds of the waiters of all addresses and of their histories. -/
structure Queues (P : Protocol σ) : Prop where
  linked : ∀ address, ∀ w ∈ P.asleep address, P.Linked address w
  distinct : ∀ address, ((P.asleep address).map CacheDirectoryWaiter.cache_cntlr).Nodup
  enqueued : ∀ address, P.enqueued address = P.dequeued address ++ P.waiters address
  woken : ∀ address, P.woken address = P.dequeued address ++ P.inHand address

theorem Queues.congr (h : Queues P) (hp : P'.sys.pending = P.sys.pending)
    (hq : P'.waiters = P.waiters) (ha : ∀ address, P'.asleep address = P.asleep address)
    (he : P'.enqueued = P.enqueued) (hd : P'.dequeued = P.dequeued)
    (hw : ∀ address, P'.woken address = P.dequeued address ++ P'.inHand address) : Queues P' where
  linked address w hwm := by
    rw [ha] at hwm
    unfold Linked
    rw [hp]
    exact h.linked address w hwm
  distinct address := by
    rw [ha]
    exact h.distinct address
  enqueued address := by
    rw [he, hd, hq]
    exact h.enqueued address
  woken address := by
    rw [hd]
    exact hw address

/-- What every step of the network thread, the cores and the directory keeps. -/
structure Inv (K : Config σ) (P : Protocol σ) : Prop where
  sound : Sys.Sound K P.sys
  line : ∀ t, LineInv (P.lineState K t) (P.waiters (t * K.blocksize))
    (P.unanswered (t * K.blocksize)) P.handler (t * K.blocksize)
  handled : ∀ address, P.handler.address = some address → address % K.blocksize = 0
  asked : ∀ address, P.unanswered address ≠ [] → address % K.blocksize = 0
  queues : Queues P

theorem line_of_aligned (h : address % K.blocksize = 0) :
    address / K.blocksize * K.blocksize = address :=
  Nat.div_mul_cancel (Nat.dvd_of_mod_eq_zero h)

theorem Inv.at (h : Inv K P) (ha : address % K.blocksize = 0) :
    LineInv (P.lineState K (address / K.blocksize)) (P.waiters address) (P.unanswered address)
      P.handler address := by
  have := h.line (address / K.blocksize)
  rwa [line_of_aligned ha] at this

section record

variable {sys : Sys σ}

end record

/-- A step that leaves the handler and the waiters alone, and at most upgrades one line silently. -/
theorem Inv.silent (h : Inv K P) {sys : Sys σ} (hs : Sys.Sound K sys)
    (hp : sys.pending = P.sys.pending)
    (hw : sys.mem.m_directory_waiters = P.sys.mem.m_directory_waiters) {t : ℕ}
    (hup : SilentUpgrade K t P.sys.mem sys.mem) : Inv K { P with sys := sys } where
  sound := hs
  line t' := by
    have hq : ({ P with sys := sys } : Protocol σ).waiters = P.waiters := hw
    rw [hq]
    refine (h.line t').upgrade ?_
    rcases hup t' with hst | ⟨rfl, hst⟩
    · exact .inl hst
    · exact .inr hst
  handled := h.handled
  asked := h.asked
  queues := by
    refine h.queues.congr hp hw (fun address => ?_) rfl rfl fun address => ?_
    · unfold asleep waiters
      rw [hw]
    · rw [show ({ P with sys := sys } : Protocol σ).inHand address = P.inHand address by
        unfold inHand waiters
        rw [hw]]
      exact h.queues.woken address

section enqueue

variable {a : MemAccess} {sys : Sys σ} {w : CacheDirectoryWaiter}
  (hw : sys.mem.m_directory_waiters = Function.update P.sys.mem.m_directory_waiters address
    (P.waiters address ++ [w]))

include hw

end enqueue

section receive

variable (h : Inv K P) (hidle : P.handler = .idle) {m : ShmemMsg} {s : State σ}
  (hs : Sys.Sound K ⟨s, P.sys.pending⟩) (hq : s.m_directory_waiters = P.sys.mem.m_directory_waiters)
  (hrec : Received m.type (P.lineState K (m.address / K.blocksize))
    (s.line K K.llc (m.address / K.blocksize)))

include h hidle hs hq hrec

end receive

section drain

variable (h : Inv K P) (hh : P.handler = .draining address)

include h hh

end drain

section drains

variable (hK : K.Plain) (hl : 0 < K.last) (hd : K.m_dram_cntlr = false)

include hK hl hd

end drains

end Protocol

end Sniper
