import Sniper.Cache
import Sniper.MagicServer

namespace Sniper

/-- `fault_type_t` and `fault_injector_t`. -/
inductive FaultType where
  | toggle | set0 | set1
deriving DecidableEq, Repr

inductive InjectorKind where
  | none | random
deriving DecidableEq, Repr

structure FaultinjectionManager where
  m_type : FaultType
  m_injector : InjectorKind
deriving DecidableEq, Repr

/-- The `LOG_PRINT_ERROR` exits of `FaultinjectionManager::create`. -/
inductive ConfigError where
  /-- `Unknown fault-injection scheme %s` -/
  | unknownScheme (s_type : String)
  /-- `Unknown fault injector %s` -/
  | unknownInjector (s_injector : String)
deriving DecidableEq, Repr

namespace FaultinjectionManager

/-- The injector that `fault_injection/injector` names. -/
def injectorOf (s_injector : String) : Except ConfigError InjectorKind :=
  if s_injector = "none" then return .none
  else if s_injector = "random" then return .random
  else .error (.unknownInjector s_injector)

/-- `create`, from `fault_injection/type` and `fault_injection/injector`. -/
def create (s_type s_injector : String) : Except ConfigError (Option FaultinjectionManager) :=
  if s_type = "toggle" then (fun i => some ⟨.toggle, i⟩) <$> injectorOf s_injector
  else if s_type = "set0" then (fun i => some ⟨.set0, i⟩) <$> injectorOf s_injector
  else if s_type = "set1" then (fun i => some ⟨.set1, i⟩) <$> injectorOf s_injector
  else if s_type = "none" then return none
  else .error (.unknownScheme s_type)

/-- `applyFault` returns before its loop, which would mask `data` by the type. -/
def applyFault (_manager : FaultinjectionManager) (_read_address _data_size : ℕ)
    (data _fault : ℕ → Byte) : ℕ → Byte := data

end FaultinjectionManager

/-- The generators of a `FaultInjectorRandom`: for reads, hold times and writes, of either set. -/
inductive Generator where
  | R | H | W | R_2 | H_2 | W_2
deriving DecidableEq, Repr

/-- One bit of the byte of an address that a fault has changed. -/
structure Fault where
  addr : ℕ
  before : Byte
  after : Byte

/-- The outcomes of the draws of a `FaultInjectorRandom`, how many of them it has used, and the
history of the faults it has injected. -/
structure RandomState where
  outcome : Generator → ℕ → Bool
  used : Generator → ℕ
  injected : List Fault

namespace RandomState

variable (r : RandomState)

def draw (g : Generator) : Bool × RandomState :=
  (r.outcome g (r.used g), { r with used := Function.update r.used g (r.used g + 1) })

/-- Flips bit `j` of a byte when the next draw says so. -/
def tryFlip (g : Generator) (addr j : ℕ) (b : Byte) : Byte × RandomState :=
  let (hit, r) := r.draw g
  if hit then
    let b' := b ^^^ (1 <<< UInt8.ofNat j)
    (b', { r with injected := r.injected ++ [⟨addr, b, b'⟩] })
  else (b, r)

/-- The loop of `preRead` over the first `n` bits of a byte. -/
def readBits (gR gH : Generator) (addr : ℕ) (b : Byte) : ℕ → Byte × RandomState
  | 0 => (b, r)
  | n + 1 =>
    let (b, r) := readBits gR gH addr b n
    let (b, r) := r.tryFlip gR addr n b
    r.tryFlip gH addr n b

/-- The loop of `postWrite` over the first `n` bits of a byte. -/
def writeBits (gW : Generator) (addr : ℕ) (b : Byte) : ℕ → Byte × RandomState
  | 0 => (b, r)
  | n + 1 =>
    let (b, r) := writeBits gW addr b n
    r.tryFlip gW addr n b

end RandomState

/-- What an injector sees: the registry and its own generators. -/
structure Env where
  magic : MagicServer
  rng : RandomState

namespace FaultInjectorRandom

/-- What `preRead` does to one byte of an address. -/
def readByte (e : Env) (addr : ℕ) (b : Byte) : Byte × RandomState :=
  let setnum := e.magic.approxAddrSetnum addr
  if setnum = 0 then e.rng.readBits .R .H addr b 8
  else if setnum = 1 then e.rng.readBits .R_2 .H_2 addr b 8
  else (b, e.rng)

def writeByte (e : Env) (addr : ℕ) (b : Byte) : Byte × RandomState :=
  let setnum := e.magic.approxAddrSetnum addr
  if setnum = 0 then e.rng.writeBits .W addr b 8
  else if setnum = 1 then e.rng.writeBits .W_2 addr b 8
  else (b, e.rng)

/-- The loop over the bytes from `addr` on. -/
def overBytes (f : Env → ℕ → Byte → Byte × RandomState) (e : Env) (addr : ℕ) (fault : ℕ → Byte) :
    ℕ → (ℕ → Byte) × Env
  | 0 => (fault, e)
  | n + 1 =>
    let (fault, e) := overBytes f e addr fault n
    let (b, r) := f e (addr + n) (fault n)
    (Function.update fault n b, { e with rng := r })

def preRead (e : Env) (addr data_size : ℕ) (fault : ℕ → Byte) : (ℕ → Byte) × Env :=
  overBytes readByte e addr fault data_size

def postWrite (e : Env) (addr data_size : ℕ) (fault : ℕ → Byte) : (ℕ → Byte) × Env :=
  overBytes writeByte e addr fault data_size

end FaultInjectorRandom

/-- `getFaultInjector`. -/
def FaultinjectionManager.getFaultInjector (manager : FaultinjectionManager) : FaultInjector Env :=
  match manager.m_injector with
  | .none => .none Env
  | .random => ⟨FaultInjectorRandom.preRead, FaultInjectorRandom.postWrite⟩

/-- An injector changes no bytes but those of registered addresses, and not the registry. -/
structure Confined (f : Env → ℕ → ℕ → (ℕ → Byte) → (ℕ → Byte) × Env) : Prop where
  magic : ∀ e addr n fault, (f e addr n fault).2.magic = e.magic
  bytes : ∀ e addr n fault i, e.magic.isApprox (addr + i) = false →
    (f e addr n fault).1 i = fault i

namespace FaultInjectorRandom

variable {f : Env → ℕ → Byte → Byte × RandomState}

theorem overBytes_magic (e : Env) (addr : ℕ) (fault : ℕ → Byte) (n : ℕ) :
    (overBytes f e addr fault n).2.magic = e.magic := by
  induction n with
  | zero => rfl
  | succ n ih => exact ih

/-- The bytes the loop has not come to are as they were. -/
theorem overBytes_later (e : Env) (addr : ℕ) (fault : ℕ → Byte) {n i : ℕ} (h : n ≤ i) :
    (overBytes f e addr fault n).1 i = fault i := by
  induction n with
  | zero => rfl
  | succ n ih =>
    refine (Function.update_of_ne (by omega) ..).trans ?_
    exact ih (by omega)

theorem overBytes_confined
    (hf : ∀ e addr b, e.magic.isApprox addr = false → f e addr b = (b, e.rng)) :
    Confined fun e addr n fault => overBytes f e addr fault n where
  magic := fun e addr n fault => overBytes_magic e addr fault n
  bytes := by
    intro e addr n fault i hi
    induction n with
    | zero => rfl
    | succ n ih =>
      by_cases hin : i = n
      · subst hin
        have hm : (overBytes f e addr fault i).2.magic.isApprox (addr + i) = false := by
          rwa [overBytes_magic]
        refine (Function.update_self ..).trans ?_
        rw [hf _ _ _ hm]
        exact ih
      · exact (Function.update_of_ne hin ..).trans ih

theorem approxAddrSetnum_of_notApprox {m : MagicServer} {addr : ℕ} (h : m.isApprox addr = false) :
    m.approxAddrSetnum addr = -1 := by
  unfold MagicServer.approxAddrSetnum
  unfold MagicServer.isApprox at h
  cases hv : m.approx_vars.find addr with
  | none => rfl
  | some v =>
    rw [hv] at h
    cases h

theorem readByte_of_notApprox (e : Env) (addr : ℕ) (b : Byte) (h : e.magic.isApprox addr = false) :
    readByte e addr b = (b, e.rng) := by
  unfold readByte
  rw [approxAddrSetnum_of_notApprox h]
  rfl

theorem writeByte_of_notApprox (e : Env) (addr : ℕ) (b : Byte)
    (h : e.magic.isApprox addr = false) : writeByte e addr b = (b, e.rng) := by
  unfold writeByte
  rw [approxAddrSetnum_of_notApprox h]
  rfl

end FaultInjectorRandom

namespace FaultinjectionManager

variable (manager : FaultinjectionManager)

theorem preRead_confined : Confined manager.getFaultInjector.preRead := by
  unfold getFaultInjector
  cases manager.m_injector with
  | none => exact ⟨fun _ _ _ _ => rfl, fun _ _ _ _ _ _ => rfl⟩
  | random =>
    exact FaultInjectorRandom.overBytes_confined FaultInjectorRandom.readByte_of_notApprox

theorem postWrite_confined : Confined manager.getFaultInjector.postWrite := by
  unfold getFaultInjector
  cases manager.m_injector with
  | none => exact ⟨fun _ _ _ _ => rfl, fun _ _ _ _ _ _ => rfl⟩
  | random =>
    exact FaultInjectorRandom.overBytes_confined FaultInjectorRandom.writeByte_of_notApprox

end FaultinjectionManager
end Sniper
