import Sniper.System

namespace Sniper
open Outcome

/-- A core changes the last level in one way only: it upgrades the EXCLUSIVE line it writes. -/
def SilentUpgrade {σ : Type} (K : Config σ) (t : ℕ) (s s' : State σ) : Prop :=
  ∀ t', s'.line K K.llc t' = s.line K K.llc t' ∨
    t' = t ∧ s.line K K.llc t = .exclusive ∧ s'.line K K.llc t = .modified

/-- What a message of the directory makes of the state of its line at the last level. -/
def Received : MsgType → CState → CState → Prop
  | .exRep, x, y => x = .invalid ∧ y = .exclusive
  | .shRep, x, y => x = .invalid ∧ y = .shared
  | .upgradeRep, x, y => x = .sharedUpgrading ∧ y = .modified ∨ x = .invalid ∧ y = .invalid
  | .invReq, _, y | .flushReq, _, y => y = .invalid
  | .wbReq, x, y => y = x ∧ (x = .invalid ∨ x = .sharedUpgrading) ∨ y = .shared ∧
      x ≠ .invalid ∧ x ≠ .sharedUpgrading
  | _, _, _ => False

namespace CacheCntlr

variable {σ : Type} {K : Config σ} {s s' : State σ} {address : ℕ} {a : MemAccess}

end CacheCntlr

namespace Sys

variable {σ : Type} {K : Config σ} {S S' : Sys σ} {a : MemAccess}

end Sys
end Sniper
