import Sniper.LastLevel

namespace Sniper
open Outcome

namespace CacheCntlr

variable {σ : Type} {K : Config σ} {s : State σ} {c requester : CntlrId} {address : ℕ}
  {D : Set CntlrId} {op : MemOp} {a : MemAccess}

section block

variable (hs : s.WellFormed K)
include hs

end block

section fill

variable (hK : K.Plain) (hs : s.WellFormed K) (hidle : Idle s) {o : CntlrId} (ho : K.Cntlr o)
  (hl : o.level < K.last) (dirty : DirtyBut K s (address / K.blocksize))
  (habs : s.line K (K.node o) (address / K.blocksize) = .invalid)

include hK hs hidle ho hl dirty habs

end fill

section request

variable (hK : K.Plain) (hs : s.WellFormed K) (hidle : Idle s) (ha : address % K.blocksize = 0)
  (hinc : Inclusive K.toHierarchy D (address / K.blocksize) (s.line K)) (hc : c.level ≤ K.last)

include hK hs hidle ha hinc hc

end request

section levels

variable {r : ℕ} {o : CntlrId} (hK : K.Plain) (ha : address % K.blocksize = 0) (hidle : Idle s)

include hK ha hidle

end levels

section core

variable (hK : K.Plain) (ha : K.Cntlr a.cntlr) (hl : a.cntlr.level < K.last)
  (halign : a.ca_address % K.blocksize = 0)
  (habs : s.line K (K.node a.cntlr) (a.ca_address / K.blocksize) = .invalid)

include hK ha hl halign habs

end core

end CacheCntlr

end Sniper
