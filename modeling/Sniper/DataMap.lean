import Sniper.CacheState

namespace Sniper
open Outcome

/-- `DramCntlr::m_data_map`: the blocks DRAM holds, by the address they were asked for. -/
abbrev DataMap := ℕ → Option (ℕ → Byte)

namespace DataMap

/-- The first access of a block creates it, filled with zeros. -/
def touch (m : DataMap) (address : ℕ) : DataMap :=
  match m address with
  | some _ => m
  | none => Function.update m address (some fun _ => 0)

def block (m : DataMap) (address : ℕ) : ℕ → Byte := (m address).getD fun _ => 0

theorem touch_self (m : DataMap) (address : ℕ) :
    touch m address address = some (m.block address) := by
  unfold touch block
  cases h : m address with
  | some b => simp [h]
  | none => simp

theorem touch_of_ne (m : DataMap) {address a : ℕ} (h : a ≠ address) : touch m address a = m a := by
  unfold touch
  cases m address with
  | some b => rfl
  | none => exact Function.update_of_ne h _ _

end DataMap
end Sniper
