import Sniper.CacheState

namespace Sniper
open Outcome

/-- The sizes a cache is built with, its address hash, and whether a fault-injection manager
exists, so that the sets allocate `m_blocks`. -/
structure Geometry where
  associativity : ℕ
  blocksize : ℕ
  blocksize_pos : 0 < blocksize
  setIndex : ℕ → ℕ
  stores : Bool

/-- A replacement policy with state `σ`: the virtual functions of `CacheSet`. -/
structure Replacement (σ : Type) (associativity : ℕ) where
  getReplacementIndex : σ → (ℕ → CacheBlockInfo) → Bool → Fin associativity × σ
  updateReplacementIndex : σ → ℕ → σ

structure CacheParams (σ : Type) extends Geometry where
  policy : Replacement σ associativity

structure CacheSet (σ : Type) where
  m_cache_block_info_array : ℕ → CacheBlockInfo
  m_blocks : ℕ → Byte
  m_policy : σ

namespace CacheSet

variable {σ : Type} (k : CacheParams σ) (S : CacheSet σ)

/-- Offset in `m_blocks` of the byte `getDataPtr(line_index, offset)` points at. -/
def getDataPtr (line_index offset : ℕ) : ℕ := line_index * k.blocksize + offset

def touch (line_index : ℕ) (update_replacement : Bool) : CacheSet σ :=
  if update_replacement then
    { S with m_policy := k.policy.updateReplacementIndex S.m_policy line_index }
  else S

/-- Returns the set and `out_buff` after the copy; `none` is a NULL `out_buff`. -/
def readLine (line_index offset : ℕ) (out_buff : Option (ℕ → Byte)) (bytes : ℕ)
    (update_replacement : Bool) : Except Abort (CacheSet σ × Option (ℕ → Byte)) := do
  require (offset + bytes ≤ k.blocksize) .lineOverrun
  let out := if k.stores then
      out_buff.map fun out => Buffer.copy out 0 S.m_blocks (getDataPtr k line_index offset) bytes
    else out_buff
  return (S.touch k line_index update_replacement, out)

def writeLine (line_index offset : ℕ) (in_buff : Option (ℕ → Byte)) (bytes : ℕ)
    (update_replacement : Bool) : Except Abort (CacheSet σ) := do
  require (offset + bytes ≤ k.blocksize) .lineOverrun
  let blocks := match in_buff with
    | some buf => if k.stores then
        Buffer.copy S.m_blocks (getDataPtr k line_index offset) buf 0 bytes
      else S.m_blocks
    | none => S.m_blocks
  return { S with m_blocks := blocks }.touch k line_index update_replacement

/-- The loop of `find` from `index = m_associativity - 1` down to 0. -/
def findFrom (info : ℕ → CacheBlockInfo) (tag : ℕ) : ℕ → Option ℕ
  | 0 => none
  | index + 1 => if (info index).tag = some tag then some index else findFrom info tag index

def find (tag : ℕ) : Option ℕ := findFrom S.m_cache_block_info_array tag k.associativity

def setInfo (line_index : ℕ) (b : CacheBlockInfo) : CacheSet σ :=
  { S with m_cache_block_info_array := Function.update S.m_cache_block_info_array line_index b }

def invalidate (tag : ℕ) : CacheSet σ :=
  match S.find k tag with
  | some index => S.setInfo index .create
  | none => S

/-- What `insert` hands out when it replaces a valid way. -/
structure Evicted where
  info : CacheBlockInfo
  buf : ℕ → Byte

/-- `m_approx_flag` is set for the call of `getReplacementIndex` when the block is approximate. -/
def insert (b : CacheBlockInfo) (fill_buff : Option (ℕ → Byte)) (evict_buff : ℕ → Byte)
    (approx : Bool) : CacheSet σ × Option Evicted :=
  let (way, policy) := k.policy.getReplacementIndex S.m_policy S.m_cache_block_info_array approx
  let index := way.val
  let old := S.m_cache_block_info_array index
  let evicted := if old.isValid then
      some ⟨old, if k.stores then
        Buffer.copy evict_buff 0 S.m_blocks (getDataPtr k index 0) k.blocksize else evict_buff⟩
    else none
  let blocks := match fill_buff with
    | some buf => if k.stores then
        Buffer.copy S.m_blocks (getDataPtr k index 0) buf 0 k.blocksize
      else S.m_blocks
    | none => S.m_blocks
  ({ S.setInfo index b with m_blocks := blocks, m_policy := policy }, evicted)

end CacheSet
end Sniper
