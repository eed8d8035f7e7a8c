import Sniper.Cache

namespace Sniper

/-- A cache controller: the level of its component, 0 for the first-level caches, and its core. -/
structure CntlrId where
  level : ℕ
  core : ℕ
deriving DecidableEq, Repr

/-- The controllers of one shared last-level cache. Controller `j` of level `l` sends its misses to
controller `next l j` of the level below it; it works on the cache of its master, `master l j`. -/
structure Hierarchy where
  last : ℕ
  width : ℕ → ℕ
  next : ℕ → ℕ → ℕ
  master : ℕ → ℕ → ℕ
  next_lt : ∀ {l j}, l < last → j < width l → next l j < width (l + 1)
  master_lt : ∀ {l j}, j < width l → master l j < width l
  master_master : ∀ {l j}, j < width l → master l (master l j) = master l j
  master_next : ∀ {l j}, l < last → j < width l →
    master (l + 1) (next l (master l j)) = master (l + 1) (next l j)
  width_last : 0 < width last
  master_last : ∀ {j}, j < width last → master last j = 0

namespace Hierarchy

variable (H : Hierarchy)

/-- `m_master`, as the controller that owns the cache. -/
def node (o : CntlrId) : CntlrId := ⟨o.level, H.master o.level o.core⟩

/-- `m_next_cache_cntlr`, for controllers that are not at the last level. -/
def nextCntlr (o : CntlrId) : CntlrId := ⟨o.level + 1, H.next o.level o.core⟩

/-- The controller of the last level that the misses of controller `o` end at. -/
def lastCntlr (o : CntlrId) : CntlrId := (nextCntlr H)^[H.last - o.level] o

/-- The cache below the cache of `c`. -/
def below (c : CntlrId) : CntlrId := H.node (H.nextCntlr c)

/-- The master controllers of level `l` that `setPrevCacheCntlrs` appends to the list of master
`m` of level `l + 1`. -/
def prev (l m : ℕ) : List ℕ :=
  (List.range (H.width l)).filter fun j =>
    decide (H.master l j = j) && decide (H.master (l + 1) (H.next l j) = m)

/-- `m_prev_cache_cntlrs`. -/
def prevCntlrs (c : CntlrId) : List CntlrId :=
  match c.level with
  | 0 => []
  | l + 1 => (H.prev l c.core).map (⟨l, ·⟩)

/-- `lastLevelCache()`, as a master. -/
def llc : CntlrId := ⟨H.last, 0⟩

def isLastLevel (c : CntlrId) : Prop := ¬c.level < H.last

instance (c : CntlrId) : Decidable (H.isLastLevel c) :=
  inferInstanceAs (Decidable (¬c.level < H.last))

/-- A controller of the hierarchy, master or not. -/
def Cntlr (o : CntlrId) : Prop := o.level ≤ H.last ∧ o.core < H.width o.level

instance (o : CntlrId) : Decidable (H.Cntlr o) :=
  inferInstanceAs (Decidable (o.level ≤ H.last ∧ o.core < H.width o.level))

/-- A cache of the hierarchy. -/
def Node (c : CntlrId) : Prop := H.Cntlr c ∧ H.master c.level c.core = c.core

instance (c : CntlrId) : Decidable (H.Node c) :=
  inferInstanceAs (Decidable (H.Cntlr c ∧ H.master c.level c.core = c.core))

end Hierarchy

/-- `n` first-level caches over one cache at each of `m + 1` levels. -/
def Hierarchy.funnel (m n : ℕ) : Hierarchy where
  last := m + 1
  width l := if l = 0 then n else 1
  next _ _ := 0
  master _ j := j
  next_lt _ _ := by simp
  master_lt h := h
  master_master _ := rfl
  master_next _ _ := rfl
  width_last := by simp
  master_last h := by simpa using h

/-- The hierarchy with the configuration of each cache. All caches have one block size, and they
store data when there is a fault-injection manager. -/
structure Config (σ : Type) extends Hierarchy where
  blocksize : ℕ
  blocksize_pos : 0 < blocksize
  stores : Bool
  associativity : CntlrId → ℕ
  setIndex : CntlrId → ℕ → ℕ
  policy : ∀ c, Replacement σ (associativity c)
  m_cache_writethrough : CntlrId → Bool
  m_perfect : CntlrId → Bool
  m_passthrough : CntlrId → Bool
  m_coherent : CntlrId → Bool
  /-- the last level has direct DRAM access, else it talks to the directory -/
  m_dram_cntlr : Bool
  m_num_sets : ℕ
  /-- what an uninitialised local buffer contains -/
  garbage : ℕ → Byte

/-- Coherent write-back caches of one block each. -/
def Hierarchy.oneBlock (H : Hierarchy) (dram : Bool) : Config Unit where
  toHierarchy := H
  blocksize := 64
  blocksize_pos := by decide
  stores := true
  associativity _ := 1
  setIndex _ _ := 0
  policy _ := ⟨fun _ _ _ => (0, ()), fun _ _ => ()⟩
  m_cache_writethrough _ := false
  m_perfect _ := false
  m_passthrough _ := false
  m_coherent _ := true
  m_dram_cntlr := dram
  m_num_sets := 1
  garbage _ := 0

namespace Config

variable {σ : Type} (K : Config σ)

def params (c : CntlrId) : CacheParams σ where
  associativity := K.associativity c
  blocksize := K.blocksize
  blocksize_pos := K.blocksize_pos
  setIndex := K.setIndex c
  stores := K.stores
  policy := K.policy c

/-- `CacheMasterCntlr::getSetLock`, as the index into `m_setlocks`. -/
def getSetLock (addr : ℕ) : ℕ := addr / K.blocksize % K.m_num_sets

end Config
end Sniper
