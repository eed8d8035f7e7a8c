import Sniper.Registry
import Sniper.CacheSetMap

namespace Sniper
open Outcome CacheSetLRU2

namespace CacheSetLRU2

variable {associativity : ℕ} {approx : Bool}

/-- The recency bits of the other partition are left alone. -/
theorem updateReplacementIndex_of_notMem {a j : ℕ} (ha : a ∈ ways associativity approx)
    (hj : j ∉ ways associativity approx) (bits : LruBits) :
    updateReplacementIndex associativity bits a j = bits j := by
  have h := updateReplacementIndex_ranks ha bits j
  rw [if_neg hj] at h
  exact UInt8.toNat_inj.mp h

end CacheSetLRU2

/-- A call on a `CacheSetLRU2`, or a change of the registered addresses. -/
inductive WayOp where
  | insert (tag : ℕ) (cstate : CState) (fill_buff : Option (ℕ → Byte)) (evict_buff : ℕ → Byte)
  | readLine (line_index offset : ℕ) (out_buff : Option (ℕ → Byte)) (bytes : ℕ)
  | writeLine (line_index offset : ℕ) (in_buff : Option (ℕ → Byte)) (bytes : ℕ)
  | invalidate (tag : ℕ)
  | addApprox (address set_number : ℕ)
  | delApprox (address : ℕ)

/-- A set with the registered addresses. `origin` says of each way whether the latest block inserted
into it was approximate. -/
structure WayState where
  set : CacheSet LruBits
  magic : MagicServer
  origin : ℕ → Bool

namespace WayState

def init (associativity : ℕ) : WayState where
  set := ⟨fun _ => .create, fun _ => 0, CacheSetLRU2.create associativity⟩
  magic := .init
  origin _ := false

/-- `cache_block_info->getTag() << (int)log2(m_blocksize)`. -/
def lineAddress (blocksize tag : ℕ) : ℕ := tag <<< Nat.log2 blocksize

/-- `m_approx_flag`, as `insert` sets it. -/
def approxFlag (g : Geometry) (S : WayState) (tag : ℕ) : Bool :=
  S.magic.isBlockApprox (lineAddress g.blocksize tag) g.blocksize

variable (g : Geometry) (h : 2 ≤ g.associativity)

def insert (S : WayState) (tag : ℕ) (cstate : CState) (fill_buff : Option (ℕ → Byte))
    (evict_buff : ℕ → Byte) : CacheSet LruBits × Option CacheSet.Evicted :=
  S.set.insert (lru2 g h) ⟨some tag, cstate⟩ fill_buff evict_buff (S.approxFlag g tag)

/-- The way `insert` puts the block in. -/
def wayFor (S : WayState) (tag : ℕ) : ℕ :=
  ((lru2 g h).policy.getReplacementIndex S.set.m_policy S.set.m_cache_block_info_array
    (S.approxFlag g tag)).1

def exec (S : WayState) : WayOp → Except Abort WayState
  | .insert tag cstate fill_buff evict_buff => .ok { S with
      set := (S.insert g h tag cstate fill_buff evict_buff).1
      origin := Function.update S.origin (S.wayFor g h tag) (S.approxFlag g tag) }
  | .readLine line_index offset out_buff bytes => do
    let (set, _) ← S.set.readLine (lru2 g h) line_index offset out_buff bytes true
    return { S with set := set }
  | .writeLine line_index offset in_buff bytes => do
    let set ← S.set.writeLine (lru2 g h) line_index offset in_buff bytes true
    return { S with set := set }
  | .invalidate tag => .ok { S with set := S.set.invalidate (lru2 g h) tag }
  | .addApprox address set_number =>
    .ok { S with magic := (S.magic.addApprox address set_number).1 }
  | .delApprox address => .ok { S with magic := (S.magic.delApprox address).1 }

def machine : Machine WayState WayOp Abort where
  enabled _
    | .readLine line_index .. | .writeLine line_index .. => line_index < g.associativity
    | _ => True
  exec := exec g h

/-- The exact ways hold blocks that were exact when they were inserted, the others approximate
ones. -/
def Separated (S : WayState) : Prop :=
  ∀ w < g.associativity, (S.set.m_cache_block_info_array w).isValid = true →
    (S.origin w = false ↔ w < approx_margin g.associativity)

variable {g h} {S : WayState}

theorem approxFlag_iff {tag : ℕ} : S.approxFlag g tag = true ↔
    ∃ i < g.blocksize, (lineAddress g.blocksize tag + i) % 2 ^ 64 ∈ S.magic.approx_vars.keys :=
  MagicServer.isBlockApprox_iff

theorem wayFor_mem (tag : ℕ) :
    S.wayFor g h tag ∈ ways g.associativity (S.approxFlag g tag) := victim_mem h

theorem wayFor_lt (tag : ℕ) : S.wayFor g h tag < g.associativity :=
  (mem_ways.mp (wayFor_mem tag)).2.trans_le (last_le h _)

theorem wayFor_lt_margin (tag : ℕ) :
    S.wayFor g h tag < approx_margin g.associativity ↔ S.approxFlag g tag = false := by
  have hflag := ways_of_mem (wayFor_mem (S := S) (h := h) tag)
  rw [← hflag]
  simp

theorem insert_replaced (tag : ℕ) (cstate : CState) (fill_buff : Option (ℕ → Byte))
    (evict_buff : ℕ → Byte) :
    CacheSet.Replaced (lru2 g h) S.set (S.wayFor g h tag)
      (updateReplacementIndex g.associativity S.set.m_policy (S.wayFor g h tag))
      ⟨some tag, cstate⟩ (S.insert g h tag cstate fill_buff evict_buff) :=
  CacheSet.insert_replaced rfl _ _ _

/-- What an insertion leaves alone: all of the other partition. -/
structure Untouched (g : Geometry) (S : CacheSet LruBits) (approx : Bool) (S' : CacheSet LruBits) :
    Prop where
  info : ∀ w ∈ ways g.associativity approx,
    S'.m_cache_block_info_array w = S.m_cache_block_info_array w
  block : ∀ w ∈ ways g.associativity approx, ∀ i < g.blocksize,
    S'.m_blocks (w * g.blocksize + i) = S.m_blocks (w * g.blocksize + i)
  bits : ∀ w ∈ ways g.associativity approx, S'.m_policy w = S.m_policy w

theorem insert_untouched (tag : ℕ) (cstate : CState) (fill_buff : Option (ℕ → Byte))
    (evict_buff : ℕ → Byte) :
    Untouched g S.set (!S.approxFlag g tag) (S.insert g h tag cstate fill_buff evict_buff).1 := by
  have hr := insert_replaced (S := S) (h := h) tag cstate fill_buff evict_buff
  have hne : ∀ w ∈ ways g.associativity (!S.approxFlag g tag),
      w ∉ ways g.associativity (S.approxFlag g tag) := by
    intro w hw hw'
    have h1 := ways_of_mem hw
    rw [ways_of_mem hw'] at h1
    cases hflag : S.approxFlag g tag <;> rw [hflag] at h1 <;> cases h1
  have hway : ∀ w ∈ ways g.associativity (!S.approxFlag g tag), w ≠ S.wayFor g h tag := by
    intro w hw he
    exact hne w hw (he ▸ wayFor_mem tag)
  refine ⟨?_, ?_, ?_⟩
  · intro w hw
    rw [hr.info, Function.update_of_ne (hway w hw)]
  · intro w hw i hi
    exact congrFun (hr.other w (hway w hw)) ⟨i, hi⟩
  · intro w hw
    rw [hr.policy]
    exact updateReplacementIndex_of_notMem (wayFor_mem tag) (hne w hw) _

/-- A call that keeps what the ways hold, but for blocks it invalidates. -/
theorem Separated.of_info {set : CacheSet LruBits} (hS : S.Separated g)
    (hinfo : ∀ w, (set.m_cache_block_info_array w).isValid = true →
      (S.set.m_cache_block_info_array w).isValid = true) :
    Separated g { S with set := set } := by
  intro w hw hvalid
  exact hS w hw (hinfo w hvalid)

theorem exec_separated (op : WayOp) (hS : S.Separated g) :
    Sat (fun _ => True) (S.exec g h op) (Separated g) := by
  cases op with
  | insert tag cstate fill_buff evict_buff =>
    have hr := insert_replaced (S := S) (h := h) tag cstate fill_buff evict_buff
    intro w hw hvalid
    simp only at hvalid ⊢
    -- the way that is filled is on the side of the address, the others keep what they have
    by_cases hway : w = S.wayFor g h tag
    · rw [hway, Function.update_self]
      exact (wayFor_lt_margin tag).symm
    · rw [hr.info, Function.update_of_ne hway] at hvalid
      rw [Function.update_of_ne hway]
      exact hS w hw hvalid
  | readLine line_index offset out_buff bytes =>
    apply Sat.bind (Q := fun r : CacheSet LruBits × Option (ℕ → Byte) =>
      r.1.m_cache_block_info_array = S.set.m_cache_block_info_array)
    · unfold CacheSet.readLine
      apply (sat_require (Q := fun _ => True) (fun _ => trivial) fun _ => trivial).bind
      intro _ _
      exact Cache.CacheSet.touch_info _ _ _
    · intro r hr
      apply hS.of_info
      intro w
      rw [hr]
      exact id
  | writeLine line_index offset in_buff bytes =>
    apply Sat.bind (Q := fun set : CacheSet LruBits =>
      set.m_cache_block_info_array = S.set.m_cache_block_info_array)
    · unfold CacheSet.writeLine
      apply (sat_require (Q := fun _ => True) (fun _ => trivial) fun _ => trivial).bind
      intro _ _
      exact Cache.CacheSet.touch_info _ _ _
    · intro set hset
      apply hS.of_info
      intro w
      rw [hset]
      exact id
  | invalidate tag =>
    apply hS.of_info
    intro w
    unfold CacheSet.invalidate
    split
    · rename_i index _
      by_cases hw : w = index
      · simp only [CacheSet.setInfo, hw, Function.update_self]
        intro hvalid
        cases hvalid
      · simp only [CacheSet.setInfo, Function.update_of_ne hw]
        exact id
    · exact id
  | addApprox address set_number => exact hS
  | delApprox address => exact hS

theorem run_separated {ops : List WayOp} (hrun : (machine g h).Run (init g.associativity) ops S) :
    S.Separated g := by
  apply Machine.Run.inv (I := Separated g) (E := fun _ => True) _ hrun
  · intro w _ hvalid
    cases hvalid
  · exact fun S op hS _ => exec_separated op hS

end WayState

open WayState in
/-- In every run, an insertion goes into a way below the margin exactly when no byte of the line is
registered, and leaves the ways on the other side as they are; so that exact and approximate blocks
never share a side. -/
theorem lru2_partition (g : Geometry) (h : 2 ≤ g.associativity) (ops : List WayOp) (S : WayState)
    (hrun : (machine g h).Run (init g.associativity) ops S) :
    S.Separated g ∧
    ∀ tag cstate fill_buff evict_buff, ∃ w < g.associativity,
      (w < approx_margin g.associativity ↔
        ¬∃ i < g.blocksize, (lineAddress g.blocksize tag + i) % 2 ^ 64 ∈ S.magic.approx_vars.keys) ∧
      (S.insert g h tag cstate fill_buff evict_buff).1.m_cache_block_info_array w =
        ⟨some tag, cstate⟩ ∧
      (∀ v, (S.insert g h tag cstate fill_buff evict_buff).2 = some v →
        v.info = S.set.m_cache_block_info_array w) ∧
      Untouched g S.set (decide (w < approx_margin g.associativity))
        (S.insert g h tag cstate fill_buff evict_buff).1 := by
  refine ⟨run_separated hrun, ?_⟩
  intro tag cstate fill_buff evict_buff
  have hr := insert_replaced (S := S) (h := h) tag cstate fill_buff evict_buff
  have hmargin := wayFor_lt_margin (S := S) (h := h) tag
  refine ⟨S.wayFor g h tag, wayFor_lt tag, ?_, ?_, hr.old, ?_⟩
  · rw [hmargin, ← approxFlag_iff, Bool.not_eq_true]
  · rw [hr.info, Function.update_self]
  · have hside : decide (S.wayFor g h tag < approx_margin g.associativity) =
        !S.approxFlag g tag := by
      rw [Bool.eq_iff_iff, decide_eq_true_iff, hmargin, Bool.not_eq_true']
    rw [hside]
    exact insert_untouched tag cstate fill_buff evict_buff

namespace CacheSetLRU2

/-- A line is inserted before and another after address 17 is registered. -/
def registerBetween : List WayOp :=
  [.insert 3 .invalid none fun _ => 0, .addApprox 17 0, .readLine 0 0 none 4,
    .insert 4 .invalid none fun _ => 0]

theorem registerBetween_run : ∃ S,
    (WayState.machine fourWays fourWays_two).Run (.init 4) registerBetween S ∧
      (S.set.m_cache_block_info_array 0).isValid = true ∧
      (S.set.m_cache_block_info_array 2).isValid = true := by
  refine ⟨_, .cons trivial rfl (.cons trivial rfl (.cons ?_ rfl (.cons trivial rfl (.nil _)))),
    ?_, ?_⟩
  · change 0 < 4
    decide
  · rfl
  · rfl

end CacheSetLRU2

theorem lru2_partition_registerBetween : ∃ S,
    (WayState.machine fourWays fourWays_two).Run (.init 4) registerBetween S ∧
      S.origin 0 = false ∧ S.origin 2 = true := by
  obtain ⟨S, hrun, h0, h2⟩ := registerBetween_run
  refine ⟨S, hrun, ?_, ?_⟩
  · exact ((lru2_partition fourWays fourWays_two registerBetween S hrun).1 0 (by decide) h0).mpr
      (by decide)
  · rw [← Bool.not_eq_false,
      (lru2_partition fourWays fourWays_two registerBetween S hrun).1 2 (by decide) h2]
    decide

end Sniper
