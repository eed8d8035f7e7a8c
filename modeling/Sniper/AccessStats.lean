import Sniper.Library.FamilySum
import Sniper.MagicServer
import Sniper.SharedTransparent
import Sniper.StackLock
import Sniper.System

namespace Sniper
open Outcome

/-- `Prefetch::prefetch_type_t`. -/
inductive PrefetchType where
  | none | own | other
deriving DecidableEq

/-- What the next level is told. -/
def PrefetchType.next : PrefetchType → PrefetchType
  | .none => .none
  | _ => .other

/-- How often something was counted: in all, by the state of the line, and by its set number. -/
structure AccessCount where
  total : ℕ
  state : CState → ℕ
  approx : ℕ
  approx_2 : ℕ

/-- Once more, for a line in the state `st`. -/
def AccessCount.count (n : AccessCount) (setnum : ℤ) (st : CState) : AccessCount where
  total := n.total + 1
  state := Function.update n.state st (n.state st + 1)
  approx := if setnum = 0 then n.approx + 1 else n.approx
  approx_2 := if setnum = 1 then n.approx_2 + 1 else n.approx_2

/-- The counters of `stats` that the accesses of a controller change. -/
structure AccessStats where
  loads : AccessCount
  stores : AccessCount
  load_misses : AccessCount
  store_misses : AccessCount
  load_overlapping_misses : ℕ
  store_overlapping_misses : ℕ
  loads_prefetch : ℕ
  stores_prefetch : ℕ
  prefetches : ℕ

namespace AccessStats

def zero : AccessStats where
  loads := ⟨0, fun _ => 0, 0, 0⟩
  stores := ⟨0, fun _ => 0, 0, 0⟩
  load_misses := ⟨0, fun _ => 0, 0, 0⟩
  store_misses := ⟨0, fun _ => 0, 0, 0⟩
  load_overlapping_misses := 0
  store_overlapping_misses := 0
  loads_prefetch := 0
  stores_prefetch := 0
  prefetches := 0

/-- `CacheCntlr::updateCounters` for a line with the set number `setnum`; `overlapping` tells that a
miss to the line is still in progress. -/
def updateCounters (stats : AccessStats) (op : MemOp) (setnum : ℤ) (cache_hit : Bool) (st : CState)
    (isPrefetch : PrefetchType) (overlapping : Bool) : AccessStats :=
  if op = .write then
    let stats := if isPrefetch ≠ .none then
        { stats with stores_prefetch := stats.stores_prefetch + 1 }
      else stats
    if isPrefetch ≠ .own then
      let stats := { stats with stores := stats.stores.count setnum st }
      if cache_hit = false ∨ overlapping = true then
        let stats := { stats with store_misses := stats.store_misses.count setnum st }
        if overlapping then
          { stats with store_overlapping_misses := stats.store_overlapping_misses + 1 }
        else stats
      else stats
    else stats
  else
    let stats := if isPrefetch ≠ .none then
        { stats with loads_prefetch := stats.loads_prefetch + 1 }
      else stats
    if isPrefetch ≠ .own then
      let stats := { stats with loads := stats.loads.count setnum st }
      if cache_hit = false then
        let stats := { stats with load_misses := stats.load_misses.count setnum st }
        if overlapping then
          { stats with load_overlapping_misses := stats.load_overlapping_misses + 1 }
        else stats
      else stats
    else stats

def prefetch (stats : AccessStats) : AccessStats :=
    { stats with prefetches := stats.prefetches + 1 }

/-- A hit at the first level while `m_l1_mshr` still has the line. -/
def overlap (stats : AccessStats) (op : MemOp) : AccessStats :=
  if op = .write then
    { stats with store_overlapping_misses := stats.store_overlapping_misses + 1 }
  else { stats with load_overlapping_misses := stats.load_overlapping_misses + 1 }

end AccessStats

/-- The counters of each controller. -/
abbrev Stats := CntlrId → AccessStats

/-- What a call counts by, besides the caches: the registry, and the misses in progress. -/
structure CountContext where
  magic : MagicServer
  overlapping : CntlrId → Bool
  l1_overlapping : Bool

namespace Stats

variable {σ : Type} (K : Config σ) (ctx : CountContext) (stats : Stats) (o : CntlrId)

def updateCounters (op : MemOp) (address : ℕ) (cache_hit : Bool) (st : CState)
    (isPrefetch : PrefetchType) : Stats :=
  Function.update stats o ((stats o).updateCounters op
    (ctx.magic.approxBlockSetnum address K.blocksize) cache_hit st isPrefetch (ctx.overlapping o))

def prefetch : Stats := Function.update stats o (stats o).prefetch

def overlap (op : MemOp) : Stats :=
  if ctx.l1_overlapping then Function.update stats o ((stats o).overlap op) else stats

end Stats

/-! The operations of a hierarchy with their counters -/

namespace Counted
open CacheCntlr

variable {σ : Type} (K : Config σ) (ctx : CountContext)

/-- `processShmemReqFromPrevCache` up to a miss, and what it does on a hit. -/
def lookup (s : State σ) (stats : Stats) (o requester : CntlrId) (op : MemOp) (address : ℕ)
    (count : Bool) (isPrefetch : PrefetchType)
    (miss : State σ → Stats → Except Abort (State σ × HitWhere × Stats)) :
    Except Abort (State σ × HitWhere × Stats) := do
  let c := K.node o
  let first_hit := op.permits (getCacheState K s c address)
  let (s, cache_hit) ← adjustHit K s o op address (K.m_passthrough c && count)
  let stats := if count then
      stats.updateCounters K ctx o op address cache_hit (getCacheState K s c address) isPrefetch
    else stats
  if cache_hit then do
    let (s, hit_where) ← answerHit K s c requester op address (first_hit && count)
    return (s, hit_where, stats)
  else do
    let s ← snoopOnUpgrade K s c requester address
    miss s stats

/-- `processShmemReqFromPrevCache`, with the counters. -/
def processShmemReqFromPrevCache : ℕ → State σ → Stats → CntlrId → CntlrId → MemOp → ℕ → Bool →
    PrefetchType → Except Abort (State σ × HitWhere × Stats)
  | 0, s, stats, o, requester, op, address, count, isPrefetch =>
    lookup K ctx s stats o requester op address count isPrefetch fun s stats => do
      let (s, hit_where) ← lastLevelMiss K s o requester op address
      let (s, hit_where) ← answerMiss K s (K.node o) address hit_where
      return (s, hit_where, stats)
  | r + 1, s, stats, o, requester, op, address, count, isPrefetch =>
    lookup K ctx s stats o requester op address count isPrefetch fun s stats => do
      let s ← dropBlock K s (K.node o) address
      let (s, hit_where, stats) ←
        processShmemReqFromPrevCache r s stats (K.nextCntlr o) o op address
        count isPrefetch.next
      let s ← fillFromNextLevel K s o op address hit_where
      let (s, hit_where) ← answerMiss K s (K.node o) address hit_where
      return (s, hit_where, stats)

def requestNext (s : State σ) (stats : Stats) (a : MemAccess) :
    Except Abort (State σ × HitWhere × Stats) := do
  require (a.cntlr.level < K.last) .nullPointer
  processShmemReqFromPrevCache K ctx (K.last - (a.cntlr.level + 1)) s stats (K.nextCntlr a.cntlr)
    a.cntlr a.op a.ca_address a.count .none

def processMemOpFromCore (s : State σ) (stats : Stats) (a : MemAccess) :
    Except Abort (State σ × Reply × Stats) := do
  let c := K.node a.cntlr
  require (a.ca_address % K.blocksize = 0) .notLineAligned
  require (a.offset + a.data_length ≤ K.blocksize) .accessPastBlock
  let s ← acquireForAccess K s a
  let (s, cache_hit) ← adjustHit K s a.cntlr a.op a.ca_address (K.m_passthrough c)
  let stats := if a.count then
      stats.updateCounters K ctx a.cntlr a.op a.ca_address cache_hit
        (getCacheState K s c a.ca_address) .none
    else stats
  if cache_hit then do
    let (s, reply) ← finishAccess K s a (.cache c.level)
    return (s, reply, stats.overlap ctx a.cntlr a.op)
  else do
    require (a.lock_signal ≠ .unlock) .unlockMiss
    let s := if lockAll K a then s else s.lockEvent (.upgrade (K.getSetLock a.ca_address))
    let s ← dropForMiss K s c a.ca_address
    let (s, hit_where, stats) ← requestNext K ctx s stats a
    if hit_where = .miss then
      return (s.lockEvent (.releaseExclusive (K.getSetLock a.ca_address)), .waiting, stats)
    else do
      let (s, reply) ← completeMiss K s a hit_where
      return (s, reply, stats)

def doPrefetch (s : State σ) (stats : Stats) (o : CntlrId) (prefetch_address : ℕ) :
    Except Abort (State σ × HitWhere × Stats) := do
  let stats := stats.prefetch o
  let s := s.lockEvent (.acquireExclusive (K.getSetLock prefetch_address))
  let (s, hit_where, stats) ←
    processShmemReqFromPrevCache K ctx (K.last - o.level) s stats o o .read
    prefetch_address true .own
  return (s.lockEvent (.releaseExclusive (K.getSetLock prefetch_address)), hit_where, stats)

variable {K ctx} {s : State σ} {stats : Stats} {o requester : CntlrId} {op : MemOp} {address : ℕ}
  {count : Bool} {isPrefetch : PrefetchType}

/-- The counters change nothing of what a request does. -/
theorem request_uncounted (ctx : CountContext) (r : ℕ) : ∀ (s : State σ) (stats : Stats)
    (o requester : CntlrId)
    (isPrefetch : PrefetchType),
    (fun x => (x.1, x.2.1)) <$> processShmemReqFromPrevCache K ctx r s stats o requester op address
        count isPrefetch =
      CacheCntlr.processShmemReqFromPrevCache K r s o requester op address count := by
  induction r with
  | zero =>
    intro s stats o requester isPrefetch
    unfold processShmemReqFromPrevCache CacheCntlr.processShmemReqFromPrevCache lookup
    simp only [map_bind]
    congr 1
    funext x
    cases x.2 <;> simp
  | succ r ih =>
    intro s stats o requester isPrefetch
    unfold processShmemReqFromPrevCache CacheCntlr.processShmemReqFromPrevCache lookup
    simp only [map_bind]
    congr 1
    funext x
    cases x.2 with
    | true => simp
    | false =>
      simp only [Bool.false_eq_true, if_false, map_bind, map_pure]
      congr 1
      funext s₁
      congr 1
      funext s₂
      rw [← ih s₂ (if count then
        stats.updateCounters K ctx o op address false (getCacheState K x.1 (K.node o) address)
          isPrefetch else stats) (K.nextCntlr o) o isPrefetch.next, bind_map_left]
      congr 1
      funext y
      simp

theorem memOp_uncounted (ctx : CountContext) (s : State σ) (stats : Stats) (a : MemAccess) :
    (fun x => (x.1, x.2.1)) <$> processMemOpFromCore K ctx s stats a =
      CacheCntlr.processMemOpFromCore K s a := by
  unfold processMemOpFromCore CacheCntlr.processMemOpFromCore
  simp only [map_bind]
  congr 1
  funext _
  congr 1
  funext _
  congr 1
  funext s₁
  congr 1
  funext x
  cases x.2 with
  | true => simp
  | false =>
    simp only [Bool.false_eq_true, if_false, map_bind]
    congr 1
    funext _
    congr 1
    funext s₂
    unfold requestNext CacheCntlr.requestNext
    rw [bind_assoc, bind_assoc]
    congr 1
    funext _
    rw [← request_uncounted ctx _ s₂ (if a.count then
      stats.updateCounters K ctx a.cntlr a.op a.ca_address false
        (getCacheState K x.1 (K.node a.cntlr) a.ca_address) .none else stats) _ _ .none,
          bind_map_left]
    congr 1
    funext y
    split <;> simp

end Counted

/-! What the counters of two levels have to do with each other -/

/-- All accesses, those to lines of the first set of approximate bytes, or of the second. -/
inductive AccessClass where
  | all | approx | approx_2

def AccessCount.of (n : AccessCount) : AccessClass → ℕ
  | .all => n.total
  | .approx => n.approx
  | .approx_2 => n.approx_2

/-- What one access counts for. -/
def AccessClass.weight (setnum : ℤ) : AccessClass → ℕ
  | .all => 1
  | .approx => if setnum = 0 then 1 else 0
  | .approx_2 => if setnum = 1 then 1 else 0

theorem AccessCount.of_count (n : AccessCount) (setnum : ℤ) (st : CState) (k : AccessClass) :
    (n.count setnum st).of k = n.of k + k.weight setnum := by
  cases k with
  | all => rfl
  | approx =>
    simp only [of, count, AccessClass.weight]
    split <;> rfl
  | approx_2 =>
    simp only [of, count, AccessClass.weight]
    split <;> rfl

namespace AccessStats

variable (S : AccessStats) (op : MemOp) (setnum : ℤ) (cache_hit : Bool) (st : CState)
  (isPrefetch : PrefetchType) (overlapping : Bool) (k : AccessClass)

/-- What a lookup counts, in each of the counters that matter between levels. -/
structure Counts (S S' : AccessStats) (op : MemOp) (setnum : ℤ) (cache_hit : Bool)
    (isPrefetch : PrefetchType) (overlapping : Bool) : Prop where
  loads : ∀ k, S'.loads.of k =
    S.loads.of k + if op ≠ .write ∧ isPrefetch ≠ .own then k.weight setnum else 0
  stores : ∀ k, S'.stores.of k =
    S.stores.of k + if op = .write ∧ isPrefetch ≠ .own then k.weight setnum else 0
  load_misses : ∀ k, S'.load_misses.of k = S.load_misses.of k +
    if op ≠ .write ∧ isPrefetch ≠ .own ∧ cache_hit = false then k.weight setnum else 0
  store_misses : ∀ k, S'.store_misses.of k = S.store_misses.of k +
    if op = .write ∧ isPrefetch ≠ .own ∧ (cache_hit = false ∨ overlapping = true) then
      k.weight setnum else 0
  store_overlapping_misses : S'.store_overlapping_misses = S.store_overlapping_misses +
    if op = .write ∧ isPrefetch ≠ .own ∧ overlapping = true then 1 else 0
  loads_prefetch : S'.loads_prefetch =
    S.loads_prefetch + if op ≠ .write ∧ isPrefetch ≠ .none then 1 else 0
  stores_prefetch : S'.stores_prefetch =
    S.stores_prefetch + if op = .write ∧ isPrefetch ≠ .none then 1 else 0
  prefetches : S'.prefetches = S.prefetches

theorem updateCounters_counts :
    S.Counts (S.updateCounters op setnum cache_hit st isPrefetch overlapping)
    op setnum cache_hit isPrefetch overlapping := by
  by_cases hop : op = .write
  · subst hop
    cases isPrefetch <;> cases cache_hit <;> cases overlapping <;>
      constructor <;> simp [updateCounters, AccessCount.of_count]
  · cases isPrefetch <;> cases cache_hit <;> cases overlapping <;>
      constructor <;> simp [updateCounters, AccessCount.of_count, hop]

end AccessStats

/-- The controllers that send their misses to `n`. -/
def Hierarchy.senders (H : Hierarchy) (n : CntlrId) : Finset CntlrId :=
  ((Finset.range (H.width (n.level - 1))).image (⟨n.level - 1, ·⟩)).filter
    fun o => 0 < n.level ∧ H.nextCntlr o = n

theorem Hierarchy.mem_senders {H : Hierarchy} {n o : CntlrId} : o ∈ H.senders n ↔
    o.core < H.width o.level ∧ H.nextCntlr o = n := by
  simp only [senders, Finset.mem_filter, Finset.mem_image, Finset.mem_range]
  constructor
  · intro h
    obtain ⟨⟨j, hj, rfl⟩, -, hn⟩ := h
    exact ⟨hj, hn⟩
  · intro h
    obtain ⟨hcore, rfl⟩ := h
    have hlevel : (H.nextCntlr o).level - 1 = o.level := rfl
    rw [hlevel]
    exact ⟨⟨o.core, hcore, rfl⟩, Nat.succ_pos _, rfl⟩

theorem Hierarchy.level_of_mem_senders {H : Hierarchy} {n o : CntlrId} (h : o ∈ H.senders n) :
    o.level + 1 = n.level := by
  rw [← (mem_senders.mp h).2]
  rfl

namespace Stats

variable {σ : Type} (K : Config σ) {ctx : CountContext} {stats stats' : Stats} {n o : CntlrId}

/-- A counter, summed over the controllers that send their misses to `n`. -/
def above (stats : Stats) (n : CntlrId) (f : AccessStats → ℕ) : ℕ := ∑ o ∈ K.senders n, f (stats o)

theorem above_congr (h : ∀ d ∈ K.senders n, stats' d = stats d) (f : AccessStats → ℕ) :
    stats'.above K n f = stats.above K n f :=
  Finset.sum_congr rfl fun d hd => congrArg f (h d hd)

theorem above_change (ho : o ∈ K.senders n) (h : ∀ d ∈ K.senders n, d ≠ o → stats' d = stats d)
    (f : AccessStats → ℕ) :
    stats'.above K n f + f (stats o) = stats.above K n f + f (stats' o) :=
  FamilySum.sum_change ho fun d hd hne => congrArg f (h d hd hne)

/-- What reaches `n` between two states is what the controllers above count as misses, but for at
most `e` loads. -/
structure Flows (stats stats' : Stats) (n : CntlrId) (e : ℕ) : Prop where
  loads_ge : ∀ k, (stats n).loads.of k + stats'.above K n (·.load_misses.of k) ≤
    (stats' n).loads.of k + stats.above K n (·.load_misses.of k)
  loads_le : ∀ k, (stats' n).loads.of k + stats.above K n (·.load_misses.of k) ≤
    (stats n).loads.of k + stats'.above K n (·.load_misses.of k) + e
  stores_ge : ∀ k, (stats' n).stores.of k + stats.above K n (·.store_misses.of k) ≤
    (stats n).stores.of k + stats'.above K n (·.store_misses.of k)
  stores_le : ∀ k, (stats n).stores.of k + stats'.above K n (·.store_misses.of k) +
      stats.above K n (·.store_overlapping_misses) ≤
    (stats' n).stores.of k + stats.above K n (·.store_misses.of k) +
      stats'.above K n (·.store_overlapping_misses)
  prefetch : (stats' n).loads_prefetch + stats.above K n (·.loads_prefetch) ≤
    (stats n).loads_prefetch + stats'.above K n (·.loads_prefetch)

variable {K}

theorem Flows.of_same (hn : stats' n = stats n) (h : ∀ d ∈ K.senders n, stats' d = stats d) :
    Flows K stats stats' n 0 := by
  constructor <;> intros <;> simp only [hn, above_congr K h] <;> omega

theorem Flows.slack {e e' : ℕ} (h : Flows K stats stats' n e) (he : e ≤ e') :
    Flows K stats stats' n e' := by
  obtain ⟨h1, h2, h3, h4, h5⟩ := h
  exact ⟨h1, fun k => (h2 k).trans (by omega), h3, h4, h5⟩

theorem Flows.congr {stats₁ : Stats} {e : ℕ} (h : Flows K stats₁ stats' n e)
    (hn : stats₁ n = stats n) (ha : ∀ d ∈ K.senders n,
      stats₁ d = { stats d with prefetches := (stats₁ d).prefetches }) :
    Flows K stats stats' n e := by
  have habove : ∀ f : AccessStats → ℕ, (∀ S m, f { S with prefetches := m } = f S) →
      stats₁.above K n f = stats.above K n f := fun f hf =>
    Finset.sum_congr rfl fun d hd => (congrArg f (ha d hd)).trans (hf _ _)
  obtain ⟨h1, h2, h3, h4, h5⟩ := h
  simp only [hn, habove (fun S => S.load_misses.of _) fun _ _ => rfl,
    habove (fun S => S.store_misses.of _) fun _ _ => rfl,
    habove (·.store_overlapping_misses) fun _ _ => rfl,
    habove (·.loads_prefetch) fun _ _ => rfl] at h1 h2 h3 h4 h5
  exact ⟨h1, h2, h3, h4, h5⟩

/-- A lookup at one controller above that hits. -/
theorem Flows.of_hit {op : MemOp} {setnum : ℤ} {isPrefetch : PrefetchType} {overlapping : Bool}
    (ho : o ∈ K.senders n) (hn : stats' n = stats n)
    (h : ∀ d ∈ K.senders n, d ≠ o → stats' d = stats d)
    (hc : (stats o).Counts (stats' o) op setnum true isPrefetch overlapping) :
    Flows K stats stats' n 0 := by
  have hsum := above_change K ho h
  have hmisses := fun k => hsum (·.load_misses.of k)
  have hstores := fun k => hsum (·.store_misses.of k)
  have hoverlap := hsum (·.store_overlapping_misses)
  have hprefetch := hsum (·.loads_prefetch)
  simp only [hc.load_misses, hc.store_misses, hc.store_overlapping_misses, hc.loads_prefetch,
    Bool.true_eq_false, and_false, if_false, false_or, add_zero]
    at hmisses hstores hoverlap hprefetch
  constructor
  · intro k
    have := hmisses k
    rw [hn]
    omega
  · intro k
    have := hmisses k
    rw [hn]
    omega
  · intro k
    have := hstores k
    rw [hn]
    omega
  · intro k
    have := hstores k
    have hweight : k.weight setnum ≤ 1 := by
      cases k <;> simp only [AccessClass.weight] <;> first | omega | (split <;> omega)
    rw [hn]
    split at hoverlap <;> split at this <;> first | omega | tauto
  · rw [hn]
    omega

/-- A lookup at one controller above that misses, and the one that follows from it. -/
theorem Flows.of_miss {op : MemOp} {setnum : ℤ} {isPrefetch : PrefetchType}
    {cache_hit overlapping overlapping' : Bool} (hown : isPrefetch = .own → op ≠ .write)
    (ho : o ∈ K.senders n) (h : ∀ d ∈ K.senders n, d ≠ o → stats' d = stats d)
    (hc : (stats o).Counts (stats' o) op setnum false isPrefetch overlapping)
    (hn : (stats n).Counts (stats' n) op setnum cache_hit isPrefetch.next overlapping') :
    Flows K stats stats' n (if isPrefetch = .own then 1 else 0) := by
  have hsum := above_change K ho h
  have hnext : isPrefetch.next ≠ .own := by cases isPrefetch <;> exact nofun
  have hnone : isPrefetch.next ≠ .none ↔ isPrefetch ≠ .none := by
    cases isPrefetch <;> simp [PrefetchType.next]
  have hweight : ∀ k : AccessClass, k.weight setnum ≤ 1 := by
    intro k
    cases k <;> simp only [AccessClass.weight] <;> first | omega | (split <;> omega)
  constructor
  · intro k
    have hk := hsum (·.load_misses.of k)
    simp only [hc.load_misses, and_true] at hk
    rw [hn.loads]
    simp only [hnext, ne_eq, not_false_eq_true, and_true]
    split at hk <;> split <;> first | omega | tauto
  · intro k
    have hk := hsum (·.load_misses.of k)
    have hle := hweight k
    simp only [hc.load_misses, and_true] at hk
    rw [hn.loads]
    simp only [hnext, ne_eq, not_false_eq_true, and_true]
    split at hk <;> split <;> split <;> first | omega | tauto
  · intro k
    have hk := hsum (·.store_misses.of k)
    simp only [hc.store_misses, true_or, and_true] at hk
    rw [hn.stores]
    simp only [hnext, ne_eq, not_false_eq_true, and_true]
    split at hk <;> split <;> first | omega | tauto
  · intro k
    have hk := hsum (·.store_misses.of k)
    have hoverlap := hsum (·.store_overlapping_misses)
    simp only [hc.store_misses, hc.store_overlapping_misses, true_or, and_true] at hk hoverlap
    rw [hn.stores]
    simp only [hnext, ne_eq, not_false_eq_true, and_true]
    split at hk <;> split <;> first | omega | tauto
  · have hk := hsum (·.loads_prefetch)
    simp only [hc.loads_prefetch] at hk
    rw [hn.loads_prefetch]
    simp only [hnone]
    omega

end Stats

namespace Counted
open CacheCntlr Stats

variable {σ : Type} {K : Config σ} {ctx : CountContext} {stats stats' stats₁ : Stats}
  {o requester n d : CntlrId} {op : MemOp} {address : ℕ} {isPrefetch : PrefetchType}

/-- What a counted request at `o` does to the counters of the levels from there on. -/
structure Requested (K : Config σ) (ctx : CountContext) (stats stats' : Stats) (o : CntlrId)
    (op : MemOp) (address : ℕ) (isPrefetch : PrefetchType) : Prop where
  own : ∃ cache_hit st, stats' o = (stats o).updateCounters op
    (ctx.magic.approxBlockSetnum address K.blocksize) cache_hit st isPrefetch (ctx.overlapping o)
  above : ∀ d, d.level ≤ o.level → d ≠ o → stats' d = stats d
  below : ∀ d, d ≠ o → stats' d = stats d ∨ ∃ cache_hit st, stats' d = (stats d).updateCounters op
    (ctx.magic.approxBlockSetnum address K.blocksize) cache_hit st isPrefetch.next
      (ctx.overlapping d)
  flows : ∀ n, o.level < n.level → n.level ≤ K.last →
    Flows K stats stats' n (if isPrefetch = .own ∧ n = K.nextCntlr o then 1 else 0)

/-- The lookup at `o` hits. -/
theorem Requested.hit (st : CState) : Requested K ctx stats
    (stats.updateCounters K ctx o op address true st isPrefetch) o op address isPrefetch := by
  have hself : stats.updateCounters K ctx o op address true st isPrefetch o = _ :=
    Function.update_self ..
  have hother : ∀ d, d ≠ o →
      stats.updateCounters K ctx o op address true st isPrefetch d = stats d :=
    fun d hd => Function.update_of_ne hd ..
  refine ⟨⟨_, _, hself⟩, fun d _ => hother d, fun d hd => .inl (hother d hd), fun n hn _ => ?_⟩
  have hne : n ≠ o := fun h => by
    rw [h] at hn
    omega
  have hflows : Flows K stats (stats.updateCounters K ctx o op address true st isPrefetch) n 0 := by
    by_cases ho : o ∈ K.senders n
    · apply Flows.of_hit ho (hother n hne) fun d _ => hother d
      rw [hself]
      exact AccessStats.updateCounters_counts ..
    · exact .of_same (hother n hne) fun d hd => hother d fun h => ho (h ▸ hd)
  exact hflows.slack (Nat.zero_le _)

/-- The lookup at `o` misses, and the request goes to the next level. -/
theorem Requested.miss (hown : isPrefetch = .own → op ≠ .write) (ho : K.Cntlr o) (st : CState)
    (h : Requested K ctx (stats.updateCounters K ctx o op address false st isPrefetch) stats'
      (K.nextCntlr o) op address isPrefetch.next) :
    Requested K ctx stats stats' o op address isPrefetch := by
  have hself : stats.updateCounters K ctx o op address false st isPrefetch o = _ :=
    Function.update_self ..
  have hother : ∀ d, d ≠ o →
      stats.updateCounters K ctx o op address false st isPrefetch d = stats d :=
    fun d hd => Function.update_of_ne hd ..
  have hlevel : (K.nextCntlr o).level = o.level + 1 := rfl
  have hkept : ∀ d, d.level ≤ o.level →
      stats' d = stats.updateCounters K ctx o op address false st isPrefetch d := by
    intro d hd
    apply h.above d (by omega)
    intro hdo
    rw [hdo] at hd
    omega
  have hnext : isPrefetch.next.next = isPrefetch.next := by cases isPrefetch <;> rfl
  have hnot : isPrefetch.next ≠ .own := by cases isPrefetch <;> exact nofun
  refine ⟨⟨_, _, (hkept o le_rfl).trans hself⟩, fun d hd hdo => (hkept d hd).trans (hother d hdo),
    fun d hdo => ?_, fun n hn hlast => ?_⟩
  · by_cases hd : d = K.nextCntlr o
    · obtain ⟨cache_hit, st', heq⟩ := h.own
      rw [← hd, hother d hdo] at heq
      exact .inr ⟨cache_hit, st', heq⟩
    · have hbelow := h.below d hd
      rwa [hother d hdo, hnext] at hbelow
  · have hne : n ≠ o := fun heq => by
      rw [heq] at hn
      omega
    by_cases hd : n = K.nextCntlr o
    · obtain ⟨cache_hit, st', heq⟩ := h.own
      rw [← hd, hother n hne] at heq
      have hflows : Flows K stats stats' n (if isPrefetch = .own then 1 else 0) := by
        apply Flows.of_miss hown (Hierarchy.mem_senders.mpr ⟨ho.2, hd.symm⟩)
        · intro d hd' hdo
          have hup := Hierarchy.level_of_mem_senders hd'
          rw [hd, hlevel] at hup
          exact (hkept d (by omega)).trans (hother d hdo)
        · rw [hkept o le_rfl, hself]
          exact AccessStats.updateCounters_counts ..
        · rw [heq]
          exact AccessStats.updateCounters_counts ..
      simpa only [hd, and_true] using hflows
    · rw [if_neg fun h => hd h.2]
      by_cases hup : n.level = o.level + 1
      · have hsenders : ∀ d ∈ K.senders n, stats' d = stats d := by
          intro d hd'
          have hup' := Hierarchy.level_of_mem_senders hd'
          apply (hkept d (by omega)).trans (hother d _)
          intro hdo
          exact hd (by rw [← (Hierarchy.mem_senders.mp hd').2, hdo])
        exact .of_same ((h.above n (by omega) hd).trans (hother n hne)) hsenders
      · have hflows := h.flows n (by omega) hlast
        rw [if_neg fun h => hnot h.1] at hflows
        apply hflows.congr (hother n hne)
        intro d hd'
        have hup' := Hierarchy.level_of_mem_senders hd'
        have hdo : d ≠ o := fun hdo => by
          rw [hdo] at hup'
          omega
        rw [hother d hdo]

/-- The lookup at `o` misses, and `o` is at the last level. -/
theorem Requested.last (ho : o.level = K.last) (st : CState) : Requested K ctx stats
    (stats.updateCounters K ctx o op address false st isPrefetch) o op address isPrefetch where
  own := ⟨_, _, Function.update_self ..⟩
  above _ _ hd := Function.update_of_ne hd ..
  below _ hd := .inl (Function.update_of_ne hd ..)
  flows _ hn hlast := absurd hn (by omega)

theorem any {α : Type} (x : Except Abort α) : Partial x fun _ => True := by
  cases x <;> trivial

/-- The rule for a lookup. -/
theorem lookup_rule {s : State σ} {miss : State σ → Stats →
    Except Abort (State σ × HitWhere × Stats)}
    {count : Bool} {Q : Stats → Prop}
    (hit : ∀ st, Q
      (if count then stats.updateCounters K ctx o op address true st isPrefetch else stats))
    (hmiss : ∀ s st, Partial (miss s (if count then
      stats.updateCounters K ctx o op address false st isPrefetch else stats)) fun x => Q x.2.2) :
    Partial (lookup K ctx s stats o requester op address count isPrefetch miss)
      fun x => Q x.2.2 := by
  apply (any _).bind
  intro x _
  obtain ⟨s₁, cache_hit⟩ := x
  cases cache_hit with
  | true =>
    apply (any _).bind
    intro y _
    exact hit _
  | false =>
    apply (any _).bind
    intro s' _
    exact hmiss s' _

/-- Every counted request. -/
theorem request_requested (op : MemOp) (address : ℕ) (r : ℕ) : ∀ (s : State σ) (stats : Stats)
    (o requester : CntlrId) (isPrefetch : PrefetchType), K.Cntlr o → o.level + r = K.last →
    (isPrefetch = .own → op ≠ .write) →
    Partial
      (processShmemReqFromPrevCache K ctx r s stats o requester op address true isPrefetch) fun x =>
      Requested K ctx stats x.2.2 o op address isPrefetch := by
  induction r with
  | zero =>
    intro s stats o requester isPrefetch ho hlast _
    unfold processShmemReqFromPrevCache
    apply lookup_rule (Q := fun stats' => Requested K ctx stats stats' o op address isPrefetch)
    · exact fun st => .hit st
    · intro s st
      apply (any _).bind
      intro x _
      apply (any _).bind
      intro y _
      exact .last hlast st
  | succ r ih =>
    intro s stats o requester isPrefetch ho hlast hown
    have hlevel : (K.nextCntlr o).level + r = K.last := by
      change o.level + 1 + r = K.last
      omega
    have hnext : isPrefetch.next = .own → op ≠ .write := by
      cases isPrefetch <;> exact nofun
    unfold processShmemReqFromPrevCache
    apply lookup_rule (Q := fun stats' => Requested K ctx stats stats' o op address isPrefetch)
    · exact fun st => .hit st
    · intro s st
      apply (any _).bind
      intro s₁ _
      apply (ih s₁ _ _ o _ (ho.nextCntlr (by omega)) hlevel hnext).bind
      intro x hx
      apply (any _).bind
      intro s₂ _
      apply (any _).bind
      intro y _
      exact hx.miss hown ho st

/-- A request that is not counted. -/
theorem request_silent (op : MemOp) (address : ℕ) (r : ℕ) : ∀ (s : State σ) (stats : Stats)
    (o requester : CntlrId) (isPrefetch : PrefetchType),
    Partial (processShmemReqFromPrevCache K ctx r s stats o requester op address false isPrefetch)
      fun x => x.2.2 = stats := by
  induction r with
  | zero =>
    intro s stats o requester isPrefetch
    unfold processShmemReqFromPrevCache
    apply lookup_rule (Q := fun stats' => stats' = stats)
    · exact fun _ => rfl
    · intro s st
      apply (any _).bind
      intro x _
      exact (any _).bind fun _ _ => rfl
  | succ r ih =>
    intro s stats o requester isPrefetch
    unfold processShmemReqFromPrevCache
    apply lookup_rule (Q := fun stats' => stats' = stats)
    · exact fun _ => rfl
    · intro s st
      apply (any _).bind
      intro s₁ _
      apply (ih s₁ stats _ o _).bind
      intro y hy
      apply (any _).bind
      intro s₂ _
      exact (any _).bind fun _ _ => hy

end Counted

/-! What the counters of a controller have to do with each other -/

instance : Fintype CState where
  elems := {.invalid, .shared, .sharedUpgrading, .exclusive, .owned, .modified}
  complete st := by cases st <;> decide

/-- The counts by states add up to all, and no access is in both sets of approximate bytes. -/
structure AccessCount.Sums (n : AccessCount) : Prop where
  states : ∑ st, n.state st = n.total
  approx : n.approx + n.approx_2 ≤ n.total

theorem AccessCount.Sums.count {n : AccessCount} (h : n.Sums) (setnum : ℤ) (st : CState) :
    (n.count setnum st).Sums where
  states := by
    have hsum := FamilySum.sum_update id n.state st (n.state st + 1)
    have hstates := h.states
    simp only [id_eq] at hsum
    simp only [AccessCount.count]
    omega
  approx := by
    have happrox := h.approx
    simp only [AccessCount.count]
    split <;> split <;> omega

namespace AccessStats

variable {S S' : AccessStats} {op : MemOp} {setnum : ℤ} {cache_hit overlapping : Bool} {st : CState}
  {isPrefetch : PrefetchType}

/-- Nothing has been counted but stores that overlap with misses. -/
structure Raised (S S' : AccessStats) : Prop where
  loads : S'.loads = S.loads
  stores : S'.stores = S.stores
  load_misses : S'.load_misses = S.load_misses
  store_misses : S'.store_misses = S.store_misses
  store_overlapping_misses : S.store_overlapping_misses ≤ S'.store_overlapping_misses
  loads_prefetch : S'.loads_prefetch = S.loads_prefetch
  prefetches : S'.prefetches = S.prefetches

theorem Raised.refl (S : AccessStats) : S.Raised S := ⟨rfl, rfl, rfl, rfl, le_rfl, rfl, rfl⟩

theorem Raised.overlap (S : AccessStats) (op : MemOp) : S.Raised (S.overlap op) := by
  unfold AccessStats.overlap
  split
  · exact ⟨rfl, rfl, rfl, rfl, Nat.le_succ _, rfl, rfl⟩
  · exact ⟨rfl, rfl, rfl, rfl, le_rfl, rfl, rfl⟩

/-- What holds of the counters of one controller. -/
structure Tallied (S : AccessStats) : Prop where
  loads : S.loads.Sums
  stores : S.stores.Sums
  load_misses : S.load_misses.Sums
  store_misses : S.store_misses.Sums
  load_misses_le : ∀ k, S.load_misses.of k ≤ S.loads.of k
  store_misses_le : ∀ k, S.store_misses.of k ≤ S.stores.of k
  stores_prefetch : S.stores_prefetch = 0
  le_loads_prefetch : S.prefetches ≤ S.loads_prefetch
  loads_prefetch_le : S.loads_prefetch ≤ S.prefetches + S.loads.total

theorem tallied_zero : zero.Tallied where
  loads := ⟨rfl, le_rfl⟩
  stores := ⟨rfl, le_rfl⟩
  load_misses := ⟨rfl, le_rfl⟩
  store_misses := ⟨rfl, le_rfl⟩
  load_misses_le _ := le_rfl
  store_misses_le _ := le_rfl
  stores_prefetch := rfl
  le_loads_prefetch := le_rfl
  loads_prefetch_le := le_rfl

/-- A lookup counts in some of the four. -/
theorem updateCounters_sums (op : MemOp) (setnum : ℤ) (cache_hit : Bool) (st : CState)
    (isPrefetch : PrefetchType) (overlapping : Bool) (hl : S.loads.Sums) (hs : S.stores.Sums)
    (hlm : S.load_misses.Sums) (hsm : S.store_misses.Sums) :
    let S' := S.updateCounters op setnum cache_hit st isPrefetch overlapping
    S'.loads.Sums ∧ S'.stores.Sums ∧ S'.load_misses.Sums ∧ S'.store_misses.Sums := by
  intro S'
  unfold S' updateCounters
  split_ifs <;> refine ⟨?_, ?_, ?_, ?_⟩ <;>
    first | assumption | exact AccessCount.Sums.count ‹_› _ _

/-- A lookup that is no prefetch of the controller itself. -/
theorem Tallied.lookup (h : S.Tallied) (hown : isPrefetch ≠ .own)
    (hop : isPrefetch ≠ .none → op ≠ .write) :
    (S.updateCounters op setnum cache_hit st isPrefetch overlapping).Tallied := by
  have hc := S.updateCounters_counts op setnum cache_hit st isPrefetch overlapping
  obtain ⟨hl, hs, hlm, hsm⟩ := updateCounters_sums op setnum cache_hit st isPrefetch overlapping
    h.loads h.stores h.load_misses h.store_misses
  refine ⟨hl, hs, hlm, hsm, fun k => ?_, fun k => ?_, ?_, ?_, ?_⟩
  · have hk := h.load_misses_le k
    rw [hc.load_misses, hc.loads]
    split <;> split <;> first | omega | tauto
  · have hk := h.store_misses_le k
    rw [hc.store_misses, hc.stores]
    split <;> split <;> first | omega | tauto
  · rw [hc.stores_prefetch, h.stores_prefetch, if_neg fun h' => hop h'.2 h'.1]
  · have hle := h.le_loads_prefetch
    rw [hc.prefetches, hc.loads_prefetch]
    omega
  · have hle := h.loads_prefetch_le
    have hall := hc.loads .all
    simp only [AccessCount.of, AccessClass.weight] at hall
    rw [hc.prefetches, hc.loads_prefetch, hall]
    split <;> split <;> first | omega | tauto

/-- A prefetch of the controller itself. -/
theorem Tallied.prefetch (h : S.Tallied) :
    (S.prefetch.updateCounters .read setnum cache_hit st .own overlapping).Tallied := by
  obtain ⟨h1, h2, h3, h4, h5, h6, h7, h8, h9⟩ := h
  refine ⟨h1, h2, h3, h4, h5, h6, h7, Nat.succ_le_succ h8, ?_⟩
  change S.loads_prefetch + 1 ≤ S.prefetches + 1 + S.loads.total
  omega

theorem Tallied.overlap (h : S.Tallied) : (S.overlap op).Tallied := by
  obtain ⟨h1, h2, h3, h4, h5, h6, h7, h8, h9⟩ := h
  unfold AccessStats.overlap
  split <;> exact ⟨h1, h2, h3, h4, h5, h6, h7, h8, h9⟩

end AccessStats

namespace Stats

variable {σ : Type} {K : Config σ} {ctx : CountContext} {stats stats' : Stats} {n o : CntlrId}
  {op : MemOp} {address : ℕ}

/-- What a level is asked for is what the level above counts as misses: loads also for the
prefetches there, and without the misses of stores that only overlap with others. -/
structure Conserved (K : Config σ) (stats : Stats) (n : CntlrId) : Prop where
  loads_ge : ∀ k, stats.above K n (·.load_misses.of k) ≤ (stats n).loads.of k
  loads_le : ∀ k, (stats n).loads.of k ≤
    stats.above K n (·.load_misses.of k) + stats.above K n (·.prefetches)
  stores_le : ∀ k, (stats n).stores.of k ≤ stats.above K n (·.store_misses.of k)
  stores_ge : ∀ k, stats.above K n (·.store_misses.of k) ≤
    (stats n).stores.of k + stats.above K n (·.store_overlapping_misses)
  loads_prefetch_le : (stats n).loads_prefetch ≤
    (stats n).prefetches + stats.above K n (·.loads_prefetch)

theorem Conserved.flows {e : ℕ} (h : Conserved K stats n) (hf : Flows K stats stats' n e)
    (hn : (stats n).prefetches ≤ (stats' n).prefetches)
    (he : stats.above K n (·.prefetches) + e ≤ stats'.above K n (·.prefetches)) :
    Conserved K stats' n where
  loads_ge k := by
    have h1 := h.loads_ge k
    have h2 := hf.loads_ge k
    omega
  loads_le k := by
    have h1 := h.loads_le k
    have h2 := hf.loads_le k
    omega
  stores_le k := by
    have h1 := h.stores_le k
    have h2 := hf.stores_ge k
    omega
  stores_ge k := by
    have h1 := h.stores_ge k
    have h2 := hf.stores_le k
    omega
  loads_prefetch_le := by
    have h1 := h.loads_prefetch_le
    have h2 := hf.prefetch
    omega

/-- What holds of all counters. -/
structure Accounted (K : Config σ) (stats : Stats) : Prop where
  tallied : ∀ o, (stats o).Tallied
  conserved : ∀ n, 0 < n.level → n.level ≤ K.last → Conserved K stats n

theorem accounted_zero (K : Config σ) : Accounted K fun _ => .zero where
  tallied _ := AccessStats.tallied_zero
  conserved n _ _ := by
    have hzero : ∀ f : AccessStats → ℕ, f .zero = 0 → above K (fun _ => .zero) n f = 0 := by
      intro f hf
      exact Finset.sum_eq_zero fun _ _ => hf
    refine ⟨fun k => ?_, fun k => ?_, fun k => ?_, fun k => ?_, Nat.zero_le _⟩
    · rw [hzero _ (by cases k <;> rfl)]
      exact Nat.zero_le _
    · exact (by cases k <;> rfl : AccessCount.of AccessStats.zero.loads k = 0).trans_le
        (Nat.zero_le _)
    · exact (by cases k <;> rfl : AccessCount.of AccessStats.zero.stores k = 0).trans_le
        (Nat.zero_le _)
    · rw [hzero _ (by cases k <;> rfl)]
      exact Nat.zero_le _

/-- A call of a core. -/
theorem Accounted.request (h : Accounted K stats) (ho : o.level = 0)
    (hr : Counted.Requested K ctx stats stats' o op address .none) : Accounted K stats' := by
  have heach : ∀ d, stats' d = stats d ∨ ∃ cache_hit st, stats' d = (stats d).updateCounters op
      (ctx.magic.approxBlockSetnum address K.blocksize) cache_hit st .none (ctx.overlapping d) := by
    intro d
    by_cases hd : d = o
    · rw [hd]
      exact .inr hr.own
    · exact hr.below d hd
  have hprefetches : ∀ d, (stats' d).prefetches = (stats d).prefetches := by
    intro d
    rcases heach d with heq | ⟨cache_hit, st, heq⟩
    · rw [heq]
    · rw [heq]
      exact (AccessStats.updateCounters_counts ..).prefetches
  constructor
  · intro d
    rcases heach d with heq | ⟨cache_hit, st, heq⟩
    · rw [heq]
      exact h.tallied d
    · rw [heq]
      exact (h.tallied d).lookup nofun fun hne => absurd rfl hne
  · intro n hn hlast
    have hflows := hr.flows n (by omega) hlast
    rw [if_neg fun h' => by cases h'.1] at hflows
    have habove : stats.above K n (·.prefetches) = stats'.above K n (·.prefetches) :=
      Finset.sum_congr rfl fun d _ => (hprefetches d).symm
    exact (h.conserved n hn hlast).flows hflows (hprefetches n).ge habove.le

theorem Conserved.raise (h : Conserved K stats n) (hr : ∀ d, (stats d).Raised (stats' d)) :
    Conserved K stats' n := by
  have habove : ∀ f : AccessStats → ℕ, (∀ d, f (stats' d) = f (stats d)) →
      stats'.above K n f = stats.above K n f := fun f hf => Finset.sum_congr rfl fun d _ => hf d
  have hload := fun k => habove (·.load_misses.of k) fun d => by rw [(hr d).load_misses]
  have hstore := fun k => habove (·.store_misses.of k) fun d => by rw [(hr d).store_misses]
  have hprefetches := habove (·.prefetches) fun d => (hr d).prefetches
  have hprefetch := habove (·.loads_prefetch) fun d => (hr d).loads_prefetch
  have hoverlap : stats.above K n (·.store_overlapping_misses) ≤
      stats'.above K n (·.store_overlapping_misses) :=
    Finset.sum_le_sum fun d _ => (hr d).store_overlapping_misses
  obtain ⟨h1, h2, h3, h4, h5⟩ := h
  constructor
  · simpa only [hload, (hr n).loads] using h1
  · simpa only [hload, hprefetches, (hr n).loads] using h2
  · simpa only [hstore, (hr n).stores] using h3
  · intro k
    have hk := h4 k
    rw [hstore, (hr n).stores]
    omega
  · rwa [hprefetch, (hr n).prefetches, (hr n).loads_prefetch]

theorem Accounted.overlap (h : Accounted K stats) (o : CntlrId) (op : MemOp) :
    Accounted K (stats.overlap ctx o op) := by
  have heach : ∀ d, stats.overlap ctx o op d = stats d ∨
      stats.overlap ctx o op d = (stats d).overlap op := by
    intro d
    unfold Stats.overlap
    split
    · by_cases hd : d = o
      · rw [hd]
        exact .inr (Function.update_self ..)
      · exact .inl (Function.update_of_ne hd ..)
    · exact .inl rfl
  constructor
  · intro d
    rcases heach d with heq | heq
    · rw [heq]
      exact h.tallied d
    · rw [heq]
      exact (h.tallied d).overlap
  · intro n hn hlast
    apply (h.conserved n hn hlast).raise
    intro d
    rcases heach d with heq | heq
    · rw [heq]
      exact .refl _
    · rw [heq]
      exact .overlap _ op

theorem Conserved.congr (h : Conserved K stats n) (hn : stats' n = stats n)
    (ha : ∀ d ∈ K.senders n, stats' d = stats d) : Conserved K stats' n := by
  have habove := fun f => above_congr K ha f
  obtain ⟨h1, h2, h3, h4, h5⟩ := h
  constructor <;> simpa only [hn, habove]

/-- A prefetch of `n` itself. -/
theorem Conserved.prefetch {setnum : ℤ} {cache_hit overlapping : Bool} (h : Conserved K stats n)
    (ha : ∀ d ∈ K.senders n, stats' d = stats d)
    (hc : (stats n).prefetch.Counts (stats' n) .read setnum cache_hit .own overlapping) :
    Conserved K stats' n := by
  have habove := fun f => above_congr K ha f
  have hloads : ∀ k, (stats' n).loads.of k = (stats n).loads.of k := hc.loads
  have hstores : ∀ k, (stats' n).stores.of k = (stats n).stores.of k := hc.stores
  have hp : (stats' n).prefetches = (stats n).prefetches + 1 := hc.prefetches
  have hlp : (stats' n).loads_prefetch = (stats n).loads_prefetch + 1 := hc.loads_prefetch
  obtain ⟨h1, h2, h3, h4, h5⟩ := h
  constructor
  · simpa only [habove, hloads] using h1
  · simpa only [habove, hloads] using h2
  · simpa only [habove, hstores] using h3
  · simpa only [habove, hstores] using h4
  · rw [habove, hlp, hp]
    omega

/-- What a prefetch of `o` does to the counts of prefetches. -/
theorem prefetches_of_requested
    (hr : Counted.Requested K ctx (stats.prefetch o) stats' o .read address .own) (d : CntlrId) :
    (stats' d).prefetches = (stats d).prefetches + if d = o then 1 else 0 := by
  by_cases hd : d = o
  · obtain ⟨cache_hit, st, hown⟩ := hr.own
    have hself : stats.prefetch o o = (stats o).prefetch := Function.update_self ..
    rw [if_pos hd, hd, hown, hself, (AccessStats.updateCounters_counts ..).prefetches]
    rfl
  · have hother : stats.prefetch o d = stats d := Function.update_of_ne hd ..
    rw [if_neg hd, Nat.add_zero]
    rcases hr.below d hd with heq | ⟨cache_hit, st, heq⟩
    · rw [heq, hother]
    · rw [heq, hother, (AccessStats.updateCounters_counts ..).prefetches]

/-- A level below the prefetch. -/
theorem Conserved.below_prefetch (h : Conserved K stats n) (ho : K.Cntlr o) (hn : o.level < n.level)
    (hlast : n.level ≤ K.last)
    (hr : Counted.Requested K ctx (stats.prefetch o) stats' o .read address .own) :
    Conserved K stats' n := by
  have hprefetches := prefetches_of_requested hr
  have hno : n ≠ o := fun heq => by
    rw [heq] at hn
    omega
  have hflows : Flows K stats stats' n
      (if PrefetchType.own = .own ∧ n = K.nextCntlr o then 1 else 0) := by
    apply (hr.flows n hn hlast).congr (Function.update_of_ne hno ..)
    intro d _
    by_cases hd : d = o
    · rw [hd, Stats.prefetch, Function.update_self]
      rfl
    · rw [Stats.prefetch, Function.update_of_ne hd]
  refine h.flows hflows ?_ ?_
  · rw [hprefetches n]
    omega
  · by_cases hnext : n = K.nextCntlr o
    · have hsum : stats'.above K n (·.prefetches) + (stats o).prefetches =
          stats.above K n (·.prefetches) + (stats' o).prefetches := by
        apply FamilySum.sum_change (Hierarchy.mem_senders.mpr ⟨ho.2, hnext.symm⟩)
        intro d _ hdo
        exact (hprefetches d).trans (by rw [if_neg hdo, Nat.add_zero])
      rw [if_pos ⟨rfl, hnext⟩]
      rw [hprefetches o, if_pos rfl] at hsum
      omega
    · rw [if_neg fun h' => hnext h'.2, add_zero]
      apply Finset.sum_le_sum
      intro d _
      exact (Nat.le_add_right _ _).trans (hprefetches d).ge

/-- A prefetch of the controller `o`. -/
theorem Accounted.prefetch (h : Accounted K stats) (ho : K.Cntlr o)
    (hr : Counted.Requested K ctx (stats.prefetch o) stats' o .read address .own) :
    Accounted K stats' := by
  have hself : stats.prefetch o o = (stats o).prefetch := Function.update_self ..
  have hother : ∀ d, d ≠ o → stats.prefetch o d = stats d := fun d hd => Function.update_of_ne hd ..
  have hup : ∀ d, d.level ≤ o.level → d ≠ o → stats' d = stats d := fun d hd hdo =>
    (hr.above d hd hdo).trans (hother d hdo)
  obtain ⟨cache_hit, st, hown⟩ := hr.own
  rw [hself] at hown
  constructor
  · intro d
    by_cases hd : d = o
    · rw [hd, hown]
      exact (h.tallied o).prefetch
    · rcases hr.below d hd with heq | ⟨cache_hit', st', heq⟩
      · rw [heq, hother d hd]
        exact h.tallied d
      · rw [heq, hother d hd]
        exact (h.tallied d).lookup nofun fun _ => nofun
  · intro n hn hlast
    have hC := h.conserved n hn hlast
    by_cases hlevel : n.level ≤ o.level
    · have hsenders : ∀ d ∈ K.senders n, stats' d = stats d := by
        intro d hd
        have hd' := Hierarchy.level_of_mem_senders hd
        have hdo : d ≠ o := fun heq => by
          rw [heq] at hd'
          omega
        exact hup d (by omega) hdo
      by_cases hno : n = o
      · have hc := (stats o).prefetch.updateCounters_counts .read
          (ctx.magic.approxBlockSetnum address K.blocksize) cache_hit st .own (ctx.overlapping o)
        rw [← hown, ← hno] at hc
        exact hC.prefetch hsenders hc
      · exact hC.congr (hup n hlevel hno) hsenders
    · exact hC.below_prefetch ho (by omega) hlast hr

end Stats

namespace Counted
open CacheCntlr

variable {σ : Type} {K : Config σ} {ctx : CountContext} {s : State σ} {stats : Stats} {o : CntlrId}

/-- The access of a core: its lookup, the request to the next level after a miss, and the hit that
overlaps with a miss. -/
theorem memOp_accounted (a : MemAccess) (h : stats.Accounted K) (ho : K.Cntlr a.cntlr)
    (hfirst : a.cntlr.level = 0) :
    Partial (processMemOpFromCore K ctx s stats a) fun x => x.2.2.Accounted K := by
  unfold processMemOpFromCore
  apply (any _).bind
  intro _ _
  apply (any _).bind
  intro _ _
  apply (any _).bind
  intro s₁ _
  apply (any _).bind
  intro x _
  obtain ⟨s₂, cache_hit⟩ := x
  cases cache_hit with
  | true =>
    apply (any _).bind
    intro y _
    apply Stats.Accounted.overlap
    split
    · exact h.request hfirst (.hit _)
    · exact h
  | false =>
    apply (any _).bind
    intro _ _
    apply (any _).bind
    intro s₃ _
    have hrequest : Partial (requestNext K ctx s₃ (if a.count then
        stats.updateCounters K ctx a.cntlr a.op a.ca_address false
          (getCacheState K s₂ (K.node a.cntlr) a.ca_address) .none else stats) a)
        fun x => x.2.2.Accounted K := by
      unfold requestNext
      apply (partial_require _ _).bind
      intro _ hlast
      cases a.count with
      | true =>
        have hlevel : (K.nextCntlr a.cntlr).level + (K.last - (a.cntlr.level + 1)) = K.last :=
          Nat.add_sub_of_le hlast
        apply (request_requested a.op a.ca_address _ s₃ _ _ a.cntlr .none (ho.nextCntlr hlast)
          hlevel nofun).mono fun _ h => h
        intro x hx
        exact h.request hfirst (.miss nofun ho _ hx)
      | false =>
        apply (request_silent a.op a.ca_address _ s₃ stats _ a.cntlr .none).mono fun _ h => h
        intro x hx
        rw [hx]
        exact h
    apply hrequest.bind
    intro y hy
    obtain ⟨s₄, hit_where, stats₁⟩ := y
    simp only
    split
    · exact hy
    · apply (any _).bind
      intro z _
      exact hy

theorem prefetch_accounted (prefetch_address : ℕ) (h : stats.Accounted K) (ho : K.Cntlr o) :
    Partial (doPrefetch K ctx s stats o prefetch_address) fun x => x.2.2.Accounted K := by
  have hlevel : o.level + (K.last - o.level) = K.last := Nat.add_sub_of_le ho.1
  unfold doPrefetch
  apply (request_requested .read prefetch_address _ _ _ o o .own ho hlevel nofun).bind
  intro x hx
  exact h.prefetch ho hx

end Counted

/-! The counters over whole runs -/

/-- A hierarchy with its counters. -/
structure CountedSys (σ : Type) where
  sys : Sys σ
  stats : Stats

/-- What happens in a hierarchy, with what it is counted by. -/
inductive CountedOp where
  | sys (ctx : CountContext) (op : SysOp)
  | prefetch (ctx : CountContext) (o : CntlrId) (prefetch_address : ℕ)
  /-- a prefetch that waits is woken; it still has `this_is_locked` -/
  | resumePrefetch (o : CntlrId) (prefetch_address : ℕ)

/-- The rest of a prefetch that waited. -/
def CacheCntlr.resumePrefetch {σ : Type} (K : Config σ) (s : State σ) (o : CntlrId)
    (prefetch_address : ℕ) : Except Abort (State σ) := do
  let (s, hit_where) ← processShmemReqFromPrevCache K (K.last - o.level) s o o .read
    prefetch_address false
  require (hit_where ≠ .miss) .fillGone
  return s.lockEvent (.releaseExclusive (K.getSetLock prefetch_address))

namespace CountedSys

variable {σ : Type} (K : Config σ)

def Enabled (S : CountedSys σ) : CountedOp → Prop
  | .sys _ op => S.sys.Enabled K op
  | .prefetch _ o _ | .resumePrefetch o _ => K.Cntlr o

/-- Only the calls of the cores and the prefetches are counted. -/
def exec (S : CountedSys σ) : CountedOp → Except Abort (CountedSys σ)
  | .sys ctx (.access a) => do
    let (s, reply, stats) ← Counted.processMemOpFromCore K ctx S.sys.mem S.stats a
    match reply with
    | .returned _ _ => return ⟨{ S.sys with mem := s }, stats⟩
    | .waiting => return ⟨⟨s, Function.update S.sys.pending (K.lastCntlr a.cntlr) (some a)⟩, stats⟩
  | .sys _ op => do
    let sys ← S.sys.exec K op
    return ⟨sys, S.stats⟩
  | .prefetch ctx o prefetch_address => do
    let (s, _, stats) ← Counted.doPrefetch K ctx S.sys.mem S.stats o prefetch_address
    return ⟨{ S.sys with mem := s }, stats⟩
  | .resumePrefetch o prefetch_address => do
    let s ← CacheCntlr.resumePrefetch K S.sys.mem o prefetch_address
    return ⟨{ S.sys with mem := s }, S.stats⟩

def machine : Machine (CountedSys σ) CountedOp Abort where
  enabled := Enabled K
  exec := exec K

def init (policy : CntlrId → ℕ → σ) : CountedSys σ := ⟨.init policy, fun _ => .zero⟩

variable {K} {S S' : CountedSys σ} {ctx : CountContext}

/-- Without the counters the hierarchy does what it does with them. -/
theorem exec_uncounted (op : SysOp) :
    CountedSys.sys <$> S.exec K (.sys ctx op) = S.sys.exec K op := by
  cases op with
  | access a =>
    simp only [exec, Sys.exec]
    rw [← Counted.memOp_uncounted ctx S.sys.mem S.stats a, bind_map_left, map_bind]
    congr 1
    funext x
    obtain ⟨s, reply, stats⟩ := x
    cases reply <;> rfl
  | _ => simp [exec]

/-- An operation of the hierarchy. -/
theorem exec_sys_accounted (op : SysOp) (hS : S.stats.Accounted K) (he : S.sys.Enabled K op) :
    CacheCntlr.Partial (S.exec K (.sys ctx op)) fun S' => S'.stats.Accounted K := by
  cases op with
  | access a =>
    simp only [exec]
    apply (Counted.memOp_accounted a hS he.1 he.2.1).bind
    intro x hx
    obtain ⟨s, reply, stats⟩ := x
    cases reply <;> exact hx
  | resume o | receive m | upgrade address | dequeue address =>
    simp only [exec]
    exact (Counted.any _).bind fun _ _ => hS

theorem exec_accounted (op : CountedOp) (hS : S.stats.Accounted K) (he : S.Enabled K op) :
    CacheCntlr.Partial (S.exec K op) fun S' => S'.stats.Accounted K := by
  cases op with
  | sys ctx op => exact exec_sys_accounted op hS he
  | prefetch ctx o prefetch_address =>
    simp only [exec]
    apply (Counted.prefetch_accounted prefetch_address hS he).bind
    intro x hx
    exact hx
  | resumePrefetch o prefetch_address =>
    simp only [exec]
    exact (Counted.any _).bind fun _ _ => hS

end CountedSys

/-- In every state of every run the counters of each controller agree with one another, and each
level has been asked for what the level above counts as misses. -/
theorem stats_conserved {σ : Type} (K : Config σ) (policy : CntlrId → ℕ → σ) (ops : List CountedOp)
    (S : CountedSys σ) (h : (CountedSys.machine K).Run (.init policy) ops S) :
    (∀ o, (S.stats o).Tallied) ∧ ∀ n, 0 < n.level → n.level ≤ K.last → S.stats.Conserved K n := by
  have hinv : S.stats.Accounted K := h.inv (I := fun S => S.stats.Accounted K)
    (fun S op hS he => CountedSys.exec_accounted op hS he) (Stats.accounted_zero K)
  exact ⟨hinv.tallied, hinv.conserved⟩

/-- A core reads a line, the other prefetches it, and the first prefetches the line after it. -/
def readPrefetch : List CountedOp :=
  [.sys ⟨.init, fun _ => false, false⟩ (.access (readSeven 0)),
    .prefetch ⟨.init, fun _ => false, false⟩ ⟨0, 1⟩ 0,
    .prefetch ⟨.init, fun _ => false, false⟩ ⟨0, 0⟩ 64]

/-- The second level is asked three times, after one miss and two prefetches. -/
theorem stats_conserved_readPrefetch : ∃ S,
    (CountedSys.machine ((Hierarchy.funnel 0 2).oneBlock true)).Run (.init fun _ _ => ())
      readPrefetch S ∧
    (S.stats ⟨1, 0⟩).loads.total = 3 ∧
    S.stats.Conserved ((Hierarchy.funnel 0 2).oneBlock true) ⟨1, 0⟩ := by
  have h : (readPrefetch.foldlM (CountedSys.exec ((Hierarchy.funnel 0 2).oneBlock true))
      (.init fun _ _ => ())).toOption.map (fun S => (S.stats ⟨1, 0⟩).loads.total) = some 3 := by
    decide +kernel
  obtain ⟨S, hS, hloads⟩ := Option.map_eq_some_iff.mp h
  have hrun : (CountedSys.machine ((Hierarchy.funnel 0 2).oneBlock true)).Run (.init fun _ _ => ())
      readPrefetch S := by
    apply Machine.Run.of_foldlM _ _ S (toOption_eq_some.mp hS)
    intro done op rest S' hsplit hdone
    cases done with
    | nil =>
      cases hsplit
      cases hdone
      exact ⟨⟨by decide, by decide⟩, rfl, rfl, nofun⟩
    | cons _ done =>
      have hop : op ∈ readPrefetch.tail := by
        rw [hsplit]
        simp
      simp only [readPrefetch, List.tail_cons, List.mem_cons, List.not_mem_nil, or_false] at hop
      rcases hop with rfl | rfl
      · exact ⟨by decide, by decide⟩
      · exact ⟨by decide, by decide⟩
  exact ⟨S, hrun, hloads, (stats_conserved _ _ _ S hrun).2 ⟨1, 0⟩ (by decide) (by decide)⟩

end Sniper
