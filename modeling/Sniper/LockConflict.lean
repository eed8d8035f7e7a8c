import Sniper.LockDiscipline
import Sniper.Access
import Sniper.System
import Sniper.SubtreeUpdate

namespace Sniper
open Outcome

/-- An ordinary hierarchy in which `p` sends the write-backs of its cache, one way that the lines 0
and 1 share, to a write-through cache above the last level. -/
structure Config.Conflict {σ : Type} (K : Config σ) (p : CntlrId) : Prop where
  cntlr : K.Cntlr p
  level : p.level + 1 < K.last
  stores : K.stores = true
  perfect : ∀ c, K.m_perfect c = false
  passthrough : ∀ c, K.m_passthrough c = false
  coherent : ∀ c, K.m_coherent c = true
  last : K.m_cache_writethrough K.llc = false
  own : K.m_cache_writethrough (K.node p) = false
  next : K.m_cache_writethrough (K.node (K.nextCntlr p)) = true
  oneWay : K.associativity (K.node p) = 1
  oneSet : K.setIndex (K.node p) 0 = K.setIndex (K.node p) 1

theorem Config.Conflict.below_last {σ : Type} {K : Config σ} {p : CntlrId} (h : K.Conflict p) :
    p.level < K.last :=
  Nat.lt_of_succ_lt h.level

/-- The caches from that of `p` on hold line 0 MODIFIED, the one after it line 1 SHARED; that of `p`
holds nothing else, and the levels before it nothing. -/
structure Cold {σ : Type} (K : Config σ) (p : CntlrId) (X : Contents K.blocksize) : Prop where
  dirty : ∀ d, p.level ≤ d.level → X.Dirty 0 d
  shared : X.state (K.node (K.nextCntlr p)) 1 = .shared
  own : ∀ t, t ≠ 0 → X.block (K.node p) t = none
  before : ∀ d t, d.level < p.level → X.block d t = none
  evicting : ∀ d, X.evicting d = none

open CacheCntlr

namespace CacheCntlr

variable {σ : Type} {K : Config σ} {s : State σ} {X : Contents K.blocksize} {c o : CntlrId} {t : ℕ}

section absent

theorem not_dirty_of_absent (h : X.block c t = none) : ¬X.Dirty t c := by
  intro hdirty
  obtain ⟨b, hb, -⟩ := Contents.block_of_dirty hdirty
  rw [h] at hb
  cases hb

/-- A snoop of caches that do not hold the line leaves all blocks. -/
theorem Updated.absent {new : CState} {S : Set CntlrId} {P : CntlrId → Prop} {s' : State σ}
    {X' : Contents K.blocksize} (h : Updated K X S c t new P X') (hX' : s'.Holds K X')
    (hc : c ∈ S) (ha : ∀ d ∈ S, X.block d t = none) : X'.block = X.block := by
  funext d t'
  by_cases hd : t' = t ∧ d ∈ S
  · obtain ⟨rfl, hd⟩ := hd
    rw [ha d hd]
    by_contra hne
    obtain ⟨b, hb⟩ := Option.ne_none_iff_exists'.mp hne
    have hstate := h.inside d hd
    rw [Contents.state_of_block hb] at hstate
    apply state_ne_invalid hX' hb
    rw [hstate]
    unfold Contents.state
    rw [ha d hd, CState.restate_invalid]
  · apply h.rest d t' hd
    exact fun h' => not_dirty_of_absent (ha c hc) h'.2.2.2

theorem updatePrev_absent (hco : ∀ c, K.m_coherent c = true) (hl : c.level ≤ K.last)
    (h : s.Holds K X) (ha : ∀ d, d.level < c.level → X.block d t = none)
    (requester : Option CntlrId) :
    Total (updatePrev K s c requester (t * K.blocksize) .invalid) fun s' =>
      ∃ X', s'.Holds K X' ∧ X'.block = X.block ∧ X'.evicting = X.evicting := by
  refine sat_foldlM (E := fun _ => False) (fun _ (s' : State σ) => ∃ X' : Contents K.blocksize,
    s'.Holds K X' ∧ X'.block = X.block ∧ X'.evicting = X.evicting) _ _ ⟨X, h, rfl, rfl⟩ ?_
  intro done j rest s' hsplit h'
  obtain ⟨X₁, hs', hblock, hev⟩ := h'
  have hj : j ∈ (K.prevCntlrs c).filter fun j => decide (some j ≠ requester) := by
    rw [hsplit]
    simp
  have hlevel := (K.mem_prevCntlrs.mp (List.mem_filter.mp hj).1).1
  have habs : ∀ d ∈ K.forest.subtree j, X₁.block d t = none := by
    intro d hd
    have hrank := hd.rank_le
    change d.level ≤ j.level at hrank
    rw [hblock]
    exact ha d (by omega)
  have hready : UpdateReady K X₁ j t none :=
    .of_clean (by omega) (fun d hd => not_dirty_of_absent (habs d hd)) fun hn => by cases hn
  apply Sat.bind (updateCacheBlock_total (fun _ => hco) j.level j.core s' X₁ none hs' (.inl rfl)
    hready)
  intro r h'
  obtain ⟨X₂, hX₂, hup, -⟩ := h'
  exact ⟨X₂, hX₂, (hup.absent hX₂ (.self j) habs).trans hblock, hup.evicting.trans hev⟩

theorem backInvalidate_absent (hco : ∀ c, K.m_coherent c = true) (hl : c.level ≤ K.last)
    (h : s.Holds K X) (he : X.evicting c = none)
    (ha : ∀ d, d.level < c.level → X.block d t = none) (buf : ℕ → Byte) :
    Total (backInvalidate K s c (t * K.blocksize) buf) fun r =>
      ∃ X', r.1.Holds K X' ∧ X'.block = X.block ∧ X'.evicting = X.evicting := by
  unfold backInvalidate
  split
  · exact ⟨X, h, rfl, rfl⟩
  · apply (updatePrev_absent hco hl (h.setEvicting c _) ha none).bind
    intro s' h'
    obtain ⟨X', hX', hblock, hev⟩ := h'
    refine ⟨X'.setEvicting c none, hX'.setEvicting c none, hblock, ?_⟩
    have hall : (X'.setEvicting c none).evicting = (X.setEvicting c none).evicting := by
      unfold Contents.setEvicting
      simp only [hev]
      exact Function.update_idem _ _ _
    rw [hall, Contents.setEvicting_eq he]

end absent

/-- A write of a line that all levels from here on hold MODIFIED; a write-through takes the lock of
address 1 on its way. -/
theorem writeCacheBlock_through (hlast : K.m_cache_writethrough K.llc = false) (buf : ℕ → Byte)
    (r : ℕ) : ∀ (s : State σ) (X : Contents K.blocksize) (o : CntlrId), s.Holds K X → K.Cntlr o →
      o.level + r = K.last → (∀ d, o.level ≤ d.level → X.Dirty t d) →
      (∀ d, X.evicting d = none) →
      Total (writeCacheBlock K r s o (t * K.blocksize) 0 (some buf) K.blocksize) fun s' =>
        ∃ X', s'.Holds K X' ∧ X'.evicting = X.evicting ∧
          (∀ d t', d.level < o.level ∨ t' ≠ t → X'.block d t' = X.block d t') ∧
          (0 < r → K.m_cache_writethrough (K.node o) = true →
            .acquireExclusive (K.getSetLock 1) ∈ s'.locks) := by
  -- one level: its block takes the data, and whatever was dirty is so still
  have own : ∀ (s : State σ) (X : Contents K.blocksize) (o : CntlrId), s.Holds K X →
      (∀ d, o.level ≤ d.level → X.Dirty t d) → (∀ d, X.evicting d = none) →
      Total (writeOwnBlock K s (K.node o) (t * K.blocksize) 0 (some buf) K.blocksize) fun s' =>
        ∃ X', s'.Holds K X' ∧ X'.evicting = X.evicting ∧
          (∀ d, X.Dirty t d → X'.Dirty t d) ∧
          ∀ d t', d.level < o.level ∨ t' ≠ t → X'.block d t' = X.block d t' := by
    intro s X o h hd he
    obtain ⟨b, hb, hm⟩ := Contents.block_of_dirty (hd (K.node o) le_rfl)
    have hev : X.NotEvicting (K.node o) (t * K.blocksize) := by
      intro e hx
      rw [he] at hx
      cases hx
    apply (writeOwnBlock_total h hev hb hm buf).mono (fun _ => id)
    intro s' h'
    obtain ⟨data, -, hs'⟩ := h'
    refine ⟨_, hs', rfl, ?_, ?_⟩
    · intro d hdd
      by_cases hdo : d = K.node o
      · rw [hdo]
        exact Contents.state_of_block Contents.put_block_self
      · unfold Contents.Dirty
        rw [Contents.state_congr (Contents.put_block_of_ne hdo)]
        exact hdd
    · rintro d t' (hlevel | ht)
      · apply Contents.put_block_of_ne
        rintro rfl
        exact absurd hlevel (lt_irrefl _)
      · exact Contents.put_block_of_ne_line ht
  induction r with
  | zero =>
    intro s X o h ho hl hd he
    have hllc : K.node o = K.llc := ho.node_last hl
    apply (own s X o h hd he).bind
    intro s' h'
    obtain ⟨X', hs', hev, -, hrest⟩ := h'
    rw [require_true _ (hllc ▸ hlast)]
    exact ⟨X', hs', hev, hrest, fun hr => absurd hr (lt_irrefl 0)⟩
  | succ r ih =>
    intro s X o h ho hl hd he
    apply (own s X o h hd he).bind
    intro s₁ h'
    obtain ⟨X₁, hs₁, hev₁, hdirty₁, hrest₁⟩ := h'
    by_cases hw : K.m_cache_writethrough (K.node o) = true
    · rw [if_pos hw]
      -- a write-through level locks address 1 and goes on below, whatever line it writes
      have hnext := ih (s₁.lockEvent (.acquireExclusive (K.getSetLock 1))) X₁ (K.nextCntlr o)
        (hs₁.lockEvent _) (ho.nextCntlr (by omega)) (by change o.level + 1 + r = _; omega)
        (fun d hlevel => hdirty₁ d (hd d (Nat.le_of_succ_le hlevel)))
        (fun d => (congrFun hev₁ d).trans (he d))
      obtain ⟨s₂, hok, X₂, hs₂, hev₂, hrest₂, -⟩ := hnext.exists
      have hlogs := ((writeCacheBlock_silent 0 (some buf) K.blocksize r _ (K.nextCntlr o)
        fun hK hr => hK o ho (by omega)).of_ok hok).logs
      simp only [hok, ok_bind]
      refine ⟨X₂, hs₂.lockEvent _, hev₂.trans hev₁, ?_, ?_⟩
      · intro d t' hdt
        rw [hrest₂ d t' (hdt.imp Nat.lt_succ_of_lt id), hrest₁ d t' hdt]
      · intro _ _
        have hmem := hlogs.mem (List.mem_append_right _ (List.mem_singleton_self _))
        exact List.mem_append_left _ hmem
    · rw [if_neg hw]
      exact ⟨X₁, hs₁, hev₁, hrest₁, fun _ h => absurd h hw⟩

/-- A line goes into a cache that holds nothing. -/
theorem insertCacheBlock_empty (hst : K.stores = true) (h : s.Holds K X)
    (hempty : ∀ t, X.block (K.node o) t = none) (buf : ℕ → Byte) :
    Total (insertCacheBlock K s o (t * K.blocksize) .shared (some buf)) fun s' =>
      s'.Holds K (X.put (K.node o) t (some ⟨.shared, fun i => buf i⟩)) := by
  unfold insertCacheBlock
  simp only
  rw [require_true _ (getCacheState_of_absent h (hempty t))]
  obtain ⟨evicted, hev, hs⟩ := insertSingleLine_holds hst h (hempty t)
    (show CState.shared ≠ .invalid by decide) buf
  simp only [ok_bind, hev]
  cases evicted with
  | none => exact hs
  | some e =>
    obtain ⟨evict_address, e⟩ := e
    obtain ⟨u, x, -, -, hx, -⟩ := hs
    rw [hempty u] at hx
    cases hx

/-- One way does not hold two lines of one set. -/
theorem oneWay_absurd (hways : K.associativity c = 1) (hset : K.setIndex c 0 = K.setIndex c 1)
    (h : s.Holds K X) {b₀ b₁ : Block K.blocksize} (h₀ : X.block c 0 = some b₀)
    (h₁ : X.block c 1 = some b₁) : False := by
  have hwf := h.wellFormed c
  obtain ⟨w₀, hw₀⟩ := Cache.lineWay_of_block hwf ((h.block c 0).trans h₀)
  obtain ⟨w₁, hw₁⟩ := Cache.lineWay_of_block hwf ((h.block c 1).trans h₁)
  obtain ⟨hlt₀, htag₀⟩ := (Cache.lineWay_eq_some hwf).mp hw₀
  obtain ⟨hlt₁, htag₁⟩ := (Cache.lineWay_eq_some hwf).mp hw₁
  change w₀ < K.associativity c at hlt₀
  change w₁ < K.associativity c at hlt₁
  change K.setIndex c 0 = K.setIndex c 1 at hset
  have hw : w₀ = w₁ := by omega
  have hsets : (K.params c).setIndex 0 = (K.params c).setIndex 1 := hset
  rw [hw, hsets, htag₁] at htag₀
  cases htag₀

section conflict

variable {p : CntlrId} (hK : K.Conflict p) (hX : Cold K p X)
include hK hX

/-- Line 1 takes the place of line 0 in the cache of `p`; the write-back of line 0 goes through. -/
theorem insertCacheBlock_conflict (h : s.Holds K X) (buf : ℕ → Byte) :
    Total (insertCacheBlock K s p (1 * K.blocksize) .shared (some buf)) fun s' =>
      ∃ X', s'.Holds K X' ∧ X'.state (K.node p) 1 = .shared ∧
        (∀ d t, d.level < p.level → X'.block d t = X.block d t) ∧ X'.evicting = X.evicting ∧
        .acquireExclusive (K.getSetLock 1) ∈ s'.locks := by
  have hne : ∀ {d : CntlrId}, d.level ≠ p.level → d ≠ K.node p := by
    rintro d hl rfl
    exact hl rfl
  obtain ⟨b, hb, hm⟩ := Contents.block_of_dirty (hX.dirty (K.node p) le_rfl)
  have habs := hX.own 1 one_ne_zero
  unfold insertCacheBlock
  simp only
  rw [require_true _ (getCacheState_of_absent h habs)]
  obtain ⟨evicted, hev, hs⟩ := insertSingleLine_holds hK.stores h habs
    (show CState.shared ≠ .invalid by decide) buf
  simp only [ok_bind, hev]
  generalize setCacheState K (s.putCache (K.node p) _) (K.node p) (1 * K.blocksize) .shared = s₁
    at hs ⊢
  -- the one way of the set holds line 0, so the fill cannot go without an eviction
  cases evicted with
  | none =>
    exact (oneWay_absurd hK.oneWay hK.oneSet hs
      ((Contents.put_block_of_ne_line zero_ne_one).trans hb) Contents.put_block_self).elim
  | some e =>
    obtain ⟨evict_address, e⟩ := e
    obtain ⟨u, x, rfl, hut, hx, hcs, -, hs⟩ := hs
    have hu : u = 0 := by
      by_contra hu
      rw [hX.own u hu] at hx
      cases hx
    subst hu
    rw [hb] at hx
    cases hx
    generalize hY : (X.put (K.node p) 0 none).put (K.node p) 1 (some ⟨.shared, fun i => buf i⟩) = Y
      at hs
    have hother : ∀ d t, d ≠ K.node p → Y.block d t = X.block d t := by
      intro d t hd
      rw [← hY, Contents.put_block_of_ne hd, Contents.put_block_of_ne hd]
    have hYev : Y.evicting = X.evicting := by rw [← hY]; rfl
    have hbefore : ∀ d, d.level < (K.node p).level → Y.block d 0 = none := by
      intro d hd
      rw [hother d 0 (hne hd.ne)]
      exact hX.before d 0 hd
    apply (backInvalidate_absent hK.coherent hK.cntlr.node.1.1 hs
      ((congrFun hYev _).trans (hX.evicting _)) hbefore e.buf).bind
    rintro ⟨s₂, evict_buf⟩ ⟨X₂, hs₂, hblock₂, hev₂⟩
    -- the evicted line is dirty, and its cache writes it back
    have hdispose : disposeEvicted K s₂ p (0 * K.blocksize) e.info.cstate evict_buf =
        writeNext K s₂ p (0 * K.blocksize) 0 (some evict_buf) K.blocksize := by
      unfold disposeEvicted
      simp only
      have hlast : (K.node p).level < K.last := hK.below_last
      rw [if_neg (by simp [hK.perfect]), if_neg (by simp [hK.coherent]), if_pos hlast,
        if_pos ⟨hK.own, hcs.trans hm⟩]
    have hdirty : ∀ d, (K.nextCntlr p).level ≤ d.level → X₂.Dirty 0 d := by
      intro d hd
      have hlevel : p.level + 1 ≤ d.level := hd
      unfold Contents.Dirty
      rw [Contents.state_congr ((congrFun (congrFun hblock₂ d) 0).trans
        (hother d 0 (hne (by omega))))]
      exact hX.dirty d (by omega)
    have hrest : (K.nextCntlr p).level + (K.last - (p.level + 1)) = K.last := by
      have hlevel := hK.below_last
      change p.level + 1 + _ = _
      omega
    simp only
    rw [hdispose]
    apply Sat.bind (writeCacheBlock_through hK.last evict_buf _ s₂ X₂ (K.nextCntlr p) hs₂
      (hK.cntlr.nextCntlr hK.below_last) hrest hdirty
      fun d => (congrFun (hev₂.trans hYev) d).trans (hX.evicting d))
    intro s₃ h'
    obtain ⟨X₃, hs₃, hev₃, hrest₃, hlock₃⟩ := h'
    -- the write-back changes only the levels below
    have hkept : ∀ d t, d.level ≤ p.level → X₃.block d t = Y.block d t := by
      intro d t hd
      rw [hrest₃ d t (.inl (Nat.lt_succ_of_le hd)), hblock₂]
    have hgone : X₃.block (K.node p) 0 = none := by
      rw [hkept (K.node p) 0 le_rfl, ← hY, Contents.put_block_of_ne_line zero_ne_one,
        Contents.put_block_self]
    have hnew : X₃.block (K.node p) 1 = some ⟨.shared, fun i => buf i⟩ := by
      rw [hkept (K.node p) 1 le_rfl, ← hY, Contents.put_block_self]
    rw [require_true _ (getCacheState_of_absent hs₃ hgone)]
    refine ⟨X₃, hs₃, Contents.state_of_block hnew, ?_, (hev₃.trans hev₂).trans hYev,
      hlock₃ (Nat.sub_pos_of_lt hK.level) hK.next⟩
    intro d t hd
    rw [hkept d t hd.le, hother d t (hne hd.ne)]

variable (K X p) in
/-- What the levels below controller `o` leave when they have answered: the next cache has line 1,
and they have taken the lock of address 1 unless `o` is `p`, whose fill is still to come. -/
def Answered (o : CntlrId) (s : State σ) : Prop :=
  ∃ X₁, s.Holds K X₁ ∧ X₁.state (K.node (K.nextCntlr o)) 1 = .shared ∧
    (∀ d t, d.level ≤ o.level → X₁.block d t = X.block d t) ∧ X₁.evicting = X.evicting ∧
    (o.level < p.level ∧ .acquireExclusive (K.getSetLock 1) ∈ s.locks ∨ o = p ∧ X₁ = X)

variable (K X) in
/-- What a controller `o` leaves when it has filled its own cache. -/
def Refilled (o : CntlrId) (s : State σ) : Prop :=
  ∃ X₁, s.Holds K X₁ ∧ X₁.state (K.node o) 1 = .shared ∧
    (∀ d t, d.level < o.level → X₁.block d t = X.block d t) ∧ X₁.evicting = X.evicting ∧
    .acquireExclusive (K.getSetLock 1) ∈ s.locks

theorem copyDataFromNextLevel_conflict (ho : K.Cntlr o) (hs : Answered K X p o s) :
    Total (copyDataFromNextLevel K s o .read (1 * K.blocksize)) (Refilled K X o) := by
  obtain ⟨X₁, h₁, hnext, hkept, hev, hcase⟩ := hs
  obtain ⟨b, hb, hbs⟩ := Contents.block_of_state hnext (by decide)
  have habs : X₁.block (K.node o) 1 = none := by
    rw [hkept (K.node o) 1 le_rfl]
    rcases hcase with ⟨hl, -⟩ | ⟨rfl, -⟩
    · exact hX.before _ 1 hl
    · exact hX.own 1 one_ne_zero
  have hinsert : Total (copyDataFromNextLevel K s o .read (1 * K.blocksize)) fun s' =>
      .acquireExclusive (K.getSetLock 1) ∈ s.locks ∧ (∃ X₂, s'.Holds K X₂ ∧
        X₂.state (K.node o) 1 = .shared ∧ (∀ d t, d.level < o.level → X₂.block d t = X.block d t) ∧
          X₂.evicting = X.evicting) ∨ Refilled K X o s' := by
    have hreadable : MemOp.read.permits .shared = true := rfl
    unfold copyDataFromNextLevel
    simp only
    rw [getCacheState_of_block h₁ hb, hbs, require_true _ hreadable]
    apply (retrieveCacheBlock_total h₁ hb K.garbage false).bind
    rintro ⟨s₂, data_buf⟩ ⟨h₂, -⟩
    simp only at h₂ ⊢
    rw [info_of_absent h₂ habs, getCacheState_of_block h₂ hb, hbs]
    rcases hcase with ⟨hl, hlock⟩ | ⟨rfl, rfl⟩
    · have hempty : ∀ t, X₁.block (K.node o) t = none := by
        intro t
        rw [hkept (K.node o) t le_rfl]
        exact hX.before _ t hl
      apply (insertCacheBlock_empty hK.stores h₂ hempty data_buf).mono (fun _ => id)
      intro s₃ h₃
      refine .inl ⟨hlock, _, h₃, Contents.state_of_block Contents.put_block_self, ?_, hev⟩
      intro d t hd
      rw [Contents.put_block_of_ne, hkept d t hd.le]
      rintro rfl
      exact absurd hd (lt_irrefl _)
    · apply (insertCacheBlock_conflict hK hX h₂ data_buf).mono (fun _ => id)
      intro s₃ h₃
      exact .inr h₃
  obtain ⟨s', hok, hs'⟩ := hinsert.exists
  rw [hok]
  rcases hs' with ⟨hlock, X₂, h₂, hnew, hrest, hev₂⟩ | hs'
  · have hlogs := (copyDataFromNextLevel_logs ho .read).of_ok hok
    exact ⟨X₂, h₂, hnew, hrest, hev₂, hlogs.mem hlock⟩
  · exact hs'

/-- The cache after that of `p` has line 1 and gives it away as it is. -/
theorem processShmemReq_hit (h : s.Holds K X) (r : ℕ) (requester : CntlrId) (count : Bool) :
    Total (processShmemReqFromPrevCache K r s (K.nextCntlr p) requester .read (1 * K.blocksize)
      count) fun q => q.2 ≠ .miss ∧ q.1.Holds K X := by
  obtain ⟨b, hb, hbs⟩ := Contents.block_of_state hX.shared (by decide)
  have hstate := getCacheState_of_block h hb
  rw [hbs] at hstate
  have hanswer : ∀ u, Total (answerHit K s (K.node (K.nextCntlr p)) requester .read
      (1 * K.blocksize) u) fun q => q.2 ≠ .miss ∧ q.1.Holds K X := by
    intro u
    unfold answerHit snoopOnHit
    simp only [hstate]
    apply (retrieveCacheBlock_total h hb K.garbage u).bind
    rintro ⟨s', buf⟩ ⟨hs', -⟩
    exact ⟨by simp, hs'⟩
  have hadjust : adjustHit K s (K.nextCntlr p) .read (1 * K.blocksize)
      (K.m_passthrough (K.node (K.nextCntlr p)) && count) = .ok (s, true) := by
    unfold adjustHit
    simp only [hstate, hK.passthrough]
    rfl
  unfold processShmemReqFromPrevCache
  cases r <;> simp only [hadjust, ok_bind] <;> exact hanswer _

/-- The levels between the first and that of `p` miss and are filled one after the other. -/
theorem processShmemReq_answered (h : s.Holds K X) (count : Bool) (n : ℕ) :
    ∀ o requester, K.Cntlr o → o.level + n = p.level → K.nextCntlr^[n] o = p →
      Total (processShmemReqFromPrevCache K (K.last - (o.level + 1)) s (K.nextCntlr o) requester
        .read (1 * K.blocksize) count) fun q => q.2 ≠ .miss ∧ Answered K X p o q.1 := by
  have hbelow := hK.below_last
  -- by the number of levels up to that of `p`, which has the line in the level after it
  induction n with
  | zero =>
    intro o requester ho hl hp
    change o = p at hp
    subst hp
    apply (processShmemReq_hit hK hX h _ requester count).mono (fun _ => id)
    intro q h'
    obtain ⟨hq, hs⟩ := h'
    exact ⟨hq, X, hs, hX.shared, fun _ _ _ => rfl, rfl, .inr ⟨rfl, rfl⟩⟩
  | succ n ih =>
    intro o requester ho hl hp
    rw [Function.iterate_succ_apply] at hp
    have hnext := ho.nextCntlr (show o.level < K.last by omega)
    have hlevel : (K.nextCntlr o).level = o.level + 1 := rfl
    have habs : X.block (K.node (K.nextCntlr o)) 1 = none := by
      cases n with
      | zero =>
        change K.nextCntlr o = p at hp
        rw [hp]
        exact hX.own 1 one_ne_zero
      | succ n => exact hX.before _ 1 (by change o.level + 1 < p.level; omega)
    have hstate := getCacheState_of_absent h habs
    have hinfo := info_of_absent h habs
    have hadjust : adjustHit K s (K.nextCntlr o) .read (1 * K.blocksize)
        (K.m_passthrough (K.node (K.nextCntlr o)) && count) = .ok (s, false) := by
      unfold adjustHit
      simp only [hstate, hK.perfect]
      rfl
    have hrest : K.last - (o.level + 1) = K.last - ((K.nextCntlr o).level + 1) + 1 := by
      rw [hlevel]
      omega
    rw [hrest]
    unfold processShmemReqFromPrevCache
    have hsnoop : snoopOnUpgrade K s (K.node (K.nextCntlr o)) requester (1 * K.blocksize) =
        .ok s := by
      unfold snoopOnUpgrade
      rw [hinfo]
      rfl
    have hdrop : dropBlock K s (K.node (K.nextCntlr o)) (1 * K.blocksize) = .ok s := by
      unfold dropBlock
      rw [hinfo]
      rfl
    simp only [hadjust, hsnoop, hdrop, ok_bind, Bool.false_eq_true, if_false]
    apply (ih (K.nextCntlr o) (K.nextCntlr o) hnext (by omega) hp).bind
    rintro ⟨s₁, hit_where⟩ ⟨hmiss, hans⟩
    simp only [fillFromNextLevel, if_neg hmiss]
    apply (copyDataFromNextLevel_conflict hK hX hnext hans).bind
    intro s₂ h'
    obtain ⟨X₂, h₂, hnew, hkept, hev, hlock⟩ := h'
    obtain ⟨b, hb, -⟩ := Contents.block_of_state hnew (by decide)
    have hread := (retrieveCacheBlock_total h₂ hb K.garbage false).exists
    obtain ⟨⟨s₃, buf⟩, hok, h₃, -⟩ := hread
    have hlogs := ((retrieveCacheBlock_silent K.garbage false).of_ok hok).logs
    simp only [answerMiss, if_neg hmiss, hok, ok_bind]
    refine ⟨hmiss, X₂, h₃, hnew, ?_, hev, .inl ⟨by omega, hlogs.mem hlock⟩⟩
    intro d t hd
    exact hkept d t (by omega)

omit hK hX in
/-- The end of a read of no bytes. -/
theorem finishAccess_read {a : MemAccess} (hop : a.op = .read) (hn : a.data_length = 0)
    (hl : a.cntlr.level = 0) (hall : lockAll K a = false) (h : s.Holds K X)
    (hit_where : HitWhere) : Total (finishAccess K s a hit_where) fun r =>
      ∀ e ∈ s.locks, e ∈ r.1.locks := by
  have hfirst : K.prevCntlrs (K.node a.cntlr) = [] := prevCntlrs_nil hl
  have haccess : ∀ u, Total (accessCache K s a.cntlr a.op a.ca_address a.offset a.data_buf
      a.data_length u) fun r => s.Logs K r.1 := by
    intro u
    unfold accessCache
    rw [hop, hn]
    have hread := access_empty_holds (c := K.node a.cntlr) h (a.ca_address + a.offset) .load
      a.data_buf u
    obtain ⟨⟨s', buf, info⟩, hok, -⟩ := hread.exists
    have hlogs := ((accessSingleLine_silent _ _ _ _).of_ok hok).logs
    simp only [hok, ok_bind]
    exact hlogs
  apply (haccess _).bind
  intro h' h₁
  obtain ⟨s₁, buf⟩ := h'
  have hrelease : Total (releaseAfterAccess K s₁ a) fun s₂ => ∀ e ∈ s₁.locks, e ∈ s₂.locks := by
    unfold releaseAfterAccess
    split
    · exact fun e he => he
    · rw [hall, if_neg (by simp), require_true _ hfirst]
      exact fun e he => List.mem_append_left _ he
  apply hrelease.bind
  intro s₂ h₂ e he
  exact h₂ e (h₁.mem he)

/-- A core reads line 1, and the fill of `p` throws line 0 out. -/
theorem processMemOpFromCore_conflict (h : s.Holds K X) {a : MemAccess} (ho : K.Cntlr a.cntlr)
    (hl : a.cntlr.level = 0) (hp : K.nextCntlr^[p.level] a.cntlr = p)
    (hsignal : a.lock_signal = .none) (hop : a.op = .read) (haddr : a.ca_address = 1 * K.blocksize)
    (hoff : a.offset = 0) (hlen : a.data_length = 0) :
    Total (processMemOpFromCore K s a) fun r =>
      .acquireExclusive (K.getSetLock 1) ∈ r.1.locks := by
  have hbelow := hK.below_last
  have habs : X.block (K.node a.cntlr) 1 = none := by
    rcases Nat.eq_zero_or_pos p.level with hzero | hpos
    · rw [hzero] at hp
      change a.cntlr = p at hp
      rw [hp]
      exact hX.own 1 one_ne_zero
    · exact hX.before _ 1 (hl.trans_lt hpos)
  have hall : lockAll K a = false := by simp [lockAll, hsignal, hop]
  have hacquire : acquireForAccess K s a =
      .ok (s.lockEvent (.acquireShared (K.getSetLock a.ca_address))) := by
    unfold acquireForAccess
    have hfirst : K.prevCntlrs (K.node a.cntlr) = [] := prevCntlrs_nil hl
    rw [if_neg (by simp [hsignal]), hall, if_neg (by simp), require_true _ hfirst]
    rfl
  have hadjust : ∀ s : State σ, s.Holds K X → adjustHit K s a.cntlr a.op a.ca_address
      (K.m_passthrough (K.node a.cntlr)) = .ok (s, false) := by
    intro s h
    unfold adjustHit
    rw [haddr, hop]
    simp only [getCacheState_of_absent h habs, hK.perfect]
    rfl
  have hdrop : ∀ s : State σ, s.Holds K X →
      dropForMiss K s (K.node a.cntlr) a.ca_address = .ok s := by
    intro s h
    unfold dropForMiss
    rw [haddr, getCacheState_of_absent h habs]
    rfl
  unfold processMemOpFromCore
  simp only
  rw [require_true _ (haddr ▸ Nat.mul_mod_left _ _), require_true _ (by simp [hoff, hlen])]
  simp only [hacquire, hadjust _ (h.lockEvent _), ok_bind, hall, Bool.false_eq_true, if_false,
    hdrop _ ((h.lockEvent _).lockEvent _)]
  rw [require_true _ (by simp [hsignal])]
  -- the levels up to `p` miss, and each is filled on the way back
  have hrequest : Total (requestNext K ((s.lockEvent (.acquireShared (K.getSetLock a.ca_address))
      ).lockEvent (.upgrade (K.getSetLock a.ca_address))) a a.count) fun q =>
        q.2 ≠ .miss ∧ Answered K X p a.cntlr q.1 := by
    unfold requestNext
    rw [require_true _ (by omega), hop, haddr]
    exact processShmemReq_answered hK hX ((h.lockEvent _).lockEvent _) a.count p.level a.cntlr
      a.cntlr ho (by omega) hp
  apply hrequest.bind
  rintro ⟨s₁, hit_where⟩ ⟨hmiss, hans⟩
  simp only [if_neg hmiss]
  have hcopy := copyDataFromNextLevel_conflict hK hX ho hans
  rw [← hop, ← haddr] at hcopy
  apply hcopy.bind
  intro s₂ h'
  obtain ⟨X₂, h₂, hnew, -, -, hlock⟩ := h'
  obtain ⟨b, hb, hbs⟩ := Contents.block_of_state hnew (by decide)
  have hpermits : a.op.permits (getCacheState K (s₂.lockEvent (.downgrade
      (K.getSetLock a.ca_address))) (K.node a.cntlr) a.ca_address) = true := by
    rw [haddr, getCacheState_of_block (h₂.lockEvent _) hb, hbs, hop]
    rfl
  simp only [hall, Bool.false_eq_true, if_false]
  rw [require_true _ hpermits]
  apply (finishAccess_read hop hlen hl hall (h₂.lockEvent _) hit_where).mono (fun _ => id)
  intro r hr
  exact hr _ (List.mem_append_left _ hlock)

end conflict

/-- A core writes line 1 in its write-through cache, and the next level writes it through again. -/
theorem processMemOpFromCore_through (hst : K.stores = true)
    (hpassthrough : ∀ c, K.m_passthrough c = false) (hlast : K.m_cache_writethrough K.llc = false)
    (hl : 1 < K.last) (h : s.Holds K X) (hd : ∀ d, X.Dirty 1 d) (he : ∀ d, X.evicting d = none)
    {a : MemAccess} (ho : K.Cntlr a.cntlr) (hfirst : a.cntlr.level = 0)
    (hown : K.m_cache_writethrough (K.node a.cntlr) = true)
    (hnext : K.m_cache_writethrough (K.node (K.nextCntlr a.cntlr)) = true)
    (hsignal : a.lock_signal = .none) (hop : a.op = .write) (haddr : a.ca_address = 1 * K.blocksize)
    (hoff : a.offset = 0) (hlen : a.data_length = K.blocksize) {buf : ℕ → Byte}
    (hbuf : a.data_buf = some buf) :
    Total (processMemOpFromCore K s a) fun r =>
      .acquireExclusive (K.getSetLock 1) ∈ r.1.locks := by
  have hall : lockAll K a = true := by simp [lockAll, hown, hop]
  have hacquire : acquireForAccess K s a =
      .ok (s.lockEvent (.acquireExclusive (K.getSetLock a.ca_address))) := by
    unfold acquireForAccess
    rw [if_neg (by simp [hsignal]), hall]
    rfl
  have hs := h.lockEvent (.acquireExclusive (K.getSetLock a.ca_address))
  obtain ⟨b, hb, hm⟩ := Contents.block_of_dirty (hd (K.node a.cntlr))
  have hadjust : adjustHit K (s.lockEvent (.acquireExclusive (K.getSetLock a.ca_address))) a.cntlr
      a.op a.ca_address (K.m_passthrough (K.node a.cntlr)) =
        .ok (s.lockEvent (.acquireExclusive (K.getSetLock a.ca_address)), true) := by
    unfold adjustHit
    rw [haddr, hop]
    rw [haddr] at hs
    simp only [getCacheState_of_block hs hb, hm, hpassthrough]
    rfl
  have haccess : ∀ u, Total (accessCache K (s.lockEvent (.acquireExclusive
      (K.getSetLock a.ca_address))) a.cntlr a.op a.ca_address a.offset a.data_buf a.data_length u)
      fun r => .acquireExclusive (K.getSetLock 1) ∈ r.1.locks := by
    intro u
    unfold accessCache
    rw [hop, hoff, hlen, hbuf]
    simp only
    have hstore := access_store_holds hst hs hb K.blocksize_pos (Nat.zero_add K.blocksize).le
      (some buf) u
    rw [haddr] at hstore ⊢
    apply hstore.bind
    rintro ⟨s₁, out, info⟩ ⟨h₁, -, -⟩
    simp only
    rw [if_pos hown, require_true _ (by change a.cntlr.level < K.last; omega)]
    have hdirty : ∀ d, (K.nextCntlr a.cntlr).level ≤ d.level →
        (X.put (K.node a.cntlr) 1 (some ⟨b.state, Block.write b.data 0 K.blocksize (some buf)⟩)
          ).Dirty 1 d := by
      intro d hlevel
      change a.cntlr.level + 1 ≤ d.level at hlevel
      unfold Contents.Dirty
      rw [Contents.state_congr (Contents.put_block_of_ne _)]
      · exact hd d
      · rintro rfl
        exact absurd hlevel (Nat.not_succ_le_self _)
    apply Sat.bind (writeCacheBlock_through hlast buf (K.last - (a.cntlr.level + 1)) s₁ _
      (K.nextCntlr a.cntlr) h₁ (ho.nextCntlr (by omega))
      (by change a.cntlr.level + 1 + _ = _; omega) hdirty he)
    intro s₂ h'
    obtain ⟨X₂, -, -, -, hlock⟩ := h'
    exact hlock (by omega) hnext
  unfold processMemOpFromCore
  simp only
  rw [require_true _ (haddr ▸ Nat.mul_mod_left _ _), require_true _ (by simp [hoff, hlen])]
  simp only [hacquire, hadjust, ok_bind, if_true]
  apply (haccess _).bind
  intro h' h₁
  obtain ⟨s₁, out⟩ := h'
  have hrelease : releaseAfterAccess K s₁ a =
      .ok (s₁.lockEvent (.releaseExclusive (K.getSetLock a.ca_address))) := by
    unfold releaseAfterAccess
    rw [if_neg (by simp [hsignal]), hall]
    rfl
  simp only [hrelease, ok_bind]
  exact List.mem_append_left _ h₁

end CacheCntlr
/-- Each controller beyond the first level is the next of some controller: a core has one at every
level. -/
def Hierarchy.Stacked (H : Hierarchy) : Prop :=
  ∀ o, H.Cntlr o → 0 < o.level → ∃ o', H.Cntlr o' ∧ H.nextCntlr o' = o

theorem Hierarchy.Stacked.first {H : Hierarchy} (h : H.Stacked) (n : ℕ) :
    ∀ p, H.Cntlr p → p.level = n → ∃ o, H.Cntlr o ∧ o.level = 0 ∧ H.nextCntlr^[n] o = p := by
  induction n with
  | zero => exact fun p hp hl => ⟨p, hp, hl, rfl⟩
  | succ n ih =>
    intro p hp hl
    obtain ⟨p', hp', rfl⟩ := h p hp (by omega)
    obtain ⟨o, ho, hzero, hn⟩ := ih p' hp' (Nat.succ_injective hl)
    refine ⟨o, ho, hzero, ?_⟩
    rw [Function.iterate_succ_apply', hn]

/-- Every core access of every such hierarchy keeps to the discipline: all locks it acquires are
those of its own set, and it acquires none exclusively that it has so. It starts without the lock,
or, as the second of an atomic pair, with what the first left; the rest of a call that waited starts
with the lock that the network thread passes on. -/
def LocksDisciplined (H : Hierarchy) (writethrough : CntlrId → Bool) : Prop :=
  ∀ (σ : Type) (K : Config σ), K.toHierarchy = H → K.m_cache_writethrough = writethrough →
    ∀ (s : State σ) (a : MemAccess) (s' : State σ) (reply : Reply), K.Cntlr a.cntlr →
      a.cntlr.level = 0 →
      (processMemOpFromCore K s a = .ok (s', reply) → ∃ held', s.Tracks (K.getSetLock a.ca_address)
        (lockAll K a && decide (a.lock_signal = .unlock)) s' held') ∧
      (resumeMemOpFromCore K s a = .ok (s', reply) → ∃ held',
        s.Tracks (K.getSetLock a.ca_address) true s' held')

/-- Caches of one-way sets, with two set locks. -/
def Hierarchy.oneWay (H : Hierarchy) (writethrough : CntlrId → Bool)
    (setIndex : CntlrId → ℕ → ℕ) : Config Unit :=
  { H.oneBlock true with
    setIndex := setIndex
    m_cache_writethrough := writethrough
    m_num_sets := 2 }

/-- The access to line 1 takes the lock of the other set. -/
theorem LocksDisciplined.absurd {H : Hierarchy} {writethrough : CntlrId → Bool}
    (h : LocksDisciplined H writethrough) (setIndex : CntlrId → ℕ → ℕ)
    {s : State Unit} (hs : s.locks = []) {a : MemAccess} (ha : H.Cntlr a.cntlr)
    (hl : a.cntlr.level = 0) (haddr : a.ca_address = 1 * 64)
    (hlock : Total (processMemOpFromCore (H.oneWay writethrough setIndex) s a) fun r =>
      .acquireExclusive ((H.oneWay writethrough setIndex).getSetLock 1) ∈ r.1.locks) : False := by
  obtain ⟨⟨s', reply⟩, hok, hmem⟩ := hlock.exists
  obtain ⟨held', htracks⟩ :=
    (h Unit (H.oneWay writethrough setIndex) rfl rfl s a s' reply ha hl).1 hok
  have hown := htracks.acquire_own hs hmem
  rw [haddr] at hown
  change 1 / 64 % 2 = 1 * 64 / 64 % 2 at hown
  omega

/-- Line 0 is in the caches from level `k` on, line 1 in those after it; the caches of level `k`
have one set. -/
def conflictLines (k : ℕ) (c : CntlrId) (t : ℕ) : CState :=
  if t = 0 ∧ k ≤ c.level then .modified
  else if t = 1 ∧ k < c.level then .shared
  else .invalid

def conflictSets (k : ℕ) (c : CntlrId) (t : ℕ) : ℕ := if c.level = k then 0 else t

theorem conflictLines_home {k : ℕ} (c : CntlrId) (t : ℕ) (h : conflictLines k c t ≠ .invalid) :
    conflictSets k c t = t := by
  unfold conflictSets
  split
  · rename_i hl
    by_contra ht
    apply h
    unfold conflictLines
    rw [if_neg (by omega), if_neg (by omega)]
  · rfl

theorem conflictLines_cold {σ : Type} (K : Config σ) (p : CntlrId) :
    Cold K p (.holding (conflictLines p.level) 0 K.blocksize) where
  dirty d hd := by
    unfold Contents.Dirty
    rw [Contents.holding_state]
    exact if_pos ⟨rfl, hd⟩
  shared := by
    rw [Contents.holding_state]
    exact (if_neg (by omega)).trans (if_pos ⟨rfl, Nat.lt_succ_self _⟩)
  own t ht := by
    apply if_pos
    exact (if_neg (by omega)).trans (if_neg fun h => absurd h.2 (lt_irrefl _))
  before d t hd := by
    apply if_pos
    exact (if_neg (by omega)).trans (if_neg (by omega))
  evicting _ := rfl

section shapes

variable {H : Hierarchy} {writethrough : CntlrId → Bool} (h : LocksDisciplined H writethrough)
  (hlast : writethrough H.llc = false) {p : CntlrId} (hp : H.Cntlr p)
  (hw : writethrough (H.node (H.nextCntlr p)) = true)
include h hlast hp hw

/-- No write-through first level writes to a write-through next level. -/
theorem LocksDisciplined.not_through (hl : 1 < H.last) (hzero : p.level = 0)
    (hwp : writethrough (H.node p) = true) : False := by
  have hholds : (State.holding (fun _ t => if t = 1 then .modified else .invalid) 0).Holds
      (H.oneWay writethrough fun _ t => t) (.holding _ 0 64) :=
    State.holding_holds (fun _ => rfl) fun _ _ _ => rfl
  apply h.absurd (fun _ t => t) (s := State.holding _ 0) rfl (a := ⟨p, .none, .write, 1 * 64, 0,
    some fun _ => 0, 64, true⟩) hp hzero rfl
  exact processMemOpFromCore_through (K := H.oneWay writethrough fun _ t => t) rfl (fun _ => rfl)
    hlast hl hholds (fun d => Contents.holding_state) (fun _ => rfl) hp hzero hwp hw rfl rfl rfl rfl
    rfl rfl

/-- No write-back cache above the last level throws a line out to a write-through one. -/
theorem LocksDisciplined.not_conflict (hl : p.level + 1 < H.last)
    (hwp : writethrough (H.node p) = false) {o : CntlrId} (ho : H.Cntlr o) (hzero : o.level = 0)
    (hfirst : H.nextCntlr^[p.level] o = p) : False := by
  have hholds : (State.holding (conflictLines p.level) 0).Holds
      (H.oneWay writethrough (conflictSets p.level)) (.holding (conflictLines p.level) 0 64) :=
    State.holding_holds (fun _ => rfl) conflictLines_home
  have hconflict : (H.oneWay writethrough (conflictSets p.level)).Conflict p :=
    ⟨hp, hl, rfl, fun _ => rfl, fun _ => rfl, fun _ => rfl, hlast, hwp, hw, rfl,
      (if_pos rfl).trans (if_pos rfl).symm⟩
  apply h.absurd (conflictSets p.level) (s := State.holding _ 0) rfl (a := ⟨o, .none, .read, 1 * 64,
    0, none, 0, true⟩) ho hzero rfl
  exact processMemOpFromCore_conflict hconflict (conflictLines_cold _ p) hholds ho hzero hfirst rfl
    rfl rfl rfl rfl

end shapes

/-- The locks are those of the own set, and none is taken twice, if and only if no cache between the
first level and the last is write-through. -/
theorem lock_discipline_iff (H : Hierarchy) (writethrough : CntlrId → Bool) (hstack : H.Stacked)
    (hlast : writethrough H.llc = false) :
    LocksDisciplined H writethrough ↔
      ∀ c, H.Node c → 0 < c.level → c.level < H.last → writethrough c = false := by
  constructor
  · intro h c
    induction hn : c.level using Nat.strong_induction_on generalizing c with
    | _ n ih =>
      intro hc hpos hlt
      obtain ⟨p, hp, hnext⟩ := hstack c hc.1 (by omega)
      have hlevel : p.level + 1 = c.level := congrArg CntlrId.level hnext
      have hnode : H.node (H.nextCntlr p) = c := by rw [hnext, hc.node_eq]
      by_contra hw
      rw [Bool.not_eq_false, ← hnode] at hw
      by_cases hwp : writethrough (H.node p) = true
      · have hzero : p.level = 0 := by
          by_contra hpos'
          rw [ih p.level (by omega) (H.node p) rfl hp.node (Nat.pos_of_ne_zero hpos')
            (show p.level < H.last by omega)] at hwp
          cases hwp
        exact h.not_through hlast hp hw (by omega) hzero hwp
      · obtain ⟨o, ho, hzero, hfirst⟩ := hstack.first p.level p hp rfl
        exact h.not_conflict hlast hp hw (by omega) (by simpa using hwp) ho hzero hfirst
  · intro h σ K hH hwt s a s' reply ha hl
    subst hH hwt
    have hK : K.MiddleWriteBack := by
      intro o ho hlo
      exact h _ (ho.nextCntlr (by omega)).node (Nat.succ_pos _) hlo
    exact ⟨(processMemOpFromCore_tracks hK ha).of_ok, (resumeMemOpFromCore_tracks hK ha).of_ok⟩

theorem Hierarchy.funnel_stacked (m : ℕ) {n : ℕ} (hn : 0 < n) : (Hierarchy.funnel m n).Stacked := by
  intro o ho hpos
  obtain ⟨l, j⟩ := o
  simp only at hpos
  have hwidth : ∀ l, 0 < (Hierarchy.funnel m n).width l := by
    intro l
    simp only [Hierarchy.funnel]
    split
    · exact hn
    · exact Nat.one_pos
  have hj : j < 1 := by
    have hlt := ho.2
    simpa [Hierarchy.funnel, hpos.ne'] using hlt
  have hlevel := ho.1
  simp only at hlevel
  refine ⟨⟨l - 1, 0⟩, ⟨by simp only; omega, hwidth _⟩, ?_⟩
  simp only [Hierarchy.nextCntlr, CntlrId.mk.injEq]
  exact ⟨by omega, by change 0 = j; omega⟩

/-- Three levels of write-back caches. -/
theorem lock_discipline_iff_writeback : LocksDisciplined (Hierarchy.funnel 1 2) fun _ => false :=
  (lock_discipline_iff (Hierarchy.funnel 1 2) (fun _ => false)
    (Hierarchy.funnel_stacked 1 (by decide)) rfl).mpr fun _ _ _ _ => rfl

/-- A core writes the line of an address, with write-through caches before the last level. -/
def writeThroughTwo (address : ℕ) : Except Abort (State Unit × Reply) :=
  processMemOpFromCore ((Hierarchy.funnel 1 1).oneWay (fun c => decide (c.level < 2)) fun _ _ => 0)
    (Sys.init fun _ _ => ()).mem
    ⟨⟨0, 0⟩, .none, .write, address, 0, some fun _ => 7, 64, true⟩

/-- The write of line 0 acquires its own lock twice, that of line 1 the lock of line 0. -/
theorem writeThroughTwo_locks :
    (writeThroughTwo 0).toOption.map (fun r => r.1.locks) = some [.acquireExclusive 0,
      .acquireExclusive 0, .releaseExclusive 0, .releaseExclusive 0] ∧
    (writeThroughTwo 64).toOption.map (fun r => r.1.locks) = some [.acquireExclusive 1,
      .acquireExclusive 0, .releaseExclusive 0, .releaseExclusive 1] ∧
    ¬LocksDisciplined (Hierarchy.funnel 1 1) fun c => decide (c.level < 2) := by
  have hline0 : (writeThroughTwo 0).toOption.map (fun r => r.1.locks) = some [.acquireExclusive 0,
      .acquireExclusive 0, .releaseExclusive 0, .releaseExclusive 0] := by decide +kernel
  have hline1 : (writeThroughTwo 64).toOption.map (fun r => r.1.locks) = some [.acquireExclusive 1,
      .acquireExclusive 0, .releaseExclusive 0, .releaseExclusive 1] := by decide +kernel
  refine ⟨hline0, hline1, ?_⟩
  intro h
  obtain ⟨r, hr, hlocks⟩ := Option.map_eq_some_iff.mp hline1
  apply h.absurd (fun _ _ => 0) (s := (Sys.init fun _ _ => ()).mem) rfl
    (a := ⟨⟨0, 0⟩, .none, .write,
    64, 0, some fun _ => 7, 64, true⟩) (by decide) rfl rfl
  have hok := toOption_eq_some.mp hr
  change processMemOpFromCore _ _ _ = _ at hok
  rw [hok]
  change LockEvent.acquireExclusive 0 ∈ r.1.locks
  rw [hlocks]
  simp

end Sniper
