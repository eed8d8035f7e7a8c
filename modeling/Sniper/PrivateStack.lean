import Sniper.Contents

namespace Sniper
open Outcome

/-- One core whose first-level cache, write-back or write-through, is over a write-back last-level
cache with direct DRAM access. -/
structure Config.Private {σ : Type} (K : Config σ) : Prop where
  last : K.last = 1
  one_core : K.width 0 = 1
  dram : K.m_dram_cntlr = true
  stores : K.stores = true
  writeback : K.m_cache_writethrough K.llc = false
  coherent : ∀ c, K.m_coherent c = true
  perfect : ∀ c, K.m_perfect c = false
  passthrough : ∀ c, K.m_passthrough c = false

/-- The first-level cache of core 0. -/
def l1d : CntlrId := ⟨0, 0⟩

namespace Config.Private

variable {σ : Type} {K : Config σ} (hK : K.Private)
include hK

theorem cntlr : K.Cntlr l1d :=
  ⟨Nat.zero_le _, by rw [show K.width l1d.level = 1 from hK.one_core]; exact Nat.one_pos⟩

theorem node_l1d : K.node l1d = l1d := by
  have h := K.master_lt hK.cntlr.2
  rw [show K.width l1d.level = 1 from hK.one_core] at h
  unfold Hierarchy.node
  rw [Nat.lt_one_iff.mp h]
  rfl

theorem level_lt : l1d.level < K.last := by
  rw [hK.last]
  exact Nat.one_pos

theorem node_next : K.node (K.nextCntlr l1d) = K.llc :=
  (hK.cntlr.nextCntlr hK.level_lt).node_last hK.last.symm

theorem llc_ne : K.llc ≠ l1d := by
  intro h
  have : K.last = 0 := congrArg CntlrId.level h
  rw [hK.last] at this
  cases this

theorem prevCntlrs_llc : K.prevCntlrs K.llc = [l1d] := by
  have h : ∀ j, j ∈ K.prevCntlrs K.llc ↔ j = l1d := by
    intro j
    constructor
    · intro hj
      obtain ⟨hl, hw, -⟩ := K.mem_prevCntlrs.mp hj
      have hl' : j.level + 1 = K.last := hl
      obtain ⟨l, m⟩ := j
      obtain rfl : l = 0 := by rw [hK.last] at hl'; simpa using hl'
      rw [show K.width 0 = 1 from hK.one_core] at hw
      obtain rfl : m = 0 := Nat.lt_one_iff.mp hw
      rfl
    · rintro rfl
      have := hK.cntlr.node_mem hK.level_lt
      rwa [hK.node_l1d, hK.node_next] at this
  refine List.perm_singleton.mp ?_
  exact (List.perm_ext_iff_of_nodup (CacheCntlr.prevCntlrs_nodup _ _) (List.nodup_singleton _)).mpr
    fun j => (h j).trans List.mem_singleton.symm

end Config.Private

/-- Where a line of a private stack is, and where its last value `m` is: in the first level if it is
there, in the last level unless the first has it dirty, in DRAM unless the last level has it
MODIFIED. -/
structure Fresh {n : ℕ} (writethrough : Bool) (m : Fin n → Byte) (first last : Option (Block n))
    (dram : Option (Fin n → Byte)) : Prop where
  below : ∀ x, first = some x →
    ∃ y, last = some y ∧ (x.state = .modified → y.state = .modified)
  first_data : ∀ x, first = some x → x.data = m
  last_data : ∀ y, last = some y →
    (writethrough = false → ∀ x, first = some x → x.state ≠ .modified) → y.data = m
  dram_data : (∀ y, last = some y → y.state ≠ .modified) → dram.getD (fun _ => 0) = m
  backed : ∀ y, last = some y → dram.isSome ∧ (y.state = .shared ∨ y.state = .modified)

namespace Fresh

variable {n : ℕ} {wt : Bool} {m : Fin n → Byte} {first last : Option (Block n)}
  {dram : Option (Fin n → Byte)}

theorem absent (h : Fresh wt m first last dram) (hl : last = none) : first = none := by
  cases hf : first with
  | none => rfl
  | some x =>
    obtain ⟨y, hy, -⟩ := h.below x hf
    rw [hl] at hy
    cases hy

/-- A clean line, in both caches or in the last level only. -/
theorem fill {st : CState} (hst : st = .shared ∨ st = .modified)
    (hd : dram.isSome) (hm : st ≠ .modified → dram.getD (fun _ => 0) = m)
    (hf : first = none ∨ first = some ⟨st, m⟩) : Fresh wt m first (some ⟨st, m⟩) dram where
  below x hx := by
    refine ⟨_, rfl, ?_⟩
    rcases hf with hf | hf <;> rw [hf] at hx <;> cases hx
    exact id
  first_data x hx := by
    rcases hf with hf | hf <;> rw [hf] at hx <;> cases hx
    rfl
  last_data y hy _ := by
    cases hy
    rfl
  dram_data h := hm (h _ rfl)
  backed y hy := by
    cases hy
    exact ⟨hd, hst⟩

/-- A line that no cache holds. -/
theorem uncached (hm : dram.getD (fun _ => 0) = m) : Fresh wt m none none dram where
  below x hx := by cases hx
  first_data x hx := by cases hx
  last_data y hy := by cases hy
  dram_data _ := hm
  backed y hy := by cases hy

theorem drop_first (h : Fresh wt m first last dram)
    (hx : wt = false → ∀ x, first = some x → x.state ≠ .modified) :
    Fresh wt m none last dram where
  below x hx := by cases hx
  first_data x hx := by cases hx
  last_data y hy _ := h.last_data y hy hx
  dram_data := h.dram_data
  backed := h.backed

end Fresh

/-- The lines of a private stack. -/
structure Stack {σ : Type} (K : Config σ) (m : ℕ → Fin K.blocksize → Byte)
    (X : Contents K.blocksize) : Prop where
  idle : ∀ c, X.evicting c = none
  fresh : ∀ t, Fresh (K.m_cache_writethrough l1d) (m t) (X.block l1d t) (X.block K.llc t)
    ((X.data_map (t * K.blocksize)).map fun b i => b i)

namespace Stack

variable {σ : Type} {K : Config σ} {m : ℕ → Fin K.blocksize → Byte} {X X' : Contents K.blocksize}
  {t : ℕ}

/-- A change of line `t` that keeps it fresh. -/
theorem change (h : Stack K m X) (he : X'.evicting = X.evicting)
    (hb : ∀ t' ≠ t, X'.block l1d t' = X.block l1d t' ∧ X'.block K.llc t' = X.block K.llc t' ∧
      X'.data_map (t' * K.blocksize) = X.data_map (t' * K.blocksize))
    (hf : Fresh (K.m_cache_writethrough l1d) (m t) (X'.block l1d t) (X'.block K.llc t)
      ((X'.data_map (t * K.blocksize)).map fun b i => b i)) : Stack K m X' := by
  refine ⟨fun c => by rw [he]; exact h.idle c, fun t' => ?_⟩
  by_cases ht : t' = t
  · subst ht
    exact hf
  · obtain ⟨h1, h2, h3⟩ := hb t' ht
    rw [h1, h2, h3]
    exact h.fresh t'

end Stack

namespace CacheCntlr

variable {σ : Type} {K : Config σ} (hK : K.Private) {s : State σ} {X : Contents K.blocksize}
  {m : ℕ → Fin K.blocksize → Byte} {t : ℕ}

section next
include hK

theorem writeNext_eq (address off n : ℕ) (buf : Option (ℕ → Byte)) :
    writeNext K s l1d address off buf n = do
      let s ← writeOwnBlock K s K.llc address off buf n
      require (K.m_cache_writethrough K.llc = false) .nullPointer
      return s := by
  unfold writeNext
  rw [show K.last - (l1d.level + 1) = 0 by rw [hK.last]; rfl]
  simp only [writeCacheBlock, hK.node_next]

/-- The first level writes to a line the last level has MODIFIED. -/
theorem writeNext_holds (h : s.Holds K X) (he : X.evicting K.llc = none) {y : Block K.blocksize}
    (hy : X.block K.llc t = some y) (hm : y.state = .modified) {off n : ℕ}
    (ho : off < K.blocksize) (hn : off + n ≤ K.blocksize) (buf : Option (ℕ → Byte)) :
    Total (writeNext K s l1d (t * K.blocksize) off buf n) fun s' =>
      s'.Holds K (X.put K.llc t (some ⟨.modified, Block.write y.data off n buf⟩)) := by
  rw [writeNext_eq hK]
  refine (writeOwnBlock_holds hK.stores h (by simp [he]) hy hm ho hn buf).bind fun s' hs' => ?_
  rw [require_true _ hK.writeback]
  exact hs'

/-- The first level writes the whole of a line that the last level evicts. -/
theorem writeNext_evicting_holds (h : s.Holds K X) {evict_buf : ℕ → Byte}
    (he : X.evicting K.llc = some (t * K.blocksize, evict_buf)) (buf : ℕ → Byte) :
    Total (writeNext K s l1d (t * K.blocksize) 0 (some buf) K.blocksize) fun s' =>
      s'.Holds K (X.setEvicting K.llc
        (some (t * K.blocksize, Buffer.copy evict_buf 0 buf 0 K.blocksize))) := by
  rw [writeNext_eq hK]
  refine (writeOwnBlock_evicting_holds h he buf).bind fun s' hs' => ?_
  rw [require_true _ hK.writeback]
  exact hs'

/-- A write-through of no bytes finds its line or stops the simulation. -/
theorem writeNext_empty (h : s.Holds K X) (he : X.evicting K.llc = none) (address off : ℕ)
    (buf : Option (ℕ → Byte)) :
    Sat (fun _ => True) (writeNext K s l1d address off buf 0) fun s' => s'.Holds K X := by
  rw [writeNext_eq hK]
  refine Sat.bind (Q := fun s' => s'.Holds K X) ?_ fun s' hs' => ?_
  · unfold writeOwnBlock
    rw [h.evicting, he]
    refine (access_empty_holds h _ _ _ _).sat.bind fun r hr => ?_
    exact (sat_require (Q := fun _ => True) (fun _ => trivial) fun _ => trivial).bind fun _ _ =>
      (sat_require (Q := fun _ => True) (fun _ => trivial) fun _ => trivial).bind fun _ _ => hr.1
  · rw [require_true _ hK.writeback]
    exact hs'

/-- A snoop by the last level for its one previous-level cache leaves nobody to snoop. -/
theorem updatePrev_requester (address : ℕ) (new : CState) :
    updatePrev K s K.llc (some l1d) address new = .ok s := by
  unfold updatePrev
  rw [hK.prevCntlrs_llc]
  rfl

theorem updatePrev_all (address : ℕ) (new : CState) :
    updatePrev K s K.llc none address new = do
      let (s, _) ← updateOwnBlock K s l1d address new none
      return s := by
  have hall : [l1d].filter (fun j => decide (some j ≠ none)) = [l1d] := rfl
  have hl1d : updateCacheBlock K l1d.level l1d.core s address new none =
      updateOwnBlock K s l1d address new none := by
    change updateCacheBlock K 0 0 s address new none = _
    unfold updateCacheBlock
    rfl
  unfold updatePrev
  rw [hK.prevCntlrs_llc, hall, List.foldlM_cons, hl1d]
  cases updateOwnBlock K s l1d address new none <;> rfl

end next

/-- The first level gives up a line that the last level evicts: a dirty one goes to the eviction
buffer. -/
theorem saveBlock_fresh (hK : K.Private) {y : Block K.blocksize} {evict_buf : ℕ → Byte}
    {d : Option (Fin K.blocksize → Byte)} {v : Fin K.blocksize → Byte} {x : Block K.blocksize}
    (hx : X.block l1d t = some x)
    (hf : Fresh (K.m_cache_writethrough l1d) v (X.block l1d t) (some y) d)
    (hbuf : ∀ i : Fin K.blocksize, evict_buf i = y.data i)
    (h : s.Holds K (X.setEvicting K.llc (some (t * K.blocksize, evict_buf)))) :
    Total (saveBlock K s l1d (t * K.blocksize) x.state none) fun r => r.2.1 = none ∧
      ∃ buf x', x'.state ≠ .modified ∧
        r.1.Holds K ((X.put l1d t (some x')).setEvicting K.llc (some (t * K.blocksize, buf))) ∧
        ∀ i : Fin K.blocksize, buf i = v i := by
  unfold saveBlock
  split
  · rename_i hm
    unfold writeBackBlock
    have shared : ∀ {s' : State σ} {buf : ℕ → Byte},
        s'.Holds K (X.setEvicting K.llc (some (t * K.blocksize, buf))) →
        (setCacheState K s' l1d (t * K.blocksize) .shared).Holds K
          ((X.put l1d t (some ⟨.shared, x.data⟩)).setEvicting K.llc
            (some (t * K.blocksize, buf))) :=
      fun hs' => setCacheState_holds hs' hx (by decide)
    -- a write-through block has been written to the last level already
    cases hwt : K.m_cache_writethrough l1d with
    | true =>
      rw [if_pos rfl]
      refine ⟨rfl, evict_buf, ⟨.shared, x.data⟩, by simp, shared h, fun i => ?_⟩
      rw [hbuf, hf.last_data y rfl (fun hwt' => by rw [hwt] at hwt'; cases hwt')]
    | false =>
      rw [if_neg (by simp), if_pos hK.level_lt]
      refine (retrieveCacheBlock_holds hK.stores h hx K.garbage false).bind ?_
      rintro ⟨s₁, data_buf⟩ ⟨h₁, hdata⟩
      refine (writeNext_evicting_holds hK h₁ (Function.update_self ..) data_buf).bind
        fun s₂ h₂ => ?_
      rw [Contents.setEvicting_setEvicting] at h₂
      refine ⟨rfl, _, ⟨.shared, x.data⟩, by simp, shared h₂, fun i => ?_⟩
      rw [Buffer.copy_in (Nat.zero_le _) (by omega), Nat.sub_zero, Nat.zero_add,
        ← hf.first_data x hx]
      exact hdata i
  · rename_i hm
    refine ⟨rfl, evict_buf, x, hm, ?_, fun i => ?_⟩
    · rw [Contents.put_eq hx]
      exact h
    · rw [hbuf, hf.last_data y rfl]
      rintro - x' hx'
      rw [hx] at hx'
      cases hx'
      exact hm

/-- Back-invalidation leaves the last value of the line in the eviction buffer. -/
theorem backInvalidate_fresh (hK : K.Private) (h : s.Holds K X) (he : ∀ c, X.evicting c = none)
    {y : Block K.blocksize} {d : Option (Fin K.blocksize → Byte)} {v : Fin K.blocksize → Byte}
    (hf : Fresh (K.m_cache_writethrough l1d) v (X.block l1d t) (some y) d) {evict_buf : ℕ → Byte}
    (hbuf : ∀ i : Fin K.blocksize, evict_buf i = y.data i) :
    Total (backInvalidate K s K.llc (t * K.blocksize) evict_buf) fun r =>
      r.1.Holds K (X.put l1d t none) ∧ ∀ i : Fin K.blocksize, r.2 i = v i := by
  have h₀ := h.setEvicting K.llc (some (t * K.blocksize, evict_buf))
  -- the only cache above drops its block, into the evict buffer when that was MODIFIED
  have snooped : Total (updateOwnBlock K (s.setEvicting K.llc (some (t * K.blocksize, evict_buf)))
      l1d (t * K.blocksize) .invalid none) fun r => ∃ buf,
        r.1.Holds K ((X.put l1d t none).setEvicting K.llc (some (t * K.blocksize, buf))) ∧
        ∀ i : Fin K.blocksize, buf i = v i := by
    unfold updateOwnBlock
    refine Sat.bind (Q := fun r => r.2.1 = none ∧ ∃ buf,
      r.1.Holds K ((X.put l1d t none).setEvicting K.llc (some (t * K.blocksize, buf))) ∧
      ∀ i : Fin K.blocksize, buf i = v i) ?_ ?_
    · unfold changeIfPresent
      cases hx : X.block l1d t with
      | none =>
        rw [info_of_absent h₀ hx]
        refine ⟨rfl, evict_buf, ?_, fun i => ?_⟩
        · rw [Contents.put_eq hx]
          exact h₀
        · rw [hbuf, hf.last_data y rfl]
          rintro - x' hx'
          rw [hx] at hx'
          cases hx'
      | some x =>
        obtain ⟨info, hinfo, hcs⟩ := info_of_block h₀ hx
        simp only [hinfo, hcs]
        unfold changeBlock
        rw [if_neg (by simp)]
        refine (saveBlock_fresh hK hx hf hbuf h₀).bind ?_
        rintro ⟨s₁, out, written⟩ ⟨hout, buf, x', hx', h₁, hv⟩
        simp only at hout h₁ ⊢
        subst hout
        simp only [retrieveInto, pure, Except.pure, ok_bind, hK.coherent, if_true]
        refine (invalidateCacheBlock_holds h₁ (by simp) hx').bind fun s₂ h₂ => ?_
        refine ⟨rfl, buf, ?_, hv⟩
        rw [Contents.put_setEvicting, Contents.put_put] at h₂
        exact h₂
    · rintro ⟨s₁, out, written⟩ ⟨hout, buf, h₁, hv⟩
      simp only at hout h₁ ⊢
      subst hout
      rw [require_true _ (.inl (getCacheState_of_absent h₁ (by simp))), require_true _ (by simp)]
      exact ⟨buf, h₁, hv⟩
  unfold backInvalidate
  rw [hK.prevCntlrs_llc, if_neg (by simp), updatePrev_all hK]
  refine Sat.bind (Q := fun s₁ : State σ => ∃ buf : ℕ → Byte,
      s₁.Holds K ((X.put l1d t none).setEvicting K.llc (some (t * K.blocksize, buf))) ∧
      ∀ i : Fin K.blocksize, buf i = v i) (snooped.bind ?_) ?_
  · intro h' hr
    obtain ⟨s₁, out⟩ := h'
    exact hr
  intro s₁ h'
  obtain ⟨buf, h₁, hv⟩ := h'
  have hbuf₁ : s₁.m_evicting K.llc = some (t * K.blocksize, buf) := by
    rw [h₁.evicting]
    exact Function.update_self ..
  simp only [hbuf₁]
  refine ⟨?_, hv⟩
  have := h₁.setEvicting K.llc none
  rwa [Contents.setEvicting_setEvicting,
    Contents.setEvicting_eq (X := X.put l1d t none) (he K.llc)] at this

theorem state_of_fill {st : CState} (h : st = .shared ∨ st = .modified) : st ≠ .invalid := by
  rcases h with rfl | rfl <;> decide

theorem putDataToDram_holds (hstores : K.stores = true) (h : s.Holds K X) {address : ℕ}
    {block : ℕ → Byte} (hb : X.data_map address = some block) (buf : ℕ → Byte) :
    Total (putDataToDram K s address buf) fun s' => s'.Holds K { X with
      data_map := Function.update X.data_map address
        (some (Buffer.copy block 0 buf 0 K.blocksize)) } := by
  unfold putDataToDram
  rw [if_pos hstores, h.data_map, hb]
  exact ⟨h.wellFormed, h.block, h.evicting, rfl⟩

/-- A victim of the last level leaves its last value in DRAM. -/
theorem disposeEvicted_llc (hK : K.Private) (h : s.Holds K X) {v : Fin K.blocksize → Byte}
    {st : CState} {evict_buf : ℕ → Byte} (hbuf : ∀ i : Fin K.blocksize, evict_buf i = v i)
    (hd : (X.data_map (t * K.blocksize)).isSome)
    (hv : st ≠ .modified →
      ((X.data_map (t * K.blocksize)).map fun b (i : Fin K.blocksize) => b i).getD
        (fun _ => 0) = v) :
    Total (disposeEvicted K s (K.nextCntlr l1d) (t * K.blocksize) st evict_buf) fun s' =>
      ∃ data_map, s'.Holds K { X with data_map := data_map } ∧
        (∀ t' ≠ t, data_map (t' * K.blocksize) = X.data_map (t' * K.blocksize)) ∧
        ((data_map (t * K.blocksize)).map fun b (i : Fin K.blocksize) => b i).getD (fun _ => 0) =
          v := by
  unfold disposeEvicted
  simp only [hK.node_next, hK.perfect, hK.coherent, hK.dram]
  rw [if_neg (by decide), if_neg (by decide), if_neg (show ¬K.llc.level < K.last from lt_irrefl _),
    if_pos trivial]
  split
  · obtain ⟨block, hblock⟩ := Option.isSome_iff_exists.mp hd
    refine (putDataToDram_holds hK.stores h hblock evict_buf).mono (fun _ => id) fun s' hs' => ?_
    refine ⟨_, hs', fun t' ht' => ?_, ?_⟩
    · rw [Function.update_of_ne]
      exact fun hc => ht' (Nat.eq_of_mul_eq_mul_right K.blocksize_pos hc)
    · rw [Function.update_self]
      funext i
      change Buffer.copy block 0 evict_buf 0 K.blocksize i = v i
      rw [Buffer.copy_in (Nat.zero_le _) (by omega), Nat.sub_zero, Nat.zero_add, hbuf]
  · exact ⟨X.data_map, h, fun _ _ => rfl, hv ‹_›⟩

/-- A line that DRAM holds is brought into the last level. -/
theorem insertCacheBlock_llc (hK : K.Private) (h : s.Holds K X) (hX : Stack K m X)
    (hb : X.block K.llc t = none) (hd : (X.data_map (t * K.blocksize)).isSome) {st : CState}
    (hst : st = .shared ∨ st = .modified) {buf : ℕ → Byte}
    (hbuf : ∀ i : Fin K.blocksize, buf i = m t i) :
    Total (insertCacheBlock K s (K.nextCntlr l1d) (t * K.blocksize) st (some buf)) fun s' =>
      ∃ X', s'.Holds K X' ∧ Stack K m X' ∧ X'.block K.llc t = some ⟨st, m t⟩ ∧
        X'.block l1d t = none := by
  have habs := (hX.fresh t).absent hb
  have hdram := (hX.fresh t).dram_data (by simp [hb])
  have hdata : (fun i : Fin K.blocksize => buf i) = m t := funext hbuf
  have hfill : Fresh (K.m_cache_writethrough l1d) (m t) (X.block l1d t) (some ⟨st, m t⟩)
      ((X.data_map (t * K.blocksize)).map fun b i => b i) :=
    .fill hst (by simpa using hd) (fun _ => hdram) (.inl habs)
  unfold insertCacheBlock
  simp only [hK.node_next]
  rw [require_true _ (getCacheState_of_absent h hb)]
  obtain ⟨evicted, hev, hs⟩ :=
    insertSingleLine_holds hK.stores h hb (state_of_fill hst) buf
  simp only [ok_bind, hev]
  generalize setCacheState K (s.putCache K.llc _) K.llc (t * K.blocksize) st = s₁ at hs ⊢
  cases evicted with
  | none =>
    rw [hdata] at hs
    refine ⟨_, hs, hX.change (t := t) rfl (fun t' ht' => ?_) ?_, by simp, ?_⟩
    · exact ⟨Contents.put_block_of_ne_line ht', Contents.put_block_of_ne_line ht', rfl⟩
    · rwa [Contents.put_block_of_ne hK.llc_ne.symm, Contents.put_block_self]
    · rwa [Contents.put_block_of_ne hK.llc_ne.symm]
  | some e =>
    obtain ⟨evict_address, e⟩ := e
    obtain ⟨u, y, rfl, hut, hy, hcs, hvbuf, hs⟩ := hs
    rw [hdata] at hs
    have hfu := hX.fresh u
    obtain ⟨hdu, -⟩ := hfu.backed y hy
    have hl1 : ((X.put K.llc u none).put K.llc t (some ⟨st, m t⟩)).block l1d u =
        X.block l1d u := by
      rw [Contents.put_block_of_ne hK.llc_ne.symm, Contents.put_block_of_ne hK.llc_ne.symm]
    rw [hy, ← hl1] at hfu
    -- line `u` leaves both caches, and what was newer above goes into the evict buffer
    refine (backInvalidate_fresh hK hs hX.idle hfu hvbuf).bind ?_
    rintro ⟨s₂, evict_buf⟩ ⟨h₂, hev₂⟩
    refine (disposeEvicted_llc hK h₂ (t := u) (v := m u) hev₂ (by simpa using hdu) ?_).bind ?_
    · intro hm
      refine hfu.dram_data ?_
      intro y' hy'
      cases hy'
      rwa [← hcs]
    intro s₃ h'
    obtain ⟨D, h₃, hD, hDu⟩ := h'
    have hllc : (((X.put K.llc u none).put K.llc t (some ⟨st, m t⟩)).put l1d u none).block K.llc u =
        none := by
      rw [Contents.put_block_of_ne hK.llc_ne, Contents.put_block_of_ne_line hut,
        Contents.put_block_self]
    rw [require_true _ (getCacheState_of_absent h₃ hllc)]
    refine ⟨_, h₃, ⟨hX.idle, fun t' => ?_⟩, ?_, ?_⟩
    -- three kinds of lines: the evicted one, the one brought in, and the others
    · by_cases htu : t' = u
      · subst htu
        simp only [hllc, Contents.put_block_self]
        exact .uncached hDu
      · simp only [hD t' htu]
        rw [Contents.put_block_of_ne_line htu, Contents.put_block_of_ne hK.llc_ne]
        by_cases htt : t' = t
        · subst htt
          rwa [Contents.put_block_self, Contents.put_block_of_ne hK.llc_ne.symm,
            Contents.put_block_of_ne hK.llc_ne.symm]
        · rw [Contents.put_block_of_ne_line htt, Contents.put_block_of_ne_line htt,
            Contents.put_block_of_ne_line htu, Contents.put_block_of_ne_line htu]
          exact hX.fresh t'
    · simp only
      rw [Contents.put_block_of_ne hK.llc_ne, Contents.put_block_self]
    · simp only
      rwa [Contents.put_block_of_ne_line hut.symm, Contents.put_block_of_ne hK.llc_ne.symm,
        Contents.put_block_of_ne hK.llc_ne.symm]

/-- A dirty victim of the first level leaves its last value in the last level. -/
theorem disposeEvicted_l1d (hK : K.Private) (h : s.Holds K X) (he : ∀ c, X.evicting c = none)
    {v : Fin K.blocksize → Byte} {x : Block K.blocksize} (hx : x.data = v)
    {d : Option (Fin K.blocksize → Byte)}
    (hf : Fresh (K.m_cache_writethrough l1d) v (some x) (X.block K.llc t) d)
    {evict_buf : ℕ → Byte} (hbuf : ∀ i : Fin K.blocksize, evict_buf i = x.data i) :
    Total (disposeEvicted K s l1d (t * K.blocksize) x.state evict_buf) fun s' =>
      ∃ b, s'.Holds K (X.put K.llc t b) ∧
        Fresh (K.m_cache_writethrough l1d) v none b d := by
  unfold disposeEvicted
  simp only [hK.node_l1d, hK.perfect, hK.coherent]
  rw [if_neg (by decide), if_neg (by decide), if_pos hK.level_lt]
  split
  · rename_i hm
    obtain ⟨y, hy, hym⟩ := hf.below x rfl
    refine (writeNext_holds hK h (he _) hy (hym hm.2) K.blocksize_pos (by omega)
      (some evict_buf)).mono (fun _ => id) fun s' hs' => ⟨_, hs', ?_⟩
    have hv : (fun i : Fin K.blocksize => evict_buf i) = v := (funext hbuf).trans hx
    rw [Block.write_all, hv]
    exact .fill (.inr rfl) (hf.backed y hy).1 (fun h => absurd rfl h) (.inl rfl)
  · rename_i hm
    refine ⟨_, by rw [Contents.put_eq rfl]; exact h, hf.drop_first ?_⟩
    intro hwt x' hx' hm'
    cases hx'
    exact hm ⟨hwt, hm'⟩

/-- A line that the last level holds is brought into the first. -/
theorem insertCacheBlock_l1d (hK : K.Private) (h : s.Holds K X) (hX : Stack K m X)
    (hb : X.block l1d t = none) {st : CState} (hy : X.block K.llc t = some ⟨st, m t⟩)
    {buf : ℕ → Byte} (hbuf : ∀ i : Fin K.blocksize, buf i = m t i) :
    Total (insertCacheBlock K s l1d (t * K.blocksize) st (some buf)) fun s' =>
      ∃ X', s'.Holds K X' ∧ Stack K m X' ∧ X'.block K.llc t = some ⟨st, m t⟩ ∧
        X'.block l1d t = some ⟨st, m t⟩ := by
  have hst := ((hX.fresh t).backed _ hy).2
  have hdata : (fun i : Fin K.blocksize => buf i) = m t := funext hbuf
  have hfill : Fresh (K.m_cache_writethrough l1d) (m t) (some ⟨st, m t⟩) (some ⟨st, m t⟩)
      ((X.data_map (t * K.blocksize)).map fun b i => b i) := by
    refine .fill hst ((hX.fresh t).backed _ hy).1 (fun hm => (hX.fresh t).dram_data ?_) (.inr rfl)
    intro y hy'
    rw [hy] at hy'
    cases hy'
    exact hm
  unfold insertCacheBlock
  simp only [hK.node_l1d]
  rw [require_true _ (getCacheState_of_absent h hb)]
  obtain ⟨evicted, hev, hs⟩ :=
    insertSingleLine_holds hK.stores h hb (state_of_fill hst) buf
  simp only [ok_bind, hev]
  generalize setCacheState K (s.putCache l1d _) l1d (t * K.blocksize) st = s₁ at hs ⊢
  cases evicted with
  | none =>
    rw [hdata] at hs
    refine ⟨_, hs, hX.change (t := t) rfl (fun t' ht' => ?_) ?_, ?_, by simp⟩
    · exact ⟨Contents.put_block_of_ne_line ht', Contents.put_block_of_ne_line ht', rfl⟩
    · rwa [Contents.put_block_of_ne hK.llc_ne, Contents.put_block_self, hy]
    · rwa [Contents.put_block_of_ne hK.llc_ne]
  | some e =>
    obtain ⟨evict_address, e⟩ := e
    obtain ⟨u, x, rfl, hut, hx, hcs, hvbuf, hs⟩ := hs
    rw [hdata] at hs
    have hfu := hX.fresh u
    have hl2 : ∀ t', ((X.put l1d u none).put l1d t (some ⟨st, m t⟩)).block K.llc t' =
        X.block K.llc t' := by
      intro t'
      rw [Contents.put_block_of_ne hK.llc_ne, Contents.put_block_of_ne hK.llc_ne]
    rw [hx, ← hl2] at hfu
    -- nothing is above the first level
    have hback : backInvalidate K s₁ l1d (u * K.blocksize) e.buf = .ok (s₁, e.buf) := by
      unfold backInvalidate
      exact if_pos rfl
    simp only [hback, ok_bind, hcs]
    refine (disposeEvicted_l1d hK hs hX.idle (hfu.first_data x rfl) hfu hvbuf).bind ?_
    intro s₂ h'
    obtain ⟨b, h₂, hf₂⟩ := h'
    have hl1 : (((X.put l1d u none).put l1d t (some ⟨st, m t⟩)).put K.llc u b).block l1d u =
        none := by
      rw [Contents.put_block_of_ne hK.llc_ne.symm, Contents.put_block_of_ne_line hut,
        Contents.put_block_self]
    rw [require_true _ (getCacheState_of_absent h₂ hl1)]
    refine ⟨_, h₂, ⟨hX.idle, fun t' => ?_⟩, ?_, ?_⟩
    -- as for the last level, but the evicted line stays there
    · by_cases htu : t' = u
      · subst htu
        rwa [hl1, Contents.put_block_self]
      · rw [Contents.put_block_of_ne_line htu, Contents.put_block_of_ne_line htu, hl2]
        by_cases htt : t' = t
        · subst htt
          rwa [Contents.put_block_self, hy]
        · rw [Contents.put_block_of_ne_line htt, Contents.put_block_of_ne_line htu]
          exact hX.fresh t'
    · rwa [Contents.put_block_of_ne_line hut.symm, hl2]
    · rw [Contents.put_block_of_ne hK.llc_ne.symm, Contents.put_block_self]

theorem copyDataFromNextLevel_fresh (hK : K.Private) (h : s.Holds K X) (hX : Stack K m X)
    (hb : X.block l1d t = none) {st : CState} (hy : X.block K.llc t = some ⟨st, m t⟩) {op : MemOp}
    (hop : op.permits st = true) :
    Total (copyDataFromNextLevel K s l1d op (t * K.blocksize)) fun s' =>
      ∃ X', s'.Holds K X' ∧ Stack K m X' ∧ X'.block l1d t = some ⟨st, m t⟩ := by
  unfold copyDataFromNextLevel
  simp only [hK.node_next, hK.node_l1d]
  rw [getCacheState_of_block h hy, require_true _ hop]
  refine (retrieveCacheBlock_holds hK.stores h hy K.garbage false).bind ?_
  rintro ⟨s₁, buf⟩ ⟨h₁, hbuf⟩
  simp only at h₁ hbuf ⊢
  rw [getCacheState_of_block h₁ hy, info_of_absent h₁ hb]
  apply (insertCacheBlock_l1d hK h₁ hX hb hy hbuf).mono (fun _ => id)
  intro s' h
  obtain ⟨X', h', hX', _, hl1⟩ := h
  exact ⟨X', h', hX', hl1⟩

theorem getDataFromDram_fresh (hK : K.Private) (h : s.Holds K X) (hX : Stack K m X)
    (hb : X.block K.llc t = none) (buf : ℕ → Byte) :
    ∃ X', (getDataFromDram K s (t * K.blocksize) buf).1.Holds K X' ∧ Stack K m X' ∧
      X'.block K.llc t = none ∧ (X'.data_map (t * K.blocksize)).isSome ∧
      ∀ i : Fin K.blocksize, (getDataFromDram K s (t * K.blocksize) buf).2 i = m t i := by
  have hdram := (hX.fresh t).dram_data (by simp [hb])
  have hdata : ∀ i : Fin K.blocksize, X.data_map.block (t * K.blocksize) i = m t i := by
    intro i
    rw [← hdram, DataMap.block]
    cases X.data_map (t * K.blocksize) <;> rfl
  unfold getDataFromDram
  rw [if_pos hK.stores, h.data_map]
  refine ⟨{ X with data_map := X.data_map.touch (t * K.blocksize) },
    ⟨h.wellFormed, h.block, h.evicting, rfl⟩, hX.change (t := t) rfl (fun t' ht' => ?_) ?_, hb, ?_,
    fun i => ?_⟩
  · refine ⟨rfl, rfl, DataMap.touch_of_ne _ fun hc => ht' ?_⟩
    exact Nat.eq_of_mul_eq_mul_right K.blocksize_pos hc
  · simp only [hb, (hX.fresh t).absent hb, DataMap.touch_self, Option.map_some]
    exact .uncached (funext hdata)
  · simp only [DataMap.touch_self, Option.isSome_some]
  · simp only
    rw [Buffer.copy_in (Nat.zero_le _) (by omega), Nat.sub_zero, Nat.zero_add, hdata]

/-- A miss at the last level ends with the line there. -/
theorem lastLevelMiss_fresh (hK : K.Private) (h : s.Holds K X) (hX : Stack K m X)
    (hb : X.block l1d t = none) {op : MemOp}
    (hmiss : ∀ y, X.block K.llc t = some y → op.permits y.state = false) :
    Total (lastLevelMiss K s (K.nextCntlr l1d) l1d op (t * K.blocksize)) fun r =>
      r.2 ≠ .miss ∧ ∃ X' st, r.1.Holds K X' ∧ Stack K m X' ∧
        X'.block K.llc t = some ⟨st, m t⟩ ∧ X'.block l1d t = none ∧ op.permits st = true := by
  unfold lastLevelMiss
  simp only [hK.node_next, hK.dram, if_true]
  cases hy : X.block K.llc t with
  | some y =>
    obtain ⟨info, hinfo, hcs⟩ := info_of_block h hy
    -- a block that is there and cannot be used is SHARED
    have hshared : y.state = .shared := by
      refine ((hX.fresh t).backed y hy).2.resolve_right fun hm => ?_
      have := hmiss y hy
      rw [hm, MemOp.permits_modified] at this
      cases this
    have hne : ¬(getCacheBlockInfo K s K.llc (t * K.blocksize)).map CacheBlockInfo.cstate =
        some .exclusive := by
      rw [hinfo, Option.map_some, hcs, hshared]
      decide
    rw [if_neg hne, if_pos (by rw [hinfo]; rfl)]
    have hdata : y.data = m t := (hX.fresh t).last_data y hy (by simp [hb])
    have hmodified : CState.modified ≠ .invalid := by decide
    have h₁ := setCacheState_holds h hy hmodified
    rw [hdata] at h₁
    refine ⟨by simp, _, .modified, h₁, hX.change (t := t) rfl (fun t' ht' => ?_) ?_, by simp, ?_,
      MemOp.permits_modified op⟩
    · exact ⟨Contents.put_block_of_ne_line ht', Contents.put_block_of_ne_line ht', rfl⟩
    · rw [Contents.put_block_of_ne hK.llc_ne.symm, Contents.put_block_self]
      exact .fill (.inr rfl) ((hX.fresh t).backed y hy).1 (fun h => absurd rfl h) (.inl hb)
    · rwa [Contents.put_block_of_ne hK.llc_ne.symm]
  | none =>
    rw [info_of_absent h hy, if_neg (by simp), if_neg (by simp)]
    obtain ⟨X₁, h₁, hX₁, hb₁, hd₁, hbuf⟩ := getDataFromDram_fresh hK h hX hy K.garbage
    have hst : (if op = .read then CState.shared else .modified) = .shared ∨
        (if op = .read then CState.shared else .modified) = .modified := by
      split <;> simp
    refine (insertCacheBlock_llc hK h₁ hX₁ hb₁ hd₁ hst hbuf).bind ?_
    intro s₂ h'
    obtain ⟨X₂, h₂, hX₂, hllc, hl1⟩ := h'
    refine ⟨by simp, X₂, _, h₂, hX₂, hllc, hl1, ?_⟩
    split
    · rename_i hop
      rw [hop]
      rfl
    · exact MemOp.permits_modified op

theorem snoopOnHit_requester (hK : K.Private) (op : MemOp) (address : ℕ) :
    snoopOnHit K s K.llc l1d op address = .ok s := by
  unfold snoopOnHit
  simp only [updatePrev_requester hK]
  split
  · rfl
  · split
    · rfl
    · split <;> rfl

/-- A request of the first level that does not hold the line ends with the line in the last level,
in a state that permits the operation. -/
theorem processShmemReqFromPrevCache_fresh (hK : K.Private) (h : s.Holds K X) (hX : Stack K m X)
    (hb : X.block l1d t = none) (op : MemOp) (count : Bool) :
    Total (processShmemReqFromPrevCache K 0 s (K.nextCntlr l1d) l1d op (t * K.blocksize) count)
      fun r => r.2 ≠ .miss ∧ ∃ X' st, r.1.Holds K X' ∧ Stack K m X' ∧
        X'.block K.llc t = some ⟨st, m t⟩ ∧ X'.block l1d t = none ∧ op.permits st = true := by
  have hadjust : adjustHit K s (K.nextCntlr l1d) op (t * K.blocksize)
      (K.m_passthrough K.llc && count) =
      .ok (s, op.permits (getCacheState K s K.llc (t * K.blocksize))) := by
    unfold adjustHit
    simp only [hK.node_next, hK.perfect, hK.passthrough]
    rw [if_neg (by simp), if_neg (by simp)]
    rfl
  unfold processShmemReqFromPrevCache
  simp only [hK.node_next, hadjust, ok_bind]
  split
  · rename_i hperm
    unfold answerHit
    rw [snoopOnHit_requester hK]
    cases hy : X.block K.llc t with
    | none =>
      rw [getCacheState_of_absent h hy] at hperm
      exact absurd rfl (CState.readable_ne_invalid (MemOp.readable_of_permits hperm))
    | some y =>
      rw [getCacheState_of_block h hy] at hperm
      refine (retrieveCacheBlock_holds hK.stores h hy _ _).bind ?_
      rintro ⟨s₁, buf⟩ ⟨h₁, -⟩
      refine ⟨by simp, X, y.state, h₁, hX, ?_, hb, hperm⟩
      rw [hy, ← (hX.fresh t).last_data y hy (by simp [hb])]
  · rename_i hperm
    have hup : snoopOnUpgrade K s K.llc l1d (t * K.blocksize) = .ok s := by
      unfold snoopOnUpgrade
      rw [updatePrev_requester hK]
      split <;> rfl
    rw [hup]
    refine (lastLevelMiss_fresh hK h hX hb fun y hy => ?_).bind ?_
    · rw [getCacheState_of_block h hy] at hperm
      exact Bool.eq_false_iff.mpr hperm
    rintro ⟨s₁, hit_where⟩ ⟨hhit, X₁, st, h₁, hX₁, hy₁, hb₁, hst⟩
    unfold answerMiss
    rw [if_neg hhit]
    refine (retrieveCacheBlock_holds hK.stores h₁ hy₁ _ _).bind ?_
    rintro ⟨s₂, buf⟩ ⟨h₂, -⟩
    exact ⟨hhit, X₁, st, h₂, hX₁, hy₁, hb₁, hst⟩

end CacheCntlr
end Sniper
