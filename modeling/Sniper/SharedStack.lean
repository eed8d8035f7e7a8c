import Sniper.SubtreeUpdate
import Sniper.SingleWriter
import Sniper.Transparent

namespace Sniper
open Outcome

/-- Cores whose write-back first-level caches are over one last-level cache with direct DRAM access.
-/
structure Config.Shared {σ : Type} (K : Config σ) : Prop where
  plain : K.Plain
  last : K.last = 1
  dram : K.m_dram_cntlr = true
  stores : K.stores = true

namespace Config.Shared

variable {σ : Type} {K : Config σ} (hK : K.Shared) {o i : CntlrId}
include hK

theorem level (hi : i ∈ K.prevCntlrs K.llc) : i.level = 0 :=
  ((mem_prevCntlrs_llc hK.last).mp hi).2

theorem level_lt (h0 : o.level = 0) : o.level < K.last := by
  rw [h0, hK.last]
  exact Nat.one_pos

theorem ne_llc (h0 : o.level = 0) : o ≠ K.llc := by
  intro h
  have hlt := hK.level_lt h0
  rw [h] at hlt
  exact lt_irrefl _ hlt

theorem first (ho : K.Cntlr o) (h0 : o.level = 0) : K.node o ∈ K.prevCntlrs K.llc :=
  (mem_prevCntlrs_llc hK.last).mpr ⟨ho.node, h0⟩

theorem node_next (ho : K.Cntlr o) (h0 : o.level = 0) : K.node (K.nextCntlr o) = K.llc := by
  apply (ho.nextCntlr (hK.level_lt h0)).node_last
  change o.level + 1 = K.last
  rw [h0, hK.last]

end Config.Shared

namespace Contents

variable {n : ℕ} (X X' : Contents n) (t : ℕ)

/-- Only line `t` differs. -/
structure OnlyLine : Prop where
  block : ∀ c t', t' ≠ t → X'.block c t' = X.block c t'
  evicting : X'.evicting = X.evicting
  data_map : X'.data_map = X.data_map

variable {X X' t} {X'' : Contents n} {c : CntlrId} {b : Option (Block n)}

theorem OnlyLine.refl (X : Contents n) : OnlyLine X X t := ⟨fun _ _ _ => rfl, rfl, rfl⟩

theorem OnlyLine.trans (h : OnlyLine X X' t) (h' : OnlyLine X' X'' t) : OnlyLine X X'' t :=
  ⟨fun c t' ht => (h'.block c t' ht).trans (h.block c t' ht), h'.evicting.trans h.evicting,
    h'.data_map.trans h.data_map⟩

theorem OnlyLine.put : OnlyLine X (X.put c t b) t :=
  ⟨fun _ _ ht => put_block_of_ne_line ht, rfl, rfl⟩

theorem put_comm {d : CntlrId} {t' : ℕ} {b' : Option (Block n)} (h : t' ≠ t) :
    (X.put c t b).put d t' b' = (X.put d t' b').put c t b := by
  unfold put
  congr 1
  funext e u
  by_cases hu : u = t
  · have hut : u ≠ t' := fun heq => h (heq.symm.trans hu)
    simp only [hut, and_false, if_false]
  · simp only [hu, and_false, if_false]

theorem not_dirty (h : X.block c t = none) : ¬X.Dirty t c := by
  unfold Dirty state
  rw [h]
  intro hd
  cases hd

theorem dirty_iff {x : Block n} (h : X.block c t = some x) : X.Dirty t c ↔ x.state = .modified := by
  rw [Dirty, state_of_block h]

end Contents

/-- Where the last value `m` of line `t` is: in every first-level copy, in the last level unless a
first-level cache has the line dirty, in DRAM unless the last level has it MODIFIED. -/
structure Current {σ : Type} (K : Config σ) (m : Fin K.blocksize → Byte) (X : Contents K.blocksize)
    (t : ℕ) : Prop where
  present : ∀ i ∈ K.prevCntlrs K.llc, X.block K.llc t = none → X.block i t = none
  dirty : ∀ i ∈ K.prevCntlrs K.llc, X.Dirty t i → X.Dirty t K.llc
  first_data : ∀ i ∈ K.prevCntlrs K.llc, ∀ x, X.block i t = some x → x.data = m
  last_data : (∀ i ∈ K.prevCntlrs K.llc, ¬X.Dirty t i) → ∀ y, X.block K.llc t = some y → y.data = m
  dram_data : ¬X.Dirty t K.llc → ∀ k : Fin K.blocksize, X.data_map.block (t * K.blocksize) k = m k
  backed : ∀ y, X.block K.llc t = some y →
    (X.data_map (t * K.blocksize)).isSome ∧ (y.state = .shared ∨ y.state = .modified)

/-- A first-level cache gives up its right to write line `t`: dirty data go to the last level. -/
structure Released {σ : Type} (K : Config σ) (m : Fin K.blocksize → Byte) (i : CntlrId) (t : ℕ)
    (X X' : Contents K.blocksize) : Prop where
  only : Contents.OnlyLine X X' t
  clean : ¬X'.Dirty t i
  own : ∀ x', X'.block i t = some x' → ∃ x, X.block i t = some x ∧ x'.data = x.data
  other : ∀ j ∈ K.prevCntlrs K.llc, j ≠ i → X'.block j t = X.block j t
  written : X.Dirty t i → X'.block K.llc t = some ⟨.modified, m⟩
  kept : ¬X.Dirty t i → X'.block K.llc t = X.block K.llc t

namespace Current

variable {σ : Type} {K : Config σ} {m : Fin K.blocksize → Byte} {X X' : Contents K.blocksize}
  {t : ℕ} {i : CntlrId}

theorem congr (h : Current K m X t) (hb : ∀ c, X'.block c t = X.block c t)
    (hd : X'.data_map (t * K.blocksize) = X.data_map (t * K.blocksize)) : Current K m X' t := by
  have hdirty : ∀ c, X'.Dirty t c ↔ X.Dirty t c := by
    intro c
    unfold Contents.Dirty
    rw [Contents.state_congr (hb c)]
  have hblock : X'.data_map.block (t * K.blocksize) = X.data_map.block (t * K.blocksize) := by
    unfold DataMap.block
    rw [hd]
  refine ⟨?_, ?_, ?_, ?_, ?_, ?_⟩
  · intro i hi
    rw [hb, hb]
    exact h.present i hi
  · intro i hi
    rw [hdirty, hdirty]
    exact h.dirty i hi
  · intro i hi
    rw [hb]
    exact h.first_data i hi
  · intro hclean
    rw [hb]
    exact h.last_data fun i hi hd => hclean i hi ((hdirty i).mpr hd)
  · intro hclean
    rw [hblock]
    exact h.dram_data fun hd => hclean ((hdirty _).mpr hd)
  · intro y hy
    rw [hb] at hy
    rw [hd]
    exact h.backed y hy

theorem last_state (h : Current K m X t) (hi : i ∈ K.prevCntlrs K.llc)
    (hr : Released K m i t X X') : X'.state K.llc t = X.state K.llc t := by
  by_cases hd : X.Dirty t i
  · rw [Contents.state_of_block (hr.written hd)]
    exact (h.dirty i hi hd).symm
  · exact Contents.state_congr (hr.kept hd)

theorem release (h : Current K m X t) (hi : i ∈ K.prevCntlrs K.llc)
    (hr : Released K m i t X X') : Current K m X' t := by
  have hlast : X'.Dirty t K.llc ↔ X.Dirty t K.llc := by
    unfold Contents.Dirty
    rw [h.last_state hi hr]
  have hdirty : ∀ j ∈ K.prevCntlrs K.llc, j ≠ i → (X'.Dirty t j ↔ X.Dirty t j) := by
    intro j hj hne
    unfold Contents.Dirty
    rw [Contents.state_congr (hr.other j hj hne)]
  refine ⟨?_, ?_, ?_, ?_, ?_, ?_⟩
  · intro j hj hnone
    have hgone : X.block K.llc t = none := by
      by_cases hd : X.Dirty t i
      · rw [hr.written hd] at hnone
        cases hnone
      · rw [← hr.kept hd, hnone]
    by_cases hji : j = i
    · cases hx : X'.block j t with
      | none => rfl
      | some x' =>
        rw [hji] at hx
        obtain ⟨x, hx, -⟩ := hr.own x' hx
        rw [h.present i hi hgone] at hx
        cases hx
    · rw [hr.other j hj hji]
      exact h.present j hj hgone
  · intro j hj hd
    rw [hlast]
    by_cases hji : j = i
    · exact absurd (hji ▸ hd) hr.clean
    · exact h.dirty j hj ((hdirty j hj hji).mp hd)
  · intro j hj x' hx'
    by_cases hji : j = i
    · rw [hji] at hx'
      obtain ⟨x, hx, hdata⟩ := hr.own x' hx'
      rw [hdata]
      exact h.first_data i hi x hx
    · rw [hr.other j hj hji] at hx'
      exact h.first_data j hj x' hx'
  · intro hclean y hy
    by_cases hd : X.Dirty t i
    · rw [hr.written hd] at hy
      rw [← Option.some.inj hy]
    · rw [hr.kept hd] at hy
      refine h.last_data ?_ y hy
      intro j hj hdj
      by_cases hji : j = i
      · exact hd (hji ▸ hdj)
      · exact hclean j hj ((hdirty j hj hji).mpr hdj)
  · intro hclean
    rw [hr.only.data_map]
    exact h.dram_data fun hd => hclean (hlast.mpr hd)
  · intro y hy
    rw [hr.only.data_map]
    by_cases hd : X.Dirty t i
    · obtain ⟨y₀, hy₀, -⟩ := Contents.block_of_dirty (h.dirty i hi hd)
      rw [hr.written hd] at hy
      rw [← Option.some.inj hy]
      exact ⟨(h.backed y₀ hy₀).1, .inr rfl⟩
    · rw [hr.kept hd] at hy
      exact h.backed y hy

/-- A line that no cache holds. -/
theorem uncached (hl : X.block K.llc t = none) (hf : ∀ i ∈ K.prevCntlrs K.llc, X.block i t = none)
    (hm : ∀ k : Fin K.blocksize, X.data_map.block (t * K.blocksize) k = m k) :
    Current K m X t := by
  refine ⟨fun i hi _ => hf i hi, ?_, ?_, ?_, fun _ => hm, ?_⟩
  · exact fun i hi hd => absurd hd (Contents.not_dirty (hf i hi))
  · intro i hi x hx
    rw [hf i hi] at hx
    cases hx
  · intro _ y hy
    rw [hl] at hy
    cases hy
  · intro y hy
    rw [hl] at hy
    cases hy

/-- A line whose last-level copy has the last value, like all first-level copies. -/
theorem of_last {st : CState} (hl : X.block K.llc t = some ⟨st, m⟩)
    (hst : st = .shared ∨ st = .modified) (hback : (X.data_map (t * K.blocksize)).isSome)
    (hdram : st ≠ .modified → ∀ k : Fin K.blocksize, X.data_map.block (t * K.blocksize) k = m k)
    (hf : ∀ i ∈ K.prevCntlrs K.llc, ∀ x, X.block i t = some x →
      x.data = m ∧ (x.state = .modified → st = .modified)) : Current K m X t := by
  have hlast : X.Dirty t K.llc ↔ st = .modified := Contents.dirty_iff hl
  refine ⟨?_, ?_, fun i hi x hx => (hf i hi x hx).1, ?_, ?_, ?_⟩
  · intro i _ hnone
    rw [hl] at hnone
    cases hnone
  · intro i hi hd
    obtain ⟨x, hx, hm⟩ := Contents.block_of_dirty hd
    exact hlast.mpr ((hf i hi x hx).2 hm)
  · intro _ y hy
    rw [hl] at hy
    rw [← Option.some.inj hy]
  · exact fun hd => hdram fun hm => hd (hlast.mpr hm)
  · intro y hy
    rw [hl] at hy
    rw [← Option.some.inj hy]
    exact ⟨hback, hst⟩

end Current

/-- What the hierarchy holds when the lines last had the values `m`. -/
structure Coherent {σ : Type} (K : Config σ) (m : ℕ → Fin K.blocksize → Byte)
    (X : Contents K.blocksize) : Prop where
  idle : ∀ c, X.evicting c = none
  line : ∀ t, Current K (m t) X t

theorem Coherent.change {σ : Type} {K : Config σ} {m m' : ℕ → Fin K.blocksize → Byte}
    {X X' : Contents K.blocksize} {t : ℕ} (h : Coherent K m X) (ho : Contents.OnlyLine X X' t)
    (hm : ∀ t', t' ≠ t → m' t' = m t') (hc : Current K (m' t) X' t) : Coherent K m' X' := by
  refine ⟨?_, ?_⟩
  · intro c
    rw [ho.evicting]
    exact h.idle c
  · intro t'
    by_cases ht : t' = t
    · rw [ht]
      exact hc
    · rw [hm t' ht]
      exact (h.line t').congr (fun c => ho.block c t' ht) (by rw [ho.data_map])

/-- Line `t` has come in for line `u`, which has left all caches. -/
structure Replaced {σ : Type} (K : Config σ) (m : ℕ → Fin K.blocksize → Byte) (u : ℕ)
    (X X' : Contents K.blocksize) (t : ℕ) : Prop where
  idle : X'.evicting = X.evicting
  gone : ∀ c, c = K.llc ∨ c ∈ K.prevCntlrs K.llc → X'.block c u = none
  absent : ∀ i ∈ K.prevCntlrs K.llc, X'.block i t = none
  other : ∀ c t', t' ≠ t → t' ≠ u → X'.block c t' = X.block c t'
  data_map : ∀ t', t' ≠ u → X'.data_map (t' * K.blocksize) = X.data_map (t' * K.blocksize)
  written : ∀ k : Fin K.blocksize, X'.data_map.block (u * K.blocksize) k = m u k

/-- The last level is up to date after a line has taken the place of another: there are three kinds
of lines, the evicted one, the one brought in, and the others. -/
theorem Coherent.replaced {σ : Type} {K : Config σ} {m : ℕ → Fin K.blocksize → Byte}
    {X X' : Contents K.blocksize} {t u : ℕ} (hX : Coherent K m X) (h : Replaced K m u X X' t)
    (hd : (X.data_map (t * K.blocksize)).isSome) (hb : X.block K.llc t = none) {st : CState}
    (hst : st = .shared ∨ st = .modified) (hline : X'.block K.llc t = some ⟨st, m t⟩) :
    Coherent K m X' := by
  refine ⟨fun c => ?_, fun t' => ?_⟩
  · rw [h.idle]
    exact hX.idle c
  by_cases htu : t' = u
  · rw [htu]
    exact .uncached (h.gone _ (.inl rfl)) (fun i hi => h.gone i (.inr hi)) h.written
  have hDt := h.data_map t' htu
  by_cases htt : t' = t
  · rw [htt] at hDt ⊢
    apply Current.of_last hline hst
    · rw [hDt]
      exact hd
    · intro _ k
      rw [← (hX.line t).dram_data (Contents.not_dirty hb)]
      unfold DataMap.block
      rw [hDt]
    · intro i hi x hx
      rw [h.absent i hi] at hx
      cases hx
  · exact (hX.line t').congr (fun c => h.other c t' htt htu) hDt

/-- What a snoop of the caches `l` by the last level leaves of line `t`. -/
structure Snooped {σ : Type} (K : Config σ) (m : Fin K.blocksize → Byte) (l : List CntlrId) (t : ℕ)
    (new : CState) (X X' : Contents K.blocksize) : Prop where
  only : Contents.OnlyLine X X' t
  current : Current K m X' t
  inside : ∀ i ∈ l, X'.state i t = new.restate (X.state i t)
  outside : ∀ i ∈ K.prevCntlrs K.llc, i ∉ l → X'.block i t = X.block i t
  last : X'.state K.llc t = X.state K.llc t

namespace Snooped

variable {σ : Type} {K : Config σ} {m : Fin K.blocksize → Byte} {l : List CntlrId} {t : ℕ}
  {new : CState} {X X₁ X₂ : Contents K.blocksize} {i : CntlrId}

theorem nil (h : Current K m X t) : Snooped K m [] t new X X :=
  ⟨.refl X, h, fun _ hi => absurd hi List.not_mem_nil, fun _ _ _ => rfl, rfl⟩

theorem snoc (h : Snooped K m l t new X X₁) (hl : ∀ j ∈ l, j ∈ K.prevCntlrs K.llc)
    (hi : i ∈ K.prevCntlrs K.llc) (hil : i ∉ l) (hr : Released K m i t X₁ X₂)
    (hs : X₂.state i t = new.restate (X₁.state i t)) : Snooped K m (l ++ [i]) t new X X₂ := by
  refine ⟨h.only.trans hr.only, h.current.release hi hr, ?_, ?_,
    (h.current.last_state hi hr).trans h.last⟩
  · intro j hj
    rcases List.mem_append.mp hj with hj | hj
    · have hne : j ≠ i := fun heq => hil (heq ▸ hj)
      rw [Contents.state_congr (hr.other j (hl j hj) hne)]
      exact h.inside j hj
    · rw [List.mem_singleton.mp hj, hs, Contents.state_congr (h.outside i hi hil)]
  · intro j hj hjl
    have hne : j ≠ i := fun heq => hjl (by rw [heq]; simp)
    rw [hr.other j hj hne]
    exact h.outside j hj fun hmem => hjl (by simp [hmem])

end Snooped

/-- The first-level caches `l` have given up line `t`, which the last level evicts with the eviction
buffer `buf`. -/
structure Flushed {σ : Type} (K : Config σ) (m : Fin K.blocksize → Byte) (l : List CntlrId) (t : ℕ)
    (X X' : Contents K.blocksize) (buf : ℕ → Byte) : Prop where
  only : Contents.OnlyLine X X' t
  gone : ∀ i ∈ l, X'.block i t = none
  kept : ∀ c, c ∉ l → X'.block c t = X.block c t
  data : (∀ i ∈ K.prevCntlrs K.llc, i ∉ l → ¬X.Dirty t i) → ∀ k : Fin K.blocksize, buf k = m k

theorem Flushed.snoc {σ : Type} {K : Config σ} {m : Fin K.blocksize → Byte} {l : List CntlrId}
    {t : ℕ} {X X₁ : Contents K.blocksize} {buf buf' : ℕ → Byte} {i : CntlrId}
    (h : Flushed K m l t X X₁ buf) (hdirty : X.Dirty t i → ∀ k : Fin K.blocksize, buf' k = m k)
    (hclean : ¬X.Dirty t i → buf' = buf) :
    Flushed K m (l ++ [i]) t X (X₁.put i t none) buf' := by
  refine ⟨h.only.trans .put, ?_, ?_, ?_⟩
  · intro j hj
    by_cases hji : j = i
    · rw [hji, Contents.put_block_self]
    · rw [Contents.put_block_of_ne hji]
      apply h.gone j
      simpa [hji] using hj
  · intro c hc
    have hci : c ≠ i := fun heq => hc (by rw [heq]; simp)
    rw [Contents.put_block_of_ne hci]
    exact h.kept c fun hmem => hc (by simp [hmem])
  · intro hrest
    by_cases hd : X.Dirty t i
    · exact hdirty hd
    · rw [hclean hd]
      apply h.data
      intro j hj hjl
      by_cases hji : j = i
      · rw [hji]
        exact hd
      · exact hrest j hj (by simp [hji, hjl])

namespace CacheCntlr

variable {σ : Type} {K : Config σ} (hK : K.Shared) {s : State σ} {X : Contents K.blocksize}
  {m : Fin K.blocksize → Byte} {t : ℕ} {i : CntlrId} {new : CState}
include hK

/-- One first-level cache is snooped. -/
theorem updateFirst_released (h : s.Holds K X) (he : X.evicting K.llc = none)
    (hc : Current K m X t) (hi : i ∈ K.prevCntlrs K.llc) (hnew : new = .invalid ∨ new = .shared) :
    Total (updateCacheBlock K i.level i.core s (t * K.blocksize) new none) fun r => ∃ X',
      r.1.Holds K X' ∧ Released K m i t X X' ∧ X'.state i t = new.restate (X.state i t) := by
  have hmem := K.mem_prevCntlrs.mp hi
  have h0 := hK.level hi
  have hlt := hK.level_lt h0
  have hne := hK.ne_llc h0
  have hplace : X.Dirty t i → HasPlace K X i t none := by
    intro hd
    refine ⟨hK.plain.writeback i, fun _ => ?_, fun hn => absurd hlt hn⟩
    rw [hmem.2.2.2]
    refine ⟨hc.dirty i hi hd, hK.plain.writeback _, ?_⟩
    intro e hev
    rw [he] at hev
    cases hev
  have hallowed : Allowed new none := hnew.imp id Or.inl
  have hown : updateCacheBlock K i.level i.core s (t * K.blocksize) new none =
      updateOwnBlock K s i (t * K.blocksize) new none := by
    obtain ⟨l, j⟩ := i
    obtain rfl : l = 0 := h0
    rfl
  rw [hown]
  apply (updateOwnBlock_total (fun _ => hK.plain.coherent i) h hallowed hplace
    (fun hn => by cases hn)).mono (fun _ => id)
  intro r h'
  obtain ⟨X', hX', hup, -⟩ := h'
  have hstate := hup.inside i (Set.mem_singleton i)
  refine ⟨X', hX', ⟨⟨?_, hup.evicting, hup.data_map⟩, ?_, ?_, ?_, ?_, ?_⟩, hstate⟩
  · intro c t' ht
    exact hup.rest c t' (fun h' => ht h'.1) fun h' => ht h'.1
  · unfold Contents.Dirty
    rw [hstate]
    unfold CState.restate
    rcases hnew with rfl | rfl <;> split <;> decide
  · intro x' hx'
    obtain ⟨hsome, hdata⟩ := hup.own x' hx'
    obtain ⟨x, hx⟩ := Option.ne_none_iff_exists'.mp hsome
    exact ⟨x, hx, hdata hK.stores i x rfl hx⟩
  · intro j hj hji
    apply hup.rest j t (fun h' => hji h'.2)
    intro h'
    exact hK.ne_llc (hK.level hj) (h'.2.1.trans hmem.2.2.2)
  · intro hd
    obtain ⟨data, hblock, hdata⟩ := hup.next hlt hd
    obtain ⟨x, hx, -⟩ := Contents.block_of_dirty hd
    rw [hmem.2.2.2] at hblock
    rw [hblock, hdata hK.stores i x rfl hx, hc.first_data i hi x hx]
  · intro hd
    apply hup.rest K.llc t (fun h' => hne h'.2.symm)
    exact fun h' => hd h'.2.2.2

/-- The loops over the first-level caches, but for the requester. -/
theorem updatePrev_snooped (h : s.Holds K X) (he : X.evicting K.llc = none)
    (hc : Current K m X t) (hnew : new = .invalid ∨ new = .shared) (requester : Option CntlrId) :
    Total (updatePrev K s K.llc requester (t * K.blocksize) new) fun s' => ∃ X', s'.Holds K X' ∧
      Snooped K m (others K K.llc requester) t new X X' := by
  have hnodup : (others K K.llc requester).Nodup :=
    (prevCntlrs_nodup K.toHierarchy K.llc).filter _
  -- the invariant of the loop: the caches done so far have been snooped
  refine sat_foldlM (fun done s' => ∃ X', s'.Holds K X' ∧ Snooped K m done t new X X')
    (others K K.llc requester) s ⟨X, h, .nil hc⟩ ?_
  intro done i rest s₁ hsplit h'
  obtain ⟨X₁, h₁, hs₁⟩ := h'
  have hmem : ∀ j ∈ done ++ [i], j ∈ K.prevCntlrs K.llc := by
    intro j hj
    apply (mem_others.mp _).1
    · exact requester
    · rw [hsplit]
      rcases List.mem_append.mp hj with hj | hj
      · simp [hj]
      · simp [List.mem_singleton.mp hj]
  rw [hsplit] at hnodup
  have hnot : i ∉ done := fun hd => (List.nodup_append.mp hnodup).2.2 i hd i (by simp) rfl
  have hi := hmem i (by simp)
  have he₁ : X₁.evicting K.llc = none := by
    rw [hs₁.only.evicting]
    exact he
  apply (updateFirst_released hK h₁ he₁ hs₁.current hi hnew).bind
  intro r h'
  obtain ⟨X₂, h₂, hr, hst⟩ := h'
  exact ⟨X₂, h₂, hs₁.snoc (fun j hj => hmem j (by simp [hj])) hi hnot hr hst⟩

/-- A first-level cache writes the whole of a line that the last level evicts. -/
theorem writeFirst_evicting (h : s.Holds K X) (hi : i ∈ K.prevCntlrs K.llc) {evict_buf : ℕ → Byte}
    (he : X.evicting K.llc = some (t * K.blocksize, evict_buf)) (buf : ℕ → Byte) :
    Total (writeNext K s i (t * K.blocksize) 0 (some buf) K.blocksize) fun s' =>
      s'.Holds K (X.setEvicting K.llc
        (some (t * K.blocksize, Buffer.copy evict_buf 0 buf 0 K.blocksize))) := by
  have hnext : K.node (K.nextCntlr i) = K.llc := (K.mem_prevCntlrs.mp hi).2.2.2
  unfold writeNext
  rw [show K.last - (i.level + 1) = 0 by rw [hK.level hi, hK.last]]
  simp only [writeCacheBlock, hnext]
  apply (writeOwnBlock_evicting_holds h he buf).bind
  intro s' hs'
  rw [require_true _ (hK.plain.writeback K.llc)]
  exact hs'

/-- One first-level cache gives up a line that the last level evicts: dirty data go to the eviction
buffer. -/
theorem updateFirst_evicting (h : s.Holds K X) (hi : i ∈ K.prevCntlrs K.llc) {buf : ℕ → Byte}
    (he : X.evicting K.llc = some (t * K.blocksize, buf))
    (hdata : ∀ x, X.block i t = some x → x.data = m) :
    Total (updateCacheBlock K i.level i.core s (t * K.blocksize) .invalid none) fun r => ∃ buf',
      r.1.Holds K ((X.put i t none).setEvicting K.llc (some (t * K.blocksize, buf'))) ∧
      (X.Dirty t i → ∀ k : Fin K.blocksize, buf' k = m k) ∧ (¬X.Dirty t i → buf' = buf) := by
  have hown : updateCacheBlock K i.level i.core s (t * K.blocksize) .invalid none =
      updateOwnBlock K s i (t * K.blocksize) .invalid none := by
    have h0 := hK.level hi
    obtain ⟨l, j⟩ := i
    obtain rfl : l = 0 := h0
    rfl
  -- the block is saved first, and not MODIFIED then
  have saved : ∀ x, X.block i t = some x →
      Total (saveBlock K s i (t * K.blocksize) x.state none) fun r => r.2.1 = none ∧ ∃ buf' x',
        x'.state ≠ .modified ∧
        r.1.Holds K ((X.put i t (some x')).setEvicting K.llc (some (t * K.blocksize, buf'))) ∧
        (X.Dirty t i → ∀ k : Fin K.blocksize, buf' k = m k) ∧ (¬X.Dirty t i → buf' = buf) := by
    intro x hx
    have hdirty := Contents.dirty_iff hx
    unfold saveBlock
    split
    · rename_i hm
      unfold writeBackBlock
      rw [if_neg (by simp [hK.plain.writeback]), if_pos (hK.level_lt (hK.level hi))]
      apply (retrieveCacheBlock_holds hK.stores h hx K.garbage false).bind
      intro r hr
      apply (writeFirst_evicting hK hr.1 hi he r.2).bind
      intro s₂ h₂
      have h₃ := setCacheState_holds h₂ (b := x) (c := i) (t := t) hx
        (by decide : CState.shared ≠ _)
      refine ⟨rfl, _, ⟨.shared, x.data⟩, by simp, h₃, fun _ k => ?_, ?_⟩
      · rw [Buffer.copy_in (Nat.zero_le _) (by omega), Nat.sub_zero, Nat.zero_add, ← hdata x hx]
        exact hr.2 k
      · exact fun hn => absurd (hdirty.mpr hm) hn
    · rename_i hm
      refine ⟨rfl, buf, x, hm, ?_, fun hd => absurd (hdirty.mp hd) hm, fun _ => rfl⟩
      rw [Contents.put_eq hx, Contents.setEvicting_eq he]
      exact h
  have changed : Total (changeIfPresent K s i (t * K.blocksize) .invalid none) fun r =>
      r.2.1 = none ∧ ∃ buf',
        r.1.Holds K ((X.put i t none).setEvicting K.llc (some (t * K.blocksize, buf'))) ∧
        (X.Dirty t i → ∀ k : Fin K.blocksize, buf' k = m k) ∧ (¬X.Dirty t i → buf' = buf) := by
    unfold changeIfPresent
    cases hx : X.block i t with
    | none =>
      rw [info_of_absent h hx]
      refine ⟨rfl, buf, ?_, fun hd => absurd hd (Contents.not_dirty hx), fun _ => rfl⟩
      rw [Contents.put_eq hx, Contents.setEvicting_eq he]
      exact h
    | some x =>
      obtain ⟨info, hinfo, hcs⟩ := info_of_block h hx
      simp only [hinfo, hcs]
      unfold changeBlock
      rw [if_neg (by simp)]
      apply (saved x hx).bind
      intro r h'
      obtain ⟨hout, buf', x', hx', h₁, hbuf⟩ := h'
      simp only [hout, retrieveInto, pure, Except.pure, ok_bind, hK.plain.coherent, if_true]
      apply (invalidateCacheBlock_holds h₁ (b := x') (by simp) hx').bind
      intro s₂ h₂
      rw [Contents.put_setEvicting, Contents.put_put] at h₂
      exact ⟨rfl, buf', h₂, hbuf⟩
  rw [hown]
  unfold updateOwnBlock
  apply changed.bind
  intro r h'
  obtain ⟨hout, buf', h₁, hbuf⟩ := h'
  simp only [hout]
  rw [require_true _ (.inl (getCacheState_of_absent h₁ (by simp))), ok_bind,
    require_true _ (by simp), ok_bind]
  exact ⟨buf', h₁, hbuf⟩

/-- Back-invalidation by the last level leaves the last value of the line in the eviction buffer. -/
theorem backInvalidate_flushed (h : s.Holds K X) (buf : ℕ → Byte) (he : X.evicting K.llc = none)
    (hdata : ∀ i ∈ K.prevCntlrs K.llc, ∀ x, X.block i t = some x → x.data = m)
    (hbuf : (∀ i ∈ K.prevCntlrs K.llc, ¬X.Dirty t i) → ∀ k : Fin K.blocksize, buf k = m k) :
    Total (backInvalidate K s K.llc (t * K.blocksize) buf) fun r => ∃ X', r.1.Holds K X' ∧
      Flushed K m (K.prevCntlrs K.llc) t X X' r.2 := by
  have hall : others K K.llc none = K.prevCntlrs K.llc := by
    unfold others
    apply List.filter_eq_self.mpr
    intro j _
    rfl
  have hstart : Flushed K m [] t X X buf :=
    ⟨.refl X, fun _ hi => absurd hi List.not_mem_nil, fun _ _ => rfl,
      fun hclean => hbuf fun i hi => hclean i hi List.not_mem_nil⟩
  unfold backInvalidate
  by_cases hnil : K.prevCntlrs K.llc = []
  · rw [if_pos hnil, hnil]
    exact ⟨X, h, hstart⟩
  rw [if_neg hnil]
  have hnodup := prevCntlrs_nodup K.toHierarchy K.llc
  -- the invariant of the loop: the caches done so far have given the line up
  have hloop : Total (updatePrev K (s.setEvicting K.llc (some (t * K.blocksize, buf))) K.llc none
      (t * K.blocksize) .invalid) fun s' => ∃ X' buf',
        s'.Holds K (X'.setEvicting K.llc (some (t * K.blocksize, buf'))) ∧
          Flushed K m (K.prevCntlrs K.llc) t X X' buf' := by
    unfold updatePrev
    change Total (List.foldlM _ _ (others K K.llc none)) _
    rw [hall]
    refine sat_foldlM (fun done (s' : State σ) => ∃ X' buf',
      s'.Holds K (X'.setEvicting K.llc (some (t * K.blocksize, buf'))) ∧
        Flushed K m done t X X' buf') (K.prevCntlrs K.llc) _
      ⟨X, buf, h.setEvicting K.llc _, hstart⟩ ?_
    intro done i rest s₁ hsplit h'
    obtain ⟨X₁, buf₁, h₁, hf⟩ := h'
    have hi : i ∈ K.prevCntlrs K.llc := by
      rw [hsplit]
      simp
    rw [hsplit] at hnodup
    have hnot : i ∉ done := fun hd => (List.nodup_append.mp hnodup).2.2 i hd i (by simp) rfl
    have hsame : X₁.block i t = X.block i t := hf.kept i hnot
    have hdirty : X₁.Dirty t i ↔ X.Dirty t i := by
      unfold Contents.Dirty
      rw [Contents.state_congr hsame]
    have hdata₁ : ∀ x, X₁.block i t = some x → x.data = m := by
      rw [hsame]
      exact hdata i hi
    apply (updateFirst_evicting hK h₁ hi (Function.update_self ..) hdata₁).bind
    intro r h'
    obtain ⟨buf₂, h₂, hd, hc⟩ := h'
    rw [Contents.put_setEvicting, Contents.setEvicting_setEvicting] at h₂
    exact ⟨X₁.put i t none, buf₂, h₂, hf.snoc (fun h => hd (hdirty.mpr h))
      fun hn => hc fun h => hn (hdirty.mp h)⟩
  apply hloop.bind
  intro s₁ h'
  obtain ⟨X₁, buf₁, h₁, hf⟩ := h'
  have hev : s₁.m_evicting K.llc = some (t * K.blocksize, buf₁) := by
    rw [h₁.evicting]
    exact Function.update_self ..
  have hidle : X₁.evicting K.llc = none := by
    rw [hf.only.evicting]
    exact he
  have h₂ := h₁.setEvicting K.llc none
  rw [Contents.setEvicting_setEvicting, Contents.setEvicting_eq hidle] at h₂
  simp only [hev]
  exact ⟨X₁, h₂, hf⟩

/-- A victim of the last level leaves its last value in DRAM. -/
theorem disposeEvicted_last {o : CntlrId} (ho : K.node o = K.llc) (h : s.Holds K X) (st : CState)
    (evict_buf : ℕ → Byte) (hbuf : ∀ k : Fin K.blocksize, evict_buf k = m k)
    (hd : (X.data_map (t * K.blocksize)).isSome)
    (hm : st ≠ .modified → ∀ k : Fin K.blocksize, X.data_map.block (t * K.blocksize) k = m k) :
    Total (disposeEvicted K s o (t * K.blocksize) st evict_buf) fun s' =>
      ∃ data_map : DataMap, s'.Holds K { X with data_map := data_map } ∧
        (∀ t', t' ≠ t → data_map (t' * K.blocksize) = X.data_map (t' * K.blocksize)) ∧
        ∀ k : Fin K.blocksize, data_map.block (t * K.blocksize) k = m k := by
  unfold disposeEvicted
  simp only [ho, hK.plain.perfect, hK.plain.coherent, hK.dram]
  rw [if_neg (by decide), if_neg (by decide), if_neg (show ¬K.llc.level < K.last from lt_irrefl _),
    if_pos trivial]
  split
  · obtain ⟨block, hblock⟩ := Option.isSome_iff_exists.mp hd
    apply (putDataToDram_holds hK.stores h hblock evict_buf).mono (fun _ => id)
    intro s' hs'
    refine ⟨_, hs', ?_, ?_⟩
    · intro t' ht'
      rw [Function.update_of_ne]
      exact fun hc => ht' (Nat.eq_of_mul_eq_mul_right K.blocksize_pos hc)
    · intro k
      unfold DataMap.block
      rw [Function.update_self, Option.getD_some, Buffer.copy_in (Nat.zero_le _) (by omega),
        Nat.sub_zero, Nat.zero_add, hbuf]
  · exact ⟨X.data_map, h, fun _ _ => rfl, hm ‹_›⟩

section lines

variable {m : ℕ → Fin K.blocksize → Byte} {o : CntlrId}

/-- A line that DRAM holds is brought into the last level. -/
theorem insertCacheBlock_last (ho : K.node o = K.llc) (h : s.Holds K X) (hX : Coherent K m X)
    (hb : X.block K.llc t = none) (hd : (X.data_map (t * K.blocksize)).isSome) {st : CState}
    (hst : st = .shared ∨ st = .modified) {buf : ℕ → Byte}
    (hbuf : ∀ k : Fin K.blocksize, buf k = m t k) :
    Total (insertCacheBlock K s o (t * K.blocksize) st (some buf)) fun s' => ∃ X',
      s'.Holds K X' ∧ Coherent K m X' ∧ X'.block K.llc t = some ⟨st, m t⟩ ∧
        ∀ i ∈ K.prevCntlrs K.llc, X'.block i t = none := by
  have hne : ∀ i ∈ K.prevCntlrs K.llc, i ≠ K.llc := fun i hi => hK.ne_llc (hK.level hi)
  have habs : ∀ i ∈ K.prevCntlrs K.llc, X.block i t = none :=
    fun i hi => (hX.line t).present i hi hb
  have hdram := (hX.line t).dram_data (Contents.not_dirty hb)
  have hdata : (fun k : Fin K.blocksize => buf k) = m t := funext hbuf
  unfold insertCacheBlock
  simp only [ho]
  rw [require_true _ (getCacheState_of_absent h hb)]
  obtain ⟨evicted, hev, hs⟩ :=
    insertSingleLine_holds hK.stores h hb (state_of_fill hst) buf
  simp only [ok_bind, hev]
  generalize setCacheState K (s.putCache K.llc _) K.llc (t * K.blocksize) st = s₁ at hs ⊢
  cases evicted with
  | none =>
    rw [hdata] at hs
    have hother : ∀ i ∈ K.prevCntlrs K.llc,
        (X.put K.llc t (some ⟨st, m t⟩)).block i t = none := by
      intro i hi
      rw [Contents.put_block_of_ne (hne i hi)]
      exact habs i hi
    refine ⟨_, hs, hX.change .put (fun _ _ => rfl) ?_, Contents.put_block_self, hother⟩
    apply Current.of_last Contents.put_block_self hst hd (fun _ => hdram)
    intro i hi x hx
    rw [hother i hi] at hx
    cases hx
  | some e =>
    obtain ⟨evict_address, e⟩ := e
    obtain ⟨u, y, rfl, hut, hy, hcs, hvbuf, hs⟩ := hs
    rw [hdata] at hs
    generalize hX₁ : (X.put K.llc u none).put K.llc t (some ⟨st, m t⟩) = X₁ at hs
    have hu := hX.line u
    obtain ⟨hdu, -⟩ := hu.backed y hy
    have hfirst : ∀ i ∈ K.prevCntlrs K.llc, ∀ t', X₁.block i t' = X.block i t' := by
      intro i hi t'
      rw [← hX₁, Contents.put_block_of_ne (hne i hi), Contents.put_block_of_ne (hne i hi)]
    have hrest : ∀ c t', t' ≠ t → t' ≠ u → X₁.block c t' = X.block c t' := by
      intro c t' htt htu
      rw [← hX₁, Contents.put_block_of_ne_line htt, Contents.put_block_of_ne_line htu]
    have hmap : X₁.data_map = X.data_map := by
      rw [← hX₁]
      rfl
    have hidle : X₁.evicting = X.evicting := by
      rw [← hX₁]
      rfl
    -- line `u` leaves all caches, and what is newer above goes into the evict buffer
    have hback := backInvalidate_flushed hK (t := u) (m := m u) hs e.buf
      (by rw [hidle]; exact hX.idle _) ?_ ?_
    rotate_left
    · intro i hi x hx
      rw [hfirst i hi] at hx
      exact hu.first_data i hi x hx
    · intro hclean k
      rw [hvbuf, hu.last_data _ y hy]
      intro i hi hd
      apply hclean i hi
      unfold Contents.Dirty
      rw [Contents.state_congr (hfirst i hi u)]
      exact hd
    apply hback.bind
    intro r h'
    obtain ⟨X₂, h₂, hf⟩ := h'
    have hlast : ∀ t', X₂.block K.llc t' = X₁.block K.llc t' := by
      intro t'
      by_cases htu : t' = u
      · rw [htu]
        exact hf.kept K.llc fun hmem => hne _ hmem rfl
      · exact hf.only.block K.llc t' htu
    have hnone : X₂.block K.llc u = none := by
      rw [hlast, ← hX₁, Contents.put_block_of_ne_line hut, Contents.put_block_self]
    have hline : X₂.block K.llc t = some ⟨st, m t⟩ := by
      rw [hlast, ← hX₁, Contents.put_block_self]
    have habs₂ : ∀ i ∈ K.prevCntlrs K.llc, X₂.block i t = none := by
      intro i hi
      rw [hf.only.block i t hut.symm, hfirst i hi, habs i hi]
    have hmap₂ : X₂.data_map = X.data_map := hf.only.data_map.trans hmap
    have hdispose := disposeEvicted_last hK (t := u) (m := m u) ho h₂ e.info.cstate r.2
      ?_ (by rw [hmap₂]; exact hdu) ?_
    rotate_left
    · exact hf.data fun i hi hnot => absurd hi hnot
    · intro hm
      rw [hmap₂]
      apply hu.dram_data
      rw [Contents.dirty_iff hy, ← hcs]
      exact hm
    apply hdispose.bind
    intro s₃ h'
    obtain ⟨D, h₃, hD, hDu⟩ := h'
    rw [require_true _ (getCacheState_of_absent h₃ hnone)]
    have hdone : Replaced K m u X { X₂ with data_map := D } t :=
      { idle := hf.only.evicting.trans hidle
        gone := fun c hc => by
          rcases hc with rfl | hc
          · exact hnone
          · exact hf.gone c hc
        absent := habs₂
        other := fun c t' htt htu => (hf.only.block c t' htu).trans (hrest c t' htt htu)
        data_map := fun t' htu => (hD t' htu).trans (by rw [hmap₂])
        written := hDu }
    exact ⟨_, h₃, hX.replaced hdone hd hb hst hline, hline, habs₂⟩

omit hK in
/-- A first-level cache takes a copy of a line that the last level has up to date. -/
theorem coherent_fill (hX : Coherent K m X) (hne : i ≠ K.llc) {st : CState}
    (hy : X.block K.llc t = some ⟨st, m t⟩) :
    Coherent K m (X.put i t (some ⟨st, m t⟩)) := by
  have hline := hX.line t
  obtain ⟨hd, hst⟩ := hline.backed _ hy
  have hlast : (X.put i t (some ⟨st, m t⟩)).block K.llc t = some ⟨st, m t⟩ := by
    rw [Contents.put_block_of_ne hne.symm]
    exact hy
  apply hX.change .put (fun _ _ => rfl)
  apply Current.of_last hlast hst hd
  · intro hm
    apply hline.dram_data
    rw [Contents.dirty_iff hy]
    exact hm
  · intro j hj x hx
    by_cases hji : j = i
    · rw [hji, Contents.put_block_self] at hx
      rw [← Option.some.inj hx]
      exact ⟨rfl, id⟩
    · rw [Contents.put_block_of_ne hji] at hx
      refine ⟨hline.first_data j hj x hx, fun hm => ?_⟩
      exact (Contents.dirty_iff hy).mp (hline.dirty j hj ((Contents.dirty_iff hx).mpr hm))

/-- A dirty victim of a first-level cache is written to the last level. -/
theorem disposeEvicted_first (ho : K.Cntlr o) (h0 : o.level = 0) (h : s.Holds K X)
    (he : X.evicting K.llc = none) {u : ℕ} {x : Block K.blocksize} (hx : x.data = m u)
    (hdirty : x.state = .modified → X.Dirty u K.llc) {evict_buf : ℕ → Byte}
    (hbuf : ∀ k : Fin K.blocksize, evict_buf k = x.data k) :
    Total (disposeEvicted K s o (u * K.blocksize) x.state evict_buf) fun s' => ∃ X', s'.Holds K X' ∧
      (x.state = .modified → X' = X.put K.llc u (some ⟨.modified, m u⟩)) ∧
      (x.state ≠ .modified → X' = X) := by
  have hbelow : K.below o = K.llc := hK.node_next ho h0
  have hlt : (K.node o).level < K.last := hK.level_lt h0
  unfold disposeEvicted
  simp only [hK.plain.perfect, hK.plain.coherent, hK.plain.writeback]
  rw [if_neg (by decide), if_neg (by decide), if_pos hlt]
  split
  · rename_i hm
    have hnot : X.NotEvicting (K.below o) (u * K.blocksize) := by
      intro e hev
      rw [hbelow, he] at hev
      cases hev
    apply (writeNext_total (hK.plain.writeback _) h hnot (by rw [hbelow]; exact hdirty hm.2)
      evict_buf).mono (fun _ => id)
    intro s' h'
    obtain ⟨data, hdata, hs'⟩ := h'
    rw [hbelow, hdata hK.stores, funext hbuf, hx] at hs'
    exact ⟨_, hs', fun _ => rfl, fun hn => absurd hm.2 hn⟩
  · rename_i hm
    exact ⟨X, h, fun hmod => absurd ⟨trivial, hmod⟩ hm, fun _ => rfl⟩

/-- A first-level cache gives up line `u` before it takes line `t`. -/
theorem released_victim (hi : i ∈ K.prevCntlrs K.llc) {u : ℕ} {x : Block K.blocksize}
    (hx : X.block i u = some x) (hut : u ≠ t) {b : Option (Block K.blocksize)}
    {X₂ : Contents K.blocksize} {v : Fin K.blocksize → Byte}
    (hmod : x.state = .modified →
      X₂ = ((X.put i u none).put i t b).put K.llc u (some ⟨.modified, v⟩))
    (hclean : x.state ≠ .modified → X₂ = (X.put i u none).put i t b) :
    ∃ Y, Released K v i u X Y ∧ Y.block i u = none ∧ X₂ = Y.put i t b := by
  have hne : i ≠ K.llc := hK.ne_llc (hK.level hi)
  by_cases hm : x.state = .modified
  · have hnone : ((X.put i u none).put K.llc u (some ⟨.modified, v⟩)).block i u = none := by
      rw [Contents.put_block_of_ne hne, Contents.put_block_self]
    refine ⟨(X.put i u none).put K.llc u (some ⟨.modified, v⟩), ?_, hnone, ?_⟩
    · refine ⟨Contents.OnlyLine.put.trans .put, Contents.not_dirty hnone, ?_, ?_, ?_, ?_⟩
      · intro x' hx'
        rw [hnone] at hx'
        cases hx'
      · intro j hj hji
        rw [Contents.put_block_of_ne (hK.ne_llc (hK.level hj)), Contents.put_block_of_ne hji]
      · exact fun _ => Contents.put_block_self
      · exact fun hn => absurd ((Contents.dirty_iff hx).mpr hm) hn
    · rw [hmod hm, Contents.put_comm hut]
  · refine ⟨X.put i u none, ?_, Contents.put_block_self, hclean hm⟩
    refine ⟨.put, ?_, ?_, ?_, ?_, ?_⟩
    · exact Contents.not_dirty Contents.put_block_self
    · intro x' hx'
      rw [Contents.put_block_self] at hx'
      cases hx'
    · exact fun j _ hji => Contents.put_block_of_ne hji
    · exact fun hd => absurd ((Contents.dirty_iff hx).mp hd) hm
    · exact fun _ => Contents.put_block_of_ne hne.symm

/-- A line that the last level holds is brought into a first-level cache. -/
theorem insertCacheBlock_first (ho : K.Cntlr o) (h0 : o.level = 0) (h : s.Holds K X)
    (hX : Coherent K m X) (hb : X.block (K.node o) t = none) {st : CState}
    (hy : X.block K.llc t = some ⟨st, m t⟩) {buf : ℕ → Byte}
    (hbuf : ∀ k : Fin K.blocksize, buf k = m t k) :
    Total (insertCacheBlock K s o (t * K.blocksize) st (some buf)) fun s' => ∃ X',
      s'.Holds K X' ∧ Coherent K m X' ∧ X'.block (K.node o) t = some ⟨st, m t⟩ ∧
        ∀ j ∈ K.prevCntlrs K.llc, j ≠ K.node o → X'.block j t = X.block j t := by
  have hi := hK.first ho h0
  have hne : K.node o ≠ K.llc := hK.ne_llc (hK.level hi)
  have hst := ((hX.line t).backed _ hy).2
  have hdata : (fun k : Fin K.blocksize => buf k) = m t := funext hbuf
  unfold insertCacheBlock
  simp only
  rw [require_true _ (getCacheState_of_absent h hb)]
  obtain ⟨evicted, hev, hs⟩ :=
    insertSingleLine_holds hK.stores h hb (state_of_fill hst) buf
  simp only [ok_bind, hev]
  generalize setCacheState K (s.putCache (K.node o) _) (K.node o) (t * K.blocksize) st = s₁ at hs ⊢
  cases evicted with
  | none =>
    rw [hdata] at hs
    exact ⟨_, hs, coherent_fill hX hne hy, Contents.put_block_self,
      fun j _ hj => Contents.put_block_of_ne hj⟩
  | some e =>
    obtain ⟨evict_address, e⟩ := e
    obtain ⟨u, x, rfl, hut, hx, hcs, hvbuf, hs⟩ := hs
    rw [hdata] at hs
    have hu := hX.line u
    have hxu := hu.first_data _ hi x hx
    -- nothing is above the first level
    have hback : backInvalidate K s₁ (K.node o) (u * K.blocksize) e.buf = .ok (s₁, e.buf) := by
      unfold backInvalidate
      exact if_pos (prevCntlrs_nil (hK.level hi))
    have hlast : ∀ t',
        ((X.put (K.node o) u none).put (K.node o) t (some ⟨st, m t⟩)).block K.llc t' =
          X.block K.llc t' := by
      intro t'
      rw [Contents.put_block_of_ne hne.symm, Contents.put_block_of_ne hne.symm]
    simp only [hback, ok_bind, hcs]
    have hdirty : x.state = .modified →
        ((X.put (K.node o) u none).put (K.node o) t (some ⟨st, m t⟩)).Dirty u K.llc := by
      intro hm
      unfold Contents.Dirty
      rw [Contents.state_congr (hlast u)]
      exact hu.dirty _ hi ((Contents.dirty_iff hx).mpr hm)
    apply (disposeEvicted_first hK ho h0 hs (hX.idle _) hxu hdirty hvbuf).bind
    intro s₂ h'
    obtain ⟨X₂, h₂, hmod, hclean⟩ := h'
    -- first the victim is given up, then the copy is taken
    obtain ⟨Y, hr, hYu, hXY⟩ := released_victim hK hi hx hut hmod hclean
    have hY : Coherent K m Y := hX.change hr.only (fun _ _ => rfl) (hu.release hi hr)
    have hYt : ∀ c, Y.block c t = X.block c t := fun c => hr.only.block c t hut.symm
    have hXu : X₂.block (K.node o) u = none := by
      rw [hXY, Contents.put_block_of_ne_line hut, hYu]
    rw [require_true _ (getCacheState_of_absent h₂ hXu)]
    refine ⟨X₂, h₂, ?_, ?_, ?_⟩
    · rw [hXY]
      exact coherent_fill hY hne ((hYt _).trans hy)
    · rw [hXY, Contents.put_block_self]
    · intro j _ hj
      rw [hXY, Contents.put_block_of_ne hj, hYt]

omit hK in
theorem block_none_of_state (h : s.Holds K X) {c : CntlrId} (hst : X.state c t = .invalid) :
    X.block c t = none := by
  cases hb : X.block c t with
  | none => rfl
  | some b =>
    rw [Contents.state_of_block hb] at hst
    exact absurd hst (state_ne_invalid h hb)

omit hK in
/-- A first-level cache is snooped unless it is the requester's. -/
theorem mem_others_or {o : CntlrId} (hi : i ∈ K.prevCntlrs K.llc) :
    i ∈ others K K.llc (some o) ∨ i = K.node o := by
  by_cases hio : i = o
  · obtain ⟨-, -, hmaster, -⟩ := K.mem_prevCntlrs.mp hi
    right
    rw [← hio]
    unfold Hierarchy.node
    rw [hmaster]
  · exact .inl (mem_others.mpr ⟨hi, fun heq => hio (Option.some.inj heq)⟩)

/-- What the last level has done when it answers a request of `o`. -/
structure Ready (K : Config σ) (m : ℕ → Fin K.blocksize → Byte) (o : CntlrId) (op : MemOp) (t : ℕ)
    (st : CState) (X : Contents K.blocksize) : Prop where
  coherent : Coherent K m X
  last : X.block K.llc t = some ⟨st, m t⟩
  own : X.block (K.node o) t = none
  permits : op.permits st = true
  taken : op ≠ .read → ∀ j ∈ K.prevCntlrs K.llc, X.block j t = none

omit hK in
theorem last_of_clean (hX : Coherent K m X) {y : Block K.blocksize}
    (hy : X.block K.llc t = some y) (hclean : ∀ j ∈ K.prevCntlrs K.llc, ¬X.Dirty t j) :
    X.block K.llc t = some ⟨y.state, m t⟩ := by
  rw [hy, ← (hX.line t).last_data hclean y hy]

/-- The requester has no copy and the others have been snooped. -/
theorem snoop_ready (h : s.Holds K X) (hX : Coherent K m X) {o : CntlrId} (ho : K.Cntlr o)
    (h0 : o.level = 0) (hb : X.block (K.node o) t = none) {y : Block K.blocksize}
    (hy : X.block K.llc t = some y) (hnew : new = .invalid ∨ new = .shared) :
    Total (updatePrev K s K.llc (some o) (t * K.blocksize) new) fun s' => ∃ X', s'.Holds K X' ∧
      Coherent K m X' ∧ X'.block K.llc t = some ⟨y.state, m t⟩ ∧ X'.block (K.node o) t = none ∧
      (new = .invalid → ∀ j ∈ K.prevCntlrs K.llc, X'.block j t = none) := by
  have hstate := Contents.state_of_block hy
  apply (updatePrev_snooped hK h (hX.idle _) (hX.line t) hnew (some o)).mono (fun _ => id)
  intro s' h'
  obtain ⟨X', h₁, hs⟩ := h'
  have hX' : Coherent K m X' := hX.change hs.only (fun _ _ => rfl) hs.current
  have hown : X'.block (K.node o) t = none := by
    by_cases hmem : K.node o ∈ others K K.llc (some o)
    · apply block_none_of_state h₁
      rw [hs.inside _ hmem]
      unfold Contents.state
      rw [hb, CState.restate_invalid]
    · rw [hs.outside _ (hK.first ho h0) hmem, hb]
  have hsnooped : ∀ j ∈ K.prevCntlrs K.llc, X'.block j t = none ∨ X'.state j t = .invalid ∨
      X'.state j t = new := by
    intro j hj
    rcases mem_others_or hj with hmem | heq
    · rw [hs.inside j hmem]
      unfold CState.restate
      split <;> simp
    · left
      rw [heq]
      exact hown
  have hclean : ∀ j ∈ K.prevCntlrs K.llc, ¬X'.Dirty t j := by
    intro j hj hd
    rcases hsnooped j hj with hnone | hinv | hnew'
    · exact Contents.not_dirty hnone hd
    · rw [Contents.Dirty, hinv] at hd
      cases hd
    · rw [Contents.Dirty, hnew'] at hd
      rcases hnew with rfl | rfl <;> cases hd
  obtain ⟨y', hy', hst'⟩ := Contents.block_of_state (hs.last.trans hstate) (state_ne_invalid h hy)
  refine ⟨X', h₁, hX', ?_, hown, ?_⟩
  · rw [← hst']
    exact last_of_clean hX' hy' hclean
  · intro hinv j hj
    rcases hsnooped j hj with hnone | hinv' | hnew'
    · exact hnone
    · exact block_none_of_state h₁ hinv'
    · exact block_none_of_state h₁ (hnew'.trans hinv)

theorem snoopOnHit_ready (h : s.Holds K X) (hX : Coherent K m X) {o : CntlrId} (ho : K.Cntlr o)
    (h0 : o.level = 0) (hb : X.block (K.node o) t = none) {y : Block K.blocksize}
    (hy : X.block K.llc t = some y) {op : MemOp} (hop : op.permits y.state = true) :
    Total (snoopOnHit K s K.llc o op (t * K.blocksize)) fun s' => ∃ X', s'.Holds K X' ∧
      Ready K m o op t y.state X' := by
  unfold snoopOnHit
  rw [getCacheState_of_block h hy]
  split
  · apply (snoop_ready hK h hX ho h0 hb hy (.inl rfl)).mono (fun _ => id)
    intro s' h'
    obtain ⟨X', h₁, hX', hl, hown, hgone⟩ := h'
    exact ⟨X', h₁, hX', hl, hown, hop, fun _ => hgone rfl⟩
  rename_i hread
  split
  · apply (snoop_ready hK h hX ho h0 hb hy (.inr rfl)).mono (fun _ => id)
    intro s' h'
    obtain ⟨X', h₁, hX', hl, hown, -⟩ := h'
    exact ⟨X', h₁, hX', hl, hown, hop, fun hw => absurd hw hread⟩
  rename_i hm
  have hshared : y.state = .shared := ((hX.line t).backed y hy).2.resolve_right hm
  rw [if_neg (by rw [hshared]; decide)]
  -- nobody has a line dirty that the last level has SHARED
  refine ⟨X, h, hX, last_of_clean hX hy ?_, hb, hop, fun hw => absurd hw hread⟩
  intro j hj hd
  exact hm ((Contents.dirty_iff hy).mp ((hX.line t).dirty j hj hd))

theorem getDataFromDram_coherent (h : s.Holds K X) (hX : Coherent K m X)
    (hb : X.block K.llc t = none) (buf : ℕ → Byte) :
    ∃ X', (getDataFromDram K s (t * K.blocksize) buf).1.Holds K X' ∧ Coherent K m X' ∧
      X'.block K.llc t = none ∧ (X'.data_map (t * K.blocksize)).isSome ∧
      ∀ k : Fin K.blocksize, (getDataFromDram K s (t * K.blocksize) buf).2 k = m t k := by
  have hline := hX.line t
  have hdram := hline.dram_data (Contents.not_dirty hb)
  unfold getDataFromDram
  rw [if_pos hK.stores, h.data_map]
  refine ⟨{ X with data_map := X.data_map.touch (t * K.blocksize) },
    ⟨h.wellFormed, h.block, h.evicting, rfl⟩, ⟨hX.idle, fun t' => ?_⟩, hb, ?_, fun k => ?_⟩
  · by_cases ht : t' = t
    · rw [ht]
      apply Current.uncached (X := { X with data_map := X.data_map.touch (t * K.blocksize) }) hb
        fun i hi => hline.present i hi hb
      intro k
      rw [← hdram k]
      simp only [DataMap.block, DataMap.touch_self, Option.getD_some]
    · refine (hX.line t').congr (fun _ => rfl) ?_
      apply DataMap.touch_of_ne
      exact fun hc => ht (Nat.eq_of_mul_eq_mul_right K.blocksize_pos hc)
  · simp only [DataMap.touch_self, Option.isSome_some]
  · simp only
    rw [Buffer.copy_in (Nat.zero_le _) (by omega), Nat.sub_zero, Nat.zero_add, hdram]

/-- A miss at the last level, once the others have been snooped, ends with the line there only. -/
theorem lastLevelMiss_coherent (h : s.Holds K X) (hX : Coherent K m X) {o requester : CntlrId}
    (ho : K.node o = K.llc) {op : MemOp}
    (hmiss : ∀ y, X.block K.llc t = some y → op.permits y.state = false ∧ y.data = m t ∧
      ∀ j ∈ K.prevCntlrs K.llc, X.block j t = none) :
    Total (lastLevelMiss K s o requester op (t * K.blocksize)) fun r => r.2 ≠ .miss ∧
      ∃ X' st, r.1.Holds K X' ∧ Coherent K m X' ∧ X'.block K.llc t = some ⟨st, m t⟩ ∧
        op.permits st = true ∧ ∀ j ∈ K.prevCntlrs K.llc, X'.block j t = none := by
  have hline := hX.line t
  have hne : ∀ i ∈ K.prevCntlrs K.llc, i ≠ K.llc := fun i hi => hK.ne_llc (hK.level hi)
  unfold lastLevelMiss
  simp only [ho, hK.dram, if_true]
  cases hy : X.block K.llc t with
  | some y =>
    obtain ⟨info, hinfo, hcs⟩ := info_of_block h hy
    obtain ⟨hperm, hdata, hgone⟩ := hmiss y hy
    obtain ⟨hback, hst⟩ := hline.backed y hy
    -- a block that is there and cannot be used is SHARED
    have hshared : y.state = .shared := by
      apply hst.resolve_right
      intro hm
      rw [hm, MemOp.permits_modified] at hperm
      cases hperm
    have hnot : ¬(getCacheBlockInfo K s K.llc (t * K.blocksize)).map CacheBlockInfo.cstate =
        some .exclusive := by
      rw [hinfo, Option.map_some, hcs, hshared]
      decide
    rw [if_neg hnot, if_pos (by rw [hinfo]; rfl)]
    have h₁ := setCacheState_holds h hy (by decide : CState.modified ≠ .invalid)
    rw [hdata] at h₁
    have hgone₁ : ∀ j ∈ K.prevCntlrs K.llc,
        (X.put K.llc t (some ⟨.modified, m t⟩)).block j t = none := by
      intro j hj
      rw [Contents.put_block_of_ne (hne j hj)]
      exact hgone j hj
    refine ⟨by simp, _, .modified, h₁, ?_, Contents.put_block_self, MemOp.permits_modified op,
      hgone₁⟩
    apply hX.change .put (fun _ _ => rfl)
    apply Current.of_last Contents.put_block_self (.inr rfl) hback (fun hn => absurd rfl hn)
    intro i hi x hx
    rw [hgone₁ i hi] at hx
    cases hx
  | none =>
    rw [info_of_absent h hy, if_neg (by simp), if_neg (by simp)]
    obtain ⟨X₁, h₁, hX₁, hb₁, hd₁, hbuf⟩ := getDataFromDram_coherent hK h hX hy K.garbage
    have hst : (if op = .read then CState.shared else .modified) = .shared ∨
        (if op = .read then CState.shared else .modified) = .modified := by
      split <;> simp
    apply (insertCacheBlock_last hK ho h₁ hX₁ hb₁ hd₁ hst hbuf).bind
    intro s₂ h'
    obtain ⟨X₂, h₂, hX₂, hl, hgone⟩ := h'
    refine ⟨by simp, X₂, _, h₂, hX₂, hl, ?_, hgone⟩
    split
    · rename_i hop
      rw [hop]
      rfl
    · exact MemOp.permits_modified op

/-- A request of a first-level cache that does not hold the line ends with the line in the last
level, in a state that permits the operation. -/
theorem processShmemReqFromPrevCache_ready (h : s.Holds K X) (hX : Coherent K m X) {o : CntlrId}
    (ho : K.Cntlr o) (h0 : o.level = 0) (hb : X.block (K.node o) t = none) (op : MemOp)
    (count : Bool) :
    Total (processShmemReqFromPrevCache K 0 s (K.nextCntlr o) o op (t * K.blocksize) count) fun r =>
      r.2 ≠ .miss ∧ ∃ X' st, r.1.Holds K X' ∧ Ready K m o op t st X' := by
  have hadjust : adjustHit K s (K.nextCntlr o) op (t * K.blocksize)
      (K.m_passthrough K.llc && count) =
      .ok (s, op.permits (getCacheState K s K.llc (t * K.blocksize))) := by
    unfold adjustHit
    simp only [hK.node_next ho h0, hK.plain.perfect, hK.plain.passthrough]
    rw [if_neg (by simp), if_neg (by simp)]
    rfl
  unfold processShmemReqFromPrevCache
  simp only [hK.node_next ho h0, hadjust, ok_bind]
  split
  · rename_i hperm
    unfold answerHit
    cases hy : X.block K.llc t with
    | none =>
      rw [getCacheState_of_absent h hy] at hperm
      exact absurd rfl (CState.readable_ne_invalid (MemOp.readable_of_permits hperm))
    | some y =>
      rw [getCacheState_of_block h hy] at hperm
      apply (snoopOnHit_ready hK h hX ho h0 hb hy hperm).bind
      intro s₁ h'
      obtain ⟨X₁, h₁, hr⟩ := h'
      apply (retrieveCacheBlock_holds hK.stores h₁ hr.last _ _).bind
      intro r h₂
      exact ⟨by simp, X₁, y.state, h₂.1, hr⟩
  · rename_i hperm
    -- a write to a line that the last level has SHARED takes the copies of the others
    have hup : Total (snoopOnUpgrade K s K.llc o (t * K.blocksize)) fun s' => ∃ X', s'.Holds K X' ∧
        Coherent K m X' ∧ ∀ y, X'.block K.llc t = some y →
          op.permits y.state = false ∧ y.data = m t ∧
            ∀ j ∈ K.prevCntlrs K.llc, X'.block j t = none := by
      unfold snoopOnUpgrade
      cases hy : X.block K.llc t with
      | none =>
        rw [info_of_absent h hy, if_neg (by simp)]
        refine ⟨X, h, hX, fun y hy' => ?_⟩
        rw [hy] at hy'
        cases hy'
      | some y =>
        rw [getCacheState_of_block h hy] at hperm
        obtain ⟨info, hinfo, hcs⟩ := info_of_block h hy
        have hshared : y.state = .shared := by
          apply ((hX.line t).backed y hy).2.resolve_right
          intro hm
          rw [hm, MemOp.permits_modified] at hperm
          exact hperm rfl
        rw [hinfo, Option.map_some, hcs, hshared, if_pos rfl]
        apply (snoop_ready hK h hX ho h0 hb hy (.inl rfl)).mono (fun _ => id)
        intro s' h'
        obtain ⟨X', h₁, hX', hl, -, hgone⟩ := h'
        refine ⟨X', h₁, hX', fun y' hy' => ?_⟩
        rw [hl] at hy'
        rw [← Option.some.inj hy']
        exact ⟨Bool.eq_false_iff.mpr hperm, rfl, hgone rfl⟩
    apply hup.bind
    intro s₁ h'
    obtain ⟨X₁, h₁, hX₁, hmiss⟩ := h'
    apply (lastLevelMiss_coherent hK h₁ hX₁ (hK.node_next ho h0) hmiss).bind
    intro r h'
    obtain ⟨hhit, X₂, st, h₂, hX₂, hl, hst, hgone⟩ := h'
    unfold answerMiss
    rw [if_neg hhit]
    apply (retrieveCacheBlock_holds hK.stores h₂ hl _ _).bind
    intro r' h₃
    exact ⟨hhit, X₂, st, h₃.1, hX₂, hl, hgone _ (hK.first ho h0), hst, fun _ => hgone⟩

theorem copyDataFromNextLevel_first {o : CntlrId} (ho : K.Cntlr o) (h0 : o.level = 0) {op : MemOp}
    {st : CState} (h : s.Holds K X) (hr : Ready K m o op t st X) :
    Total (copyDataFromNextLevel K s o op (t * K.blocksize)) fun s' => ∃ X', s'.Holds K X' ∧
      Coherent K m X' ∧ X'.block (K.node o) t = some ⟨st, m t⟩ ∧
      (op ≠ .read → ∀ j ∈ K.prevCntlrs K.llc, j ≠ K.node o → X'.block j t = none) := by
  unfold copyDataFromNextLevel
  simp only [hK.node_next ho h0]
  rw [getCacheState_of_block h hr.last, require_true _ hr.permits]
  apply (retrieveCacheBlock_holds hK.stores h hr.last K.garbage false).bind
  intro r h'
  obtain ⟨h₁, hbuf⟩ := h'
  rw [getCacheState_of_block h₁ hr.last, info_of_absent h₁ hr.own]
  apply (insertCacheBlock_first hK ho h0 h₁ hr.coherent hr.own hr.last hbuf).mono (fun _ => id)
  intro s' h'
  obtain ⟨X', h₂, hX', hown, hother⟩ := h'
  refine ⟨X', h₂, hX', hown, fun hop j hj hne => ?_⟩
  rw [hother j hj hne]
  exact hr.taken hop j hj

end lines

end CacheCntlr
end Sniper
