import Sniper.Cache

namespace Sniper
open Outcome

namespace CacheSet

variable {σ : Type} {k : CacheParams σ} {S : CacheSet σ}

theorem findFrom_some {info : ℕ → CacheBlockInfo} {tag n w : ℕ}
    (h : findFrom info tag n = some w) : w < n ∧ (info w).tag = some tag := by
  induction n with
  | zero => cases h
  | succ n ih =>
    unfold findFrom at h
    split at h
    · cases h
      exact ⟨Nat.lt_succ_self _, ‹_›⟩
    · exact ⟨(ih h).1.trans n.lt_succ_self, (ih h).2⟩

theorem findFrom_none {info : ℕ → CacheBlockInfo} {tag n : ℕ}
    (h : findFrom info tag n = none) : ∀ w < n, (info w).tag ≠ some tag := by
  induction n with
  | zero => omega
  | succ n ih =>
    unfold findFrom at h
    split at h
    · cases h
    · intro w hw
      rcases Nat.lt_succ_iff_lt_or_eq.mp hw with hlt | rfl
      · exact ih h w hlt
      · assumption

/-- No tag is held by two ways of the set. -/
def UniqueTags (k : CacheParams σ) (info : ℕ → CacheBlockInfo) : Prop :=
  ∀ w < k.associativity, ∀ w' < k.associativity, ∀ t,
    (info w).tag = some t → (info w').tag = some t → w = w'

theorem find_lt {tag w : ℕ} (h : S.find k tag = some w) : w < k.associativity :=
  (findFrom_some h).1

theorem find_tag {tag w : ℕ} (h : S.find k tag = some w) :
    (S.m_cache_block_info_array w).tag = some tag := (findFrom_some h).2

theorem find_eq_some (hu : UniqueTags k S.m_cache_block_info_array) {tag w : ℕ}
    (hw : w < k.associativity) (ht : (S.m_cache_block_info_array w).tag = some tag) :
    S.find k tag = some w := by
  cases h : S.find k tag with
  | none => exact absurd ht (findFrom_none h w hw)
  | some w' => rw [hu w hw w' (find_lt h) tag ht (find_tag h)]

theorem find_eq_none {tag : ℕ} :
    S.find k tag = none ↔ ∀ w < k.associativity, (S.m_cache_block_info_array w).tag ≠ some tag := by
  constructor
  · exact findFrom_none
  · intro h
    cases hf : S.find k tag with
    | none => rfl
    | some w => exact absurd (find_tag hf) (h w (find_lt hf))

/-- `find` reads the tags only. -/
theorem find_congr {S' : CacheSet σ}
    (h : ∀ w, (S'.m_cache_block_info_array w).tag = (S.m_cache_block_info_array w).tag) (tag : ℕ) :
    S'.find k tag = S.find k tag := by
  unfold find
  generalize k.associativity = n
  induction n with
  | zero => rfl
  | succ n ih => simp only [findFrom, h, ih]

end CacheSet

namespace Cache

variable {σ : Type} (k : CacheParams σ) (C : Cache σ)

/-- The way that holds line number `t`. -/
def lineWay (t : ℕ) : Option ℕ := (C.m_sets (k.setIndex t)).find k t

/-- The coherence state of line `t`, INVALID when no way holds it. -/
def lineState (t : ℕ) : CState :=
  match C.lineWay k t with
  | some w => ((C.m_sets (k.setIndex t)).m_cache_block_info_array w).cstate
  | none => .invalid

/-- The byte stored for address `x`, 0 when no way holds its line. -/
def byteAt (x : ℕ) : Byte :=
  match C.lineWay k (x / k.blocksize) with
  | some w => (C.m_sets (k.setIndex (x / k.blocksize))).m_blocks (w * k.blocksize + x % k.blocksize)
  | none => 0

structure WellFormed : Prop where
  unique : ∀ i, CacheSet.UniqueTags k (C.m_sets i).m_cache_block_info_array
  home : ∀ i, ∀ w < k.associativity, ∀ t,
    ((C.m_sets i).m_cache_block_info_array w).tag = some t → k.setIndex t = i
  valid : ∀ i, ∀ w < k.associativity, ∀ t,
    ((C.m_sets i).m_cache_block_info_array w).tag = some t →
      ((C.m_sets i).m_cache_block_info_array w).cstate ≠ .invalid

variable {k C}

theorem lineState_of_way {t w : ℕ} (h : C.lineWay k t = some w) :
    C.lineState k t = ((C.m_sets (k.setIndex t)).m_cache_block_info_array w).cstate := by
  simp only [lineState, h]

theorem lineState_of_absent {t : ℕ} (h : C.lineWay k t = none) : C.lineState k t = .invalid := by
  simp only [lineState, h]

theorem lineState_eq_invalid (hC : C.WellFormed k) {t : ℕ} :
    C.lineState k t = .invalid ↔ C.lineWay k t = none := by
  constructor
  · intro h
    cases hw : C.lineWay k t with
    | none => rfl
    | some w =>
      rw [lineState_of_way hw] at h
      exact absurd h (hC.valid _ w (CacheSet.find_lt hw) t (CacheSet.find_tag hw))
  · exact lineState_of_absent

theorem lineState_ne_invalid (hC : C.WellFormed k) {t : ℕ} (h : C.lineState k t ≠ .invalid) :
    ∃ w, C.lineWay k t = some w :=
  Option.ne_none_iff_exists'.mp fun hn => h ((lineState_eq_invalid hC).mpr hn)

theorem lineWay_eq_some (hC : C.WellFormed k) {t w : ℕ} :
    C.lineWay k t = some w ↔ w < k.associativity ∧
      ((C.m_sets (k.setIndex t)).m_cache_block_info_array w).tag = some t :=
  ⟨fun h => ⟨CacheSet.find_lt h, CacheSet.find_tag h⟩,
    fun h => CacheSet.find_eq_some (hC.unique _) h.1 h.2⟩

theorem way_eq_lineWay (addr : ℕ) : C.way k addr = C.lineWay k (addr / k.blocksize) := rfl

/-- Replaces the block information of way `w` of set `i`. -/
def putWay (C : Cache σ) (i w : ℕ) (b : CacheBlockInfo) : Cache σ :=
  ⟨Function.update C.m_sets i ((C.m_sets i).setInfo w b)⟩

/-- A block may go into way `w` of set `i` when it is invalid, or it is in its own set and no other
way holds its tag. -/
def Fits (k : CacheParams σ) (C : Cache σ) (i w : ℕ) (b : CacheBlockInfo) : Prop :=
  ∀ t, b.tag = some t → k.setIndex t = i ∧ b.cstate ≠ .invalid ∧
    ∀ w', C.lineWay k t = some w' → w' = w

theorem putWay_info (C : Cache σ) (i w : ℕ) (b : CacheBlockInfo) (j v : ℕ) :
    ((C.putWay i w b).m_sets j).m_cache_block_info_array v =
      if j = i ∧ v = w then b else (C.m_sets j).m_cache_block_info_array v := by
  unfold putWay CacheSet.setInfo
  by_cases hj : j = i
  · subst hj
    by_cases hv : v = w <;> simp [hv]
  · simp [hj]

theorem putWay_blocks (C : Cache σ) (i w : ℕ) (b : CacheBlockInfo) (j : ℕ) :
    ((C.putWay i w b).m_sets j).m_blocks = (C.m_sets j).m_blocks := by
  unfold putWay CacheSet.setInfo
  by_cases hj : j = i
  · subst hj
    simp
  · simp [hj]

theorem WellFormed.putWay (hC : C.WellFormed k) {i w : ℕ} {b : CacheBlockInfo}
    (hb : Fits k C i w b) : (C.putWay i w b).WellFormed k := by
  have key : ∀ j, ∀ v < k.associativity, ∀ t,
      (((C.putWay i w b).m_sets j).m_cache_block_info_array v).tag = some t →
        k.setIndex t = j ∧
          (((C.putWay i w b).m_sets j).m_cache_block_info_array v).cstate ≠ .invalid := by
    intro j v hv t ht
    rw [putWay_info] at ht ⊢
    split at ht
    · rename_i h
      rw [if_pos h, h.1]
      exact ⟨(hb t ht).1, (hb t ht).2.1⟩
    · rename_i h
      rw [if_neg h]
      exact ⟨hC.home j v hv t ht, hC.valid j v hv t ht⟩
  refine ⟨?_, fun j v hv t ht => (key j v hv t ht).1, fun j v hv t ht => (key j v hv t ht).2⟩
  intro j v hv v' hv' t ht ht'
  have hj : k.setIndex t = j := (key j v hv t ht).1
  rw [putWay_info] at ht ht'
  -- the new block's tag is held by no way but `w`
  have only : b.tag = some t → ∀ u < k.associativity,
      ((C.m_sets j).m_cache_block_info_array u).tag = some t → u = w := fun hbt u hu hut =>
    (hb t hbt).2.2 u ((lineWay_eq_some hC).mpr ⟨hu, by rw [hj]; exact hut⟩)
  split at ht <;> split at ht'
  · omega
  · rename_i h h'
    exact absurd (only ht v' hv' ht') (by tauto)
  · rename_i h h'
    exact absurd (only ht' v hv ht) (by tauto)
  · exact hC.unique j v hv v' hv' t ht ht'

/-- Where each line is after one way has been replaced. -/
theorem lineWay_putWay (hC : C.WellFormed k) {i w : ℕ} {b : CacheBlockInfo}
    (hw : w < k.associativity)
    (hb : Fits k C i w b) (t : ℕ) :
    (C.putWay i w b).lineWay k t =
      if b.tag = some t then some w
      else if k.setIndex t = i ∧ C.lineWay k t = some w then none else C.lineWay k t := by
  have hC' := hC.putWay hb
  split
  · rename_i hbt
    rw [lineWay_eq_some hC', putWay_info, if_pos ⟨(hb t hbt).1, rfl⟩]
    exact ⟨hw, hbt⟩
  · rename_i hbt
    cases h : (C.putWay i w b).lineWay k t with
    | none =>
      split
      · rfl
      · rename_i hn
        cases hl : C.lineWay k t with
        | none => rfl
        | some v =>
          have hv := (lineWay_eq_some hC).mp hl
          refine absurd h ?_
          rw [(lineWay_eq_some hC').mpr ⟨hv.1, ?_⟩]
          · simp
          · rw [putWay_info, if_neg]
            · exact hv.2
            · intro h'
              obtain ⟨h1, rfl⟩ := h'
              exact hn ⟨h1, hl⟩
    | some v =>
      have hv := (lineWay_eq_some hC').mp h
      rw [putWay_info] at hv
      split at hv
      · exact absurd hv.2 hbt
      · rename_i hn
        have hl := (lineWay_eq_some hC).mpr hv
        rw [hl, if_neg]
        intro h'
        obtain ⟨h1, h2⟩ := h'
        exact hn ⟨h1, Option.some.inj h2⟩

theorem lineState_putWay (hC : C.WellFormed k) {i w : ℕ} {b : CacheBlockInfo}
    (hw : w < k.associativity) (hb : Fits k C i w b) (t : ℕ) :
    (C.putWay i w b).lineState k t =
      if b.tag = some t then b.cstate
      else if k.setIndex t = i ∧ C.lineWay k t = some w then .invalid else C.lineState k t := by
  have h := lineWay_putWay hC hw hb t
  split
  · rename_i hbt
    rw [if_pos hbt] at h
    rw [lineState_of_way h, putWay_info, if_pos ⟨(hb t hbt).1, rfl⟩]
  · rename_i hbt
    rw [if_neg hbt] at h
    split
    · rename_i hh
      rw [if_pos hh] at h
      exact lineState_of_absent h
    · rename_i hh
      rw [if_neg hh] at h
      cases hl : C.lineWay k t with
      | none => rw [lineState_of_absent (h.trans hl), lineState_of_absent hl]
      | some v =>
        rw [lineState_of_way (h.trans hl), lineState_of_way hl, putWay_info, if_neg]
        intro h'
        obtain ⟨h1, rfl⟩ := h'
        exact hh ⟨h1, hl⟩

/-- Two caches with the same tags and coherence states. -/
def SameInfo (C C' : Cache σ) : Prop :=
  ∀ i, (C'.m_sets i).m_cache_block_info_array = (C.m_sets i).m_cache_block_info_array

section congr

variable {C' : Cache σ} (h : SameInfo C C')
include h

theorem SameInfo.lineWay (t : ℕ) : C'.lineWay k t = C.lineWay k t :=
  CacheSet.find_congr (fun w => by rw [h]) t

theorem SameInfo.lineState (t : ℕ) : C'.lineState k t = C.lineState k t := by
  unfold Cache.lineState
  rw [h.lineWay, h]

theorem SameInfo.wellFormed (hC : C.WellFormed k) : C'.WellFormed k where
  unique i := by
    rw [h]
    exact hC.unique i
  home i w hw t := by
    rw [h]
    exact hC.home i w hw t
  valid i w hw t := by
    rw [h]
    exact hC.valid i w hw t

/-- Equal tags and equal stored bytes give equal contents. -/
theorem SameInfo.byteAt {x : ℕ}
    (hb : ∀ w, C.lineWay k (x / k.blocksize) = some w →
      (C'.m_sets (k.setIndex (x / k.blocksize))).m_blocks (w * k.blocksize + x % k.blocksize) =
        (C.m_sets (k.setIndex (x / k.blocksize))).m_blocks (w * k.blocksize + x % k.blocksize)) :
    C'.byteAt k x = C.byteAt k x := by
  unfold Cache.byteAt
  rw [h.lineWay]
  split
  · exact hb _ ‹_›
  · rfl

end congr

theorem byteAt_of_way {x w : ℕ} (h : C.lineWay k (x / k.blocksize) = some w) :
    C.byteAt k x =
      (C.m_sets (k.setIndex (x / k.blocksize))).m_blocks (w * k.blocksize + x % k.blocksize) := by
  simp only [byteAt, h]

theorem byteAt_of_absent {x : ℕ} (h : C.lineWay k (x / k.blocksize) = none) : C.byteAt k x = 0 := by
  simp only [byteAt, h]

/-- Two caches with the same tags, coherence states and stored bytes: only what the replacement
policy remembers may differ. -/
structure SameLines (C C' : Cache σ) : Prop where
  info : SameInfo C C'
  blocks : ∀ i, (C'.m_sets i).m_blocks = (C.m_sets i).m_blocks

@[refl] theorem SameLines.refl (C : Cache σ) : SameLines C C := ⟨fun _ => rfl, fun _ => rfl⟩

theorem SameLines.byteAt {C' : Cache σ} (h : SameLines C C') (x : ℕ) :
    C'.byteAt k x = C.byteAt k x :=
  h.info.byteAt fun _ _ => congrFun (h.blocks _) _

theorem sameInfo_putSet {addr : ℕ} {S : CacheSet σ}
    (hi : S.m_cache_block_info_array = (C.setOf k addr).m_cache_block_info_array) :
    SameInfo C (C.putSet k addr S) := by
  intro i
  by_cases h : i = k.setIndex (tagOf k addr)
  · subst h
    simpa [putSet, setOf] using hi
  · simp [putSet, h]

theorem sameLines_putSet {addr : ℕ} {S : CacheSet σ}
    (hi : S.m_cache_block_info_array = (C.setOf k addr).m_cache_block_info_array)
    (hb : S.m_blocks = (C.setOf k addr).m_blocks) : SameLines C (C.putSet k addr S) := by
  refine ⟨sameInfo_putSet hi, fun i => ?_⟩
  by_cases h : i = k.setIndex (tagOf k addr)
  · subst h
    simpa [putSet, setOf] using hb
  · simp [putSet, h]

theorem putSet_setInfo (C : Cache σ) (addr w : ℕ) (b : CacheBlockInfo) :
    C.putSet k addr ((C.setOf k addr).setInfo w b) = C.putWay (k.setIndex (tagOf k addr)) w b := rfl

theorem CacheSet.touch_info (S : CacheSet σ) (w : ℕ) (u : Bool) :
    (S.touch k w u).m_cache_block_info_array = S.m_cache_block_info_array := by
  unfold CacheSet.touch
  split <;> rfl

theorem CacheSet.touch_blocks (S : CacheSet σ) (w : ℕ) (u : Bool) :
    (S.touch k w u).m_blocks = S.m_blocks := by
  unfold CacheSet.touch
  split <;> rfl

/-- The injector that does nothing leaves the set as it is. -/
theorem inject_none {ε : Type} (S : CacheSet σ) (e : ε) (addr bytes ptr : ℕ) :
    inject k (FaultInjector.none ε).preRead S e addr bytes ptr = (S, e) := by
  unfold inject FaultInjector.none
  simp only [Buffer.copy_self]
  split <;> rfl

theorem setCState_of_way {addr w : ℕ} (h : C.lineWay k (addr / k.blocksize) = some w)
    (st : CState) :
    C.setCState k addr st =
      C.putWay (k.setIndex (addr / k.blocksize)) w ⟨some (addr / k.blocksize), st⟩ := by
  have hway : C.way k addr = some w := h
  simp only [setCState, hway]
  rw [putSet_setInfo]
  congr 1
  rw [CacheBlockInfo.mk.injEq]
  exact ⟨CacheSet.find_tag h, rfl⟩

theorem setCState_of_absent {addr : ℕ} (h : C.lineWay k (addr / k.blocksize) = none) (st : CState) :
    C.setCState k addr st = C := by
  have hway : C.way k addr = none := h
  simp only [setCState, hway]

theorem putWay_blocks_eq (C : Cache σ) (i w : ℕ) (b : CacheBlockInfo) (x : ℕ)
    (h : (C.putWay i w b).lineWay k (x / k.blocksize) = C.lineWay k (x / k.blocksize)) :
    (C.putWay i w b).byteAt k x = C.byteAt k x := by
  unfold byteAt
  simp only [h, putWay_blocks]

theorem fits_here {t w : ℕ} (h : C.lineWay k t = some w) {st : CState} (hst : st ≠ .invalid) :
    Fits k C (k.setIndex t) w ⟨some t, st⟩ := by
  intro t' ht'
  cases ht'
  exact ⟨rfl, hst, fun w' hw' => Option.some.inj (hw'.symm.trans h)⟩

/-- A way holds one line. -/
theorem lineWay_inj {t t' w : ℕ} (h : C.lineWay k t = some w) (h' : C.lineWay k t' = some w)
    (hi : k.setIndex t = k.setIndex t') : t = t' := by
  have h1 := CacheSet.find_tag h
  have h2 := CacheSet.find_tag h'
  rw [hi] at h1
  exact Option.some.inj (h1.symm.trans h2)

theorem fits_create (i w : ℕ) : Fits k C i w .create := by
  intro t ht
  cases ht

theorem invalidate_of_way {addr w : ℕ} (h : C.lineWay k (addr / k.blocksize) = some w) :
    C.invalidateSingleLine k addr = C.putWay (k.setIndex (addr / k.blocksize)) w .create := by
  have hf : (C.setOf k addr).find k (tagOf k addr) = some w := h
  simp only [invalidateSingleLine, CacheSet.invalidate, hf]
  rfl

theorem invalidate_of_absent {addr : ℕ} (h : C.lineWay k (addr / k.blocksize) = none) :
    C.invalidateSingleLine k addr = C := by
  have hf : (C.setOf k addr).find k (tagOf k addr) = none := h
  simp only [invalidateSingleLine, CacheSet.invalidate, hf]
  simp [putSet, setOf]

section effects

variable (hC : C.WellFormed k)
include hC

theorem lineWay_restate {t w : ℕ} (h : C.lineWay k t = some w) {st : CState} (hst : st ≠ .invalid)
    (t' : ℕ) : (C.putWay (k.setIndex t) w ⟨some t, st⟩).lineWay k t' = C.lineWay k t' := by
  rw [lineWay_putWay hC (CacheSet.find_lt h) (fits_here h hst)]
  split
  · rename_i ht
    cases ht
    exact h.symm
  · rename_i ht
    rw [if_neg]
    intro h'
    obtain ⟨h1, h2⟩ := h'
    exact ht (congrArg some (lineWay_inj h h2 h1.symm))

theorem WellFormed.setCState {addr : ℕ} {st : CState} (hst : st ≠ .invalid) :
    (C.setCState k addr st).WellFormed k := by
  cases h : C.lineWay k (addr / k.blocksize) with
  | none =>
    rw [setCState_of_absent h]
    exact hC
  | some w =>
    rw [setCState_of_way h]
    exact hC.putWay (fits_here h hst)

theorem lineState_setCState {addr : ℕ} {st : CState} (hst : st ≠ .invalid)
    (hp : C.lineState k (addr / k.blocksize) ≠ .invalid) (t : ℕ) :
    (C.setCState k addr st).lineState k t =
      if t = addr / k.blocksize then st else C.lineState k t := by
  obtain ⟨w, hw⟩ := lineState_ne_invalid hC hp
  rw [setCState_of_way hw, lineState_putWay hC (CacheSet.find_lt hw) (fits_here hw hst)]
  by_cases ht : t = addr / k.blocksize
  · subst ht
    rw [if_pos rfl, if_pos rfl]
  · rw [if_neg (fun h => ht (Option.some.inj h).symm), if_neg ht, if_neg]
    intro h'
    obtain ⟨h1, h2⟩ := h'
    exact ht (lineWay_inj h2 hw h1)

theorem byteAt_setCState {addr : ℕ} {st : CState} (hst : st ≠ .invalid) (x : ℕ) :
    (C.setCState k addr st).byteAt k x = C.byteAt k x := by
  cases h : C.lineWay k (addr / k.blocksize) with
  | none => rw [setCState_of_absent h]
  | some w =>
    rw [setCState_of_way h]
    exact putWay_blocks_eq _ _ _ _ _ (lineWay_restate hC h hst _)

theorem WellFormed.invalidateSingleLine (addr : ℕ) :
    (C.invalidateSingleLine k addr).WellFormed k := by
  cases h : C.lineWay k (addr / k.blocksize) with
  | none =>
    rw [invalidate_of_absent h]
    exact hC
  | some w =>
    rw [invalidate_of_way h]
    exact hC.putWay (fits_create _ _)

theorem lineWay_invalidate (addr t : ℕ) :
    (C.invalidateSingleLine k addr).lineWay k t =
      if t = addr / k.blocksize then none else C.lineWay k t := by
  cases h : C.lineWay k (addr / k.blocksize) with
  | none =>
    rw [invalidate_of_absent h]
    split
    · subst t
      exact h
    · rfl
  | some w =>
    rw [invalidate_of_way h, lineWay_putWay hC (CacheSet.find_lt h) (fits_create _ _),
      if_neg (by simp [CacheBlockInfo.create])]
    by_cases ht : t = addr / k.blocksize
    · subst ht
      rw [if_pos ⟨rfl, h⟩, if_pos rfl]
    · rw [if_neg ht, if_neg]
      intro h'
      obtain ⟨h1, h2⟩ := h'
      exact ht (lineWay_inj h2 h h1)

theorem lineState_invalidate (addr t : ℕ) :
    (C.invalidateSingleLine k addr).lineState k t =
      if t = addr / k.blocksize then .invalid else C.lineState k t := by
  have h := lineWay_invalidate hC addr t
  split
  · rename_i ht
    rw [if_pos ht] at h
    exact lineState_of_absent h
  · rename_i ht
    rw [if_neg ht] at h
    cases hw : C.lineWay k (addr / k.blocksize) with
    | none => rw [invalidate_of_absent hw]
    | some w =>
      rw [invalidate_of_way hw, lineState_putWay hC (CacheSet.find_lt hw) (fits_create _ _),
        if_neg (by simp [CacheBlockInfo.create]), if_neg]
      intro h'
      obtain ⟨h1, h2⟩ := h'
      exact ht (lineWay_inj h2 hw h1)

theorem byteAt_invalidate (addr : ℕ) {x : ℕ} (hx : x / k.blocksize ≠ addr / k.blocksize) :
    (C.invalidateSingleLine k addr).byteAt k x = C.byteAt k x := by
  have h := lineWay_invalidate hC addr (x / k.blocksize)
  rw [if_neg hx] at h
  cases hw : C.lineWay k (addr / k.blocksize) with
  | none => rw [invalidate_of_absent hw]
  | some w =>
    rw [invalidate_of_way hw] at h ⊢
    exact putWay_blocks_eq _ _ _ _ _ h

end effects

end Cache
end Sniper
