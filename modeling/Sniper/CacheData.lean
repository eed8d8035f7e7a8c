import Sniper.CacheLines

namespace Sniper
open Outcome

/-- `insert` replaces one way, which the replacement policy chooses. -/
theorem CacheSet.insert_eq {σ : Type} (k : CacheParams σ) (S : CacheSet σ) (b : CacheBlockInfo)
    (fill_buff : Option (ℕ → Byte)) (evict_buff : ℕ → Byte) (approx : Bool) :
    ∃ w < k.associativity, ∃ policy, S.insert k b fill_buff evict_buff approx =
      ({ S.setInfo w b with
          m_blocks := match fill_buff with
            | some buf => if k.stores then
                Buffer.copy S.m_blocks (w * k.blocksize) buf 0 k.blocksize
              else S.m_blocks
            | none => S.m_blocks
          m_policy := policy },
        if (S.m_cache_block_info_array w).isValid then
          some ⟨S.m_cache_block_info_array w, if k.stores then
            Buffer.copy evict_buff 0 S.m_blocks (w * k.blocksize) k.blocksize else evict_buff⟩
        else none) :=
  ⟨_, Fin.isLt _, _, rfl⟩

namespace Cache

variable {σ : Type} {k : CacheParams σ} {C : Cache σ}

section access

variable {addr w n : ℕ}

/-- The bytes from `addr` on, in the block of way `w`. -/
abbrev dataPtr (k : CacheParams σ) (addr w : ℕ) : ℕ := w * k.blocksize + addr % k.blocksize

theorem accessSingleLine_load (hs : C.lineWay k (addr / k.blocksize) = some w)
    (hn : addr % k.blocksize + n ≤ k.blocksize) (buff : Option (ℕ → Byte)) (u : Bool) :
    C.accessSingleLine .quiet k () addr .load buff n u = .ok
      ⟨C.putSet k addr ((C.setOf k addr).touch k w u), (),
        if k.stores then
          buff.map fun out => Buffer.copy out 0 (C.setOf k addr).m_blocks (dataPtr k addr w) n
        else buff,
        some ((C.setOf k addr).m_cache_block_info_array w)⟩ := by
  have hway : C.way k addr = some w := hs
  have hn' : blockOffset k addr + n ≤ k.blocksize := hn
  simp only [accessSingleLine, hway, Probe.quiet, inject_none, CacheSet.readLine,
    require_true _ hn']
  rfl

theorem accessSingleLine_store (hs : C.lineWay k (addr / k.blocksize) = some w)
    (hn : addr % k.blocksize + n ≤ k.blocksize) (buff : Option (ℕ → Byte)) (u : Bool) :
    C.accessSingleLine .quiet k () addr .store buff n u = .ok
      ⟨C.putSet k addr ({ C.setOf k addr with
          m_blocks := match buff with
            | some buf => if k.stores then
                Buffer.copy (C.setOf k addr).m_blocks (dataPtr k addr w) buf 0 n
              else (C.setOf k addr).m_blocks
            | none => (C.setOf k addr).m_blocks }.touch k w u), (), buff,
        some ((C.setOf k addr).m_cache_block_info_array w)⟩ := by
  have hway : C.way k addr = some w := hs
  have hn' : blockOffset k addr + n ≤ k.blocksize := hn
  have hpost : ∀ S : CacheSet σ, inject k Probe.quiet.injector.postWrite S () addr n
      (CacheSet.getDataPtr k w (blockOffset k addr)) = (S, ()) := fun S => inject_none S _ _ _ _
  simp only [accessSingleLine, hway, CacheSet.writeLine, require_true _ hn', ok_bind, pure,
    Except.pure, Probe.quiet, FaultInjector.none] at hpost ⊢
  rw [hpost]
  rfl

theorem accessSingleLine_miss (hs : C.lineWay k (addr / k.blocksize) = none) (t : AccessType)
    (buff : Option (ℕ → Byte)) (u : Bool) :
    C.accessSingleLine .quiet k () addr t buff n u = .ok ⟨C, (), buff, none⟩ := by
  have hway : C.way k addr = none := hs
  simp only [accessSingleLine, hway]
  rfl

theorem accessSingleLine_overrun (hs : C.lineWay k (addr / k.blocksize) = some w)
    (hn : ¬addr % k.blocksize + n ≤ k.blocksize) (t : AccessType) (buff : Option (ℕ → Byte))
    (u : Bool) : C.accessSingleLine .quiet k () addr t buff n u = .error .lineOverrun := by
  have hway : C.way k addr = some w := hs
  have hn' : require (blockOffset k addr + n ≤ k.blocksize) Abort.lineOverrun =
      .error .lineOverrun := if_neg hn
  cases t <;> simp only [accessSingleLine, hway, CacheSet.readLine, CacheSet.writeLine, hn',
    error_bind]

/-- An access of either kind changes no tag and no coherence state. -/
theorem accessSingleLine_info (t : AccessType) (buff : Option (ℕ → Byte)) (u : Bool) :
    Sat (fun e => e = .lineOverrun ∧ ¬addr % k.blocksize + n ≤ k.blocksize)
      (C.accessSingleLine .quiet k () addr t buff n u) fun r =>
      SameInfo C r.cache ∧ r.info = C.peekSingleLine k addr := by
  cases hs : C.lineWay k (addr / k.blocksize) with
  | none =>
    have hway : C.way k addr = none := hs
    rw [accessSingleLine_miss hs]
    simp only [sat_ok, peekSingleLine, hway]
    exact ⟨fun _ => rfl, rfl⟩
  | some w =>
    have hway : C.way k addr = some w := hs
    by_cases hn : addr % k.blocksize + n ≤ k.blocksize
    · cases t with
      | load =>
        rw [accessSingleLine_load hs hn]
        simp only [sat_ok, peekSingleLine, hway]
        exact ⟨sameInfo_putSet (CacheSet.touch_info _ _ _), rfl⟩
      | store =>
        rw [accessSingleLine_store hs hn]
        simp only [sat_ok, peekSingleLine, hway]
        exact ⟨sameInfo_putSet (CacheSet.touch_info _ _ _), rfl⟩
    · rw [accessSingleLine_overrun hs hn]
      exact ⟨rfl, hn⟩

/-- A read of a present line fills the buffer and changes no line. -/
theorem access_load (hs : C.lineWay k (addr / k.blocksize) = some w)
    (hn : addr % k.blocksize + n ≤ k.blocksize) (buff : Option (ℕ → Byte)) (u : Bool) :
    ∃ r, C.accessSingleLine .quiet k () addr .load buff n u = .ok r ∧ SameLines C r.cache ∧
      r.info.map CacheBlockInfo.cstate = some (C.lineState k (addr / k.blocksize)) ∧
      (k.stores = true → ∀ out, buff = some out → ∃ buf, r.buff = some buf ∧
        ∀ i, buf i = if i < n then C.byteAt k (addr + i) else out i) := by
  refine ⟨_, accessSingleLine_load hs hn buff u, ?_, ?_, ?_⟩
  · exact sameLines_putSet (CacheSet.touch_info _ _ _) (CacheSet.touch_blocks _ _ _)
  · rw [lineState_of_way hs]
    rfl
  · rintro hst out rfl
    refine ⟨_, by rw [if_pos hst]; rfl, fun i => ?_⟩
    change Buffer.copy out 0 _ _ n i = _
    split
    · rename_i hi
      have hline : (addr + i) / k.blocksize = addr / k.blocksize := by
        rw [Nat.add_div k.blocksize_pos, Nat.div_eq_of_lt (by omega : i < k.blocksize),
          Nat.mod_eq_of_lt (by omega : i < k.blocksize), if_neg (by omega)]
        rfl
      have hoff : (addr + i) % k.blocksize = addr % k.blocksize + i := by
        rw [Nat.add_mod, Nat.mod_eq_of_lt (by omega : i < k.blocksize), Nat.mod_eq_of_lt (by omega)]
      rw [byteAt_of_way (by rw [hline]; exact hs), hline, hoff,
        Buffer.copy_in (by omega) (by omega)]
      simp only [dataPtr, Nat.sub_zero, Nat.add_assoc]
      rfl
    · exact Buffer.copy_out (by omega)

/-- A cell of the block of way `v` is among the `n` cells from cell `a` of way `w` on. -/
theorem mem_dataPtr {bs v w a b n : ℕ} (ha : a + n ≤ bs) (hb : b < bs) :
    (w * bs + a ≤ v * bs + b ∧ v * bs + b < w * bs + a + n) ↔ v = w ∧ a ≤ b ∧ b < a + n := by
  constructor
  · intro h'
    obtain ⟨h1, h2⟩ := h'
    have hv : v = w := by
      rcases lt_trichotomy v w with h | h | h
      · have := Nat.mul_le_mul_right bs (Nat.succ_le_of_lt h)
        rw [Nat.succ_mul] at this
        omega
      · exact h
      · have := Nat.mul_le_mul_right bs (Nat.succ_le_of_lt h)
        rw [Nat.succ_mul] at this
        omega
    subst hv
    omega
  · intro h'
    obtain ⟨rfl, h1, h2⟩ := h'
    omega

/-- An address lies among the `n` bytes from `addr` on when it is in the same line at the offset. -/
theorem mem_bytes {bs addr x n : ℕ} (hbs : 0 < bs) (hn : addr % bs + n ≤ bs) :
    (addr ≤ x ∧ x < addr + n) ↔
      x / bs = addr / bs ∧ addr % bs ≤ x % bs ∧ x % bs < addr % bs + n := by
  have := mem_dataPtr (v := x / bs) (w := addr / bs) hn (Nat.mod_lt x hbs)
  rwa [Nat.div_add_mod', Nat.div_add_mod'] at this

/-- A write to a present line changes the bytes written and nothing else. -/
theorem access_store (hs : C.lineWay k (addr / k.blocksize) = some w)
    (hn : addr % k.blocksize + n ≤ k.blocksize) (buff : Option (ℕ → Byte)) (u : Bool) :
    ∃ r, C.accessSingleLine .quiet k () addr .store buff n u = .ok r ∧ SameInfo C r.cache ∧
      r.buff = buff ∧ r.info.map CacheBlockInfo.cstate = some (C.lineState k (addr / k.blocksize)) ∧
      ∀ x, r.cache.byteAt k x = match buff with
        | some buf => if k.stores ∧ addr ≤ x ∧ x < addr + n then buf (x - addr) else C.byteAt k x
        | none => C.byteAt k x := by
  refine ⟨_, accessSingleLine_store hs hn buff u, ?_, rfl, ?_, ?_⟩
  · exact sameInfo_putSet (CacheSet.touch_info _ _ _)
  · rw [lineState_of_way hs]
    rfl
  · intro x
    have hinfo : SameInfo C (C.putSet k addr ({ C.setOf k addr with
          m_blocks := match buff with
            | some buf => if k.stores then
                Buffer.copy (C.setOf k addr).m_blocks (dataPtr k addr w) buf 0 n
              else (C.setOf k addr).m_blocks
            | none => (C.setOf k addr).m_blocks }.touch k w u)) :=
      sameInfo_putSet (CacheSet.touch_info _ _ _)
    cases hv : C.lineWay k (x / k.blocksize) with
    | none =>
      rw [byteAt_of_absent ((hinfo.lineWay _).trans hv), byteAt_of_absent hv]
      have hx : x / k.blocksize ≠ addr / k.blocksize := by
        intro h
        rw [h, hs] at hv
        cases hv
      split
      · rw [if_neg]
        intro h'
        obtain ⟨-, hb⟩ := h'
        exact hx ((mem_bytes k.blocksize_pos hn).mp hb).1
      · rfl
    | some v =>
      rw [byteAt_of_way ((hinfo.lineWay _).trans hv), byteAt_of_way hv]
      -- byte `x` is in the set of the store or in another
      by_cases hi : k.setIndex (x / k.blocksize) = k.setIndex (tagOf k addr)
      · rw [hi]
        simp only [putSet, Function.update_self, CacheSet.touch_blocks]
        split
        · rename_i buf
          by_cases hst : k.stores = true
          · simp only [hst, if_true, true_and]
            have hmem := mem_dataPtr (v := v) (w := w) hn (Nat.mod_lt x k.blocksize_pos)
            -- in the way that is written the offset decides; the other ways keep their bytes
            by_cases hx : addr ≤ x ∧ x < addr + n
            · have hx' := (mem_bytes k.blocksize_pos hn).mp hx
              have hvw : v = w := by
                rw [hx'.1, hs] at hv
                exact (Option.some.inj hv).symm
              have hx'' := hmem.mpr ⟨hvw, hx'.2⟩
              rw [if_pos hx, Buffer.copy_in hx''.1 hx''.2]
              have h1 := Nat.div_add_mod' x k.blocksize
              have h2 := Nat.div_add_mod' addr k.blocksize
              rw [hx'.1] at h1
              subst hvw
              exact congrArg buf (by omega)
            · rw [if_neg hx, Buffer.copy_out]
              · rfl
              · by_contra hc
                simp only [dataPtr, not_or, not_lt, not_le] at hc
                have hc' := hmem.mp hc
                have hline : x / k.blocksize = addr / k.blocksize :=
                  lineWay_inj hv (hc'.1 ▸ hs) hi
                exact hx ((mem_bytes k.blocksize_pos hn).mpr ⟨hline, hc'.2⟩)
          · simp [hst, setOf]
        · rfl
      · have hx : ¬(addr ≤ x ∧ x < addr + n) := by
          intro hx
          exact hi (congrArg k.setIndex ((mem_bytes k.blocksize_pos hn).mp hx).1)
        simp only [putSet, Function.update_of_ne hi]
        split
        · rw [if_neg (fun h => hx h.2)]
        · rfl

end access

section fill

variable {addr : ℕ}

/-- The replaced block, as `insertSingleLine` hands it out with its address. -/
def victimOf (k : CacheParams σ) (C : Cache σ) (i w : ℕ) (evict_buf : ℕ → Byte) :
    Option (ℕ × CacheSet.Evicted) :=
  ((C.m_sets i).m_cache_block_info_array w).tag.map fun t =>
    (t * k.blocksize, ⟨(C.m_sets i).m_cache_block_info_array w,
      if k.stores then Buffer.copy evict_buf 0 (C.m_sets i).m_blocks (w * k.blocksize) k.blocksize
      else evict_buf⟩)

theorem evicted_eq (b : CacheBlockInfo) (buf : ℕ → Byte) :
    (if b.isValid then some (⟨b, buf⟩ : CacheSet.Evicted) else none).map
      (fun v => (tagToAddress k (v.info.tag.getD 0), v)) =
      b.tag.map fun t => (t * k.blocksize, ⟨b, buf⟩) := by
  obtain ⟨_ | t, st⟩ := b <;> rfl

theorem insertSingleLine_quiet (data_buf : Option (ℕ → Byte)) (evict_buf : ℕ → Byte) :
    ∃ w < k.associativity, ∃ policy,
      C.insertSingleLine .quiet k () addr data_buf evict_buf =
        ⟨C.putSet k addr { (C.setOf k addr).setInfo w ⟨some (tagOf k addr), .invalid⟩ with
          m_blocks := match data_buf with
            | some buf => if k.stores then
                Buffer.copy (C.setOf k addr).m_blocks (w * k.blocksize) buf 0 k.blocksize
              else (C.setOf k addr).m_blocks
            | none => (C.setOf k addr).m_blocks
          m_policy := policy }, (), victimOf k C (k.setIndex (tagOf k addr)) w evict_buf⟩ := by
  have hpost : ∀ (S : CacheSet σ) n ptr, inject k Probe.quiet.injector.postWrite S () addr n ptr =
      (S, ()) := fun S _ _ => inject_none S _ _ _ _
  obtain ⟨w, hw, policy, h⟩ := CacheSet.insert_eq k (C.setOf k addr) ⟨some (tagOf k addr), .invalid⟩
    data_buf evict_buf (Probe.quiet.isBlockApprox () (tagToAddress k (tagOf k addr)))
  refine ⟨w, hw, policy, ?_⟩
  simp only [insertSingleLine, h, hpost]
  congr 1
  · split <;> rfl
  · exact evicted_eq _ _

/-- The cache once a line has been inserted: its block is in way `w`, and holds the fill data. -/
structure Filled (k : CacheParams σ) (C : Cache σ) (addr w : ℕ) (st : CState)
    (data_buf : Option (ℕ → Byte)) (C' : Cache σ) : Prop where
  info : SameInfo (C.putWay (k.setIndex (tagOf k addr)) w ⟨some (tagOf k addr), st⟩) C'
  blocks : ∀ i, (C'.m_sets i).m_blocks = match data_buf with
    | some buf => if k.stores ∧ i = k.setIndex (tagOf k addr) then
        Buffer.copy (C.m_sets i).m_blocks (w * k.blocksize) buf 0 k.blocksize
      else (C.m_sets i).m_blocks
    | none => (C.m_sets i).m_blocks

theorem fits_absent {t : ℕ} (habs : C.lineWay k t = none) {st : CState} (hst : st ≠ .invalid)
    (w : ℕ) : Fits k C (k.setIndex t) w ⟨some t, st⟩ := by
  intro t' ht'
  cases ht'
  refine ⟨rfl, hst, fun w' hw' => ?_⟩
  rw [habs] at hw'
  cases hw'

/-- `insertSingleLine` followed by `setCState`, as `insertCacheBlock` calls them. -/
theorem insertSingleLine_filled (hC : C.WellFormed k) (habs : C.lineWay k (tagOf k addr) = none)
    {st : CState} (hst : st ≠ .invalid) (data_buf : Option (ℕ → Byte)) (evict_buf : ℕ → Byte) :
    ∃ w < k.associativity,
      (C.insertSingleLine .quiet k () addr data_buf evict_buf).evicted =
        victimOf k C (k.setIndex (tagOf k addr)) w evict_buf ∧
      Filled k C addr w st data_buf
        ((C.insertSingleLine .quiet k () addr data_buf evict_buf).cache.setCState k addr st) := by
  obtain ⟨w, hw, policy, h⟩ := insertSingleLine_quiet (k := k) (C := C) data_buf evict_buf
  rw [h]
  refine ⟨w, hw, rfl, ?_⟩
  generalize hD : C.putSet k addr _ = D
  have hinfo : SameInfo (C.putWay (k.setIndex (tagOf k addr)) w
    ⟨some (tagOf k addr), .invalid⟩) D := by
    intro i
    subst hD
    by_cases hi : i = k.setIndex (tagOf k addr)
    · subst hi
      simp [putSet, putWay, setOf]
    · simp [putSet, putWay, hi]
  have hway : D.lineWay k (tagOf k addr) = some w := by
    have hwf := hC.putWay (fits_absent habs hst w)
    rw [← (lineWay_eq_some hwf (t := tagOf k addr) (w := w)).mpr ⟨hw, by simp [putWay_info]⟩]
    apply CacheSet.find_congr
    intro v
    rw [hinfo, putWay_info, putWay_info]
    split <;> rfl
  rw [setCState_of_way hway]
  constructor
  · intro i
    funext v
    rw [putWay_info, putWay_info, hinfo, putWay_info]
    change (if i = k.setIndex (tagOf k addr) ∧ v = w then _ else _) = _
    split <;> rfl
  · intro i
    rw [putWay_blocks]
    subst hD
    by_cases hi : i = k.setIndex (tagOf k addr)
    · subst hi
      simp only [putSet, Function.update_self, setOf, and_true]
    · simp only [putSet, Function.update_of_ne hi, hi, and_false, if_false]
      split <;> rfl

/-- What inserting the line of `addr` in state `st` does to the contents of the cache. -/
structure FillSpec (k : CacheParams σ) (C : Cache σ) (t : ℕ) (st : CState)
    (data_buf : Option (ℕ → Byte)) (C' : Cache σ) (evicted : Option (ℕ × CacheSet.Evicted)) :
    Prop where
  wellFormed : C'.WellFormed k
  state : ∀ t', C'.lineState k t' = if t' = t then st
    else if evicted.map Prod.fst = some (t' * k.blocksize) then .invalid else C.lineState k t'
  byte : k.stores = true → ∀ buf, data_buf = some buf → ∀ x, C'.byteAt k x =
    if x / k.blocksize = t then buf (x % k.blocksize)
    else if evicted.map Prod.fst = some (x / k.blocksize * k.blocksize) then 0 else C.byteAt k x
  victim : ∀ v, evicted = some v → v.1 % k.blocksize = 0 ∧ v.1 / k.blocksize ≠ t ∧
    v.2.info.cstate = C.lineState k (v.1 / k.blocksize) ∧
    C.lineState k (v.1 / k.blocksize) ≠ .invalid ∧
    (k.stores = true → ∀ i < k.blocksize, v.2.buf i = C.byteAt k (v.1 + i))

theorem victimOf_fst {i w : ℕ} (evict_buf : ℕ → Byte) (t : ℕ) :
    (victimOf k C i w evict_buf).map Prod.fst = some (t * k.blocksize) ↔
      ((C.m_sets i).m_cache_block_info_array w).tag = some t := by
  unfold victimOf
  cases h : ((C.m_sets i).m_cache_block_info_array w).tag with
  | none => simp
  | some t' =>
    simp only [Option.map_some, Option.some.injEq]
    exact ⟨Nat.eq_of_mul_eq_mul_right k.blocksize_pos, fun h => by rw [h]⟩

theorem tag_eq_some (hC : C.WellFormed k) {i w t : ℕ} (hw : w < k.associativity) :
    ((C.m_sets i).m_cache_block_info_array w).tag = some t ↔
      k.setIndex t = i ∧ C.lineWay k t = some w := by
  constructor
  · intro h
    have hi := hC.home i w hw t h
    exact ⟨hi, (lineWay_eq_some hC).mpr ⟨hw, by rwa [hi]⟩⟩
  · intro h'
    obtain ⟨rfl, h⟩ := h'
    exact ((lineWay_eq_some hC).mp h).2

theorem fillSpec (hC : C.WellFormed k) (habs : C.lineWay k (tagOf k addr) = none)
    {st : CState} (hst : st ≠ .invalid) (data_buf : Option (ℕ → Byte)) (evict_buf : ℕ → Byte) :
    FillSpec k C (tagOf k addr) st data_buf
      ((C.insertSingleLine .quiet k () addr data_buf evict_buf).cache.setCState k addr st)
      (C.insertSingleLine .quiet k () addr data_buf evict_buf).evicted := by
  obtain ⟨w, hw, hev, hinfo, hblocks⟩ := insertSingleLine_filled hC habs hst data_buf evict_buf
  rw [hev]
  generalize (C.insertSingleLine .quiet k () addr data_buf evict_buf).cache.setCState k addr st = C'
    at hinfo hblocks
  have hb := fits_absent habs hst w
  have hcond : ∀ t', (victimOf k C (k.setIndex (tagOf k addr)) w evict_buf).map Prod.fst =
      some (t' * k.blocksize) ↔ k.setIndex t' = k.setIndex (tagOf k addr) ∧
        C.lineWay k t' = some w :=
    fun t' => (victimOf_fst evict_buf t').trans (tag_eq_some hC hw)
  have hway := fun t' => (hinfo.lineWay (k := k) t').trans (lineWay_putWay hC hw hb t')
  refine ⟨hinfo.wellFormed (hC.putWay hb), fun t' => ?_, ?_, ?_⟩
  · rw [hinfo.lineState, lineState_putWay hC hw hb]
    simp only [hcond, Option.some.injEq, eq_comm (a := tagOf k addr)]
  -- the bytes of the new line, of the victim, and of the lines that stay
  · rintro hs buf rfl x
    have hwx := hway (x / k.blocksize)
    simp only [Option.some.injEq, eq_comm (a := tagOf k addr)] at hwx
    simp only [hcond]
    split
    · rename_i hx
      rw [if_pos hx] at hwx
      rw [byteAt_of_way hwx, hblocks]
      simp only [hx, hs, true_and, if_true]
      exact Buffer.copy_add (Nat.mod_lt x k.blocksize_pos) |>.trans (by rw [Nat.zero_add])
    · rename_i hx
      rw [if_neg hx] at hwx
      split
      · rename_i hv
        rw [if_pos hv] at hwx
        exact byteAt_of_absent hwx
      · rename_i hv
        rw [if_neg hv] at hwx
        cases hc : C.lineWay k (x / k.blocksize) with
        | none => rw [byteAt_of_absent (hwx.trans hc), byteAt_of_absent hc]
        | some v =>
          rw [byteAt_of_way (hwx.trans hc), byteAt_of_way hc, hblocks]
          simp only
          split
          · rename_i hi
            refine Buffer.copy_out ?_
            have hvw : v ≠ w := by
              rintro rfl
              exact hv ⟨hi.2, hc⟩
            have := mem_dataPtr (v := v) (w := w) (a := 0) (n := k.blocksize)
              (by omega) (Nat.mod_lt x k.blocksize_pos)
            by_contra hcon
            exact hvw (this.mp (by omega)).1
          · rfl
  -- what is known of the victim
  · intro v hv
    unfold victimOf at hv
    obtain ⟨t', ht', rfl⟩ := Option.map_eq_some_iff.mp hv
    have hpos := (tag_eq_some hC hw).mp ht'
    simp only [Nat.mul_mod_left, Nat.mul_div_cancel _ k.blocksize_pos]
    refine ⟨trivial, ?_, ?_, ?_, ?_⟩
    · rintro rfl
      rw [habs] at hpos
      cases hpos.2
    · rw [lineState_of_way hpos.2, hpos.1]
    · rw [Ne, lineState_eq_invalid hC, hpos.2]
      simp
    · intro hs i hi
      have hline : (t' * k.blocksize + i) / k.blocksize = t' := by
        rw [Nat.mul_comm, Nat.mul_add_div k.blocksize_pos, Nat.div_eq_of_lt hi, Nat.add_zero]
      rw [byteAt_of_way (by rw [hline]; exact hpos.2), hline, hpos.1, if_pos hs,
        Buffer.copy_in (Nat.zero_le i) (by omega), Nat.mul_add_mod', Nat.mod_eq_of_lt hi]
      rfl

end fill

end Cache
end Sniper
