import Sniper.Snoop

namespace Sniper
open Outcome

/-- A line of `n` bytes in a coherence state. -/
structure Block (n : ℕ) where
  state : CState
  data : Fin n → Byte

namespace Block

variable {n : ℕ}

/-- The data after a write of `len` bytes from `off` on. -/
def patch (data : Fin n → Byte) (off len : ℕ) (buf : ℕ → Byte) : Fin n → Byte :=
  fun i => if off ≤ i ∧ i < off + len then buf (i - off) else data i

/-- A write through a pointer that may be NULL. -/
def write (data : Fin n → Byte) (off len : ℕ) : Option (ℕ → Byte) → Fin n → Byte
  | some buf => patch data off len buf
  | none => data

/-- The buffer after a read of `len` bytes from `off` on. -/
def read (data : Fin n → Byte) (off len : ℕ) (out : ℕ → Byte) : ℕ → Byte :=
  fun i => if h : i < len ∧ off + i < n then data ⟨off + i, h.2⟩ else out i

theorem read_all (data : Fin n → Byte) (out : ℕ → Byte) (i : Fin n) :
    read data 0 n out i = data i := by
  unfold read
  rw [dif_pos ⟨i.isLt, by omega⟩]
  congr 1
  exact Fin.ext (Nat.zero_add _)

theorem write_all (data : Fin n → Byte) (buf : ℕ → Byte) :
    write data 0 n (some buf) = fun i : Fin n => buf i := by
  funext i
  exact if_pos ⟨Nat.zero_le _, by omega⟩

end Block

namespace Cache

variable {σ : Type} {k : CacheParams σ} {C C' : Cache σ} {t : ℕ}

/-- What a cache holds of line `t`. -/
def block (k : CacheParams σ) (C : Cache σ) (t : ℕ) : Option (Block k.blocksize) :=
  if C.lineState k t = .invalid then none
  else some ⟨C.lineState k t, fun i => C.byteAt k (t * k.blocksize + i)⟩

theorem block_eq_none : C.block k t = none ↔ C.lineState k t = .invalid := by
  unfold block
  split <;> simp [*]

theorem lineState_of_block {b : Block k.blocksize} (h : C.block k t = some b) :
    C.lineState k t = b.state := by
  unfold block at h
  split at h
  · cases h
  · cases h
    rfl

theorem state_ne_invalid {b : Block k.blocksize} (h : C.block k t = some b) :
    b.state ≠ .invalid := by
  rw [← lineState_of_block h]
  intro hi
  rw [block_eq_none.mpr hi] at h
  cases h

theorem byteAt_of_block {b : Block k.blocksize} (h : C.block k t = some b) (i : Fin k.blocksize) :
    C.byteAt k (t * k.blocksize + i) = b.data i := by
  unfold block at h
  split at h
  · cases h
  · cases h
    rfl

theorem lineWay_of_block (hC : C.WellFormed k) {b : Block k.blocksize} (h : C.block k t = some b) :
    ∃ w, C.lineWay k t = some w :=
  lineState_ne_invalid hC (by rw [lineState_of_block h]; exact state_ne_invalid h)

/-- Equal states and equal bytes make equal blocks. -/
theorem block_congr (hs : C'.lineState k t = C.lineState k t)
    (hb : ∀ i < k.blocksize,
      C'.byteAt k (t * k.blocksize + i) = C.byteAt k (t * k.blocksize + i)) :
    C'.block k t = C.block k t := by
  unfold block
  rw [hs]
  split
  · rfl
  · simp only [Option.some.injEq, Block.mk.injEq, true_and]
    funext i
    exact hb i i.isLt

theorem block_eq_some {st : CState} (hs : C.lineState k t = st) (hst : st ≠ .invalid)
    {data : Fin k.blocksize → Byte}
    (hb : ∀ i : Fin k.blocksize, C.byteAt k (t * k.blocksize + i) = data i) :
    C.block k t = some ⟨st, data⟩ := by
  unfold block
  rw [hs, if_neg hst]
  simp only [Option.some.injEq, Block.mk.injEq, true_and]
  funext i
  exact hb i

theorem lineNumber (k : CacheParams σ) (t : ℕ) {i : ℕ} (hi : i < k.blocksize) :
    (t * k.blocksize + i) / k.blocksize = t := by
  rw [Nat.mul_comm, Nat.mul_add_div k.blocksize_pos, Nat.div_eq_of_lt hi, Nat.add_zero]

theorem lineOffset (k : CacheParams σ) (t : ℕ) {i : ℕ} (hi : i < k.blocksize) :
    (t * k.blocksize + i) % k.blocksize = i := by
  rw [Nat.mul_add_mod', Nat.mod_eq_of_lt hi]

theorem SameLines.block (h : SameLines C C') (t : ℕ) : C'.block k t = C.block k t :=
  block_congr (h.info.lineState t) fun _ _ => h.byteAt _

theorem block_setCState (hC : C.WellFormed k) {st : CState} (hst : st ≠ .invalid)
    {b : Block k.blocksize} (hb : C.block k t = some b) (t' : ℕ) :
    (C.setCState k (t * k.blocksize) st).block k t' =
      if t' = t then some ⟨st, b.data⟩ else C.block k t' := by
  have hp : C.lineState k (t * k.blocksize / k.blocksize) ≠ .invalid := by
    rw [Nat.mul_div_cancel _ k.blocksize_pos, lineState_of_block hb]
    exact state_ne_invalid hb
  have hs := lineState_setCState hC hst hp t'
  rw [Nat.mul_div_cancel _ k.blocksize_pos] at hs
  split
  · subst t'
    rw [if_pos rfl] at hs
    exact block_eq_some hs hst fun i => by rw [byteAt_setCState hC hst, byteAt_of_block hb]
  · rename_i ht
    rw [if_neg ht] at hs
    exact block_congr hs fun _ _ => byteAt_setCState hC hst _

theorem block_invalidate (hC : C.WellFormed k) (t t' : ℕ) :
    (C.invalidateSingleLine k (t * k.blocksize)).block k t' =
      if t' = t then none else C.block k t' := by
  have hs := lineState_invalidate hC (t * k.blocksize) t'
  rw [Nat.mul_div_cancel _ k.blocksize_pos] at hs
  split
  · rename_i ht
    rw [if_pos ht] at hs
    exact block_eq_none.mpr hs
  · rename_i ht
    rw [if_neg ht] at hs
    refine block_congr hs fun i hi => byteAt_invalidate hC _ ?_
    rwa [lineNumber k t' hi, Nat.mul_div_cancel _ k.blocksize_pos]

/-- A write to a block that is there. -/
theorem block_store (hC : C.WellFormed k) (hst : k.stores = true) {b : Block k.blocksize}
    (hb : C.block k t = some b) {off n : ℕ} (ho : off < k.blocksize) (hn : off + n ≤ k.blocksize)
    (buff : Option (ℕ → Byte)) (u : Bool) :
    ∃ r, C.accessSingleLine .quiet k () (t * k.blocksize + off) .store buff n u = .ok r ∧
      r.cache.WellFormed k ∧ r.buff = buff ∧ r.info.map CacheBlockInfo.cstate = some b.state ∧
      ∀ t', r.cache.block k t' =
        if t' = t then some ⟨b.state, Block.write b.data off n buff⟩ else C.block k t' := by
  obtain ⟨w, hw⟩ := lineWay_of_block hC hb
  have hline := lineNumber k t ho
  have hoff := lineOffset k t ho
  obtain ⟨r, hr, hinfo, hbuff, hcs, hbytes⟩ := access_store (C := C) (k := k)
    (n := n) (by rw [hline]; exact hw) (by rw [hoff]; exact hn)
    buff u
  rw [hline, lineState_of_block hb] at hcs
  refine ⟨r, hr, hinfo.wellFormed hC, hbuff, hcs, fun t' => ?_⟩
  have hmem : ∀ i < k.blocksize, (t * k.blocksize + off ≤ t' * k.blocksize + i ∧
      t' * k.blocksize + i < t * k.blocksize + off + n) ↔ t' = t ∧ off ≤ i ∧ i < off + n :=
    fun i hi => mem_dataPtr hn hi
  split
  · subst t'
    refine block_eq_some ((hinfo.lineState t).trans (lineState_of_block hb)) (state_ne_invalid hb)
      fun i => ?_
    rw [hbytes]
    cases buff with
    | none => exact byteAt_of_block hb i
    | some buf =>
      simp only [hst, true_and, hmem i i.isLt, byteAt_of_block hb]
      change _ = if off ≤ i.val ∧ i.val < off + n then _ else _
      split
      · exact congrArg buf (by omega)
      · rfl
  · rename_i ht
    refine block_congr (hinfo.lineState t') fun i hi => ?_
    rw [hbytes]
    cases buff with
    | none => rfl
    | some buf => simp only [hmem i hi, ht, false_and, and_false, if_false]

/-- An access of no bytes leaves the lines, at whatever address it is made. -/
theorem access_empty (addr : ℕ) (type : AccessType) (buff : Option (ℕ → Byte)) (u : Bool) :
    ∃ r, C.accessSingleLine .quiet k () addr type buff 0 u = .ok r ∧ SameLines C r.cache ∧
      r.buff = buff := by
  have hn : addr % k.blocksize + 0 ≤ k.blocksize := (Nat.mod_lt _ k.blocksize_pos).le
  cases hs : C.lineWay k (addr / k.blocksize) with
  | none => exact ⟨_, accessSingleLine_miss hs type buff u, .refl C, rfl⟩
  | some w =>
    cases type with
    | load =>
      refine ⟨_, accessSingleLine_load hs hn buff u,
        sameLines_putSet (CacheSet.touch_info _ _ _) (CacheSet.touch_blocks _ _ _), ?_⟩
      cases buff <;> simp
    | store =>
      refine ⟨_, accessSingleLine_store hs hn buff u,
        sameLines_putSet (CacheSet.touch_info _ _ _) ?_, rfl⟩
      rw [CacheSet.touch_blocks]
      cases buff <;> simp

/-- An inserted line takes the place of at most one other. -/
theorem FillSpec.block {st : CState} {buf : ℕ → Byte} {evicted : Option (ℕ × CacheSet.Evicted)}
    (h : FillSpec k C t st (some buf) C' evicted) (hst : st ≠ .invalid) (hs : k.stores = true)
    (t' : ℕ) : C'.block k t' =
      if t' = t then some ⟨st, fun i => buf i⟩
      else if evicted.map Prod.fst = some (t' * k.blocksize) then none else C.block k t' := by
  have hbyte : ∀ i < k.blocksize, C'.byteAt k (t' * k.blocksize + i) = _ := fun i hi =>
    h.byte hs buf rfl (t' * k.blocksize + i)
  have hstate := h.state t'
  split
  · rename_i ht
    subst ht
    rw [if_pos rfl] at hstate
    refine block_eq_some hstate hst fun i => ?_
    rw [hbyte i i.isLt, lineNumber k t' i.isLt, lineOffset k t' i.isLt, if_pos rfl]
  · rename_i ht
    rw [if_neg ht] at hstate
    split
    · rename_i hv
      rw [if_pos hv] at hstate
      exact block_eq_none.mpr hstate
    · rename_i hv
      rw [if_neg hv] at hstate
      refine block_congr hstate fun i hi => ?_
      rw [hbyte i hi, lineNumber k t' hi, if_neg ht, if_neg hv]

/-- The line that leaves the cache leaves it with its state and its data. -/
theorem FillSpec.victim_block {st : CState} {data_buf : Option (ℕ → Byte)}
    {v : ℕ × CacheSet.Evicted} (h : FillSpec k C t st data_buf C' (some v))
    (hs : k.stores = true) :
    ∃ u b, v.1 = u * k.blocksize ∧ u ≠ t ∧ C.block k u = some b ∧ v.2.info.cstate = b.state ∧
      ∀ i : Fin k.blocksize, v.2.buf i = b.data i := by
  obtain ⟨hmod, hne, hcs, hv, hbuf⟩ := h.victim v rfl
  have haddr : v.1 = v.1 / k.blocksize * k.blocksize := by
    have := Nat.div_add_mod' v.1 k.blocksize
    omega
  refine ⟨v.1 / k.blocksize, ⟨C.lineState k (v.1 / k.blocksize), fun i => C.byteAt k (v.1 + i)⟩,
    haddr, hne, block_eq_some rfl hv fun i => by rw [← haddr], hcs, fun i => hbuf hs i i.isLt⟩

end Cache
end Sniper
