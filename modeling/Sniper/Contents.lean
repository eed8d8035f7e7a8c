import Sniper.CacheBlocks

namespace Sniper
open Outcome

/-- Everything a hierarchy holds of the program's data. -/
structure Contents (n : ℕ) where
  block : CntlrId → ℕ → Option (Block n)
  evicting : CntlrId → Option (ℕ × (ℕ → Byte))
  data_map : DataMap

namespace Contents

variable {n : ℕ} (X : Contents n)

def put (c : CntlrId) (t : ℕ) (b : Option (Block n)) : Contents n :=
  { X with block := fun d t' => if d = c ∧ t' = t then b else X.block d t' }

def setEvicting (c : CntlrId) (e : Option (ℕ × (ℕ → Byte))) : Contents n :=
  { X with evicting := Function.update X.evicting c e }

variable {X} {c d : CntlrId} {t t' : ℕ} {b : Option (Block n)} {e : Option (ℕ × (ℕ → Byte))}

@[simp] theorem put_block_self : (X.put c t b).block c t = b := if_pos ⟨rfl, rfl⟩

theorem put_block_of_ne (h : d ≠ c) : (X.put c t b).block d t' = X.block d t' :=
  if_neg fun h' => h h'.1

theorem put_block_of_ne_line (h : t' ≠ t) : (X.put c t b).block d t' = X.block d t' :=
  if_neg fun h' => h h'.2

@[simp] theorem put_evicting : (X.put c t b).evicting = X.evicting := rfl

@[simp] theorem put_data_map : (X.put c t b).data_map = X.data_map := rfl

@[simp] theorem setEvicting_block : (X.setEvicting c e).block = X.block := rfl

@[simp] theorem setEvicting_data_map : (X.setEvicting c e).data_map = X.data_map := rfl

theorem put_eq (h : X.block c t = b) : X.put c t b = X := by
  unfold put
  congr 1
  funext d t'
  split
  · rename_i hd
    rw [hd.1, hd.2, h]
  · rfl

@[simp] theorem put_put {b' : Option (Block n)} : (X.put c t b).put c t b' = X.put c t b' := by
  unfold put
  congr 1
  funext d t'
  simp only
  split <;> simp [*]

theorem put_setEvicting : (X.setEvicting c e).put d t b = (X.put d t b).setEvicting c e := rfl

@[simp] theorem setEvicting_setEvicting {e' : Option (ℕ × (ℕ → Byte))} :
    (X.setEvicting c e).setEvicting c e' = X.setEvicting c e' := by
  unfold setEvicting
  simp

theorem setEvicting_eq (h : X.evicting c = e) : X.setEvicting c e = X := by
  unfold setEvicting
  rw [← h, Function.update_eq_self]

end Contents

/-- What the contents `C` of the cache `c` are for line `t`. -/
def Config.blockOf {σ : Type} (K : Config σ) (c : CntlrId) (C : Cache σ) (t : ℕ) :
    Option (Block K.blocksize) := C.block (K.params c) t

namespace State

variable {σ : Type} (K : Config σ) (s : State σ)

/-- The caches are well formed and the contents of the hierarchy are `X`. -/
structure Holds (X : Contents K.blocksize) : Prop where
  wellFormed : s.WellFormed K
  block : ∀ c t, K.blockOf c (s.m_cache c) t = X.block c t
  evicting : s.m_evicting = X.evicting
  data_map : s.m_data_map = X.data_map

variable {K s} {X : Contents K.blocksize}

theorem Holds.line_eq (h : s.Holds K X) (c : CntlrId) (t : ℕ) :
    s.line K c t = match X.block c t with
      | some b => b.state
      | none => .invalid := by
  rw [← h.block]
  split
  · rename_i b hb
    exact Cache.lineState_of_block hb
  · rename_i hn
    exact Cache.block_eq_none.mp hn

theorem Holds.lockEvent (h : s.Holds K X) (e : LockEvent) : (s.lockEvent e).Holds K X :=
  ⟨h.wellFormed, h.block, h.evicting, h.data_map⟩

theorem Holds.setEvicting (h : s.Holds K X) (c : CntlrId) (e : Option (ℕ × (ℕ → Byte))) :
    (s.setEvicting c e).Holds K (X.setEvicting c e) :=
  ⟨h.wellFormed, h.block, by simp only [State.setEvicting, Contents.setEvicting, h.evicting],
    h.data_map⟩

/-- A change of the blocks of one cache. -/
theorem Holds.putCache (h : s.Holds K X) {c : CntlrId} {C : Cache σ}
    (hC : C.WellFormed (K.params c)) {X' : Contents K.blocksize}
    (hb : ∀ d t, X'.block d t = if d = c then K.blockOf c C t else X.block d t)
    (he : X'.evicting = X.evicting) (hd : X'.data_map = X.data_map) :
    (s.putCache c C).Holds K X' := by
  refine ⟨wellFormed_putCache h.wellFormed hC, fun d t => ?_, h.evicting.trans he.symm,
    h.data_map.trans hd.symm⟩
  rw [hb]
  unfold State.putCache
  by_cases hdc : d = c
  · subst hdc
    simp
  · simp only [Function.update_of_ne hdc, if_neg hdc, h.block]

/-- A change of one line of one cache. -/
theorem Holds.put (h : s.Holds K X) {c : CntlrId} {C : Cache σ} (hC : C.WellFormed (K.params c))
    {t : ℕ} {b : Option (Block K.blocksize)}
    (hb : ∀ t', K.blockOf c C t' = if t' = t then b else K.blockOf c (s.m_cache c) t') :
    (s.putCache c C).Holds K (X.put c t b) := by
  refine h.putCache hC (fun d t' => ?_) rfl rfl
  by_cases hd : d = c
  · subst hd
    rw [if_pos rfl, hb, h.block]
    simp only [Contents.put, true_and]
  · rw [if_neg hd, Contents.put_block_of_ne hd]

end State

section holding

variable (st : CntlrId → ℕ → CState) (byte : CntlrId → Byte)

/-- A state of one-way caches given by its lines: set `i` of the cache `c` holds line `i` in state
`st c i`, filled with `byte c`, or nothing. -/
def State.holding : State Unit where
  m_cache c := ⟨fun i => ⟨fun w => if w = 0 ∧ st c i ≠ .invalid then ⟨some i, st c i⟩
    else .create, fun _ => byte c, ()⟩⟩
  m_evicting _ := none
  m_data_map _ := none
  m_directory_waiters _ := []
  sent := []
  locks := []

/-- The lines of such a state. -/
def Contents.holding (n : ℕ) : Contents n where
  block c t := if st c t = .invalid then none else some ⟨st c t, fun _ => byte c⟩
  evicting _ := none
  data_map _ := none

variable {st byte}

/-- Each line is in the set that the cache looks it up in. -/
theorem State.holding_holds {K : Config Unit} (hways : ∀ c, K.associativity c = 1)
    (hhome : ∀ c t, st c t ≠ .invalid → K.setIndex c t = t) :
    (State.holding st byte).Holds K (Contents.holding st byte K.blocksize) := by
  have hwf : (State.holding st byte).WellFormed K := by
    intro c
    constructor
    · intro i w hw w' hw' t _ _
      have h1 : w < 1 := (hways c) ▸ hw
      have h2 : w' < 1 := (hways c) ▸ hw'
      omega
    · intro i w _ t ht
      by_cases h : w = 0 ∧ st c i ≠ .invalid
      · simp only [State.holding, if_pos h, Option.some.injEq] at ht
        rw [← ht]
        exact hhome c i h.2
      · simp [State.holding, if_neg h, CacheBlockInfo.create] at ht
    · intro i w _ t ht
      by_cases h : w = 0 ∧ st c i ≠ .invalid
      · simpa only [State.holding, if_pos h] using h.2
      · simp [State.holding, if_neg h, CacheBlockInfo.create] at ht
  refine ⟨hwf, ?_, rfl, rfl⟩
  intro c t
  by_cases h : st c t = .invalid
  · have hway : ((State.holding st byte).m_cache c).lineWay (K.params c) t = none := by
      by_contra hne
      obtain ⟨w, hw⟩ := Option.ne_none_iff_exists'.mp hne
      obtain ⟨-, htag⟩ := (Cache.lineWay_eq_some (hwf c)).mp hw
      by_cases hi : w = 0 ∧ st c ((K.params c).setIndex t) ≠ .invalid
      · simp only [State.holding, if_pos hi, Option.some.injEq] at htag
        rw [htag] at hi
        exact hi.2 h
      · simp [State.holding, if_neg hi, CacheBlockInfo.create] at htag
    refine Eq.trans ?_ (if_pos h).symm
    exact Cache.block_eq_none.mpr (Cache.lineState_of_absent hway)
  · have hset : (K.params c).setIndex t = t := hhome c t h
    have hinfo : (((State.holding st byte).m_cache c).m_sets ((K.params c).setIndex t)
        ).m_cache_block_info_array 0 = ⟨some t, st c t⟩ := by
      rw [hset]
      exact if_pos ⟨rfl, h⟩
    have hway : ((State.holding st byte).m_cache c).lineWay (K.params c) t = some 0 := by
      rw [Cache.lineWay_eq_some (hwf c), hinfo]
      exact ⟨Nat.one_pos.trans_le (hways c).ge, rfl⟩
    refine Eq.trans ?_ (if_neg h).symm
    apply Cache.block_eq_some
    · rw [Cache.lineState_of_way hway, hinfo]
    · exact h
    · intro i
      unfold Cache.byteAt
      rw [Cache.lineNumber _ t i.isLt, hway]
      rfl

end holding

namespace CacheCntlr

variable {σ : Type} {K : Config σ} {s : State σ} {X : Contents K.blocksize} {c : CntlrId} {t : ℕ}
  {b : Block K.blocksize}

theorem getCacheState_of_block (h : s.Holds K X) (hb : X.block c t = some b) :
    getCacheState K s c (t * K.blocksize) = b.state := by
  rw [getCacheState_eq, Nat.mul_div_cancel _ K.blocksize_pos, h.line_eq, hb]

theorem getCacheState_of_absent (h : s.Holds K X) (hb : X.block c t = none) :
    getCacheState K s c (t * K.blocksize) = .invalid := by
  rw [getCacheState_eq, Nat.mul_div_cancel _ K.blocksize_pos, h.line_eq, hb]

theorem state_ne_invalid (h : s.Holds K X) (hb : X.block c t = some b) : b.state ≠ .invalid := by
  rw [← h.block] at hb
  exact Cache.state_ne_invalid hb

theorem info_of_block (h : s.Holds K X) (hb : X.block c t = some b) :
    ∃ i, getCacheBlockInfo K s c (t * K.blocksize) = some i ∧ i.cstate = b.state := by
  have : (getCacheBlockInfo K s c (t * K.blocksize)).map CacheBlockInfo.cstate = _ :=
    info_cstate h.wellFormed
  rw [Nat.mul_div_cancel _ K.blocksize_pos, h.line_eq, hb, if_neg (state_ne_invalid h hb)] at this
  exact Option.map_eq_some_iff.mp this

theorem info_of_absent (h : s.Holds K X) (hb : X.block c t = none) :
    getCacheBlockInfo K s c (t * K.blocksize) = none := by
  have : (getCacheBlockInfo K s c (t * K.blocksize)).map CacheBlockInfo.cstate = _ :=
    info_cstate h.wellFormed
  rw [Nat.mul_div_cancel _ K.blocksize_pos, h.line_eq, hb, if_pos rfl] at this
  exact Option.map_eq_none_iff.mp this

theorem setCacheState_holds (h : s.Holds K X) (hb : X.block c t = some b) {st : CState}
    (hst : st ≠ .invalid) :
    (setCacheState K s c (t * K.blocksize) st).Holds K (X.put c t (some ⟨st, b.data⟩)) := by
  rw [← h.block] at hb
  exact h.put ((h.wellFormed c).setCState hst) (Cache.block_setCState (h.wellFormed c) hst hb)

theorem invalidateCacheBlock_holds (h : s.Holds K X) (hb : X.block c t = some b)
    (hm : b.state ≠ .modified) : Total (invalidateCacheBlock K s c (t * K.blocksize)) fun s' =>
      s'.Holds K (X.put c t none) := by
  unfold invalidateCacheBlock
  rw [getCacheState_of_block h hb, require_true _ hm, require_true _ (state_ne_invalid h hb)]
  exact h.put ((h.wellFormed c).invalidateSingleLine _) (Cache.block_invalidate (h.wellFormed c) t)

theorem access_load_holds (hst : K.stores = true) (h : s.Holds K X) (hb : X.block c t = some b)
    {off n : ℕ} (ho : off < K.blocksize) (hn : off + n ≤ K.blocksize) (buff : Option (ℕ → Byte))
    (u : Bool) : Total (accessSingleLine K s c (t * K.blocksize + off) .load buff n u) fun r =>
      r.1.Holds K X ∧ r.2.2.isSome ∧ r.2.1 = buff.map (Block.read b.data off n) := by
  have hC := h.wellFormed c
  have hb' : (s.m_cache c).block (K.params c) t = some b := (h.block c t).trans hb
  obtain ⟨w, hw⟩ := Cache.lineWay_of_block hC hb'
  have hline : (t * K.blocksize + off) / (K.params c).blocksize = t :=
    Cache.lineNumber (K.params c) t ho
  have hoff : (t * K.blocksize + off) % (K.params c).blocksize = off :=
    Cache.lineOffset (K.params c) t ho
  have hw' : (s.m_cache c).lineWay (K.params c)
      ((t * K.blocksize + off) / (K.params c).blocksize) = some w := by rw [hline]; exact hw
  have hn' : (t * K.blocksize + off) % (K.params c).blocksize + n ≤ (K.params c).blocksize := by
    rw [hoff]
    exact hn
  obtain ⟨r, hr, hsame, hinfo, hbuf⟩ := Cache.access_load hw' hn' buff u
  have hout : r.buff = buff.map (Block.read b.data off n) := by
    cases buff with
    | none =>
      rw [Cache.accessSingleLine_load hw' hn'] at hr
      cases hr
      simp
    | some out =>
      obtain ⟨buf, hbuf, hi⟩ := hbuf hst out rfl
      rw [hbuf, Option.map_some]
      congr 1
      funext i
      unfold Block.read
      rw [hi]
      clear hline hoff hw' hn'
      by_cases hin : i < n
      · have hoi : off + i < K.blocksize := by omega
        rw [if_pos hin, dif_pos ⟨hin, hoi⟩, Nat.add_assoc]
        exact Cache.byteAt_of_block hb' ⟨off + i, hoi⟩
      · rw [if_neg hin, dif_neg (fun h => hin h.1)]
  simp only [accessSingleLine, hr, ok_bind]
  refine ⟨h.putCache (hsame.info.wellFormed hC) (fun d t' => ?_) rfl rfl, ?_, hout⟩
  · split
    · rename_i hd
      rw [hd, ← h.block]
      exact (hsame.block t').symm
    · rfl
  · rw [← Option.isSome_map, hinfo]
    rfl

theorem access_store_holds (hst : K.stores = true) (h : s.Holds K X) (hb : X.block c t = some b)
    {off n : ℕ} (ho : off < K.blocksize) (hn : off + n ≤ K.blocksize) (buff : Option (ℕ → Byte))
    (u : Bool) : Total (accessSingleLine K s c (t * K.blocksize + off) .store buff n u) fun r =>
      r.1.Holds K (X.put c t (some ⟨b.state, Block.write b.data off n buff⟩)) ∧ r.2.1 = buff ∧
        r.2.2.map CacheBlockInfo.cstate = some b.state := by
  have hb' : (s.m_cache c).block (K.params c) t = some b := (h.block c t).trans hb
  obtain ⟨r, hr, hwf, hbuff, hcs, hblock⟩ :=
    Cache.block_store (k := K.params c) (h.wellFormed c) hst hb' ho hn buff u
  change (s.m_cache c).accessSingleLine .quiet (K.params c) () (t * K.blocksize + off) .store buff n
    u = .ok r at hr
  simp only [accessSingleLine, hr, ok_bind]
  exact ⟨h.put hwf hblock, hbuff, hcs⟩

theorem access_empty_holds (h : s.Holds K X) (addr : ℕ) (type : AccessType)
    (buff : Option (ℕ → Byte)) (u : Bool) :
    Total (accessSingleLine K s c addr type buff 0 u) fun r =>
      r.1.Holds K X ∧ r.2.1 = buff := by
  obtain ⟨r, hr, hsame, hbuff⟩ :=
    Cache.access_empty (k := K.params c) (C := s.m_cache c) addr type buff u
  simp only [accessSingleLine, hr, ok_bind]
  refine ⟨h.putCache (hsame.info.wellFormed (h.wellFormed c)) (fun d t' => ?_) rfl rfl, hbuff⟩
  split
  · rename_i hd
    rw [hd, ← h.block]
    exact (hsame.block t').symm
  · rfl

theorem retrieveCacheBlock_holds (hst : K.stores = true) (h : s.Holds K X)
    (hb : X.block c t = some b) (data_buf : ℕ → Byte) (u : Bool) :
    Total (retrieveCacheBlock K s c (t * K.blocksize) data_buf u) fun r =>
      r.1.Holds K X ∧ ∀ i : Fin K.blocksize, r.2 i = b.data i := by
  unfold retrieveCacheBlock
  have := access_load_holds hst h hb (n := K.blocksize) K.blocksize_pos (by omega)
    (some data_buf) u
  rw [Nat.add_zero] at this
  refine this.bind ?_
  rintro ⟨s', buf, info⟩ ⟨hs', hinfo, hbuf⟩
  simp only at hs' hinfo hbuf ⊢
  rw [require_true _ hinfo, hbuf]
  exact ⟨hs', fun i => Block.read_all b.data data_buf i⟩

/-- The state right after `insertSingleLine` and `setCacheState`, before the victim is dealt with.
-/
theorem insertSingleLine_holds (hstores : K.stores = true) (h : s.Holds K X)
    (hb : X.block c t = none) {st : CState} (hst : st ≠ .invalid) (buf : ℕ → Byte) :
    ∃ evicted, ((s.m_cache c).insertSingleLine .quiet (K.params c) () (t * K.blocksize) (some buf)
        K.garbage).evicted = evicted ∧
      match evicted with
      | none => (setCacheState K (s.putCache c ((s.m_cache c).insertSingleLine .quiet
          (K.params c) () (t * K.blocksize) (some buf) K.garbage).cache) c (t * K.blocksize)
          st).Holds K
          (X.put c t (some ⟨st, fun i => buf i⟩))
      | some (evict_address, e) => ∃ u x, evict_address = u * K.blocksize ∧ u ≠ t ∧
          X.block c u = some x ∧ e.info.cstate = x.state ∧
          (∀ i : Fin K.blocksize, e.buf i = x.data i) ∧
          (setCacheState K (s.putCache c ((s.m_cache c).insertSingleLine .quiet (K.params c) ()
            (t * K.blocksize) (some buf) K.garbage).cache) c (t * K.blocksize) st).Holds K
            ((X.put c u none).put c t (some ⟨st, fun i => buf i⟩)) := by
  have htag : Cache.tagOf (K.params c) (t * K.blocksize) = t := Nat.mul_div_cancel _ K.blocksize_pos
  have habs : (s.m_cache c).lineWay (K.params c) (Cache.tagOf (K.params c) (t * K.blocksize)) =
      none := by
    rw [htag, ← Cache.lineState_eq_invalid (h.wellFormed c), ← Cache.block_eq_none]
    exact (h.block c t).trans hb
  have hf := Cache.fillSpec (h.wellFormed c) habs hst (some buf) K.garbage
  have hput : setCacheState K (s.putCache c ((s.m_cache c).insertSingleLine .quiet (K.params c) ()
      (t * K.blocksize) (some buf) K.garbage).cache) c (t * K.blocksize) st =
      s.putCache c ((((s.m_cache c).insertSingleLine .quiet (K.params c) () (t * K.blocksize)
        (some buf) K.garbage).cache).setCState (K.params c) (t * K.blocksize) st) := by
    simp [setCacheState, State.putCache]
  rw [hput]
  rw [htag] at hf
  generalize ((s.m_cache c).insertSingleLine .quiet (K.params c) () (t * K.blocksize) (some buf)
    K.garbage).cache.setCState (K.params c) (t * K.blocksize) st = C' at hf
  refine ⟨_, rfl, ?_⟩
  -- a free way, or one whose line is evicted
  cases he : ((s.m_cache c).insertSingleLine .quiet (K.params c) () (t * K.blocksize) (some buf)
    K.garbage).evicted with
  | none =>
    rw [he] at hf
    refine h.put hf.wellFormed fun t' => ?_
    have := hf.block hst hstores t'
    simp only [Option.map_none, reduceCtorEq, if_false] at this
    exact this
  | some v =>
    rw [he] at hf
    obtain ⟨u, x, hv, hut, hx, hcs, hbuf⟩ := hf.victim_block hstores
    refine ⟨u, x, hv, hut, (h.block c u).symm.trans hx, hcs, hbuf, ?_⟩
    refine h.putCache hf.wellFormed (fun d t' => ?_) rfl rfl
    by_cases hd : d = c
    · subst hd
      have hev : some v.1 = some (t' * (K.params d).blocksize) ↔ t' = u := by
        rw [hv, Option.some.injEq]
        exact ⟨fun h => (Nat.eq_of_mul_eq_mul_right K.blocksize_pos h).symm, fun h => by rw [h]⟩
      have hblock := hf.block hst hstores t'
      simp only [Option.map_some, hev] at hblock
      rw [if_pos rfl]
      refine Eq.trans ?_ hblock.symm
      simp only [Contents.put, true_and, ← h.block]
      rfl
    · rw [if_neg hd, Contents.put_block_of_ne hd, Contents.put_block_of_ne hd]

/-- A write to a line that is MODIFIED. -/
theorem writeOwnBlock_holds (hst : K.stores = true) (h : s.Holds K X)
    (he : ∀ e, X.evicting c = some e → e.1 ≠ t * K.blocksize)
    (hb : X.block c t = some b) (hm : b.state = .modified) {off n : ℕ} (ho : off < K.blocksize)
    (hn : off + n ≤ K.blocksize) (buff : Option (ℕ → Byte)) :
    Total (writeOwnBlock K s c (t * K.blocksize) off buff n) fun s' =>
      s'.Holds K (X.put c t (some ⟨.modified, Block.write b.data off n buff⟩)) := by
  have store : Total (writeOwnBlock.store K s c (t * K.blocksize) off buff n) fun s' =>
      s'.Holds K (X.put c t (some ⟨.modified, Block.write b.data off n buff⟩)) := by
    refine (access_store_holds hst h hb ho hn buff false).bind ?_
    rintro ⟨s', buf, info⟩ ⟨hs', -, hinfo⟩
    rw [hm] at hinfo hs'
    have hsome : info.isSome := by
      rw [← Option.isSome_map, hinfo]
      rfl
    simp only
    rw [require_true _ hsome, require_true _ hinfo]
    exact hs'
  unfold writeOwnBlock
  rw [h.evicting]
  split
  · rename_i a buf hx
    rw [if_neg (fun ha => he _ hx ha.symm)]
    exact store
  · exact store

/-- A write to a line that is being evicted goes to the eviction buffer. -/
theorem writeOwnBlock_evicting_holds (h : s.Holds K X) {evict_buf : ℕ → Byte}
    (he : X.evicting c = some (t * K.blocksize, evict_buf)) (buf : ℕ → Byte) :
    Total (writeOwnBlock K s c (t * K.blocksize) 0 (some buf) K.blocksize) fun s' =>
      s'.Holds K (X.setEvicting c
        (some (t * K.blocksize, Buffer.copy evict_buf 0 buf 0 K.blocksize))) := by
  unfold writeOwnBlock
  simp only [h.evicting, he, if_true]
  rw [require_true _ (by simp)]
  exact h.setEvicting c _

end CacheCntlr
end Sniper
