import Sniper.CacheData
import Sniper.LineView
import Sniper.CacheCntlr

namespace Sniper
open Outcome

/-- Coherent write-back caches, none of them perfect or passthrough. -/
structure Config.Plain {σ : Type} (K : Config σ) : Prop where
  writeback : ∀ c, K.m_cache_writethrough c = false
  coherent : ∀ c, K.m_coherent c = true
  perfect : ∀ c, K.m_perfect c = false
  passthrough : ∀ c, K.m_passthrough c = false

/-- Every assertion but the two that `writeCacheBlock` makes about the line it writes. -/
def Abort.notWriteback (e : Abort) : Prop := e ≠ .writethroughMiss ∧ e ≠ .writebackNonModified

/-- The requests the last-level cache sends to the directory. -/
def MsgType.isRequest : MsgType → Bool
  | .exReq | .shReq | .upgradeReq => true
  | _ => false

/-- The requests among the messages sent. -/
def requests (l : List ShmemMsg) : List ShmemMsg := l.filter fun m => m.type.isRequest

theorem requests_append (l l' : List ShmemMsg) :
    requests (l ++ l') = requests l ++ requests l' := List.filter_append ..

namespace State

variable {σ : Type} (K : Config σ) (s : State σ)

def line : View := fun c t => (s.m_cache c).lineState (K.params c) t

def WellFormed : Prop := ∀ c, (s.m_cache c).WellFormed (K.params c)

/-- The line `m_evicting_address` names, while the eviction buffer is set. -/
def evictingAddress (c : CntlrId) : Option ℕ := (s.m_evicting c).map Prod.fst

/-- From `s` the lines went to the states `v`; no waiter and no request was added. -/
structure Moves (v : View) (s' : State σ) : Prop where
  wellFormed : s'.WellFormed K
  line : s'.line K = v
  evicting : s'.evictingAddress = s.evictingAddress
  waiters : s'.m_directory_waiters = s.m_directory_waiters
  requests : requests s'.sent = requests s.sent

variable {K s}

theorem Moves.refl (h : s.WellFormed K) : s.Moves K (s.line K) s := ⟨h, rfl, rfl, rfl, rfl⟩

theorem Moves.trans {v v' : View} {s' s'' : State σ} (h : s.Moves K v s')
    (h' : s'.Moves K v' s'') : s.Moves K v' s'' :=
  ⟨h'.wellFormed, h'.line, h'.evicting.trans h.evicting, h'.waiters.trans h.waiters,
    h'.requests.trans h.requests⟩

theorem Moves.congr {v v' : View} {s' : State σ} (h : s.Moves K v s') (hv : v = v') :
    s.Moves K v' s' := hv ▸ h

theorem wellFormed_putCache (h : s.WellFormed K) {c : CntlrId} {C : Cache σ}
    (hC : C.WellFormed (K.params c)) : (s.putCache c C).WellFormed K := by
  intro d
  by_cases hd : d = c
  · subst hd
    simpa [putCache] using hC
  · simpa [putCache, hd] using h d

theorem line_putCache (c : CntlrId) (C : Cache σ) (d : CntlrId) (t : ℕ) :
    (s.putCache c C).line K d t =
      if d = c then C.lineState (K.params c) t else s.line K d t := by
  unfold line putCache
  by_cases hd : d = c
  · subst hd
    simp
  · simp [hd]

/-- A change of the blocks of one cache. -/
theorem moves_putCache (h : s.WellFormed K) {c : CntlrId} {C : Cache σ} {v : View}
    (hC : C.WellFormed (K.params c))
    (hv : ∀ d t, v d t = if d = c then C.lineState (K.params c) t else s.line K d t) :
    s.Moves K v (s.putCache c C) := by
  refine ⟨wellFormed_putCache h hC, ?_, rfl, rfl, rfl⟩
  funext d t
  rw [hv, line_putCache]

end State

namespace CacheCntlr

variable {σ : Type} {K : Config σ} {s : State σ} {c : CntlrId} {address : ℕ}

theorem getCacheState_eq : getCacheState K s c address = s.line K c (address / K.blocksize) := by
  unfold getCacheState getCacheBlockInfo Cache.peekSingleLine State.line Cache.lineState
  rw [Cache.way_eq_lineWay]
  rw [show (K.params c).blocksize = K.blocksize from rfl]
  cases (s.m_cache c).lineWay (K.params c) (address / K.blocksize) <;> rfl

theorem info_cstate (hs : s.WellFormed K) :
    (getCacheBlockInfo K s c address).map CacheBlockInfo.cstate =
      if s.line K c (address / K.blocksize) = .invalid then none
      else some (s.line K c (address / K.blocksize)) := by
  have h : getCacheState K s c address = s.line K c (address / K.blocksize) := getCacheState_eq
  unfold getCacheState at h
  cases hi : getCacheBlockInfo K s c address with
  | none =>
    rw [hi] at h
    rw [if_pos h.symm]
    rfl
  | some b =>
    rw [hi] at h
    rw [if_neg, ← h]
    · rfl
    · rw [State.line, Cache.lineState_eq_invalid (hs c)]
      intro hn
      have hway : (s.m_cache c).way (K.params c) address = none := hn
      simp only [getCacheBlockInfo, Cache.peekSingleLine, hway] at hi
      cases hi

theorem info_isSome (hs : s.WellFormed K) :
    (getCacheBlockInfo K s c address).isSome ↔ s.line K c (address / K.blocksize) ≠ .invalid := by
  rw [← Option.isSome_map (f := CacheBlockInfo.cstate), info_cstate hs]
  split <;> simp [*]

theorem info_some (hs : s.WellFormed K) {b : CacheBlockInfo}
    (h : getCacheBlockInfo K s c address = some b) :
    s.line K c (address / K.blocksize) = b.cstate ∧ b.cstate ≠ .invalid := by
  have : (getCacheBlockInfo K s c address).map CacheBlockInfo.cstate = _ := info_cstate hs
  rw [h] at this
  split at this
  · cases this
  · rename_i hn
    have hb : b.cstate = s.line K c (address / K.blocksize) := Option.some.inj this
    exact ⟨hb.symm, hb ▸ hn⟩

theorem info_none (hs : s.WellFormed K) (h : getCacheBlockInfo K s c address = none) :
    s.line K c (address / K.blocksize) = .invalid := by
  by_contra hn
  have := (info_isSome hs).mpr hn
  rw [h] at this
  cases this

theorem setCacheState_moves (hs : s.WellFormed K) {st : CState} (hst : st ≠ .invalid)
    (hp : s.line K c (address / K.blocksize) ≠ .invalid) :
    s.Moves K ((s.line K).assign c (address / K.blocksize) st)
      (setCacheState K s c address st) := by
  refine State.moves_putCache hs ((hs c).setCState hst) fun d t => ?_
  rw [Cache.lineState_setCState (hs c) hst hp]
  unfold View.assign
  by_cases hd : d = c
  · subst hd
    simp only [true_and, if_true]
    rfl
  · simp [hd]

/-- The error of an access of `n` bytes from `address` on that ends past the end of the line. -/
def Overruns (K : Config σ) (address n : ℕ) (e : Abort) : Prop :=
  e = .lineOverrun ∧ ¬address % K.blocksize + n ≤ K.blocksize

theorem Overruns.notWriteback {n : ℕ} {e : Abort} (h : Overruns K address n e) :
    e.notWriteback := by
  rw [h.1]
  exact ⟨by decide, by decide⟩

/-- An access changes the state of no line. -/
theorem accessSingleLine_moves (hs : s.WellFormed K) (t : AccessType) (buff : Option (ℕ → Byte))
    (n : ℕ) (u : Bool) :
    Sat (Overruns K address n) (accessSingleLine K s c address t buff n u) fun r =>
      s.Moves K (s.line K) r.1 ∧ r.2.2 = getCacheBlockInfo K s c address := by
  refine (Cache.accessSingleLine_info t buff u).bind fun r hr => ?_
  refine ⟨State.moves_putCache hs (hr.1.wellFormed (hs c)) fun d t => ?_, hr.2⟩
  split
  · rename_i hd
    subst hd
    rw [hr.1.lineState]
    rfl
  · rfl

theorem retrieveCacheBlock_moves (hs : s.WellFormed K) (data_buf : ℕ → Byte) (u : Bool) :
    Sat Abort.notWriteback (retrieveCacheBlock K s c address data_buf u) fun r =>
      s.Moves K (s.line K) r.1 ∧ s.line K c (address / K.blocksize) ≠ .invalid := by
  unfold retrieveCacheBlock
  refine ((accessSingleLine_moves hs _ _ _ _).mono (fun _ => Overruns.notWriteback)
    fun _ h => h).bind fun r hr => ?_
  refine (sat_require (Q := fun _ => s.line K c (address / K.blocksize) ≠ .invalid) ?_ ?_).bind
    fun _ h => ⟨hr.1, h⟩
  · intro h
    rw [hr.2] at h
    exact (info_isSome hs).mp h
  · intro _
    exact ⟨by decide, by decide⟩

/-- A write-back of the line of `address` finds its place in `p`: the eviction buffer, or a MODIFIED
block. -/
def Writable (K : Config σ) (s : State σ) (p : CntlrId) (address : ℕ) : Prop :=
  s.evictingAddress p = some address ∨
    s.evictingAddress p ≠ some address ∧ s.line K p (address / K.blocksize) = .modified

theorem writeOwnBlock_moves (hs : s.WellFormed K) (h : Writable K s c address)
    (data_buf : Option (ℕ → Byte)) :
    Sat (Overruns K address K.blocksize) (writeOwnBlock K s c address 0 data_buf K.blocksize)
      fun s' => s.Moves K (s.line K) s' := by
  have store : s.evictingAddress c ≠ some address →
      Sat (Overruns K address K.blocksize)
        (writeOwnBlock.store K s c address 0 data_buf K.blocksize) fun s' =>
          s.Moves K (s.line K) s' := by
    intro hne
    have hm : s.line K c (address / K.blocksize) = .modified := by
      rcases h with h | h
      · exact absurd h hne
      · exact h.2
    have hinfo : (getCacheBlockInfo K s c address).map CacheBlockInfo.cstate = some .modified := by
      rw [info_cstate hs, hm, if_neg (by decide)]
    unfold writeOwnBlock.store
    rw [Nat.add_zero]
    refine (accessSingleLine_moves hs _ _ _ _).bind ?_
    rintro ⟨s', buf, info⟩ hr
    have hr2 : info = getCacheBlockInfo K s c address := hr.2
    subst hr2
    simp only
    rw [require_true _ ((info_isSome hs).mpr (by rw [hm]; decide)), require_true _ hinfo]
    exact hr.1
  unfold writeOwnBlock
  cases he : s.m_evicting c with
  | none => exact store (by simp [State.evictingAddress, he])
  | some e =>
    obtain ⟨evicting_address, evicting_buf⟩ := e
    simp only
    split
    · rename_i ha
      rw [require_true _ (by simp)]
      refine ⟨hs, rfl, ?_, rfl, rfl⟩
      funext d
      unfold State.evictingAddress State.setEvicting
      by_cases hd : d = c
      · subst hd
        simp [he]
      · simp [hd]
    · rename_i ha
      refine store ?_
      simp only [State.evictingAddress, he, Option.map_some, ne_eq, Option.some.injEq]
      exact fun h' => ha h'.symm

theorem writeCacheBlock_moves (hK : K.Plain) (hs : s.WellFormed K) {o : CntlrId}
    (h : Writable K s (K.node o) address) (data_buf : Option (ℕ → Byte)) (r : ℕ) :
    Sat (Overruns K address K.blocksize) (writeCacheBlock K r s o address 0 data_buf K.blocksize)
      fun s' => s.Moves K (s.line K) s' := by
  cases r with
  | zero =>
    refine (writeOwnBlock_moves hs h data_buf).bind fun s' hs' => ?_
    rw [require_true _ (hK.writeback _)]
    exact hs'
  | succ r =>
    refine (writeOwnBlock_moves hs h data_buf).bind fun s' hs' => ?_
    rw [if_neg (by simp [hK.writeback])]
    exact hs'

theorem writeNext_moves (hK : K.Plain) (hs : s.WellFormed K) {o : CntlrId}
    (h : Writable K s (K.node (K.nextCntlr o)) address) (data_buf : Option (ℕ → Byte)) :
    Sat (Overruns K address K.blocksize) (writeNext K s o address 0 data_buf K.blocksize) fun s' =>
      s.Moves K (s.line K) s' :=
  writeCacheBlock_moves hK hs h data_buf _

/-- One cache goes to `new`, or stays without the line. -/
noncomputable abbrev restated (K : Config σ) (s : State σ) (c : CntlrId) (address : ℕ)
    (new : CState) : View :=
  (s.line K).snoop {c} (address / K.blocksize) new

theorem restated_eq {new : CState} (hp : s.line K c (address / K.blocksize) ≠ .invalid) :
    restated K s c address new = (s.line K).assign c (address / K.blocksize) new := by
  funext d t
  unfold restated View.snoop View.assign
  simp only [Set.mem_singleton_iff, and_comm (a := t = address / K.blocksize)]
  split
  · rename_i h
    rw [h.1, h.2, CState.restate, if_neg hp]
  · rfl

theorem retrieveInto_moves (hs : s.WellFormed K) (out_buf : Option (ℕ → Byte)) (b : Bool) :
    Sat Abort.notWriteback (retrieveInto K s c address out_buf b) fun r =>
      s.Moves K (s.line K) r.1 := by
  cases out_buf with
  | none => exact .refl hs
  | some buf => exact (retrieveCacheBlock_moves hs buf false).bind fun r hr => hr.1

theorem invalidateCacheBlock_moves (hs : s.WellFormed K) :
    Sat Abort.notWriteback (invalidateCacheBlock K s c address) fun s' =>
      s.Moves K ((s.line K).assign c (address / K.blocksize) .invalid) s' ∧
        s.line K c (address / K.blocksize) ≠ .modified := by
  unfold invalidateCacheBlock
  simp only [getCacheState_eq]
  refine (sat_require (Q := fun _ => s.line K c (address / K.blocksize) ≠ .modified) id
    fun _ => ⟨by decide, by decide⟩).bind fun _ hm => ?_
  refine (sat_require (Q := fun _ => True) (fun _ => trivial)
    fun _ => ⟨by decide, by decide⟩).bind fun _ _ => ?_
  refine ⟨State.moves_putCache hs ((hs c).invalidateSingleLine _) fun d t => ?_, hm⟩
  rw [Cache.lineState_invalidate (hs c)]
  unfold View.assign
  by_cases hd : d = c
  · subst hd
    simp only [true_and, if_true]
    rfl
  · simp [hd]

theorem writeBackBlock_moves (hK : K.Plain) (hs : s.WellFormed K)
    (hm : s.line K c (address / K.blocksize) = .modified)
    (hw : c.level < K.last → Writable K s (K.below c) address) (out_buf : Option (ℕ → Byte)) :
    Sat Abort.notWriteback (writeBackBlock K s c address out_buf) fun r =>
      s.Moves K ((s.line K).assign c (address / K.blocksize) .shared) r.1 := by
  -- whoever takes the data, the block ends SHARED
  have shared : ∀ {s' : State σ}, s.Moves K (s.line K) s' →
      s.Moves K ((s.line K).assign c (address / K.blocksize) .shared)
        (setCacheState K s' c address .shared) := by
    intro s' h
    have hp : s'.line K c (address / K.blocksize) ≠ .invalid := by
      rw [h.line, hm]
      decide
    refine h.trans ((setCacheState_moves h.wellFormed (by decide) hp).congr ?_)
    rw [h.line]
  unfold writeBackBlock
  rw [if_neg (by simp [hK.writeback])]
  split
  · rename_i hl
    refine (retrieveCacheBlock_moves hs _ _).bind fun r hr => ?_
    refine ((writeNext_moves hK hr.1.wellFormed ?_ _).mono (fun _ => Overruns.notWriteback)
      fun _ h => h).bind fun s' hs' => ?_
    · have := hw hl
      unfold Writable at this ⊢
      rwa [hr.1.evicting, hr.1.line]
    · exact shared (hr.1.trans (hs'.congr (by rw [hr.1.line])))
  · cases out_buf with
    | none => exact ⟨by decide, by decide⟩
    | some buf => exact (retrieveCacheBlock_moves hs buf false).bind fun r hr => shared hr.1

/-- Once its data have been saved the block is still there, SHARED if it was MODIFIED. -/
theorem saveBlock_moves (hK : K.Plain) (hs : s.WellFormed K)
    (hp : s.line K c (address / K.blocksize) ≠ .invalid)
    (hw : s.line K c (address / K.blocksize) = .modified → c.level < K.last →
      Writable K s (K.below c) address) (out_buf : Option (ℕ → Byte)) :
    Sat Abort.notWriteback
      (saveBlock K s c address (s.line K c (address / K.blocksize)) out_buf) fun r =>
      ∃ st, st ≠ .invalid ∧ s.Moves K ((s.line K).assign c (address / K.blocksize) st) r.1 := by
  unfold saveBlock
  split
  · rename_i hm
    exact (writeBackBlock_moves hK hs hm (hw hm) out_buf).mono (fun _ h => h)
      fun r hr => ⟨_, by decide, hr⟩
  · exact ⟨s.line K c (address / K.blocksize), hp,
      (State.Moves.refl hs).congr (View.assign_eq rfl).symm⟩

theorem changeBlock_moves (hK : K.Plain) (hs : s.WellFormed K)
    (hp : s.line K c (address / K.blocksize) ≠ .invalid)
    (hw : s.line K c (address / K.blocksize) = .modified → c.level < K.last →
      Writable K s (K.below c) address) (new : CState) (out_buf : Option (ℕ → Byte)) :
    Sat Abort.notWriteback
      (changeBlock K s c address (s.line K c (address / K.blocksize)) new out_buf) fun r =>
      s.Moves K ((s.line K).assign c (address / K.blocksize) new) r.1 := by
  unfold changeBlock
  split
  · rename_i h
    exact (retrieveInto_moves hs out_buf false).mono (fun _ h => h) fun r hr => hr.congr
      (View.assign_eq h.1.symm).symm
  · -- the block after the data has been saved, valid still
    refine (saveBlock_moves hK hs hp hw out_buf).bind ?_
    · rintro ⟨s', out_buf', buf_written⟩ ⟨st, hst, h⟩
      have assigned : ∀ {s'' : State σ}, s.Moves K ((s.line K).assign c (address / K.blocksize) st)
          s'' → ∀ new', (s''.line K).assign c (address / K.blocksize) new' =
            (s.line K).assign c (address / K.blocksize) new' := by
        intro s'' h new'
        funext d t
        rw [h.line]
        unfold View.assign
        split <;> rfl
      have hp' : ∀ {s'' : State σ}, s.Moves K ((s.line K).assign c (address / K.blocksize) st) s'' →
          s''.line K c (address / K.blocksize) ≠ .invalid := by
        intro s'' h
        rw [h.line, View.assign_self]
        exact hst
      cases new with
      | invalid =>
        refine (retrieveInto_moves h.wellFormed out_buf' buf_written).bind ?_
        intro h' hr
        obtain ⟨s₁, buf₁, written₁⟩ := h'
        have hr' := h.trans (hr.congr h.line)
        simp only
        rw [if_pos (hK.coherent c)]
        exact (invalidateCacheBlock_moves hr'.wellFormed).bind fun s'' hs'' =>
          hr'.trans (hs''.1.congr (assigned hr' _))
      | shared =>
        refine (retrieveInto_moves h.wellFormed out_buf' buf_written).bind fun r hr => ?_
        have hr' := h.trans (hr.congr h.line)
        exact hr'.trans ((setCacheState_moves hr'.wellFormed (by decide) (hp' hr')).congr
          (assigned hr' _))
      | modified =>
        exact h.trans ((setCacheState_moves h.wellFormed (by decide) (hp' h)).congr (assigned h _))
      | sharedUpgrading => exact ⟨by decide, by decide⟩
      | exclusive => exact ⟨by decide, by decide⟩
      | owned => exact ⟨by decide, by decide⟩

theorem changeIfPresent_moves (hK : K.Plain) (hs : s.WellFormed K)
    (hw : s.line K c (address / K.blocksize) = .modified → c.level < K.last →
      Writable K s (K.below c) address) (new : CState) (out_buf : Option (ℕ → Byte)) :
    Sat Abort.notWriteback (changeIfPresent K s c address new out_buf) fun r =>
      s.Moves K (restated K s c address new) r.1 := by
  unfold changeIfPresent
  cases hi : getCacheBlockInfo K s c address with
  | none =>
    refine (State.Moves.refl hs).congr ?_
    have hn := info_none hs hi
    funext d t
    unfold restated View.snoop
    split
    · rename_i h
      rw [h.1, Set.mem_singleton_iff.mp h.2, hn, CState.restate_invalid]
    · rfl
  | some b =>
    have hb := info_some hs hi
    have hp : s.line K c (address / K.blocksize) ≠ .invalid := hb.1 ▸ hb.2
    simp only
    rw [← hb.1, restated_eq hp]
    exact changeBlock_moves hK hs hp hw new out_buf

theorem updateOwnBlock_moves (hK : K.Plain) (hs : s.WellFormed K)
    (hw : s.line K c (address / K.blocksize) = .modified → c.level < K.last →
      Writable K s (K.below c) address) (new : CState) (out_buf : Option (ℕ → Byte)) :
    Sat Abort.notWriteback (updateOwnBlock K s c address new out_buf) fun r =>
      s.Moves K (restated K s c address new) r.1 := by
  refine (changeIfPresent_moves hK hs hw new out_buf).bind ?_
  intro h' h
  obtain ⟨s', out_buf', buf_written⟩ := h'
  refine (sat_require (Q := fun _ => True) (fun _ => trivial)
    fun _ => ⟨by decide, by decide⟩).bind fun _ _ => ?_
  exact (sat_require (Q := fun _ => True) (fun _ => trivial)
    fun _ => ⟨by decide, by decide⟩).bind fun _ _ => h

/-- What `updateCacheBlock` of cache `n` needs to find a place for all the data it saves: within the
subtree MODIFIED blocks are MODIFIED in the next level and nothing is being evicted, and the
write-back of `n` itself has a place. -/
structure SnoopReady (K : Config σ) (s : State σ) (n : CntlrId) (address : ℕ) : Prop where
  wellFormed : s.WellFormed K
  dirty : ∀ d ∈ K.forest.subtree n, ∀ b ∈ K.prevCntlrs d,
    s.line K b (address / K.blocksize) = .modified → s.line K d (address / K.blocksize) = .modified
  evicting : ∀ d ∈ K.forest.subtree n, s.evictingAddress d ≠ some address
  root : s.line K n (address / K.blocksize) = .modified → n.level < K.last →
    Writable K s (K.below n) address

/-- A child is ready when its parent is, and stays so while other subtrees are updated. -/
theorem SnoopReady.child {n j : CntlrId} {S : Set CntlrId} {s' : State σ} {new : CState}
    (hn : n ∉ S) (hS : ∀ d ∈ K.forest.subtree j, d ∉ S) (hj : j ∈ K.prevCntlrs n)
    (h : SnoopReady K s n address)
    (hs' : s.Moves K ((s.line K).snoop S (address / K.blocksize) new) s') :
    SnoopReady K s' j address where
  wellFormed := hs'.wellFormed
  evicting d hd := hs'.evicting ▸ h.evicting d (.child hj hd)
  dirty d hd b hb := by
    have hbj : b ∈ K.forest.subtree j := K.forest.closed_subtree j d hd b hb
    rw [hs'.line, View.snoop_of_not_mem (hS d hd), View.snoop_of_not_mem (hS b hbj)]
    exact h.dirty d (.child hj hd) b hb
  root hm _ := by
    have hjn : K.below j = n := (K.mem_prevCntlrs.mp hj).2.2.2
    rw [hs'.line, View.snoop_of_not_mem (hS j (.self j))] at hm
    refine .inr ⟨?_, ?_⟩
    · rw [hjn, hs'.evicting]
      exact h.evicting n (.self n)
    · rw [hjn, hs'.line, View.snoop_of_not_mem hn]
      exact h.dirty n (.self n) j hj hm

/-- The loop over some caches of one level updates their subtrees one after the other. -/
theorem foldlM_moves {E : Abort → Prop} (f : State σ → CntlrId → Except Abort (State σ))
    {l : List CntlrId} (hl : l.Nodup) {r : ℕ} (hr : ∀ j ∈ l, j.level = r) (hs : s.WellFormed K)
    (new : CState)
    (hf : ∀ j ∈ l, ∀ S, (∀ d ∈ K.forest.subtree j, d ∉ S) → (∀ d ∈ S, d.level ≤ r) → ∀ s',
      s.Moves K ((s.line K).snoop S (address / K.blocksize) new) s' →
        Sat E (f s' j) fun s'' => s'.Moves K
          ((s'.line K).snoop (K.forest.subtree j) (address / K.blocksize) new) s'') :
    Sat E (l.foldlM f s) fun s' =>
      s.Moves K ((s.line K).snoop (K.forest.subtrees l) (address / K.blocksize) new) s' := by
  refine sat_foldlM (fun done s' => s.Moves K
    ((s.line K).snoop (K.forest.subtrees done) (address / K.blocksize) new) s') l s ?_ ?_
  · refine (State.Moves.refl hs).congr ?_
    rw [Forest.subtrees_nil, View.snoop_empty]
  · rintro done j rest s' rfl hs'
    have hj : j ∈ done ++ j :: rest := by simp
    refine (hf j hj _ ?_ ?_ s' hs').mono (fun _ h => h) fun s'' hs'' => ?_
    · -- subtrees of different caches of one level share no cache
      intro d hd h'
      obtain ⟨i, hi, hid⟩ := h'
      have hij : i = j := hid.unique hd
        ((hr i (by simp [hi])).trans (hr j hj).symm)
      subst hij
      exact (List.nodup_append.mp hl).2.2 i hi i (by simp) rfl
    · intro d h'
      obtain ⟨i, hi, hid⟩ := h'
      exact hid.rank_le.trans (hr i (by simp [hi])).le
    · refine (hs'.trans hs'').congr ?_
      rw [hs'.line, View.snoop_union, Forest.subtrees_append]

theorem prevCntlrs_nodup (H : Hierarchy) (c : CntlrId) : (H.prevCntlrs c).Nodup := by
  unfold Hierarchy.prevCntlrs
  split
  · exact List.nodup_nil
  · refine ((List.nodup_range.filter _).map ?_)
    intro i j h
    exact congrArg CntlrId.core h

/-- `updateOwnBlock` of the caches above level `n` takes the block to the new state, or stops with
an error in `E`. -/
def Updates (K : Config σ) (E : Abort → Prop) (n address : ℕ) (new : CState) : Prop :=
  ∀ (c : CntlrId) (s : State σ), c.level < n → s.WellFormed K →
    (s.line K c (address / K.blocksize) = .modified → c.level < K.last →
      Writable K s (K.below c) address) →
    Sat E (updateOwnBlock K s c address new none) fun r =>
      s.Moves K (restated K s c address new) r.1

theorem updates (hK : K.Plain) (n address : ℕ) (new : CState) :
    Updates K Abort.notWriteback n address new :=
  fun _ _ _ hs hw => updateOwnBlock_moves hK hs hw new none

/-- `updateCacheBlock` takes every copy of the line in the subtree to the new state, when
`updateOwnBlock` does so with every single one. -/
theorem updateCacheBlock_sat {E : Abort → Prop} {new : CState} (l : ℕ)
    (hup : Updates K E l address new) :
    ∀ (m : ℕ) (s : State σ) (out_buf : Option (ℕ → Byte)),
      (∀ s', s'.WellFormed K → (s'.line K ⟨l, m⟩ (address / K.blocksize) = .modified → l < K.last →
        Writable K s' (K.below ⟨l, m⟩) address) →
        Sat E (updateOwnBlock K s' ⟨l, m⟩ address new out_buf) fun r =>
          s'.Moves K (restated K s' ⟨l, m⟩ address new) r.1) →
      SnoopReady K s ⟨l, m⟩ address →
      Sat E (updateCacheBlock K l m s address new out_buf) fun r =>
        s.Moves K ((s.line K).snoop (K.forest.subtree ⟨l, m⟩) (address / K.blocksize) new) r.1 := by
  induction l with
  | zero =>
    intro m s out_buf hown h
    refine (hown s h.wellFormed h.root).mono (fun _ h => h) fun r hr => hr.congr ?_
    have hc : K.forest.children ⟨0, m⟩ = [] := rfl
    rw [Forest.subtree_eq, hc, Forest.subtrees_nil, Set.empty_union]
  | succ l ih =>
    intro m s out_buf hown h
    have hlist : (K.prev l m).map (⟨l, ·⟩) = K.prevCntlrs ⟨l + 1, m⟩ := rfl
    have hloop : Sat E ((K.prev l m).foldlM (fun s j => do
        let r ← updateCacheBlock K l j s address new none
        return r.1) s) fun s' => s.Moves K ((s.line K).snoop
          (K.forest.subtrees (K.prevCntlrs ⟨l + 1, m⟩)) (address / K.blocksize) new) s' := by
      let f : State σ → CntlrId → Except Abort (State σ) := fun s j => do
        let r ← updateCacheBlock K l j.core s address new none
        return r.1
      have : Sat E ((K.prevCntlrs ⟨l + 1, m⟩).foldlM f s) fun s' =>
          s.Moves K ((s.line K).snoop (K.forest.subtrees (K.prevCntlrs ⟨l + 1, m⟩))
            (address / K.blocksize) new) s' :=
        foldlM_moves f (prevCntlrs_nodup K.toHierarchy ⟨l + 1, m⟩) (r := l) ?_ h.wellFormed new ?_
      · rw [← hlist, List.foldlM_map] at this
        exact this
      · intro j hj
        simpa using (K.mem_prevCntlrs.mp hj).1
      · intro j hj S hS hlev s' hs'
        have hjl : j = ⟨l, j.core⟩ := by
          have := (K.mem_prevCntlrs.mp hj).1
          rw [← show j.level = l by simpa using this]
        have hn : (⟨l + 1, m⟩ : CntlrId) ∉ S := fun hmem => by
          have := hlev _ hmem
          simp at this
        refine Sat.bind (ih (fun c s hc => hup c s (hc.trans l.lt_succ_self)) j.core s' none
          (fun s' => hup _ s' l.lt_succ_self) (hjl ▸ h.child hn hS hj hs')) fun r hr => ?_
        rw [← hjl] at hr
        exact hr
    -- the own block comes last: by then the levels above have written into it
    refine hloop.bind fun s' hs' => ?_
    have hn : (⟨l + 1, m⟩ : CntlrId) ∉ K.forest.subtrees (K.prevCntlrs ⟨l + 1, m⟩) := by
      intro h'
      obtain ⟨j, hj, hc⟩ := h'
      exact Forest.not_covers_of_child (F := K.forest) hj hc
    have hself : s'.line K ⟨l + 1, m⟩ (address / K.blocksize) =
        s.line K ⟨l + 1, m⟩ (address / K.blocksize) := by
      rw [hs'.line, View.snoop_of_not_mem hn]
    refine (hown s' hs'.wellFormed ?_).mono (fun _ h => h) fun r hr => ?_
    · intro hm hl
      have := h.root (hself ▸ hm) hl
      have hbelow : K.below ⟨l + 1, m⟩ ∉ K.forest.subtrees (K.prevCntlrs ⟨l + 1, m⟩) := by
        intro h'
        obtain ⟨j, hj, hc⟩ := h'
        have h1 := hc.rank_le
        have h2 := (K.mem_prevCntlrs.mp hj).1
        simp only [Hierarchy.forest, Hierarchy.below, Hierarchy.node, Hierarchy.nextCntlr] at h1 h2
        omega
      unfold Writable at this ⊢
      rwa [hs'.evicting, hs'.line, View.snoop_of_not_mem hbelow]
    · refine (hs'.trans hr).congr ?_
      rw [restated, hs'.line, View.snoop_union, Forest.subtree_eq]
      rfl

theorem updateCacheBlock_moves (hK : K.Plain) (new : CState) (l m : ℕ) (s : State σ)
    (out_buf : Option (ℕ → Byte)) (h : SnoopReady K s ⟨l, m⟩ address) :
    Sat Abort.notWriteback (updateCacheBlock K l m s address new out_buf) fun r =>
      s.Moves K ((s.line K).snoop (K.forest.subtree ⟨l, m⟩) (address / K.blocksize) new) r.1 :=
  updateCacheBlock_sat l (updates hK l address new) m s out_buf
    (fun _ hs hw => updateOwnBlock_moves hK hs hw new out_buf) h

/-- The previous-level caches of `c` that a loop with this requester updates. -/
def others (K : Config σ) (c : CntlrId) (requester : Option CntlrId) : List CntlrId :=
  (K.prevCntlrs c).filter fun j => decide (some j ≠ requester)

theorem mem_others {requester : Option CntlrId} {j : CntlrId} :
    j ∈ others K c requester ↔ j ∈ K.prevCntlrs c ∧ some j ≠ requester := by
  simp [others]

theorem not_mem_others {requester : Option CntlrId} {d : CntlrId} (h : c.level ≤ d.level) :
    d ∉ K.forest.subtrees (others K c requester) := by
  intro h'
  obtain ⟨j, hj, hc⟩ := h'
  have h1 : d.level ≤ j.level := hc.rank_le
  have h2 := (K.mem_prevCntlrs.mp (mem_others.mp hj).1).1
  omega

/-- `updateCacheBlock` of the previous-level caches, but for the requester. -/
theorem updatePrev_moves {E : Abort → Prop} {new : CState} (hup : Updates K E c.level address new)
    (hs : s.WellFormed K) (requester : Option CntlrId)
    (dirty : ∀ j ∈ K.prevCntlrs c, ∀ d ∈ K.forest.subtree j, ∀ b ∈ K.prevCntlrs d,
      s.line K b (address / K.blocksize) = .modified →
        s.line K d (address / K.blocksize) = .modified)
    (evicting : ∀ d, d.level < c.level → s.evictingAddress d ≠ some address)
    (root : ∀ j ∈ others K c requester, s.line K j (address / K.blocksize) = .modified →
      Writable K s c address) :
    Sat E (updatePrev K s c requester address new) fun s' =>
      s.Moves K ((s.line K).snoop (K.forest.subtrees (others K c requester))
        (address / K.blocksize) new) s' := by
  refine foldlM_moves _ ((prevCntlrs_nodup K.toHierarchy c).filter _)
    (r := c.level - 1) ?_ hs new ?_
  · intro j hj
    have := (K.mem_prevCntlrs.mp (mem_others.mp hj).1).1
    omega
  · intro j hj S hS hlev s' hs'
    have hjc := K.mem_prevCntlrs.mp (mem_others.mp hj).1
    have hcS : c ∉ S := fun h => by
      have := hlev c h
      omega
    have hjl : j.level < c.level := by omega
    refine Sat.bind (updateCacheBlock_sat j.level (fun d s hd => hup d s (hd.trans hjl)) j.core s'
      none (fun s' => hup _ s' hjl) ?_) fun r hr => hr
    refine ⟨hs'.wellFormed, ?_, ?_, ?_⟩
    · intro d hd b hb
      have hbj : b ∈ K.forest.subtree j := K.forest.closed_subtree j d hd b hb
      rw [hs'.line, View.snoop_of_not_mem (hS d hd), View.snoop_of_not_mem (hS b hbj)]
      exact dirty j (mem_others.mp hj).1 d hd b hb
    · intro d hd
      rw [hs'.evicting]
      have : d.level ≤ j.level := Forest.Covers.rank_le hd
      exact evicting d (by omega)
    · intro hm _
      rw [hs'.line, View.snoop_of_not_mem (hS j (.self j))] at hm
      have := root j hj hm
      rw [show (⟨j.level, j.core⟩ : CntlrId) = j from rfl, hjc.2.2.2]
      unfold Writable at this ⊢
      rwa [hs'.evicting, hs'.line, View.snoop_of_not_mem hcS]

end CacheCntlr
end Sniper
