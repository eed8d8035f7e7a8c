import Sniper.Snoop

namespace Sniper
open Outcome

namespace View

/-- Line `t` goes to `st` in cache `c`, where it may replace another line, which then leaves the
caches above as well. -/
def Filled (H : Hierarchy) (c : CntlrId) (t : ℕ) (st : CState) (v v' : View) : Prop :=
  v' = v.assign c t st ∨ ∃ vt, vt ≠ t ∧ v c vt ≠ .invalid ∧
    v' = (v.assign c t st).snoop (H.forest.subtree c) vt .invalid

variable {H : Hierarchy} {c d : CntlrId} {t t' : ℕ} {st : CState} {v v' : View}

theorem Filled.self (h : Filled H c t st v v') : v' c t = st := by
  rcases h with rfl | ⟨vt, hne, -, rfl⟩
  · exact assign_self
  · rw [snoop_of_ne hne.symm, assign_self]

theorem Filled.of_ne (h : Filled H c t st v v') (hd : d ≠ c) : v' d t = v d t := by
  rcases h with rfl | ⟨vt, hne, -, rfl⟩
  · exact assign_of_ne hd
  · rw [snoop_of_ne hne.symm, assign_of_ne hd]

theorem Filled.shrinks (h : Filled H c t st v v') (hd : d ≠ c) (hv : v d t' = .invalid) :
    v' d t' = .invalid := by
  rcases h with rfl | ⟨vt, hne, -, rfl⟩
  · rwa [assign_of_ne hd]
  · exact snoop_invalid (by rwa [assign_of_ne hd])

theorem Filled.frame (h : Filled H c t st v v') (hd : d ≠ c) :
    v' d t' = v d t' ∨ v' d t' = .invalid := by
  rcases h with rfl | ⟨vt, hne, -, rfl⟩
  · exact .inl (assign_of_ne hd)
  · unfold snoop
    split
    · exact .inr (CState.restate_to_invalid _)
    · exact .inl (assign_of_ne hd)

/-- The other lines of the cache itself stay, or leave. -/
theorem Filled.same_cache (h : Filled H c t st v v') (ht : t' ≠ t) :
    v' c t' = v c t' ∨ v' c t' = .invalid := by
  rcases h with rfl | ⟨vt, hne, -, rfl⟩
  · exact .inl (assign_of_ne_line ht)
  · by_cases hv : t' = vt
    · subst hv
      exact .inr ((snoop_of_mem (H.forest.mem_subtree_self c)).trans (CState.restate_to_invalid _))
    · exact .inl ((snoop_of_ne hv).trans (assign_of_ne_line ht))

theorem Filled.outside (h : Filled H c t st v v') (hd : d ∉ H.forest.subtree c) :
    v' d t' = v d t' := by
  have hdc : d ≠ c := by
    rintro rfl
    exact hd (.self _)
  rcases h with rfl | ⟨vt, hne, -, rfl⟩
  · exact assign_of_ne hdc
  · rw [snoop_of_not_mem hd, assign_of_ne hdc]

end View

namespace CacheCntlr

variable {σ : Type} {K : Config σ} {s : State σ} {c : CntlrId} {address : ℕ}

/-- No cache is evicting a line. -/
def Idle (s : State σ) : Prop := ∀ d, s.evictingAddress d = none

theorem Idle.moves {v : View} {s' : State σ} (h : Idle s) (hm : s.Moves K v s') : Idle s' := by
  intro d
  rw [hm.evicting]
  exact h d

/-- In all lines but `t`, a MODIFIED block is MODIFIED in the next level. -/
def DirtyBut (K : Config σ) (s : State σ) (t : ℕ) : Prop :=
  ∀ vt ≠ t, ∀ d, d.level ≤ K.last → ∀ b ∈ K.prevCntlrs d,
    s.line K b vt = .modified → s.line K d vt = .modified

theorem setEvicting_address (s : State σ) (c : CntlrId) (e : Option (ℕ × (ℕ → Byte))) :
    (s.setEvicting c e).evictingAddress = Function.update s.evictingAddress c (e.map Prod.fst) := by
  funext d
  unfold State.evictingAddress State.setEvicting
  by_cases hd : d = c
  · subst hd
    simp
  · simp [hd]

theorem backInvalidate_moves {E : Abort → Prop} (hup : Updates K E c.level address .invalid)
    (hs : s.WellFormed K) (hidle : Idle s) (hc : c.level ≤ K.last)
    (dirty : ∀ d, d.level ≤ K.last → ∀ b ∈ K.prevCntlrs d, d ≠ c →
      s.line K b (address / K.blocksize) = .modified →
        s.line K d (address / K.blocksize) = .modified)
    (evict_buf : ℕ → Byte) :
    Sat E (backInvalidate K s c address evict_buf) fun r =>
      s.Moves K ((s.line K).snoop (K.forest.subtrees (K.prevCntlrs c)) (address / K.blocksize)
        .invalid) r.1 := by
  unfold backInvalidate
  split
  · rename_i hnil
    rw [hnil, Forest.subtrees_nil, View.snoop_empty]
    exact .refl hs
  · have hall : others K c none = K.prevCntlrs c := by
      simp [others]
    have he := setEvicting_address s c (some (address, evict_buf))
    have hsnoop : Sat E (updatePrev K (s.setEvicting c (some (address, evict_buf))) c none address
        .invalid) _ := updatePrev_moves hup
      (show (s.setEvicting c (some (address, evict_buf))).WellFormed K from hs) none ?_ ?_ ?_
    · rw [hall] at hsnoop
      refine hsnoop.bind fun s' hs' => ⟨hs'.wellFormed, hs'.line, ?_, hs'.waiters, hs'.requests⟩
      change (s'.setEvicting c none).evictingAddress = _
      rw [setEvicting_address, hs'.evicting, he]
      funext d
      by_cases hd : d = c
      · subst hd
        simp [hidle d]
      · simp [hd]
    · intro j hj d hd b hb
      have hdj : d.level ≤ j.level := Forest.Covers.rank_le hd
      have hjc := (K.mem_prevCntlrs.mp hj).1
      refine dirty d (by omega) b hb ?_
      rintro rfl
      exact Forest.not_covers_of_child (F := K.forest) hj hd
    · intro d hd
      rw [he, Function.update_of_ne (by rintro rfl; omega), hidle]
      simp
    · intro j hj _
      refine .inl ?_
      rw [he]
      simp

/-- How a line leaves: the state it had lets it. -/
theorem disposeEvicted_moves (hK : K.Plain) (hs : s.WellFormed K) {o : CntlrId}
    (st : CState) (hw : st = .modified → o.level < K.last →
      Writable K s (K.node (K.nextCntlr o)) address) (evict_buf : ℕ → Byte) :
    Sat Abort.notWriteback (disposeEvicted K s o address st evict_buf) fun s' =>
      s.Moves K (s.line K) s' ∧ (¬o.level < K.last → K.m_dram_cntlr = false →
        st = .modified ∨ st = .shared ∨ st = .exclusive) := by
  have hlevel : (K.node o).level = o.level := rfl
  unfold disposeEvicted
  simp only [hK.perfect, hK.coherent, hK.writeback, hlevel]
  rw [if_neg (by decide), if_neg (by decide)]
  split
  · rename_i hl
    split
    · rename_i hm
      exact (writeNext_moves hK hs (hw hm.2 hl) _).mono (fun _ => Overruns.notWriteback)
        fun s' hs' => ⟨hs', fun h => absurd hl h⟩
    · exact ⟨.refl hs, fun h => absurd hl h⟩
  · split
    · rename_i hd
      split
      · refine Sat.mono (Q := fun s' => s.Moves K (s.line K) s') ?_ (fun _ h => h)
          fun s' hs' => ⟨hs', fun _ h => by rw [hd] at h; cases h⟩
        unfold putDataToDram
        split
        · split
          · exact ⟨hs, rfl, rfl, rfl, rfl⟩
          · exact ⟨by decide, by decide⟩
        · exact .refl hs
      · exact ⟨.refl hs, fun _ h => by rw [hd] at h; cases h⟩
    · split
      · rename_i hm
        refine ⟨⟨hs, rfl, rfl, rfl, ?_⟩, fun _ _ => .inl hm⟩
        rw [State.send, requests_append]
        exact List.append_nil _
      · refine (sat_require (Q := fun _ => st = .shared ∨ st = .exclusive) id
          fun _ => ⟨by decide, by decide⟩).bind fun _ h => ?_
        refine ⟨⟨hs, rfl, rfl, rfl, ?_⟩, fun _ _ => .inr h⟩
        rw [State.send, requests_append]
        exact List.append_nil _

/-- The state right after `insertSingleLine` and `setCacheState`, before the victim is dealt with.
-/
theorem insertSingleLine_moves (hs : s.WellFormed K)
    (habs : s.line K c (address / K.blocksize) = .invalid) {st : CState} (hst : st ≠ .invalid)
    (data_buf : Option (ℕ → Byte)) :
    ∃ evicted, ((s.m_cache c).insertSingleLine .quiet (K.params c) () address data_buf
        K.garbage).evicted = evicted ∧
      s.Moves K (match evicted with
        | none => (s.line K).assign c (address / K.blocksize) st
        | some e => ((s.line K).assign c (address / K.blocksize) st).snoop {c}
            (e.1 / K.blocksize) .invalid)
        (setCacheState K (s.putCache c ((s.m_cache c).insertSingleLine .quiet (K.params c) ()
          address data_buf K.garbage).cache) c address st) ∧
      ∀ e, evicted = some e → e.1 % K.blocksize = 0 ∧ e.1 / K.blocksize ≠ address / K.blocksize ∧
        s.line K c (e.1 / K.blocksize) ≠ .invalid ∧
        e.2.info.cstate = s.line K c (e.1 / K.blocksize) := by
  have hf := Cache.fillSpec (hs c) ((Cache.lineState_eq_invalid (hs c)).mp habs) hst
    data_buf K.garbage
  refine ⟨_, rfl, ?_, fun e he => ⟨(hf.victim e he).1, (hf.victim e he).2.1,
    (hf.victim e he).2.2.2.1, (hf.victim e he).2.2.1⟩⟩
  have hput : setCacheState K (s.putCache c ((s.m_cache c).insertSingleLine .quiet (K.params c) ()
      address data_buf K.garbage).cache) c address st =
      s.putCache c ((((s.m_cache c).insertSingleLine .quiet (K.params c) () address data_buf
        K.garbage).cache).setCState (K.params c) address st) := by
    simp [setCacheState, State.putCache]
  rw [hput]
  refine State.moves_putCache hs hf.wellFormed fun d t => ?_
  have htag : Cache.tagOf (K.params c) address = address / K.blocksize := rfl
  have hbs : (K.params c).blocksize = K.blocksize := rfl
  rw [hf.state, htag, hbs]
  by_cases hd : d = c
  · subst hd
    rw [if_pos rfl]
    cases he : ((s.m_cache d).insertSingleLine .quiet (K.params d) () address data_buf
      K.garbage).evicted with
    | none => simp [View.assign, State.line]
    | some e =>
      have hv := hf.victim e he
      rw [htag, hbs] at hv
      -- an evicted address is the start of its line
      have hev : ∀ t, some e.1 = some (t * K.blocksize) ↔ t = e.1 / K.blocksize := by
        intro t
        rw [Option.some.injEq]
        constructor
        · intro h
          rw [h, Nat.mul_div_cancel _ K.blocksize_pos]
        · rintro rfl
          exact (Nat.div_mul_cancel (Nat.dvd_of_mod_eq_zero hv.1)).symm
      simp only [Option.map_some, hev, View.snoop, View.assign, Set.mem_singleton_iff, and_true,
        true_and, CState.restate_to_invalid]
      split
      · rename_i ht
        rw [if_neg (fun h => hv.2.1 (ht.symm.trans h))]
      · rfl
  · rw [if_neg hd]
    cases ((s.m_cache c).insertSingleLine .quiet (K.params c) () address data_buf
      K.garbage).evicted with
    | none => simp [View.assign, hd]
    | some e => simp [View.snoop, View.assign, hd]

/-- `insertCacheBlock` brings the line in; a line it replaces leaves the whole subtree. It stops
with an error in `E` when the copies above, and the evicted line itself, leave so. -/
theorem insertCacheBlock_sat {E : Abort → Prop} {o : CntlrId}
    (hup : ∀ a, a % K.blocksize = 0 → Updates K E o.level a .invalid)
    (hdispose : ∀ (s : State σ) (a : ℕ) (x : CState) (evict_buf : ℕ → Byte), a % K.blocksize = 0 →
      s.WellFormed K →
      (x = .modified → o.level < K.last → Writable K s (K.node (K.nextCntlr o)) a) →
      Sat E (disposeEvicted K s o a x evict_buf) fun s' => s.Moves K (s.line K) s' ∧
        (¬o.level < K.last → K.m_dram_cntlr = false → x = .modified ∨ x = .shared ∨ x = .exclusive))
    (hthere : s.line K (K.node o) (address / K.blocksize) ≠ .invalid → E .alreadyHaveLine)
    (hs : s.WellFormed K) (hidle : Idle s) (ho : K.Cntlr o)
    (dirty : DirtyBut K s (address / K.blocksize)) {st : CState}
    (hst : st ≠ .invalid) (data_buf : Option (ℕ → Byte)) :
    Sat E (insertCacheBlock K s o address st data_buf) fun s' =>
      s.line K (K.node o) (address / K.blocksize) = .invalid ∧
      s.Moves K (s'.line K) s' ∧
      View.Filled K.toHierarchy (K.node o) (address / K.blocksize) st (s.line K) (s'.line K) ∧
      (¬o.level < K.last → K.m_dram_cntlr = false → ∀ t ≠ address / K.blocksize,
        s'.line K (K.node o) t ≠ s.line K (K.node o) t → s.line K (K.node o) t = .modified ∨
          s.line K (K.node o) t = .shared ∨ s.line K (K.node o) t = .exclusive) := by
  unfold insertCacheBlock
  simp only [getCacheState_eq]
  refine (sat_require (Q := fun _ => s.line K (K.node o) (address / K.blocksize) = .invalid) id
    hthere).bind fun _ habs => ?_
  obtain ⟨evicted, hev, h₁, hv⟩ := insertSingleLine_moves hs habs hst data_buf
  rw [hev]
  generalize setCacheState K (s.putCache (K.node o) ((s.m_cache (K.node o)).insertSingleLine .quiet
    (K.params (K.node o)) () address data_buf K.garbage).cache) (K.node o) address st = s₁ at h₁ ⊢
  cases evicted with
  | none =>
    refine ⟨habs, h₁.congr h₁.line.symm, .inl h₁.line, fun _ _ t ht hne => absurd ?_ hne⟩
    rw [h₁.line]
    exact View.assign_of_ne_line ht
  | some e =>
    obtain ⟨evict_address, e⟩ := e
    obtain ⟨halign, hne, hvalid, hstate⟩ := hv _ rfl
    simp only at halign hne hvalid hstate h₁ ⊢
    have hself : K.node o ∉ K.forest.subtrees (K.prevCntlrs (K.node o)) := by
      intro h'
      obtain ⟨j, hj, hc⟩ := h'
      exact Forest.not_covers_of_child (F := K.forest) hj hc
    -- the evicted line leaves the levels above, each dirty copy into the level below it
    refine (backInvalidate_moves (c := K.node o) (hup _ halign) h₁.wellFormed (hidle.moves h₁)
      ho.1 ?_ e.buf).bind ?_
    · intro d hl b hb hd hm
      rw [h₁.line] at hm ⊢
      rw [View.snoop_of_not_mem (by simpa using hd), View.assign_of_ne_line hne]
      have hbm : s.line K b (evict_address / K.blocksize) = .modified := by
        by_cases hbc : b = K.node o
        · subst hbc
          rw [View.snoop_of_mem (Set.mem_singleton _), CState.restate_to_invalid] at hm
          cases hm
        · rwa [View.snoop_of_not_mem (by simpa using hbc), View.assign_of_ne_line hne] at hm
      exact dirty _ hne d hl b hb hbm
    intro h' h₂
    obtain ⟨s₂, evict_buf⟩ := h'
    have h₂' : s₁.Moves K _ s₂ := h₂
    rw [h₁.line, View.snoop_union] at h₂'
    have hset : ({K.node o} : Set CntlrId) ∪ K.forest.subtrees (K.prevCntlrs (K.node o)) =
        K.forest.subtree (K.node o) := by
      rw [Forest.subtree_eq, Set.union_comm]
      rfl
    rw [hset] at h₂'
    have h₁₂ := h₁.trans h₂'
    -- what is dirty is written to the next level, which still has the line
    refine (hdispose s₂ evict_address e.info.cstate evict_buf halign h₁₂.wellFormed ?_).bind
      fun s₃ h₃ => ?_
    · intro hm hl
      refine .inr ⟨?_, ?_⟩
      · rw [hidle.moves h₁₂]
        simp
      · have hmem := ho.node_mem hl
        have hout : K.node (K.nextCntlr o) ∉ K.forest.subtree (K.node o) := by
          intro h
          exact Forest.not_covers_of_child (F := K.forest) hmem h
        rw [h₁₂.line, View.snoop_of_not_mem hout, View.assign_of_ne_line hne]
        exact dirty _ hne _ hl _ hmem (hstate ▸ hm)
    have h := h₁₂.trans (h₃.1.congr h₁₂.line)
    have hgone : s₃.line K (K.node o) (evict_address / K.blocksize) = .invalid := by
      rw [h.line, View.snoop_of_mem (.self _), CState.restate_to_invalid]
    rw [require_true _ hgone]
    refine ⟨habs, h.congr h.line.symm, .inr ⟨_, hne, hvalid, h.line⟩, ?_⟩
    intro hl hd t ht hdiff
    -- at the last level no other line has changed
    have htv : t = evict_address / K.blocksize := by
      by_contra hc
      exact hdiff (by rw [h.line, View.snoop_of_ne hc, View.assign_of_ne_line ht])
    subst htv
    rw [← hstate]
    exact h₃.2 hl hd

theorem insertCacheBlock_moves (hK : K.Plain) (hs : s.WellFormed K) (hidle : Idle s) {o : CntlrId}
    (ho : K.Cntlr o) (dirty : DirtyBut K s (address / K.blocksize)) {st : CState}
    (hst : st ≠ .invalid) (data_buf : Option (ℕ → Byte)) :
    Sat Abort.notWriteback (insertCacheBlock K s o address st data_buf) fun s' =>
      s.line K (K.node o) (address / K.blocksize) = .invalid ∧
      s.Moves K (s'.line K) s' ∧
      View.Filled K.toHierarchy (K.node o) (address / K.blocksize) st (s.line K) (s'.line K) ∧
      (¬o.level < K.last → K.m_dram_cntlr = false → ∀ t ≠ address / K.blocksize,
        s'.line K (K.node o) t ≠ s.line K (K.node o) t → s.line K (K.node o) t = .modified ∨
          s.line K (K.node o) t = .shared ∨ s.line K (K.node o) t = .exclusive) :=
  insertCacheBlock_sat (fun a _ => updates hK _ a _)
    (fun _ _ x evict_buf _ hs hw => disposeEvicted_moves hK hs x hw evict_buf)
    (fun _ => ⟨by decide, by decide⟩) hs hidle ho dirty hst data_buf

/-- The line a miss was served with is copied, in the state it has, from the next level. -/
theorem copyDataFromNextLevel_moves (hK : K.Plain) (hs : s.WellFormed K) (hidle : Idle s)
    {o : CntlrId} (ho : K.Cntlr o) (dirty : DirtyBut K s (address / K.blocksize)) {op : MemOp}
    (habs : s.line K (K.node o) (address / K.blocksize) = .invalid) :
    Sat Abort.notWriteback (copyDataFromNextLevel K s o op address) fun s' =>
      op.permits (s.line K (K.node (K.nextCntlr o)) (address / K.blocksize)) = true ∧
      s.Moves K (s'.line K) s' ∧
      View.Filled K.toHierarchy (K.node o) (address / K.blocksize)
        (s.line K (K.node (K.nextCntlr o)) (address / K.blocksize)) (s.line K) (s'.line K) := by
  unfold copyDataFromNextLevel
  simp only [getCacheState_eq]
  refine (sat_require (Q := fun _ => op.permits
    (s.line K (K.node (K.nextCntlr o)) (address / K.blocksize)) = true) id
    fun _ => ⟨by decide, by decide⟩).bind fun _ hperm => ?_
  refine (retrieveCacheBlock_moves hs _ _).bind ?_
  rintro ⟨s₁, data_buf⟩ ⟨h₁, hp⟩
  simp only at h₁ ⊢
  have hnone : getCacheBlockInfo K s₁ (K.node o) address = none := by
    rw [← Option.not_isSome_iff_eq_none, info_isSome h₁.wellFormed, h₁.line, habs]
    simp
  rw [hnone, h₁.line]
  refine (insertCacheBlock_moves hK h₁.wellFormed (hidle.moves h₁) ho ?_ hp _).mono
    (fun _ h => h) ?_
  · intro vt hvt d hl b hb
    rw [h₁.line]
    exact dirty vt hvt d hl b hb
  · intro s' h'
    obtain ⟨-, h₂, hfill, -⟩ := h'
    rw [h₁.line] at hfill
    exact ⟨hperm, h₁.trans h₂, hfill⟩

end CacheCntlr
end Sniper
