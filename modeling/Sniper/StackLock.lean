import Sniper.CoreAccess
import Sniper.LineView

namespace Sniper
open Outcome

/-- Every cache that some cache sends its write-backs to is write-back itself, but for the last. -/
def Config.MiddleWriteBack {σ : Type} (K : Config σ) : Prop :=
  ∀ o, K.Cntlr o → o.level + 1 < K.last → K.m_cache_writethrough (K.node (K.nextCntlr o)) = false

namespace State

variable {σ : Type} (K : Config σ)

/-- Lock events are only added, and none where no middle cache is write-through. -/
def Logs (s s' : State σ) : Prop :=
  ∃ events, s'.locks = s.locks ++ events ∧ (K.MiddleWriteBack → events = [])

/-- No message was sent besides. -/
structure Silent (s s' : State σ) : Prop where
  sent : s'.sent = s.sent
  logs : s.Logs K s'

variable {K}

theorem Logs.of_eq {s s' : State σ} (h : s'.locks = s.locks) : s.Logs K s' :=
  ⟨[], by rw [h, List.append_nil], fun _ => rfl⟩

theorem Logs.refl (s : State σ) : s.Logs K s := .of_eq rfl

theorem Logs.trans {s s' s'' : State σ} (h : s.Logs K s') (h' : s'.Logs K s'') : s.Logs K s'' := by
  obtain ⟨events, he, hn⟩ := h
  obtain ⟨events', he', hn'⟩ := h'
  refine ⟨events ++ events', by rw [he', he, List.append_assoc], ?_⟩
  intro hK
  rw [hn hK, hn' hK, List.append_nil]

theorem Logs.eq {s s' : State σ} (hK : K.MiddleWriteBack) (h : s.Logs K s') :
    s'.locks = s.locks := by
  obtain ⟨events, he, hn⟩ := h
  rw [he, hn hK, List.append_nil]

theorem Logs.mem {s s' : State σ} (h : s.Logs K s') {e : LockEvent} (he : e ∈ s.locks) :
    e ∈ s'.locks := by
  obtain ⟨events, h, -⟩ := h
  rw [h]
  exact List.mem_append_left events he

theorem Silent.refl (s : State σ) : s.Silent K s := ⟨rfl, .refl s⟩

theorem Silent.trans {s s' s'' : State σ} (h : s.Silent K s') (h' : s'.Silent K s'') :
    s.Silent K s'' :=
  ⟨h'.sent.trans h.sent, h.logs.trans h'.logs⟩

end State

namespace CacheCntlr

variable {σ : Type} {K : Config σ} {s : State σ} {c o : CntlrId} {address : ℕ}

/-- The computation may stop with any error. -/
abbrev Partial {α : Type} (x : Except Abort α) (Q : α → Prop) : Prop := Sat (fun _ => True) x Q

theorem partial_require (p : Prop) [Decidable p] (e : Abort) : Partial (require p e) fun _ => p :=
  sat_require id fun _ => trivial

theorem accessSingleLine_silent (t : AccessType) (buff : Option (ℕ → Byte)) (n : ℕ) (u : Bool) :
    Partial (accessSingleLine K s c address t buff n u) fun r => s.Silent K r.1 := by
  unfold accessSingleLine
  cases (s.m_cache c).accessSingleLine .quiet (K.params c) () address t buff n u with
  | error e => trivial
  | ok r => exact ⟨rfl, .of_eq rfl⟩

theorem invalidateCacheBlock_silent :
    Partial (invalidateCacheBlock K s c address) (s.Silent K) := by
  apply (partial_require _ _).bind
  intro _ _
  apply (partial_require _ _).bind
  intro _ _
  exact ⟨rfl, .of_eq rfl⟩

theorem retrieveCacheBlock_silent (data_buf : ℕ → Byte) (u : Bool) :
    Partial (retrieveCacheBlock K s c address data_buf u) fun r => s.Silent K r.1 := by
  apply (accessSingleLine_silent _ _ _ _).bind
  intro r hr
  apply (partial_require _ _).bind
  intro _ _
  exact hr

theorem writeOwnBlock_silent (offset : ℕ) (data_buf : Option (ℕ → Byte)) (n : ℕ) :
    Partial (writeOwnBlock K s c address offset data_buf n) (s.Silent K) := by
  have store : Partial (writeOwnBlock.store K s c address offset data_buf n) (s.Silent K) := by
    apply (accessSingleLine_silent _ _ _ _).bind
    intro r hr
    apply (partial_require _ _).bind
    intro _ _
    apply (partial_require _ _).bind
    intro _ _
    exact hr
  unfold writeOwnBlock
  split
  · split
    · apply (partial_require _ _).bind
      intro _ _
      exact ⟨rfl, .of_eq rfl⟩
    · exact store
  · exact store

/-- A write takes locks only at a cache that is write-through and not the last. -/
theorem writeCacheBlock_silent (offset : ℕ) (data_buf : Option (ℕ → Byte)) (n r : ℕ) :
    ∀ (s : State σ) (o : CntlrId),
      (K.MiddleWriteBack → 0 < r → K.m_cache_writethrough (K.node o) = false) →
      Partial (writeCacheBlock K r s o address offset data_buf n) (s.Silent K) := by
  induction r with
  | zero =>
    intro s o _
    apply (writeOwnBlock_silent _ _ _).bind
    intro s' hs'
    apply (partial_require _ _).bind
    intro _ _
    exact hs'
  | succ r ih =>
    intro s o hK
    apply (writeOwnBlock_silent _ _ _).bind
    intro s₁ h₁
    by_cases hw : K.m_cache_writethrough (K.node o) = true
    · have hno : ¬K.MiddleWriteBack := by
        intro h
        rw [hK h (Nat.succ_pos r)] at hw
        cases hw
      rw [if_pos hw]
      apply (ih _ (K.nextCntlr o) fun h => absurd h hno).bind
      intro s₂ h₂
      refine ⟨h₂.sent.trans h₁.sent, ?_⟩
      obtain ⟨events₁, he₁, -⟩ := h₁.logs
      obtain ⟨events₂, he₂, -⟩ := h₂.logs
      refine ⟨events₁ ++ [.acquireExclusive (K.getSetLock 1)] ++ events₂ ++
        [.releaseExclusive (K.getSetLock 1)], ?_, fun h => absurd h hno⟩
      change s₂.locks ++ _ = _
      rw [he₂]
      change s₁.locks ++ _ ++ _ ++ _ = _
      rw [he₁]
      simp only [List.append_assoc]
    · rw [if_neg hw]
      exact h₁

theorem writeNext_silent (ho : K.Cntlr o) (offset : ℕ) (data_buf : Option (ℕ → Byte)) (n : ℕ) :
    Partial (writeNext K s o address offset data_buf n) (s.Silent K) := by
  apply writeCacheBlock_silent
  intro hK hr
  exact hK o ho (by omega)

theorem writeBackBlock_silent (hc : K.Cntlr c) (out_buf : Option (ℕ → Byte)) :
    Partial (writeBackBlock K s c address out_buf) fun r => s.Silent K r.1 := by
  unfold writeBackBlock
  split
  · exact ⟨rfl, .of_eq rfl⟩
  · split
    · apply (retrieveCacheBlock_silent _ _).bind
      intro r hr
      apply (writeNext_silent hc _ _ _).bind
      intro s' hs'
      exact hr.trans ⟨hs'.sent, hs'.logs.trans (.of_eq rfl)⟩
    · cases out_buf with
      | none => trivial
      | some buf =>
        apply (retrieveCacheBlock_silent _ _).bind
        intro r hr
        exact ⟨hr.sent, hr.logs.trans (.of_eq rfl)⟩

theorem retrieveInto_silent (out_buf : Option (ℕ → Byte)) (w : Bool) :
    Partial (retrieveInto K s c address out_buf w) fun r => s.Silent K r.1 := by
  cases out_buf with
  | none => exact .refl s
  | some buf =>
    apply (retrieveCacheBlock_silent _ _).bind
    intro r hr
    exact hr

theorem saveBlock_silent (hc : K.Cntlr c) (old : CState) (out_buf : Option (ℕ → Byte)) :
    Partial (saveBlock K s c address old out_buf) fun r => s.Silent K r.1 := by
  unfold saveBlock
  split
  · exact writeBackBlock_silent hc out_buf
  · exact .refl s

theorem changeBlock_silent (hc : K.Cntlr c) (old new : CState) (out_buf : Option (ℕ → Byte)) :
    Partial (changeBlock K s c address old new out_buf) fun r => s.Silent K r.1 := by
  unfold changeBlock
  split
  · exact retrieveInto_silent out_buf false
  · apply (saveBlock_silent hc old out_buf).bind
    intro h h₁
    obtain ⟨s₁, out₁, written₁⟩ := h
    cases new with
    | invalid =>
      apply (retrieveInto_silent out₁ written₁).bind
      intro h h₂
      obtain ⟨s₂, out₂, written₂⟩ := h
      simp only
      split
      · apply invalidateCacheBlock_silent.bind
        intro s₃ h₃
        exact (h₁.trans h₂).trans h₃
      · exact h₁.trans h₂
    | shared =>
      apply (retrieveInto_silent out₁ written₁).bind
      intro h h₂
      obtain ⟨s₂, out₂, written₂⟩ := h
      exact (h₁.trans h₂).trans ⟨rfl, .of_eq rfl⟩
    | modified => exact h₁.trans ⟨rfl, .of_eq rfl⟩
    | sharedUpgrading => trivial
    | exclusive => trivial
    | owned => trivial

theorem updateOwnBlock_silent (hc : K.Cntlr c) (new : CState) (out_buf : Option (ℕ → Byte)) :
    Partial (updateOwnBlock K s c address new out_buf) fun r => s.Silent K r.1 := by
  have change : Partial (changeIfPresent K s c address new out_buf) fun r => s.Silent K r.1 := by
    unfold changeIfPresent
    split
    · exact .refl s
    · exact changeBlock_silent hc _ new out_buf
  apply change.bind
  intro r hr
  apply (partial_require _ _).bind
  intro _ _
  apply (partial_require _ _).bind
  intro _ _
  exact hr

/-- A snoop sends no message, and takes no lock but for write-throughs. -/
theorem updateCacheBlock_silent (new : CState) (l : ℕ) :
    ∀ (m : ℕ) (s : State σ) (out_buf : Option (ℕ → Byte)), K.Cntlr ⟨l, m⟩ →
      Partial (updateCacheBlock K l m s address new out_buf) fun r => s.Silent K r.1 := by
  induction l with
  | zero =>
    intro m s out_buf hc
    exact updateOwnBlock_silent hc new out_buf
  | succ l ih =>
    intro m s out_buf hc
    apply Sat.bind (Q := s.Silent K)
    · apply sat_foldlM (fun _ s' => s.Silent K s') _ _ (.refl s)
      intro done j rest s' hl hs'
      have hj : j ∈ K.prev l m := by
        rw [hl]
        simp
      have hcj : K.Cntlr ⟨l, j⟩ := by
        have hwidth := List.mem_range.mp (List.mem_filter.mp hj).1
        have hlevel := hc.1
        simp only at hlevel
        exact ⟨by simp only; omega, hwidth⟩
      apply Sat.bind (ih j s' none hcj)
      intro r hr
      exact hs'.trans hr
    · intro s' hs'
      apply (updateOwnBlock_silent hc new out_buf).mono (fun _ => id)
      intro r hr
      exact hs'.trans hr

theorem updatePrev_silent (hc : c.level ≤ K.last) (requester : Option CntlrId) (new : CState) :
    Partial (updatePrev K s c requester address new) (s.Silent K) := by
  apply sat_foldlM (fun _ s' => s.Silent K s') _ _ (.refl s)
  intro done j rest s' hl hs'
  have hj : j ∈ (K.prevCntlrs c).filter fun j => decide (some j ≠ requester) := by
    rw [hl]
    simp
  obtain ⟨hlevel, hwidth, -⟩ := K.mem_prevCntlrs.mp (List.mem_filter.mp hj).1
  apply Sat.bind (updateCacheBlock_silent new j.level j.core s' none ⟨by simp only; omega, hwidth⟩)
  intro r hr
  exact hs'.trans hr

theorem putDataToDram_logs (data_buf : ℕ → Byte) :
    Partial (putDataToDram K s address data_buf) (s.Logs K) := by
  unfold putDataToDram
  split
  · split
    · exact .of_eq rfl
    · trivial
  · exact .refl s

theorem getDataFromDram_logs (data_buf : ℕ → Byte) :
    s.Logs K (getDataFromDram K s address data_buf).1 := by
  unfold getDataFromDram
  split
  · exact .of_eq rfl
  · exact .refl s

theorem backInvalidate_logs (hc : c.level ≤ K.last) (evict_buf : ℕ → Byte) :
    Partial (backInvalidate K s c address evict_buf) fun r => s.Logs K r.1 := by
  unfold backInvalidate
  split
  · exact .refl s
  · apply (updatePrev_silent hc none .invalid).bind
    intro s' hs'
    have hlocks := hs'.logs
    exact hlocks.trans (.of_eq rfl)

theorem disposeEvicted_logs (ho : K.Cntlr o) (evict_state : CState) (evict_buf : ℕ → Byte) :
    Partial (disposeEvicted K s o address evict_state evict_buf) (s.Logs K) := by
  unfold disposeEvicted
  simp only
  split
  · exact .refl s
  split
  · apply (partial_require _ _).bind
    intro _ _
    exact .refl s
  split
  · split
    · exact (writeNext_silent ho _ _ _).mono (fun _ => id) fun _ h => h.logs
    · exact .refl s
  split
  · split
    · exact putDataToDram_logs evict_buf
    · exact .refl s
  split
  · exact .of_eq rfl
  · apply (partial_require _ _).bind
    intro _ _
    exact .of_eq rfl

theorem insertCacheBlock_logs (ho : K.Cntlr o) (cstate : CState) (data_buf : Option (ℕ → Byte)) :
    Partial (insertCacheBlock K s o address cstate data_buf) (s.Logs K) := by
  unfold insertCacheBlock
  apply (partial_require _ _).bind
  intro _ _
  simp only
  split
  · exact .of_eq rfl
  · apply (backInvalidate_logs ho.node.1.1 _).bind
    intro r hr
    apply (disposeEvicted_logs ho _ _).bind
    intro s' hs'
    apply (partial_require _ _).bind
    intro _ _
    exact (State.Logs.of_eq rfl).trans (hr.trans hs')

theorem copyDataFromNextLevel_logs (ho : K.Cntlr o) (op : MemOp) :
    Partial (copyDataFromNextLevel K s o op address) (s.Logs K) := by
  unfold copyDataFromNextLevel
  apply (partial_require _ _).bind
  intro _ _
  apply (retrieveCacheBlock_silent _ _).bind
  intro h hr
  obtain ⟨s₁, data_buf⟩ := h
  simp only
  split
  · apply (updateCacheBlock_silent _ _ _ _ _ ho.node.1).bind
    intro r' hr'
    exact hr.logs.trans hr'.logs
  · apply (insertCacheBlock_logs ho _ _).mono (fun _ => id)
    intro s' hs'
    exact hr.logs.trans hs'

theorem initiateDirectoryAccess_logs (op : MemOp) :
    Partial (initiateDirectoryAccess K s o op address) (s.Logs K) := by
  unfold initiateDirectoryAccess
  simp only
  split
  · split
    · split
      · apply (partial_require _ _).bind
        intro _ _
        exact .of_eq rfl
      · apply (partial_require _ _).bind
        intro _ _
        exact .of_eq rfl
    · exact .of_eq rfl
  · exact .of_eq rfl

theorem adjustHit_logs (ho : K.Cntlr o) (op : MemOp) (passthrough : Bool) :
    Partial (adjustHit K s o op address passthrough) fun r => s.Logs K r.1 := by
  unfold adjustHit
  simp only
  split
  · split
    · exact .of_eq rfl
    · apply (insertCacheBlock_logs ho _ _).bind
      intro s' hs'
      exact hs'
  split
  · apply (partial_require _ _).bind
    intro _ _
    exact .of_eq rfl
  · exact .refl s

theorem updatePrev_logs (hc : c.level ≤ K.last) (requester : Option CntlrId) (new : CState) :
    Partial (updatePrev K s c requester address new) (s.Logs K) :=
  (updatePrev_silent hc requester new).mono (fun _ => id) fun _ h => h.logs

theorem snoopOnHit_logs (hc : c.level ≤ K.last) (requester : CntlrId) (op : MemOp) :
    Partial (snoopOnHit K s c requester op address) (s.Logs K) := by
  unfold snoopOnHit
  split
  · exact updatePrev_logs hc _ _
  split
  · exact updatePrev_logs hc _ _
  split
  · exact updatePrev_logs hc _ _
  · exact .refl s

theorem snoopOnUpgrade_logs (hc : c.level ≤ K.last) (requester : CntlrId) :
    Partial (snoopOnUpgrade K s c requester address) (s.Logs K) := by
  unfold snoopOnUpgrade
  split
  · exact updatePrev_logs hc _ _
  · exact .refl s

theorem lastLevelMiss_logs (ho : K.Cntlr o) (requester : CntlrId) (op : MemOp) :
    Partial (lastLevelMiss K s o requester op address) fun r => s.Logs K r.1 := by
  unfold lastLevelMiss
  simp only
  split
  · apply (updatePrev_logs ho.node.1.1 _ _).bind
    intro s' hs'
    exact hs'.trans (.of_eq rfl)
  split
  · split
    · exact .of_eq rfl
    · apply (insertCacheBlock_logs ho _ _).bind
      intro s' hs'
      exact (getDataFromDram_logs K.garbage).trans hs'
  · apply (initiateDirectoryAccess_logs op).bind
    intro s' hs'
    exact hs'

theorem answerHit_logs (hc : c.level ≤ K.last) (requester : CntlrId) (op : MemOp) (u : Bool) :
    Partial (answerHit K s c requester op address u) fun r => s.Logs K r.1 := by
  unfold answerHit
  apply (snoopOnHit_logs hc requester op).bind
  intro s' hs'
  apply (retrieveCacheBlock_silent _ _).bind
  intro r hr
  exact hs'.trans hr.logs

theorem answerMiss_logs (hit_where : HitWhere) :
    Partial (answerMiss K s c address hit_where) fun r => s.Logs K r.1 := by
  unfold answerMiss
  split
  · exact .refl s
  · apply (retrieveCacheBlock_silent _ _).bind
    intro r hr
    exact hr.logs

theorem dropBlock_logs : Partial (dropBlock K s c address) (s.Logs K) := by
  unfold dropBlock
  split
  · exact invalidateCacheBlock_silent.mono (fun _ => id) fun _ h => h.logs
  · exact .refl s

theorem fillFromNextLevel_logs (ho : K.Cntlr o) (op : MemOp) (hit_where : HitWhere) :
    Partial (fillFromNextLevel K s o op address hit_where) (s.Logs K) := by
  unfold fillFromNextLevel
  split
  · exact .refl s
  · exact copyDataFromNextLevel_logs ho op

theorem processShmemReqFromPrevCache_logs (op : MemOp) (count : Bool) (r : ℕ) :
    ∀ (s : State σ) (o requester : CntlrId), K.Cntlr o → o.level + r = K.last →
      Partial (processShmemReqFromPrevCache K r s o requester op address count) fun q =>
        s.Logs K q.1 := by
  -- by the number of levels below; every step appends to the log
  induction r with
  | zero =>
    intro s o requester ho hl
    unfold processShmemReqFromPrevCache
    apply (adjustHit_logs ho op _).bind
    intro h h₁
    obtain ⟨s₁, cache_hit⟩ := h
    cases cache_hit with
    | true =>
      apply (answerHit_logs ho.node.1.1 requester op _).mono (fun _ => id)
      intro q hq
      exact h₁.trans hq
    | false =>
      apply (snoopOnUpgrade_logs ho.node.1.1 requester).bind
      intro s₂ h₂
      apply (lastLevelMiss_logs ho requester op).bind
      intro q hq
      apply (answerMiss_logs q.2).mono (fun _ => id)
      intro q' hq'
      exact (h₁.trans h₂).trans (hq.trans hq')
  | succ r ih =>
    intro s o requester ho hl
    unfold processShmemReqFromPrevCache
    apply (adjustHit_logs ho op _).bind
    intro h h₁
    obtain ⟨s₁, cache_hit⟩ := h
    cases cache_hit with
    | true =>
      apply (answerHit_logs ho.node.1.1 requester op _).mono (fun _ => id)
      intro q hq
      exact h₁.trans hq
    | false =>
      apply (snoopOnUpgrade_logs ho.node.1.1 requester).bind
      intro s₂ h₂
      apply dropBlock_logs.bind
      intro s₃ h₃
      have hlevel : (K.nextCntlr o).level + r = K.last := by
        change o.level + 1 + r = K.last
        omega
      apply (ih s₃ _ o (ho.nextCntlr (by omega)) hlevel).bind
      intro q hq
      apply (fillFromNextLevel_logs ho op q.2).bind
      intro s₄ h₄
      apply (answerMiss_logs q.2).mono (fun _ => id)
      intro q' hq'
      exact ((h₁.trans h₂).trans h₃).trans ((hq.trans h₄).trans hq')

theorem requestNext_logs {a : MemAccess} (ho : K.Cntlr a.cntlr) (count : Bool) :
    Partial (requestNext K s a count) fun q => s.Logs K q.1 := by
  unfold requestNext
  apply (partial_require _ _).bind
  intro _ hl
  apply processShmemReqFromPrevCache_logs a.op count _ s _ a.cntlr (ho.nextCntlr hl)
  change a.cntlr.level + 1 + _ = _
  omega

end CacheCntlr
end Sniper
