import Sniper.StackLock

namespace Sniper
open Outcome

/-- Whether an access to set `own` has the lock of that set exclusively after an event; `none` when
it acquires the lock of another set, or exclusively one that it has so already. -/
def LockEvent.next (own : ℕ) (held : Bool) : LockEvent → Option Bool
  | .acquireShared set => if set = own then some held else none
  | .acquireExclusive set | .upgrade set => if set = own ∧ held = false then some true else none
  | .releaseShared _ => some held
  | .releaseExclusive set | .downgrade set => some (held && decide (set ≠ own))

namespace State

variable {σ : Type} {own : ℕ} {s s' s'' : State σ} {held held' held'' : Bool}

/-- The events from `s` to `s'` keep to the discipline. -/
def Tracks (own : ℕ) (s : State σ) (held : Bool) (s' : State σ) (held' : Bool) : Prop :=
  ∃ events, s'.locks = s.locks ++ events ∧ events.foldlM (LockEvent.next own) held = some held'

theorem Tracks.of_eq (h : s'.locks = s.locks) : s.Tracks own held s' held :=
  ⟨[], by rw [h, List.append_nil], rfl⟩

theorem Tracks.trans (h : s.Tracks own held s' held') (h' : s'.Tracks own held' s'' held'') :
    s.Tracks own held s'' held'' := by
  obtain ⟨events, he, hf⟩ := h
  obtain ⟨events', he', hf'⟩ := h'
  refine ⟨events ++ events', by rw [he', he, List.append_assoc], ?_⟩
  rw [List.foldlM_append, hf]
  exact hf'

theorem Tracks.event {e : LockEvent} (h : e.next own held = some held') :
    s.Tracks own held (s.lockEvent e) held' := by
  refine ⟨[e], rfl, ?_⟩
  rw [List.foldlM_cons, h]
  rfl

/-- All locks acquired are the own one. -/
theorem Tracks.acquire_own (h : s.Tracks own held s' held') (hs : s.locks = []) {set : ℕ}
    (he : LockEvent.acquireExclusive set ∈ s'.locks) : set = own := by
  obtain ⟨events, hl, hf⟩ := h
  rw [hl, hs, List.nil_append] at he
  clear hl
  induction events generalizing held with
  | nil => cases he
  | cons e events ih =>
    rw [List.foldlM_cons] at hf
    obtain ⟨held₁, hnext, hrest⟩ := Option.bind_eq_some_iff.mp hf
    rcases List.mem_cons.mp he with rfl | he
    · by_contra hne
      rw [LockEvent.next, if_neg fun h => hne h.1] at hnext
      cases hnext
    · exact ih he hrest

end State

namespace CacheCntlr

variable {σ : Type} {K : Config σ} {s : State σ} {a : MemAccess}

section disciplined

variable (hK : K.MiddleWriteBack) (ha : K.Cntlr a.cntlr)
include hK ha

theorem accessCache_locks (u : Bool) :
    Partial (accessCache K s a.cntlr a.op a.ca_address a.offset a.data_buf a.data_length u)
      fun r => r.1.locks = s.locks := by
  have load : Partial (do
      let r ← accessSingleLine K s (K.node a.cntlr) (a.ca_address + a.offset) .load
        a.data_buf a.data_length u
      return (r.1, r.2.1)) fun r => r.1.locks = s.locks := by
    apply (accessSingleLine_silent _ _ _ _).bind
    intro h h₁
    obtain ⟨s₁, buf, info⟩ := h
    exact h₁.logs.eq hK
  cases a.op with
  | read => exact load
  | readEx => exact load
  | write =>
    apply (accessSingleLine_silent _ _ _ _).bind
    intro h h₁
    obtain ⟨s₁, buf, info⟩ := h
    simp only
    split
    · apply (partial_require _ _).bind
      intro _ _
      apply (writeNext_silent ha _ _ _).bind
      intro s₂ h₂
      exact (h₂.logs.eq hK).trans (h₁.logs.eq hK)
    · exact h₁.logs.eq hK

/-- From `accessCache` on: what a call with `LOCK` leaves locked is what `lock_all` says. -/
theorem finishAccess_tracks (hit_where : HitWhere) :
    Partial (finishAccess K s a hit_where) fun r =>
      s.Tracks (K.getSetLock a.ca_address) (lockAll K a) r.1
        (lockAll K a && decide (a.lock_signal = .lock)) := by
  apply (accessCache_locks hK ha _).bind
  intro h h₁
  obtain ⟨s₁, buf⟩ := h
  have release : Partial (releaseAfterAccess K s₁ a) fun s₂ =>
      s₁.Tracks (K.getSetLock a.ca_address) (lockAll K a) s₂
        (lockAll K a && decide (a.lock_signal = .lock)) := by
    unfold releaseAfterAccess
    split
    · rename_i hlock
      simp only [hlock, decide_true, Bool.and_true]
      exact .of_eq rfl
    · rename_i hlock
      simp only [hlock, decide_false, Bool.and_false]
      split
      · exact .event (by simp [LockEvent.next])
      · rename_i hall
        apply (partial_require _ _).bind
        intro _ _
        exact .event (by simp [LockEvent.next, hall])
  apply release.bind
  intro s₂ h₂
  exact (State.Tracks.of_eq h₁).trans h₂

/-- A miss is completed with the lock held exclusively. -/
theorem completeMiss_tracks (hit_where : HitWhere) :
    Partial (completeMiss K s a hit_where) fun r =>
      s.Tracks (K.getSetLock a.ca_address) true r.1
        (lockAll K a && decide (a.lock_signal = .lock)) := by
  apply (copyDataFromNextLevel_logs ha a.op).bind
  intro s₁ h₁
  apply (partial_require _ _).bind
  intro _ _
  apply (finishAccess_tracks hK ha hit_where).mono (fun _ => id)
  intro r hr
  have hdown : s₁.Tracks (K.getSetLock a.ca_address) true
      (if lockAll K a then s₁ else s₁.lockEvent (.downgrade (K.getSetLock a.ca_address)))
      (lockAll K a) := by
    split
    · rename_i hall
      rw [hall]
      exact .of_eq rfl
    · rename_i hall
      exact .event (by simp [LockEvent.next, hall])
  exact ((State.Tracks.of_eq (h₁.eq hK)).trans hdown).trans hr

omit hK ha in
theorem acquireForAccess_tracks :
    Partial (acquireForAccess K s a) fun s' => s.Tracks (K.getSetLock a.ca_address)
      (lockAll K a && decide (a.lock_signal = .unlock)) s' (lockAll K a) := by
  unfold acquireForAccess
  split
  · rename_i hunlock
    simp only [hunlock, decide_true, Bool.and_true]
    exact .of_eq rfl
  · rename_i hunlock
    simp only [hunlock, decide_false, Bool.and_false]
    split
    · rename_i hall
      exact .event (by simp [LockEvent.next, hall])
    · rename_i hall
      apply (partial_require _ _).bind
      intro _ _
      exact .event (by simp [LockEvent.next, hall])

omit hK ha in
theorem dropForMiss_logs : Partial (dropForMiss K s (K.node a.cntlr) a.ca_address) (s.Logs K) := by
  unfold dropForMiss
  split
  · exact invalidateCacheBlock_silent.mono (fun _ => id) fun _ h => h.logs
  · exact .refl s

/-- The whole call. -/
theorem processMemOpFromCore_tracks :
    Partial (processMemOpFromCore K s a) fun r => ∃ held', s.Tracks (K.getSetLock a.ca_address)
      (lockAll K a && decide (a.lock_signal = .unlock)) r.1 held' := by
  apply (partial_require _ _).bind
  intro _ _
  apply (partial_require _ _).bind
  intro _ _
  apply acquireForAccess_tracks.bind
  intro s₁ h₁
  apply (adjustHit_logs ha a.op _).bind
  intro h h₂
  obtain ⟨s₂, cache_hit⟩ := h
  have h₂ := h₁.trans (.of_eq (h₂.eq hK))
  cases cache_hit with
  | true =>
    apply (finishAccess_tracks hK ha _).mono (fun _ => id)
    intro r hr
    exact ⟨_, h₂.trans hr⟩
  | false =>
    apply (partial_require _ _).bind
    intro _ _
    simp only
    have upgrade : s₂.Tracks (K.getSetLock a.ca_address) (lockAll K a)
        (if lockAll K a then s₂ else s₂.lockEvent (.upgrade (K.getSetLock a.ca_address))) true := by
      split
      · rename_i hall
        rw [hall]
        exact .of_eq rfl
      · rename_i hall
        exact .event (by simp [LockEvent.next, hall])
    apply dropForMiss_logs.bind
    intro s₃ h₃
    apply (requestNext_logs ha a.count).bind
    intro h h₄
    obtain ⟨s₄, hit_where⟩ := h
    have h₄ := (h₂.trans upgrade).trans (.of_eq ((h₃.trans h₄).eq hK))
    simp only
    split
    · exact ⟨false, h₄.trans (.event (by simp [LockEvent.next]))⟩
    · apply (completeMiss_tracks hK ha hit_where).mono (fun _ => id)
      intro r hr
      exact ⟨_, h₄.trans hr⟩

/-- The rest of a call that waited, from the exclusive lock that the network thread passes on. -/
theorem resumeMemOpFromCore_tracks :
    Partial (resumeMemOpFromCore K s a) fun r => ∃ held',
      s.Tracks (K.getSetLock a.ca_address) true r.1 held' := by
  apply (requestNext_logs ha false).bind
  intro h h₁
  obtain ⟨s₁, hit_where⟩ := h
  apply (partial_require _ _).bind
  intro _ _
  apply (completeMiss_tracks hK ha hit_where).mono (fun _ => id)
  intro r hr
  exact ⟨_, (State.Tracks.of_eq (h₁.eq hK)).trans hr⟩

end disciplined

end CacheCntlr
end Sniper
