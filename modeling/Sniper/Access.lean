import Sniper.Request
import Sniper.CoreAccess

namespace Sniper
open Outcome

namespace CacheCntlr

variable {σ : Type} {K : Config σ} {s : State σ} {c : CntlrId} {address : ℕ} {op : MemOp}

/-- What the first request for an address does, and what any further one does. -/
inductive Asked (K : Config σ) (s : State σ) (op : MemOp) (address : ℕ) (s' : State σ) : Prop where
  | queued (waiters : s.m_directory_waiters address ≠ []) (line : s'.line K = s.line K)
      (requests : requests s'.sent = requests s.sent)
  | shared (waiters : s.m_directory_waiters address = []) (read : op = .read)
      (line : s'.line K = s.line K)
      (requests : requests s'.sent = requests s.sent ++ [⟨.shReq, address, none⟩])
  | upgrade (waiters : s.m_directory_waiters address = []) (write : op ≠ .read)
      (state : s.line K K.llc (address / K.blocksize) = .shared)
      (line : s'.line K = (s.line K).assign K.llc (address / K.blocksize) .sharedUpgrading)
      (requests : requests s'.sent = requests s.sent ++ [⟨.upgradeReq, address, none⟩])
  | exclusive (waiters : s.m_directory_waiters address = []) (write : op ≠ .read)
      (state : s.line K K.llc (address / K.blocksize) = .invalid) (line : s'.line K = s.line K)
      (requests : requests s'.sent = requests s.sent ++ [⟨.exReq, address, none⟩])

theorem processUpgradeReqToDirectory_spec (hs : s.WellFormed K) {s' : State σ}
    (h : processUpgradeReqToDirectory K s address = .ok s') :
    s.line K K.llc (address / K.blocksize) = .shared ∧ s'.WellFormed K ∧
      s'.line K = (s.line K).assign K.llc (address / K.blocksize) .sharedUpgrading ∧
      s'.evictingAddress = s.evictingAddress ∧ s'.m_directory_waiters = s.m_directory_waiters ∧
      requests s'.sent = requests s.sent ++ [⟨.upgradeReq, address, none⟩] := by
  unfold processUpgradeReqToDirectory at h
  simp only [getCacheState_eq] at h
  obtain ⟨_, hstate, h⟩ := bind_eq_ok.mp h
  rw [require_eq_ok] at hstate
  cases h
  have hupgrading : CState.sharedUpgrading ≠ .invalid := by decide
  have hm := setCacheState_moves (c := K.llc) hs hupgrading (by rw [hstate]; decide)
  exact ⟨hstate, hm.wellFormed, hm.line, hm.evicting, hm.waiters,
    (requests_append _ _).trans (congrArg (· ++ _) hm.requests)⟩

theorem initiateDirectoryAccess_spec (hs : s.WellFormed K) {o : CntlrId} {s' : State σ}
    (h : initiateDirectoryAccess K s o op address = .ok s') :
    s'.WellFormed K ∧ s'.evictingAddress = s.evictingAddress ∧
      s'.m_directory_waiters = Function.update s.m_directory_waiters address
        (s.m_directory_waiters address ++ [⟨decide (op ≠ .read), o⟩]) ∧
      Asked K s op address s' := by
  unfold initiateDirectoryAccess at h
  simp only [List.length_append, List.length_singleton, getCacheState_eq] at h
  generalize hs₁ : s.setWaiters address
    (s.m_directory_waiters address ++ [⟨decide (op ≠ .read), o⟩]) = s₁ at h
  have hwf : s₁.WellFormed K := hs₁ ▸ hs
  have hline : s₁.line K = s.line K := by
    rw [← hs₁]
    rfl
  have hsent : s₁.sent = s.sent := by
    rw [← hs₁]
    rfl
  have hev : s₁.evictingAddress = s.evictingAddress := by
    rw [← hs₁]
    rfl
  have hwait : s₁.m_directory_waiters = Function.update s.m_directory_waiters address
      (s.m_directory_waiters address ++ [⟨decide (op ≠ .read), o⟩]) := by
    rw [← hs₁]
    rfl
  -- a core that finds a waiter before it leaves the request to that one
  split at h
  · rename_i hlen
    have hnil : s.m_directory_waiters address = [] := by
      rw [← List.length_eq_zero_iff]
      omega
    split at h
    · rename_i hop
      have hop' : op ≠ .read := by simpa using hop
      split at h
      · obtain ⟨hst, h1, h2, h3, h4, h5⟩ := processUpgradeReqToDirectory_spec hwf h
        rw [hline] at hst h2
        rw [hsent] at h5
        exact ⟨h1, h3.trans hev, h4.trans hwait, .upgrade hnil hop' hst h2 h5⟩
      · unfold processExReqToDirectory at h
        obtain ⟨_, hst, h⟩ := bind_eq_ok.mp h
        rw [require_eq_ok, getCacheState_eq, hline] at hst
        cases h
        refine ⟨hwf, hev, hwait, .exclusive hnil hop' hst hline ?_⟩
        rw [State.send, requests_append, hsent]
        rfl
    · rename_i hop
      have hop' : op = .read := by simpa using hop
      cases h
      refine ⟨hwf, hev, hwait, .shared hnil hop' hline ?_⟩
      rw [processShReqToDirectory, State.send, requests_append, hsent]
      rfl
  · rename_i hlen
    cases h
    refine ⟨hwf, hev, hwait, .queued ?_ hline (by rw [hsent])⟩
    intro hnil
    rw [hnil] at hlen
    simp at hlen

theorem lockEvent_moves (hs : s.WellFormed K) (e : LockEvent) :
    s.Moves K (s.line K) (s.lockEvent e) := ⟨hs, rfl, rfl, rfl, rfl⟩

theorem acquireForAccess_moves (hs : s.WellFormed K) (a : MemAccess) :
    Sat Abort.notWriteback (acquireForAccess K s a) fun s' => s.Moves K (s.line K) s' := by
  unfold acquireForAccess
  split
  · exact .refl hs
  · split
    · exact lockEvent_moves hs _
    · exact (sat_require (Q := fun _ => True) (fun _ => trivial)
        fun _ => ⟨by decide, by decide⟩).bind fun _ _ => lockEvent_moves hs _

theorem releaseAfterAccess_moves (hs : s.WellFormed K) (a : MemAccess) :
    Sat Abort.notWriteback (releaseAfterAccess K s a) fun s' => s.Moves K (s.line K) s' := by
  unfold releaseAfterAccess
  split
  · exact .refl hs
  · split
    · exact lockEvent_moves hs _
    · exact (sat_require (Q := fun _ => True) (fun _ => trivial)
        fun _ => ⟨by decide, by decide⟩).bind fun _ _ => lockEvent_moves hs _

theorem accessCache_moves (hK : K.Plain) (hs : s.WellFormed K) (o : CntlrId) (offset : ℕ)
    (data_buf : Option (ℕ → Byte)) (n : ℕ) (u : Bool) :
    Sat Abort.notWriteback (accessCache K s o op address offset data_buf n u) fun x =>
      s.Moves K (s.line K) x.1 := by
  have hacc : ∀ t, Sat Abort.notWriteback
      (accessSingleLine K s (K.node o) (address + offset) t data_buf n u) fun r =>
        s.Moves K (s.line K) r.1 := fun t =>
    (accessSingleLine_moves hs t data_buf n u).mono (fun _ => Overruns.notWriteback)
      fun _ h => h.1
  unfold accessCache
  cases op with
  | read => exact (hacc .load).bind fun r hr => hr
  | readEx => exact (hacc .load).bind fun r hr => hr
  | write =>
    refine (hacc .store).bind ?_
    intro h' hr
    obtain ⟨s', buf, info⟩ := h'
    simp only
    rw [if_neg (by simp [hK.writeback])]
    exact hr

theorem finishAccess_moves (hK : K.Plain) (hs : s.WellFormed K) (a : MemAccess) (hw : HitWhere) :
    Sat Abort.notWriteback (finishAccess K s a hw) fun x =>
      s.Moves K (s.line K) x.1 ∧ ∃ buf, x.2 = .returned buf hw := by
  refine (accessCache_moves hK hs _ _ _ _ _).bind ?_
  intro h h₁
  obtain ⟨s₁, buf⟩ := h
  refine (releaseAfterAccess_moves h₁.wellFormed a).bind fun s₂ h₂ => ?_
  exact ⟨h₁.trans (h₂.congr h₁.line), buf, rfl⟩

/-- From state `s`, in which the first-level cache has not the line, it is fetched from below. -/
structure Fetched (K : Config σ) (a : MemAccess) (s s₁ s' : State σ) : Prop where
  served : Served K ∅ (K.last - (a.cntlr.level + 1)) (K.nextCntlr a.cntlr) a.cntlr a.op
    (a.ca_address / K.blocksize) s s₁
  moves : s₁.Moves K (s'.line K) s'
  filled : View.Filled K.toHierarchy (K.node a.cntlr) (a.ca_address / K.blocksize)
    (s₁.line K (K.node (K.nextCntlr a.cntlr)) (a.ca_address / K.blocksize)) (s₁.line K) (s'.line K)

theorem completeMiss_spec (hK : K.Plain) (hidle : Idle s) {a : MemAccess} (ha : K.Cntlr a.cntlr)
    {s₁ : State σ} (habs : s.line K (K.node a.cntlr) (a.ca_address / K.blocksize) = .invalid)
    (h : Served K ∅ (K.last - (a.cntlr.level + 1)) (K.nextCntlr a.cntlr) a.cntlr a.op
      (a.ca_address / K.blocksize) s s₁) (hw : HitWhere) :
    Sat Abort.notWriteback (completeMiss K s₁ a hw) fun x =>
      Fetched K a s s₁ x.1 ∧ ∃ buf, x.2 = .returned buf hw := by
  unfold completeMiss
  refine (copyDataFromNextLevel_moves hK h.moves.wellFormed (hidle.moves h.moves) ha
    (Inclusive.dirtyBut h.inclusive)
    (h.shrinks (K.node a.cntlr) (Nat.lt_succ_self _) _ habs)).bind ?_
  intro s₂ h'
  obtain ⟨-, h₂, hfill⟩ := h'
  have h₃ : s₁.Moves K (s₂.line K) (if lockAll K a then s₂
      else s₂.lockEvent (.downgrade (K.getSetLock a.ca_address))) := by
    split
    · exact h₂
    · exact h₂.trans (lockEvent_moves h₂.wellFormed _)
  simp only
  generalize (if lockAll K a then s₂
      else s₂.lockEvent (.downgrade (K.getSetLock a.ca_address))) = s₃ at h₃ ⊢
  refine (sat_require (Q := fun _ => True) (fun _ => trivial)
    fun _ => ⟨by decide, by decide⟩).bind fun _ _ => ?_
  refine (finishAccess_moves hK h₃.wellFormed a hw).mono (fun _ h => h) ?_
  intro x h'
  obtain ⟨hx, hbuf⟩ := h'
  have h₄ := h₃.trans hx
  refine ⟨⟨h, ?_, ?_⟩, hbuf⟩
  · rw [hx.line, h₃.line]
    exact h₄.congr h₃.line
  · rw [hx.line, h₃.line]
    exact hfill

/-- A cache without previous levels may drop a line. -/
theorem Inclusion.drop_leaf {v : View} {t : ℕ} (h : Inclusion K.toHierarchy v)
    (hc : K.prevCntlrs c = []) : Inclusion K.toHierarchy (v.assign c t .invalid) := by
  intro d hd b hb u
  have hdc : d ≠ c := by
    rintro rfl
    rw [hc] at hb
    cases hb
  rw [View.assign_of_ne hdc]
  unfold View.assign
  split
  · trivial
  · exact h d hd b hb u

theorem prevCntlrs_nil {c : CntlrId} (h : c.level = 0) : K.prevCntlrs c = [] := by
  unfold Hierarchy.prevCntlrs
  rw [h]

/-- The first-level cache asks the next one, and nobody has asked before. -/
theorem asks_first {a : MemAccess} (ha : K.Cntlr a.cntlr) (hl : a.cntlr.level < K.last)
    (hinc : Inclusion K.toHierarchy (s.line K))
    (habs : s.line K (K.node a.cntlr) (a.ca_address / K.blocksize) = .invalid) :
    Asks K ∅ (K.nextCntlr a.cntlr) a.cntlr a.op (a.ca_address / K.blocksize) s := by
  refine ⟨ha.nextCntlr hl, .of_inclusion hinc _, fun _ h => absurd h (Set.notMem_empty _),
    fun _ h => absurd h (Set.notMem_empty _), ?_⟩
  intro hmem
  have hmaster := (K.mem_prevCntlrs.mp hmem).2.2.1
  have hno : K.node a.cntlr = a.cntlr := by
    unfold Hierarchy.node
    rw [hmaster]
  rwa [hno] at habs

theorem requestNext_spec (hK : K.Plain) (hs : s.WellFormed K) (hidle : Idle s)
    (hinc : Inclusion K.toHierarchy (s.line K)) {a : MemAccess} (ha : K.Cntlr a.cntlr)
    (habs : s.line K (K.node a.cntlr) (a.ca_address / K.blocksize) = .invalid) (count : Bool) :
    Sat Abort.notWriteback (requestNext K s a count) fun x =>
      (x.2 ≠ .miss → Served K ∅ (K.last - (a.cntlr.level + 1)) (K.nextCntlr a.cntlr) a.cntlr a.op
        (a.ca_address / K.blocksize) s x.1) ∧
      (x.2 = .miss → ∃ o' s₁, Missed K ∅ (K.nextCntlr a.cntlr) o' a.op a.ca_address s s₁ x.1) := by
  unfold requestNext
  refine (sat_require (Q := fun _ => a.cntlr.level < K.last) id
    fun _ => ⟨by decide, by decide⟩).bind fun _ hl => ?_
  have h := asks_first ha hl hinc habs
  refine processShmemReqFromPrevCache_spec hK count _ s (K.nextCntlr a.cntlr) a.cntlr ∅ h.cntlr ?_
    hs hidle h.inclusive h.passed h.pending h.requester
  simp only [Hierarchy.nextCntlr]
  omega

/-- The ways a call of `processMemOpFromCore` ends. -/
inductive AccessResult (K : Config σ) (a : MemAccess) (s : State σ) : State σ × Reply → Prop where
  /-- the first-level cache has what is needed -/
  | hit {s' : State σ} {buf} {hw}
      (permits : a.op.permits (s.line K (K.node a.cntlr) (a.ca_address / K.blocksize)) = true)
      (moves : s.Moves K (s.line K) s') : AccessResult K a s (s', .returned buf hw)
  /-- the line is dropped, and fetched from below -/
  | fetched {s₀ s₁ s' : State σ} {buf} {hw}
      (missing : a.op.permits (s.line K (K.node a.cntlr) (a.ca_address / K.blocksize)) = false)
      (drop : s.Moves K
        ((s.line K).assign (K.node a.cntlr) (a.ca_address / K.blocksize) .invalid) s₀)
      (fetched : Fetched K a s₀ s₁ s') : AccessResult K a s (s', .returned buf hw)
  /-- the line is dropped, and the directory has been asked -/
  | waiting {s₀ s₁ s₂ s' : State σ} {o' : CntlrId}
      (missing : a.op.permits (s.line K (K.node a.cntlr) (a.ca_address / K.blocksize)) = false)
      (drop : s.Moves K
        ((s.line K).assign (K.node a.cntlr) (a.ca_address / K.blocksize) .invalid) s₀)
      (missed : Missed K ∅ (K.nextCntlr a.cntlr) o' a.op a.ca_address s₀ s₁ s₂)
      (lock : ∃ e, s' = s₂.lockEvent e) : AccessResult K a s (s', .waiting)

theorem dropForMiss_moves (hs : s.WellFormed K) :
    Sat Abort.notWriteback (dropForMiss K s c address) fun s' =>
      s.Moves K ((s.line K).assign c (address / K.blocksize) .invalid) s' := by
  unfold dropForMiss
  rw [getCacheState_eq]
  split
  · exact (invalidateCacheBlock_moves hs).mono (fun _ h => h) fun _ h => h.1
  · rename_i h
    exact (State.Moves.refl hs).congr (View.assign_eq (not_not.mp h)).symm

theorem processMemOpFromCore_spec (hK : K.Plain) (hs : s.WellFormed K) (hidle : Idle s)
    (hinc : Inclusion K.toHierarchy (s.line K)) {a : MemAccess} (ha : K.Cntlr a.cntlr)
    (hfirst : a.cntlr.level = 0) :
    Sat Abort.notWriteback (processMemOpFromCore K s a) fun x =>
      AccessResult K a s x ∧ a.ca_address % K.blocksize = 0 ∧
        a.offset + a.data_length ≤ K.blocksize := by
  unfold processMemOpFromCore
  refine (sat_require (Q := fun _ => a.ca_address % K.blocksize = 0) id
    fun _ => ⟨by decide, by decide⟩).bind fun _ halign => ?_
  refine (sat_require (Q := fun _ => a.offset + a.data_length ≤ K.blocksize) id
    fun _ => ⟨by decide, by decide⟩).bind fun _ hfits => ?_
  refine (acquireForAccess_moves hs a).bind fun s₀ h₀ => ?_
  have hadjust : adjustHit K s₀ a.cntlr a.op a.ca_address (K.m_passthrough (K.node a.cntlr)) =
      .ok (s₀, a.op.permits (s₀.line K (K.node a.cntlr) (a.ca_address / K.blocksize))) := by
    rw [← Bool.and_true (K.m_passthrough (K.node a.cntlr))]
    exact adjustHit_plain hK a.cntlr true
  rw [hadjust, ok_bind]
  simp only [h₀.line]
  cases hperm : a.op.permits (s.line K (K.node a.cntlr) (a.ca_address / K.blocksize)) with
  | true =>
    rw [if_pos rfl]
    refine (finishAccess_moves hK h₀.wellFormed a _).mono (fun _ h => h) ?_
    rintro ⟨s', reply⟩ ⟨hm, buf, hbuf⟩
    simp only at hm hbuf ⊢
    subst hbuf
    exact ⟨.hit hperm (h₀.trans (hm.congr h₀.line)), halign, hfits⟩
  | false =>
    rw [if_neg (by decide)]
    refine (sat_require (Q := fun _ => True) (fun _ => trivial)
      fun _ => ⟨by decide, by decide⟩).bind fun _ _ => ?_
    -- a miss: the lock is upgraded, the own copy dropped, and the next level asked
    have h₁ : s.Moves K (s.line K) (if lockAll K a then s₀
        else s₀.lockEvent (.upgrade (K.getSetLock a.ca_address))) := by
      split
      · exact h₀
      · exact h₀.trans ((lockEvent_moves h₀.wellFormed _).congr h₀.line)
    generalize (if lockAll K a then s₀
        else s₀.lockEvent (.upgrade (K.getSetLock a.ca_address))) = s₁ at h₁ ⊢
    refine (dropForMiss_moves (c := K.node a.cntlr) h₁.wellFormed).bind fun s₂ h₂ => ?_
    rw [h₁.line] at h₂
    have hdrop := h₁.trans h₂
    have habs : s₂.line K (K.node a.cntlr) (a.ca_address / K.blocksize) = .invalid := by
      rw [hdrop.line, View.assign_self]
    have hinc₂ : Inclusion K.toHierarchy (s₂.line K) := by
      rw [hdrop.line]
      exact Inclusion.drop_leaf hinc (prevCntlrs_nil hfirst)
    refine (requestNext_spec hK hdrop.wellFormed (hidle.moves hdrop) hinc₂ ha habs a.count).bind ?_
    rintro ⟨s₃, hw⟩ ⟨hserved, hmissed⟩
    simp only at hserved hmissed ⊢
    split
    · rename_i hmiss
      obtain ⟨o', s₄, hm⟩ := hmissed hmiss
      exact ⟨.waiting hperm hdrop hm ⟨_, rfl⟩, halign, hfits⟩
    · rename_i hhit
      refine (completeMiss_spec hK (hidle.moves hdrop) ha habs (hserved hhit) hw).mono
        (fun _ h => h) ?_
      rintro ⟨s', reply⟩ ⟨hf, buf, hbuf⟩
      simp only at hf hbuf ⊢
      subst hbuf
      exact ⟨.fetched hperm hdrop hf, halign, hfits⟩

/-- The rest of an access that waited. -/
theorem resumeMemOpFromCore_spec (hK : K.Plain) (hs : s.WellFormed K) (hidle : Idle s)
    (hinc : Inclusion K.toHierarchy (s.line K)) {a : MemAccess} (ha : K.Cntlr a.cntlr)
    (habs : s.line K (K.node a.cntlr) (a.ca_address / K.blocksize) = .invalid) :
    Sat Abort.notWriteback (resumeMemOpFromCore K s a) fun x =>
      ∃ s₁, Fetched K a s s₁ x.1 := by
  unfold resumeMemOpFromCore
  refine (requestNext_spec hK hs hidle hinc ha habs false).bind ?_
  rintro ⟨s₁, hw⟩ ⟨hserved, -⟩
  simp only at hserved ⊢
  refine (sat_require (Q := fun _ => hw ≠ .miss) id fun _ => ⟨by decide, by decide⟩).bind
    fun _ hhit => ?_
  exact (completeMiss_spec hK hidle ha habs (hserved hhit) hw).mono (fun _ h => h)
    fun x hx => ⟨s₁, hx.1⟩

end CacheCntlr
end Sniper
