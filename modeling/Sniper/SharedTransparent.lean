import Sniper.SharedStack

namespace Sniper
open Outcome

variable {σ : Type} {K : Config σ}

/-- `doPrefetch`, up to its return or up to `waitForNetworkThread`. -/
def CacheCntlr.doPrefetch (K : Config σ) (s : State σ) (o : CntlrId) (prefetch_address : ℕ) :
    Except Abort (State σ × HitWhere) := do
  let s := s.lockEvent (.acquireExclusive (K.getSetLock prefetch_address))
  let (s, hit_where) ← processShmemReqFromPrevCache K (K.last - o.level) s o o .read
    prefetch_address true
  return (s.lockEvent (.releaseExclusive (K.getSetLock prefetch_address)), hit_where)

/-- A call of a core, or a prefetch by a cache of any level. -/
inductive StackOp where
  | access (a : MemAccess)
  | prefetch (o : CntlrId) (prefetch_address : ℕ)

namespace StackOp

/-- What is asked for: a first-level controller's call, or a prefetch of a line. -/
def Enabled (K : Config σ) : StackOp → Prop
  | access a => K.Cntlr a.cntlr ∧ a.cntlr.level = 0
  | prefetch o prefetch_address => K.Cntlr o ∧ prefetch_address % K.blocksize = 0

instance (K : Config σ) (op : StackOp) : Decidable (op.Enabled K) :=
  match op with
  | access a => inferInstanceAs (Decidable (K.Cntlr a.cntlr ∧ a.cntlr.level = 0))
  | prefetch o prefetch_address =>
    inferInstanceAs (Decidable (K.Cntlr o ∧ prefetch_address % K.blocksize = 0))

def exec (K : Config σ) (s : State σ) : StackOp → Except Abort (State σ)
  | access a => Prod.fst <$> CacheCntlr.processMemOpFromCore K s a
  | prefetch o prefetch_address => Prod.fst <$> CacheCntlr.doPrefetch K s o prefetch_address

/-- A flat array knows no prefetches. -/
def step (mem : FlatMemory) : StackOp → FlatMemory
  | access a => mem.step a
  | prefetch _ _ => mem

end StackOp

/-- Cores and prefetchers that work on a hierarchy one after the other. -/
def stackMachine (K : Config σ) : Machine (State σ) StackOp Abort where
  enabled _ op := op.Enabled K
  exec s op := op.exec K s

/-- The array after the operations `ops`; it was zero at the start. -/
def FlatMemory.afterOps (ops : List StackOp) : FlatMemory := ops.foldl StackOp.step fun _ => 0

/-- A write to a line that the own first-level cache may write already and another still holds,
which changes the line. -/
def WritesShared (K : Config σ) (s : State σ) (mem : FlatMemory) (a : MemAccess) : Prop :=
  a.op = .write ∧ CacheCntlr.getCacheState K s (K.node a.cntlr) a.ca_address = .modified ∧
    (mem.step a).line K.blocksize (a.ca_address / K.blocksize) ≠
      mem.line K.blocksize (a.ca_address / K.blocksize) ∧
    ∃ j, K.Node j ∧ j.level = 0 ∧ j ≠ K.node a.cntlr ∧
      CacheCntlr.getCacheState K s j a.ca_address ≠ .invalid

def StackOp.WritesShared (K : Config σ) (s : State σ) (mem : FlatMemory) : StackOp → Prop
  | access a => Sniper.WritesShared K s mem a
  | prefetch _ _ => False

/-- Every first-level copy of a line is what was written there last. -/
def CopiesAgree (K : Config σ) (s : State σ) (mem : FlatMemory) : Prop :=
  ∀ j t x, K.Node j → j.level = 0 → K.blockOf j (s.m_cache j) t = some x →
    x.data = mem.line K.blocksize t

/-- The state that a shared stack is in when the array is `mem`. -/
def Agrees (K : Config σ) (s : State σ) (mem : FlatMemory) : Prop :=
  ∃ X, s.Holds K X ∧ Coherent K (mem.line K.blocksize) X

/-- The contents `X` after the end of the access `a` to line `t`. -/
def Contents.after (K : Config σ) (X : Contents K.blocksize) (mem : FlatMemory) (a : MemAccess)
    (t : ℕ) : Contents K.blocksize :=
  if a.op = .write then
    X.put (K.node a.cntlr) t (some ⟨.modified, (mem.step a).line K.blocksize t⟩)
  else X

namespace CacheCntlr

variable {s : State σ} {X : Contents K.blocksize} {mem : FlatMemory} {a : MemAccess} {t : ℕ}

theorem step_line (ht : a.ca_address = t * K.blocksize)
    (hn : a.offset + a.data_length ≤ K.blocksize) (t' : ℕ) :
    (mem.step a).line K.blocksize t' = if t' = t ∧ a.op = .write then
      Block.write (mem.line K.blocksize t) a.offset a.data_length a.data_buf
    else mem.line K.blocksize t' := by
  unfold FlatMemory.step
  split
  · rename_i hop
    rw [ht, FlatMemory.line_write hn]
    simp only [hop, and_true]
  · rename_i hop
    simp only [hop, and_false, if_false]

/-- The end of an access to a line that the own first-level cache has as it needs it. -/
theorem accessCache_after (hK : K.Shared) (ht : a.ca_address = t * K.blocksize)
    (hn : a.offset + a.data_length ≤ K.blocksize) (h : s.Holds K X) {x : Block K.blocksize}
    (hx : X.block (K.node a.cntlr) t = some x) (hdata : x.data = mem.line K.blocksize t)
    (hperm : a.op.permits x.state = true) (u : Bool) :
    Total (accessCache K s a.cntlr a.op a.ca_address a.offset a.data_buf a.data_length u) fun r =>
      r.2 = mem.answer a ∧ r.1.Holds K (X.after K mem a t) := by
  have hself := @step_line σ K mem a t ht hn t
  unfold accessCache
  simp only [hK.plain.writeback]
  by_cases ho : a.offset < K.blocksize
  · cases hop : a.op with
    | write =>
      rw [hop] at hperm hself
      rw [if_pos ⟨rfl, rfl⟩, ← hdata] at hself
      have hm := CState.writable_iff.mp hperm
      rw [ht]
      apply (access_store_holds hK.stores h hx ho hn a.data_buf u).bind
      intro r h'
      obtain ⟨h₁, hbuf, -⟩ := h'
      rw [hm, ← hself] at h₁
      simp only [if_false, Bool.false_eq_true]
      refine ⟨?_, ?_⟩
      · rw [FlatMemory.answer, if_pos hop]
        exact hbuf
      · rw [Contents.after, if_pos hop]
        exact h₁
    | read | readEx =>
      rw [ht]
      apply (access_load_holds hK.stores h hx ho hn a.data_buf u).bind
      intro r h'
      obtain ⟨h₁, -, hbuf⟩ := h'
      refine ⟨?_, ?_⟩
      · rw [FlatMemory.answer, if_neg (by rw [hop]; decide)]
        refine hbuf.trans ?_
        rw [hdata, ht]
        congr 1
        funext out
        exact FlatMemory.block_read hn out
      · rw [Contents.after, if_neg (by rw [hop]; decide)]
        exact h₁
  · -- no bytes, at the end of the line
    have hzero : a.data_length = 0 := by omega
    have hanswer : mem.answer a = a.data_buf := by
      unfold FlatMemory.answer
      rw [hzero]
      split
      · rfl
      · cases a.data_buf with
        | none => rfl
        | some buf => exact congrArg some (funext fun i => if_neg (Nat.not_lt_zero i))
    have hafter : X.after K mem a t = X := by
      unfold Contents.after
      split
      · rename_i hop
        rw [hop] at hperm
        have hsame : (mem.step a).line K.blocksize t = x.data := by
          rw [hdata, FlatMemory.step, if_pos hop, hzero, FlatMemory.write_empty]
        apply Contents.put_eq
        rw [hx, hsame, ← CState.writable_iff.mp hperm]
      · rfl
    rw [hzero, hanswer, hafter]
    cases a.op with
    | write =>
      apply (access_empty_holds h _ _ _ _).bind
      intro r h'
      simp only [if_false, Bool.false_eq_true]
      exact ⟨h'.2, h'.1⟩
    | read | readEx =>
      apply (access_empty_holds h _ _ _ _).bind
      intro r h'
      exact ⟨h'.2, h'.1⟩

theorem finishAccess_after (hK : K.Shared) (ha : K.Cntlr a.cntlr) (h0 : a.cntlr.level = 0)
    (ht : a.ca_address = t * K.blocksize) (hn : a.offset + a.data_length ≤ K.blocksize)
    (h : s.Holds K X) {x : Block K.blocksize} (hx : X.block (K.node a.cntlr) t = some x)
    (hdata : x.data = mem.line K.blocksize t) (hperm : a.op.permits x.state = true)
    (hit_where : HitWhere) :
    Total (finishAccess K s a hit_where) fun r =>
      r.2 = .returned (mem.answer a) hit_where ∧ r.1.Holds K (X.after K mem a t) := by
  unfold finishAccess
  apply (accessCache_after hK ht hn h hx hdata hperm _).bind
  intro r h'
  obtain ⟨hbuf, h₁⟩ := h'
  have hrelease : Total (releaseAfterAccess K r.1 a) fun s' => s'.Holds K (X.after K mem a t) := by
    unfold releaseAfterAccess
    split
    · exact h₁
    · split
      · exact h₁.lockEvent _
      · rw [require_true _ (prevCntlrs_nil (hK.level (hK.first ha h0)))]
        exact h₁.lockEvent _
  apply hrelease.bind
  intro s₂ h₂
  refine ⟨?_, h₂⟩
  rw [hbuf]

/-- Dropping a block that is not MODIFIED loses nothing. -/
theorem dropForMiss_coherent (hK : K.Shared) (h : s.Holds K X) {m : ℕ → Fin K.blocksize → Byte}
    (hX : Coherent K m X) {i : CntlrId} (hi : i ∈ K.prevCntlrs K.llc) (hclean : ¬X.Dirty t i) :
    Total (dropForMiss K s i (t * K.blocksize)) fun s' => ∃ X', s'.Holds K X' ∧ Coherent K m X' ∧
      X'.block i t = none := by
  unfold dropForMiss
  cases hx : X.block i t with
  | none =>
    rw [getCacheState_of_absent h hx, if_neg (by simp)]
    exact ⟨X, h, hX, hx⟩
  | some x =>
    rw [getCacheState_of_block h hx, if_pos (state_ne_invalid h hx)]
    apply (invalidateCacheBlock_holds h hx fun hm => hclean ((Contents.dirty_iff hx).mpr hm)).mono
      (fun _ => id)
    intro s₁ h₁
    refine ⟨_, h₁, hX.change .put (fun _ _ => rfl) ?_, Contents.put_block_self⟩
    apply (hX.line t).release hi
    refine ⟨.put, Contents.not_dirty Contents.put_block_self, ?_, ?_, fun hd =>
      absurd hd hclean, ?_⟩
    · intro x' hx'
      rw [Contents.put_block_self] at hx'
      cases hx'
    · exact fun j _ hji => Contents.put_block_of_ne hji
    · exact fun _ => Contents.put_block_of_ne (hK.ne_llc (hK.level hi)).symm

/-- The contents `X'` at the end of the access, when they were `X` at its start: it hits, or the
line is fetched. -/
structure Opened (K : Config σ) (mem : FlatMemory) (a : MemAccess) (t : ℕ)
    (X X' : Contents K.blocksize) : Prop where
  coherent : Coherent K (mem.line K.blocksize) X'
  own : ∃ x, X'.block (K.node a.cntlr) t = some x ∧ a.op.permits x.state = true
  from_below : X' = X ∨ a.op.permits (X.state (K.node a.cntlr) t) = false ∧
    (a.op ≠ .read → ∀ j ∈ K.prevCntlrs K.llc, j ≠ K.node a.cntlr → X'.block j t = none)

/-- A call on a shared stack: what it returns, and what it leaves. -/
theorem processMemOpFromCore_after (hK : K.Shared) (ha : K.Cntlr a.cntlr) (h0 : a.cntlr.level = 0)
    (h : s.Holds K X) (hX : Coherent K (mem.line K.blocksize) X) :
    Sat (fun _ => ¬a.Proper K) (processMemOpFromCore K s a) fun r =>
      (∃ hit_where, r.2 = .returned (mem.answer a) hit_where) ∧
      ∃ t X', a.ca_address = t * K.blocksize ∧ a.offset + a.data_length ≤ K.blocksize ∧
        Opened K mem a t X X' ∧ r.1.Holds K (X'.after K mem a t) := by
  have hi := hK.first ha h0
  have hlevel : (K.node a.cntlr).level = 0 := hK.level hi
  unfold processMemOpFromCore
  refine (sat_require (Q := fun _ => a.ca_address % K.blocksize = 0) id
    fun hn hp => hn hp.1).bind fun _ halign => ?_
  refine (sat_require (Q := fun _ => a.offset + a.data_length ≤ K.blocksize) id
    fun hn hp => hn hp.2.1).bind fun _ hlen => ?_
  obtain ⟨t, ht⟩ : ∃ t, a.ca_address = t * K.blocksize :=
    ⟨_, (Nat.div_mul_cancel (Nat.dvd_of_mod_eq_zero halign)).symm⟩
  have hacquire : Total (acquireForAccess K s a) fun s₁ => s₁.Holds K X := by
    unfold acquireForAccess
    split
    · exact h
    · split
      · exact h.lockEvent _
      · rw [require_true _ (prevCntlrs_nil hlevel)]
        exact h.lockEvent _
  refine hacquire.sat.bind fun s₁ h₁ => ?_
  have hadjust : adjustHit K s₁ a.cntlr a.op a.ca_address (K.m_passthrough (K.node a.cntlr)) =
      .ok (s₁, a.op.permits (X.state (K.node a.cntlr) t)) := by
    have hst : getCacheState K s₁ (K.node a.cntlr) a.ca_address = X.state (K.node a.cntlr) t := by
      rw [ht, getCacheState_eq, Nat.mul_div_cancel _ K.blocksize_pos, state_eq h₁]
    unfold adjustHit
    simp only [hK.plain.perfect, hK.plain.passthrough, hst]
    rw [if_neg (by simp), if_neg (by simp)]
    rfl
  rw [hadjust, ok_bind]
  simp only
  split
  · rename_i hperm
    obtain ⟨x, hx, hxs⟩ := Contents.block_of_state (rfl : X.state (K.node a.cntlr) t = _)
      (CState.readable_ne_invalid (MemOp.readable_of_permits hperm))
    have hx' : a.op.permits x.state = true := by
      rw [hxs]
      exact hperm
    apply (finishAccess_after hK ha h0 ht hlen h₁ hx ((hX.line t).first_data _ hi x hx) hx'
      _).sat.mono (fun _ => id)
    intro r h'
    exact ⟨⟨_, h'.1⟩, t, X, ht, hlen, ⟨hX, ⟨x, hx, hx'⟩, .inl rfl⟩, h'.2⟩
  · rename_i hperm
    -- a miss: the own copy goes, the last level answers, and the block is filled from it
    refine (sat_require (Q := fun _ => True) (fun _ => trivial)
      fun hn hp => hn hp.2.2.1).bind fun _ _ => ?_
    have h₂ : (if lockAll K a then s₁ else
        s₁.lockEvent (.upgrade (K.getSetLock a.ca_address))).Holds K X := by
      split
      · exact h₁
      · exact h₁.lockEvent _
    generalize (if lockAll K a then s₁ else
        s₁.lockEvent (.upgrade (K.getSetLock a.ca_address))) = s₂ at h₂ ⊢
    have hclean : ¬X.Dirty t (K.node a.cntlr) := by
      intro hd
      rw [hd, MemOp.permits_modified] at hperm
      exact hperm rfl
    rw [ht]
    apply (dropForMiss_coherent hK h₂ hX hi hclean).sat.bind
    intro s₃ h'
    obtain ⟨X₃, h₃, hX₃, hb₃⟩ := h'
    have hreq : requestNext K s₃ a a.count = processShmemReqFromPrevCache K 0 s₃
        (K.nextCntlr a.cntlr) a.cntlr a.op (t * K.blocksize) a.count := by
      unfold requestNext
      rw [ht, require_true _ (hK.level_lt h0),
        show K.last - (a.cntlr.level + 1) = 0 by rw [h0, hK.last]]
      rfl
    rw [hreq]
    apply (processShmemReqFromPrevCache_ready hK h₃ hX₃ ha h0 hb₃ a.op a.count).sat.bind
    intro r h'
    obtain ⟨hhit, X₄, st, h₄, hr⟩ := h'
    rw [if_neg hhit]
    unfold completeMiss
    rw [ht]
    apply (copyDataFromNextLevel_first hK ha h0 h₄ hr).sat.bind
    intro s₅ h'
    obtain ⟨X₅, h₅, hX₅, hx₅, htaken⟩ := h'
    have h₆ : (if lockAll K a then s₅ else
        s₅.lockEvent (.downgrade (K.getSetLock (t * K.blocksize)))).Holds K X₅ := by
      split
      · exact h₅
      · exact h₅.lockEvent _
    dsimp only
    rw [getCacheState_of_block h₆ hx₅, require_true _ hr.permits]
    apply (finishAccess_after hK ha h0 ht hlen h₆ hx₅ rfl hr.permits _).sat.mono (fun _ => id)
    intro r' h'
    exact ⟨⟨_, h'.1⟩, t, X₅, rfl, hlen, ⟨hX₅, ⟨_, hx₅, hr.permits⟩,
      .inr ⟨Bool.eq_false_iff.mpr hperm, htaken⟩⟩, h'.2⟩

/-- An access that changes nothing of a line that others hold keeps the hierarchy coherent. -/
theorem Opened.after (hK : K.Shared) (hi : K.node a.cntlr ∈ K.prevCntlrs K.llc)
    (ht : a.ca_address = t * K.blocksize) (hn : a.offset + a.data_length ≤ K.blocksize)
    {Y : Contents K.blocksize} (hY : Opened K mem a t X Y)
    (halone : a.op = .write → (mem.step a).line K.blocksize t ≠ mem.line K.blocksize t →
      ∀ j ∈ K.prevCntlrs K.llc, j ≠ K.node a.cntlr → Y.block j t = none) :
    Coherent K ((mem.step a).line K.blocksize) (Y.after K mem a t) := by
  have hX := hY.coherent
  unfold Contents.after
  by_cases hop : a.op = .write
  · rw [if_pos hop]
    have hother : ∀ t', t' ≠ t → (mem.step a).line K.blocksize t' = mem.line K.blocksize t' := by
      intro t' ht'
      rw [step_line ht hn, if_neg fun h' => ht' h'.1]
    have hline := hX.line t
    have hne : K.llc ≠ K.node a.cntlr := (hK.ne_llc (hK.level hi)).symm
    obtain ⟨x, hx, hperm⟩ := hY.own
    rw [hop] at hperm
    have hown : Y.Dirty t (K.node a.cntlr) :=
      (Contents.dirty_iff hx).mpr (CState.writable_iff.mp hperm)
    have hlast : Y.Dirty t K.llc := hline.dirty _ hi hown
    apply hX.change .put hother
    generalize (mem.step a).line K.blocksize t = m' at halone ⊢
    have hkeep : (Y.put (K.node a.cntlr) t (some ⟨.modified, m'⟩)).block K.llc t =
        Y.block K.llc t := Contents.put_block_of_ne hne
    have hdirty : (Y.put (K.node a.cntlr) t (some ⟨.modified, m'⟩)).Dirty t K.llc := by
      unfold Contents.Dirty
      rw [Contents.state_congr hkeep]
      exact hlast
    refine ⟨?_, fun _ _ _ => hdirty, ?_, ?_, fun hd => absurd hdirty hd, ?_⟩
    · intro j _ hnone
      rw [hkeep] at hnone
      exact absurd hlast (Contents.not_dirty hnone)
    · intro j hj y hy
      by_cases hji : j = K.node a.cntlr
      · rw [hji, Contents.put_block_self] at hy
        rw [← Option.some.inj hy]
      · rw [Contents.put_block_of_ne hji] at hy
        by_cases hsame : m' = mem.line K.blocksize t
        · rw [hsame]
          exact hline.first_data j hj y hy
        · rw [halone hop hsame j hj hji] at hy
          cases hy
    · intro hclean
      exact absurd ((Contents.dirty_iff Contents.put_block_self).mpr rfl) (hclean _ hi)
    · intro y hy
      rw [hkeep] at hy
      exact hline.backed y hy
  · rw [if_neg hop, FlatMemory.step, if_neg hop]
    exact hX

/-- One call keeps every copy the last value, unless it is such a write; then another cache is left
with an old copy. -/
theorem agrees_access (hK : K.Shared) (hs : Agrees K s mem) (ha : K.Cntlr a.cntlr)
    (h0 : a.cntlr.level = 0) {s' : State σ}
    (hx : StackOp.exec K s (.access a) = .ok s') :
    (¬WritesShared K s mem a → Agrees K s' (mem.step a)) ∧
      (WritesShared K s mem a → ¬CopiesAgree K s' (mem.step a)) := by
  obtain ⟨X, h, hX⟩ := hs
  have hi := hK.first ha h0
  have hsat := processMemOpFromCore_after hK ha h0 h hX
  cases hp : processMemOpFromCore K s a with
  | error e =>
    simp only [StackOp.exec, hp] at hx
    cases hx
  | ok r =>
    simp only [StackOp.exec, hp] at hx
    obtain rfl : r.1 = s' := Except.ok.inj hx
    obtain ⟨-, t, Y, ht, hn, hopen, h'⟩ := hsat.of_ok hp
    have hstate : ∀ c, getCacheState K s c a.ca_address = X.state c t := by
      intro c
      rw [ht, getCacheState_eq, Nat.mul_div_cancel _ K.blocksize_pos, state_eq h]
    have hdiv : a.ca_address / K.blocksize = t := by
      rw [ht, Nat.mul_div_cancel _ K.blocksize_pos]
    unfold WritesShared
    rw [hdiv]
    simp only [hstate]
    constructor
    · intro hno
      refine ⟨_, h', hopen.after hK hi ht hn ?_⟩
      intro hop hne j hj hji
      rcases hopen.from_below with hhit | hmiss
      · -- a hit: nobody else has the line
        obtain ⟨x, hxY, hperm⟩ := hopen.own
        rw [hop] at hperm
        rw [hhit] at hxY ⊢
        have hm : X.state (K.node a.cntlr) t = .modified := by
          rw [Contents.state_of_block hxY]
          exact CState.writable_iff.mp hperm
        apply block_none_of_state h
        by_contra hv
        obtain ⟨hnode, hj0⟩ := (mem_prevCntlrs_llc hK.last).mp hj
        exact hno ⟨hop, hm, hne, j, hnode, hj0, hji, hv⟩
      · exact hmiss.2 (by rw [hop]; decide) j hj hji
    · intro hbad
      obtain ⟨hop, hm, hne, j, hnode, hj0, hji, hv⟩ := hbad
      have hj := (mem_prevCntlrs_llc hK.last).mpr ⟨hnode, hj0⟩
      have hhit : Y = X := by
        apply hopen.from_below.resolve_right
        intro hmiss
        rw [hm, MemOp.permits_modified] at hmiss
        cases hmiss.1
      obtain ⟨y, hy, -⟩ := Contents.block_of_state (rfl : X.state j t = _) hv
      intro hagree
      have hold := (hX.line t).first_data j hj y hy
      have hnew := hagree j t y hnode hj0 (by
        rw [h'.block, Contents.after, if_pos hop, Contents.put_block_of_ne hji, hhit, hy])
      exact hne (hnew.symm.trans hold)

section prefetch

variable {m : ℕ → Fin K.blocksize → Byte} {o : CntlrId}

theorem adjustHit_read (hK : K.Shared) (h : s.Holds K X) (c : CntlrId) :
    adjustHit K s c .read (t * K.blocksize) (K.m_passthrough (K.node c) && true) =
      .ok (s, MemOp.read.permits (X.state (K.node c) t)) := by
  have hst : getCacheState K s (K.node c) (t * K.blocksize) = X.state (K.node c) t := by
    rw [getCacheState_eq, Nat.mul_div_cancel _ K.blocksize_pos, state_eq h]
  unfold adjustHit
  simp only [hK.plain.perfect, hK.plain.passthrough, hst]
  rw [if_neg (by simp), if_neg (by simp)]
  rfl

/-- A first-level cache fetches the line as for a core, and has nobody to snoop. -/
theorem prefetchFirst_coherent (hK : K.Shared) (ho : K.Cntlr o) (h0 : o.level = 0) (h : s.Holds K X)
    (hX : Coherent K m X) :
    Total (processShmemReqFromPrevCache K 1 s o o .read (t * K.blocksize) true) fun r => ∃ X',
      r.1.Holds K X' ∧ Coherent K m X' := by
  have hi := hK.first ho h0
  have hsnoop : ∀ (s : State σ) (new : CState),
      updatePrev K s (K.node o) (some o) (t * K.blocksize) new = .ok s := by
    intro s new
    unfold updatePrev
    rw [prevCntlrs_nil (hK.level hi)]
    rfl
  unfold processShmemReqFromPrevCache
  simp only [adjustHit_read hK h o, ok_bind]
  split
  · rename_i hperm
    obtain ⟨x, hx, -⟩ := Contents.block_of_state (rfl : X.state (K.node o) t = _)
      (CState.readable_ne_invalid hperm)
    have hhit : snoopOnHit K s (K.node o) o .read (t * K.blocksize) = .ok s := by
      unfold snoopOnHit
      simp only [hsnoop]
      rw [if_neg (by decide)]
      split
      · rfl
      · split <;> rfl
    unfold answerHit
    rw [hhit, ok_bind]
    apply (retrieveCacheBlock_holds hK.stores h hx _ _).bind
    intro r h'
    exact ⟨X, h'.1, hX⟩
  rename_i hperm
  have hup : snoopOnUpgrade K s (K.node o) o (t * K.blocksize) = .ok s := by
    unfold snoopOnUpgrade
    simp only [hsnoop]
    split <;> rfl
  have hdrop : Total (dropBlock K s (K.node o) (t * K.blocksize)) fun s' => ∃ X',
      s'.Holds K X' ∧ Coherent K m X' ∧ X'.block (K.node o) t = none := by
    have hclean : ¬X.Dirty t (K.node o) := by
      intro hd
      rw [hd] at hperm
      exact hperm rfl
    have hmiss := dropForMiss_coherent hK h hX hi hclean
    unfold dropForMiss at hmiss
    unfold dropBlock
    cases hx : X.block (K.node o) t with
    | none =>
      rw [info_of_absent h hx]
      exact ⟨X, h, hX, hx⟩
    | some x =>
      obtain ⟨info, hinfo, -⟩ := info_of_block h hx
      rw [getCacheState_of_block h hx, if_pos (state_ne_invalid h hx)] at hmiss
      rw [hinfo]
      exact hmiss
  simp only [hup, ok_bind]
  apply hdrop.bind
  intro s₁ h'
  obtain ⟨X₁, h₁, hX₁, hb₁⟩ := h'
  apply (processShmemReqFromPrevCache_ready hK h₁ hX₁ ho h0 hb₁ .read true).bind
  intro r h'
  obtain ⟨hhit, X₂, st, h₂, hr⟩ := h'
  unfold fillFromNextLevel answerMiss
  rw [if_neg hhit]
  apply (copyDataFromNextLevel_first hK ho h0 h₂ hr).bind
  intro s₃ h'
  obtain ⟨X₃, h₃, hX₃, hx₃, -⟩ := h'
  rw [if_neg hhit]
  apply (retrieveCacheBlock_holds hK.stores h₃ hx₃ _ _).bind
  intro r' h₄
  exact ⟨X₃, h₄.1, hX₃⟩

/-- The last level snoops all first-level caches for a line that it has MODIFIED. -/
theorem prefetchLast_coherent (hK : K.Shared) (ho : K.node o = K.llc) (h : s.Holds K X)
    (hX : Coherent K m X) :
    Total (processShmemReqFromPrevCache K 0 s o o .read (t * K.blocksize) true) fun r => ∃ X',
      r.1.Holds K X' ∧ Coherent K m X' := by
  have hadjust := adjustHit_read (t := t) hK h o
  rw [ho] at hadjust
  unfold processShmemReqFromPrevCache
  simp only [ho, hadjust, ok_bind]
  split
  · rename_i hperm
    obtain ⟨y, hy, -⟩ := Contents.block_of_state (rfl : X.state K.llc t = _)
      (CState.readable_ne_invalid hperm)
    have shared : Total (updatePrev K s K.llc (some o) (t * K.blocksize) .shared) fun s' =>
        ∃ X' y', s'.Holds K X' ∧ Coherent K m X' ∧ X'.block K.llc t = some y' := by
      apply (updatePrev_snooped hK h (hX.idle _) (hX.line t) (.inr rfl) (some o)).mono (fun _ => id)
      intro s' h'
      obtain ⟨X', h₁, hs⟩ := h'
      obtain ⟨y', hy', -⟩ := Contents.block_of_state
        (hs.last.trans (Contents.state_of_block hy)) (state_ne_invalid h hy)
      exact ⟨X', y', h₁, hX.change hs.only (fun _ _ => rfl) hs.current, hy'⟩
    have hsnoop : Total (snoopOnHit K s K.llc o .read (t * K.blocksize)) fun s' => ∃ X' y',
        s'.Holds K X' ∧ Coherent K m X' ∧ X'.block K.llc t = some y' := by
      unfold snoopOnHit
      rw [if_neg (by decide)]
      split
      · exact shared
      · split
        · exact shared
        · exact ⟨X, y, h, hX, hy⟩
    unfold answerHit
    apply hsnoop.bind
    intro s₁ h'
    obtain ⟨X₁, y₁, h₁, hX₁, hy₁⟩ := h'
    apply (retrieveCacheBlock_holds hK.stores h₁ hy₁ _ _).bind
    intro r h'
    exact ⟨X₁, h'.1, hX₁⟩
  rename_i hperm
  -- what the last level has it can read
  have habs : X.block K.llc t = none := by
    cases hy : X.block K.llc t with
    | none => rfl
    | some y =>
      rw [Contents.state_of_block hy] at hperm
      rcases ((hX.line t).backed y hy).2 with hst | hst <;> rw [hst] at hperm <;>
        exact absurd rfl hperm
  have hup : snoopOnUpgrade K s K.llc o (t * K.blocksize) = .ok s := by
    unfold snoopOnUpgrade
    rw [info_of_absent h habs]
    exact if_neg (by simp)
  have hmiss : ∀ y, X.block K.llc t = some y → MemOp.read.permits y.state = false ∧
      y.data = m t ∧ ∀ j ∈ K.prevCntlrs K.llc, X.block j t = none := by
    intro y hy
    rw [habs] at hy
    cases hy
  simp only [hup, ok_bind]
  apply (lastLevelMiss_coherent hK h hX ho hmiss).bind
  intro r h'
  obtain ⟨hhit, X₂, st, h₂, hX₂, hl, -⟩ := h'
  unfold answerMiss
  rw [if_neg hhit]
  apply (retrieveCacheBlock_holds hK.stores h₂ hl _ _).bind
  intro r' h₃
  exact ⟨X₂, h₃.1, hX₂⟩

/-- A prefetch moves copies only, and no assertion stops it. -/
theorem doPrefetch_agrees (hK : K.Shared) (ho : K.Cntlr o) {prefetch_address : ℕ}
    (ht : prefetch_address % K.blocksize = 0) (hs : Agrees K s mem) :
    Total (doPrefetch K s o prefetch_address) fun r => Agrees K r.1 mem := by
  obtain ⟨X, h, hX⟩ := hs
  obtain ⟨t, rfl⟩ : ∃ t, prefetch_address = t * K.blocksize :=
    ⟨_, (Nat.div_mul_cancel (Nat.dvd_of_mod_eq_zero ht)).symm⟩
  have hreq : ∀ s : State σ, s.Holds K X → Total (processShmemReqFromPrevCache K (K.last - o.level)
      s o o .read (t * K.blocksize) true) fun r => ∃ X', r.1.Holds K X' ∧
        Coherent K (mem.line K.blocksize) X' := by
    intro s h
    by_cases h0 : o.level = 0
    · rw [h0, hK.last]
      exact prefetchFirst_coherent hK ho h0 h hX
    · have hlast : o.level = K.last := by
        have hle := ho.1
        rw [hK.last] at hle ⊢
        omega
      rw [hlast, Nat.sub_self]
      exact prefetchLast_coherent hK (ho.node_last hlast) h hX
  unfold doPrefetch
  apply (hreq _ (h.lockEvent _)).bind
  intro r h'
  obtain ⟨X', h₁, hX'⟩ := h'
  exact ⟨X', h₁.lockEvent _, hX'⟩

end prefetch

theorem agrees_step (hK : K.Shared) {op : StackOp} (hs : Agrees K s mem) (he : op.Enabled K)
    {s' : State σ} (hx : op.exec K s = .ok s') :
    (¬op.WritesShared K s mem → Agrees K s' (op.step mem)) ∧
      (op.WritesShared K s mem → ¬CopiesAgree K s' (op.step mem)) := by
  cases op with
  | access a => exact agrees_access hK hs he.1 he.2 hx
  | prefetch o prefetch_address =>
    refine ⟨fun _ => ?_, fun hw => hw.elim⟩
    have hsat := doPrefetch_agrees hK he.1 he.2 hs
    cases hp : doPrefetch K s o prefetch_address with
    | error e =>
      simp only [StackOp.exec, hp] at hx
      cases hx
    | ok r =>
      simp only [StackOp.exec, hp] at hx
      obtain rfl : r.1 = s' := Except.ok.inj hx
      exact hsat.of_ok hp

end CacheCntlr

theorem Agrees.copies (hK : K.Shared) {s : State σ} {mem : FlatMemory} (h : Agrees K s mem) :
    CopiesAgree K s mem := by
  obtain ⟨X, hX, hc⟩ := h
  intro j t x hj h0 hx
  rw [hX.block] at hx
  exact (hc.line t).first_data j ((mem_prevCntlrs_llc hK.last).mpr ⟨hj, h0⟩) x hx

theorem agrees_init (policy : CntlrId → ℕ → σ) : Agrees K (Sys.init policy).mem fun _ => 0 := by
  refine ⟨⟨fun _ _ => none, fun _ => none, fun _ => none⟩,
    ⟨(Sys.sound_init (K := K) policy).wellFormed, fun c t => ?_, rfl, rfl⟩,
    ⟨fun _ => rfl, fun t => .uncached rfl (fun _ _ => rfl) fun _ => rfl⟩⟩
  exact Cache.block_eq_none.mpr (Sys.line_init policy c t)

/-- Over a shared last level every first-level copy is, in every state of a run, what was written
last by any core, exactly when no call of the run writes a line that it may write already and
another core still holds. -/
theorem copies_agree_iff (K : Config σ) (hK : K.Shared) (policy : CntlrId → ℕ → σ)
    (ops : List StackOp) (s : State σ) (hrun : (stackMachine K).Run (Sys.init policy).mem ops s) :
    (∀ done s₁, done <+: ops → (stackMachine K).Run (Sys.init policy).mem done s₁ →
      CopiesAgree K s₁ (FlatMemory.afterOps done)) ↔
    ∀ done op s₁, done ++ [op] <+: ops → (stackMachine K).Run (Sys.init policy).mem done s₁ →
      ¬op.WritesShared K s₁ (FlatMemory.afterOps done) :=
  hrun.agrees_iff (R := Agrees K) (P := CopiesAgree K) (B := StackOp.WritesShared K) StackOp.step
    (fun _ _ h => h.copies hK)
    (fun _ _ _ _ hs he hx => CacheCntlr.agrees_step hK hs he hx) (agrees_init policy)

/-- At the start nobody may write a line. -/
theorem not_writesShared_init (policy : CntlrId → ℕ → σ) (mem : FlatMemory) (a : MemAccess) :
    ¬WritesShared K (Sys.init policy).mem mem a := by
  intro h
  obtain ⟨-, hm, -⟩ := h
  rw [CacheCntlr.getCacheState_eq, Sys.line_init] at hm
  cases hm

theorem stackMachine_run {H : Hierarchy} {ops : List StackOp} {s : State Unit}
    (hops : ∀ op ∈ ops, op.Enabled (H.oneBlock true))
    (h : ops.foldlM (stackMachine (H.oneBlock true)).exec (Sys.init fun _ _ => ()).mem = .ok s) :
    (stackMachine (H.oneBlock true)).Run (Sys.init fun _ _ => ()).mem ops s := by
  refine Machine.Run.of_foldlM _ ?_ s h
  intro done op rest s' hsplit _
  apply hops op
  rw [hsplit]
  simp

theorem twoCores_shared : ((Hierarchy.funnel 0 2).oneBlock true).Shared :=
  ⟨oneBlock_plain _ _, rfl, rfl, rfl⟩

/-- A core reads the byte that `writeSeven` wrote. -/
def readSeven (core : ℕ) : MemAccess := ⟨⟨0, core⟩, .none, .read, 0, 5, some fun _ => 0, 1, true⟩

/-- The other core prefetches the line, and writes the byte. -/
def writeNine : List StackOp :=
  [.access writeSeven, .prefetch ⟨0, 1⟩ 0,
    .access ⟨⟨0, 1⟩, .none, .write, 0, 5, some fun _ => 9, 1, true⟩]

/-- The first core is left with an old copy. -/
theorem copies_agree_iff_writeNine : ∃ s,
    (stackMachine ((Hierarchy.funnel 0 2).oneBlock true)).Run (Sys.init fun _ _ => ()).mem
      writeNine s ∧
    ¬∀ done s₁, done <+: writeNine →
      (stackMachine ((Hierarchy.funnel 0 2).oneBlock true)).Run
        (Sys.init fun _ _ => ()).mem done s₁ →
      CopiesAgree ((Hierarchy.funnel 0 2).oneBlock true) s₁ (FlatMemory.afterOps done) := by
  have h₂ : ((writeNine.take 2).foldlM (stackMachine ((Hierarchy.funnel 0 2).oneBlock true)).exec
      (Sys.init fun _ _ => ()).mem).toOption.map (fun s =>
        (CacheCntlr.getCacheState ((Hierarchy.funnel 0 2).oneBlock true) s ⟨0, 1⟩ 0,
          CacheCntlr.getCacheState ((Hierarchy.funnel 0 2).oneBlock true) s ⟨0, 0⟩ 0)) =
      some (.modified, .shared) := by decide +kernel
  have h₃ : (writeNine.foldlM (stackMachine ((Hierarchy.funnel 0 2).oneBlock true)).exec
      (Sys.init fun _ _ => ()).mem).toOption.isSome := by decide +kernel
  obtain ⟨s₂, hs₂, hst⟩ := Option.map_eq_some_iff.mp h₂
  obtain ⟨s₃, hs₃⟩ := Option.isSome_iff_exists.mp h₃
  simp only [Prod.mk.injEq] at hst
  have hrun₂ := stackMachine_run (by decide) (toOption_eq_some.mp hs₂)
  have hrun₃ := stackMachine_run (by decide) (toOption_eq_some.mp hs₃)
  refine ⟨s₃, hrun₃, fun hall => ?_⟩
  refine (copies_agree_iff _ twoCores_shared (fun _ _ => ()) _ s₃ hrun₃).mp hall (writeNine.take 2)
    _ s₂ List.prefix_rfl hrun₂ ⟨rfl, hst.1, fun hline => ?_, ?_⟩
  · have hbyte := congrFun hline ⟨5, by decide⟩
    revert hbyte
    decide
  · refine ⟨⟨0, 0⟩, by decide, rfl, by decide, ?_⟩
    change CacheCntlr.getCacheState ((Hierarchy.funnel 0 2).oneBlock true) s₂ ⟨0, 0⟩ 0 ≠ .invalid
    rw [hst.2]
    decide

/-- Until such a write the cores share one flat byte array, whatever is prefetched: a call returns
what was written last by any core, and no assertion stops a proper call or a prefetch. -/
theorem shared_stack_transparent (K : Config σ) (hK : K.Shared) (policy : CntlrId → ℕ → σ)
    (ops : List StackOp) (s : State σ) (hrun : (stackMachine K).Run (Sys.init policy).mem ops s)
    (hno : ∀ done op s₁, done ++ [op] <+: ops → (stackMachine K).Run (Sys.init policy).mem done s₁ →
      ¬op.WritesShared K s₁ (FlatMemory.afterOps done)) :
    (∀ a, (StackOp.access a).Enabled K →
      (∀ s' reply, CacheCntlr.processMemOpFromCore K s a = .ok (s', reply) →
        ∃ hit_where, reply = .returned ((FlatMemory.afterOps ops).answer a) hit_where) ∧
      (a.Proper K → ∃ r, CacheCntlr.processMemOpFromCore K s a = .ok r)) ∧
    ∀ o prefetch_address, (StackOp.prefetch o prefetch_address).Enabled K →
      ∃ r, CacheCntlr.doPrefetch K s o prefetch_address = .ok r := by
  have hagrees : Agrees K s (FlatMemory.afterOps ops) := by
    apply Machine.Run.follows (R := Agrees K) (P := CopiesAgree K) (B := StackOp.WritesShared K)
      StackOp.step ?_ (agrees_init policy) ?_ ops s List.prefix_rfl hrun
    · exact fun _ _ _ _ hs he hx => CacheCntlr.agrees_step hK hs he hx
    · intro done op s₁ hp hr _ hB
      exact absurd hB (hno done op s₁ hp hr)
  constructor
  · intro a ha
    obtain ⟨X, h, hX⟩ := hagrees
    have hsat := CacheCntlr.processMemOpFromCore_after hK ha.1 ha.2 h hX
    refine ⟨fun s' reply hx => (hsat.of_ok hx).1, fun hproper => ?_⟩
    cases hp : CacheCntlr.processMemOpFromCore K s a with
    | error e => exact absurd hproper (hsat.of_error hp)
    | ok r => exact ⟨r, rfl⟩
  · intro o prefetch_address ho
    obtain ⟨r, hr, -⟩ := (CacheCntlr.doPrefetch_agrees hK ho.1 ho.2 hagrees).exists
    exact ⟨r, hr⟩

/-- The second core reads what the first has written. -/
theorem shared_stack_transparent_readSeven :
    ∃ s s' buf hit_where, (stackMachine ((Hierarchy.funnel 0 2).oneBlock true)).Run
      (Sys.init fun _ _ => ()).mem [.access writeSeven] s ∧
      CacheCntlr.processMemOpFromCore ((Hierarchy.funnel 0 2).oneBlock true) s (readSeven 1) =
        .ok (s', .returned (some buf) hit_where) ∧ buf 0 = 7 := by
  have h : ([StackOp.access writeSeven].foldlM
      (stackMachine ((Hierarchy.funnel 0 2).oneBlock true)).exec
      (Sys.init fun _ _ => ()).mem).toOption.isSome := by decide +kernel
  obtain ⟨s, hs⟩ := Option.isSome_iff_exists.mp h
  have hrun := stackMachine_run (by decide) (toOption_eq_some.mp hs)
  have ht := shared_stack_transparent _ twoCores_shared (fun _ _ => ()) _ s hrun ?_
  · obtain ⟨⟨s', reply⟩, hx⟩ := (ht.1 (readSeven 1) ⟨by decide, rfl⟩).2
      ⟨by decide, by decide, by decide, fun h => by cases h⟩
    obtain ⟨hit_where, rfl⟩ := (ht.1 (readSeven 1) ⟨by decide, rfl⟩).1 s' reply hx
    exact ⟨s, s', _, hit_where, hrun, hx, by decide⟩
  · intro done op s₁ hp hr
    have hlen := hp.length_le
    rw [List.length_append, List.length_singleton, List.length_singleton] at hlen
    obtain rfl : done = [] := List.length_eq_zero_iff.mp (by omega)
    rw [Machine.run_nil hr]
    cases op with
    | access a => exact not_writesShared_init _ _ _
    | prefetch o prefetch_address => exact id

end Sniper
