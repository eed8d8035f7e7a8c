import Sniper.PrivateStack
import Sniper.System

namespace Sniper
open Outcome

/-- A flat byte array. -/
abbrev FlatMemory := ℕ → Byte

namespace FlatMemory

def write (mem : FlatMemory) (addr n : ℕ) : Option (ℕ → Byte) → FlatMemory
  | some buf => fun x => if addr ≤ x ∧ x < addr + n then buf (x - addr) else mem x
  | none => mem

def read (mem : FlatMemory) (addr n : ℕ) (out : ℕ → Byte) : ℕ → Byte :=
  fun i => if i < n then mem (addr + i) else out i

/-- The array after an access. -/
def step (mem : FlatMemory) (a : MemAccess) : FlatMemory :=
  if a.op = .write then mem.write (a.ca_address + a.offset) a.data_length a.data_buf else mem

/-- The buffer an access leaves. -/
def answer (mem : FlatMemory) (a : MemAccess) : Option (ℕ → Byte) :=
  if a.op = .write then a.data_buf
  else a.data_buf.map (mem.read (a.ca_address + a.offset) a.data_length)

/-- The array after the accesses `ops`; it was zero at the start. -/
def after (ops : List MemAccess) : FlatMemory := ops.foldl step fun _ => 0

variable (bs : ℕ)

/-- A line of the array. -/
def line (mem : FlatMemory) (t : ℕ) : Fin bs → Byte := fun i => mem (t * bs + i)

variable {bs} {mem : FlatMemory} {t off n : ℕ}

theorem write_empty (addr : ℕ) (buf : Option (ℕ → Byte)) : mem.write addr 0 buf = mem := by
  cases buf with
  | none => rfl
  | some buf =>
    funext x
    exact if_neg (by omega)

/-- A write within line `t`. -/
theorem line_write (hn : off + n ≤ bs) (buf : Option (ℕ → Byte)) (t' : ℕ) :
    (mem.write (t * bs + off) n buf).line bs t' =
      if t' = t then Block.write (mem.line bs t) off n buf else mem.line bs t' := by
  cases buf with
  | none =>
    split
    · subst t'
      rfl
    · rfl
  | some buf =>
    funext i
    have hmem := Cache.mem_dataPtr (v := t') (w := t) hn i.isLt
    simp only [line, write, Block.write, hmem]
    by_cases ht : t' = t
    · subst ht
      simp only [true_and, if_true, Block.patch]
      split
      · exact congrArg buf (by omega)
      · rfl
    · simp only [ht, false_and, if_false]
      rfl

theorem block_read (hn : off + n ≤ bs) (out : ℕ → Byte) :
    Block.read (mem.line bs t) off n out = mem.read (t * bs + off) n out := by
  funext i
  unfold Block.read read line
  by_cases hi : i < n
  · have hoi : off + i < bs := by omega
    rw [dif_pos ⟨hi, hoi⟩, if_pos hi, Nat.add_assoc]
  · rw [dif_neg (fun h => hi h.1), if_neg hi]

end FlatMemory

/-- A call that no assertion stops: it stays in its line, and a write-through of no bytes does not
point past it. -/
def MemAccess.Proper {σ : Type} (K : Config σ) (a : MemAccess) : Prop :=
  a.ca_address % K.blocksize = 0 ∧ a.offset + a.data_length ≤ K.blocksize ∧
    a.lock_signal ≠ .unlock ∧
    (a.op = .write → K.m_cache_writethrough l1d = true → a.offset < K.blocksize)

namespace CacheCntlr

variable {σ : Type} {K : Config σ} {s : State σ} {X : Contents K.blocksize} {mem : FlatMemory}
  {t : ℕ} {op : MemOp} {off n : ℕ}

/-- A write to a line the first level may write. -/
theorem accessCache_write (hK : K.Private) (h : s.Holds K X) (hX : Stack K (mem.line K.blocksize) X)
    {x : Block K.blocksize} (hx : X.block l1d t = some x) (hm : x.state = .modified)
    (ho : off < K.blocksize) (hn : off + n ≤ K.blocksize) (buf : Option (ℕ → Byte)) (u : Bool) :
    Total (accessCache K s l1d .write (t * K.blocksize) off buf n u) fun r => r.2 = buf ∧
      ∃ X', r.1.Holds K X' ∧
        Stack K ((mem.write (t * K.blocksize + off) n buf).line K.blocksize) X' := by
  have hf := hX.fresh t
  obtain ⟨y, hy, hym⟩ := hf.below x hx
  have hline : ∀ t', (mem.write (t * K.blocksize + off) n buf).line K.blocksize t' = _ :=
    FlatMemory.line_write hn buf
  have hother : ∀ t' ≠ t, (mem.write (t * K.blocksize + off) n buf).line K.blocksize t' =
      mem.line K.blocksize t' := fun t' ht' => (hline t').trans (if_neg ht')
  have hself := (hline t).trans (if_pos rfl)
  unfold accessCache
  simp only [hK.node_l1d]
  refine (access_store_holds hK.stores h hx ho hn buf u).bind ?_
  rintro ⟨s₁, buf', info⟩ ⟨h₁, hbuf, -⟩
  simp only at h₁ hbuf ⊢
  subst hbuf
  rw [hm, hf.first_data x hx, ← hself] at h₁
  have hy₁ : (X.put l1d t (some ⟨.modified, (mem.write (t * K.blocksize + off) n buf').line
      K.blocksize t⟩)).block K.llc t = some y := by
    rwa [Contents.put_block_of_ne hK.llc_ne]
  -- the last level gets the bytes now, or has an old MODIFIED block until the write-back
  cases hwt : K.m_cache_writethrough l1d with
  | false =>
    rw [if_neg (by simp)]
    refine ⟨rfl, _, h₁, ⟨hX.idle, fun t' => ?_⟩⟩
    by_cases ht : t' = t
    · subst ht
      rw [Contents.put_block_self, hy₁]
      refine ⟨?_, ?_, ?_, fun h => absurd (hym hm) (h y rfl), ?_⟩
      · intro x' hx'
        cases hx'
        exact ⟨y, rfl, fun _ => hym hm⟩
      · intro x' hx'
        cases hx'
        rfl
      · exact fun y' _ hd => absurd rfl (hd hwt _ rfl)
      · intro y' hy'
        cases hy'
        exact hf.backed y hy
    · rw [Contents.put_block_of_ne_line ht, Contents.put_block_of_ne_line ht, hother t' ht]
      exact hX.fresh t'
  | true =>
    rw [if_pos rfl, require_true _ hK.level_lt]
    refine (writeNext_holds hK h₁ (hX.idle _) hy₁ (hym hm) ho hn buf').bind fun s₂ h₂ => ?_
    rw [hf.last_data y hy (fun hd => by rw [hwt] at hd; cases hd), ← hself] at h₂
    refine ⟨rfl, _, h₂, ⟨hX.idle, fun t' => ?_⟩⟩
    by_cases ht : t' = t
    · subst ht
      rw [Contents.put_block_self, Contents.put_block_of_ne hK.llc_ne.symm, Contents.put_block_self]
      exact .fill (.inr rfl) (hf.backed y hy).1 (fun h => absurd rfl h) (.inr rfl)
    · rw [Contents.put_block_of_ne_line ht, Contents.put_block_of_ne_line ht,
        Contents.put_block_of_ne_line ht, Contents.put_block_of_ne_line ht, hother t' ht]
      exact hX.fresh t'

theorem accessCache_read (hK : K.Private) (h : s.Holds K X) (hX : Stack K (mem.line K.blocksize) X)
    {x : Block K.blocksize} (hx : X.block l1d t = some x) (hop : op ≠ .write)
    (ho : off < K.blocksize) (hn : off + n ≤ K.blocksize) (buf : Option (ℕ → Byte)) (u : Bool) :
    Total (accessCache K s l1d op (t * K.blocksize) off buf n u) fun r =>
      r.2 = buf.map (mem.read (t * K.blocksize + off) n) ∧ r.1.Holds K X := by
  have hload : Total (accessSingleLine K s l1d (t * K.blocksize + off) .load buf n u) fun r =>
      r.2.1 = buf.map (mem.read (t * K.blocksize + off) n) ∧ r.1.Holds K X := by
    refine (access_load_holds hK.stores h hx ho hn buf u).mono (fun _ => id) fun r hr => ⟨?_, hr.1⟩
    rw [hr.2.2, (hX.fresh t).first_data x hx]
    congr 1
    funext out
    exact FlatMemory.block_read hn out
  unfold accessCache
  simp only [hK.node_l1d]
  cases op with
  | write => exact absurd rfl hop
  | read | readEx =>
    refine hload.bind ?_
    intro h' h₁
    obtain ⟨s₁, buf', info⟩ := h'
    exact h₁

/-- An access of no bytes past the end of the line. -/
theorem accessCache_empty (hK : K.Private) (h : s.Holds K X) (he : ∀ c, X.evicting c = none)
    (address : ℕ) (buf : Option (ℕ → Byte)) (u : Bool) :
    Sat (fun _ => op = .write ∧ K.m_cache_writethrough l1d = true)
      (accessCache K s l1d op address off buf 0 u) fun r => r.2 = buf ∧ r.1.Holds K X := by
  unfold accessCache
  simp only [hK.node_l1d]
  cases op with
  | read | readEx =>
    refine (access_empty_holds h _ _ _ _).sat.bind ?_
    rintro ⟨s₁, buf', info⟩ ⟨h₁, hbuf⟩
    exact ⟨hbuf, h₁⟩
  | write =>
    refine (access_empty_holds h _ _ _ _).sat.bind ?_
    rintro ⟨s₁, buf', info⟩ ⟨h₁, hbuf⟩
    simp only at h₁ hbuf ⊢
    split
    · rename_i hwt
      rw [require_true _ hK.level_lt]
      refine ((writeNext_empty hK h₁ (he _) address off buf).mono (fun _ _ => ⟨trivial, hwt⟩)
        fun _ => id).bind fun s₂ h₂ => ⟨hbuf, h₂⟩
    · exact ⟨hbuf, h₁⟩

/-- The end of an access: what it leaves is what the flat array would. -/
theorem accessCache_fresh (hK : K.Private) (h : s.Holds K X)
    (hX : Stack K (mem.line K.blocksize) X) {x : Block K.blocksize} (hx : X.block l1d t = some x)
    (hperm : op.permits x.state = true) (hn : off + n ≤ K.blocksize) (buf : Option (ℕ → Byte))
    (u : Bool) :
    Sat (fun _ => op = .write ∧ K.m_cache_writethrough l1d = true ∧ ¬off < K.blocksize)
      (accessCache K s l1d op (t * K.blocksize) off buf n u) fun r =>
      r.2 = (if op = .write then buf else buf.map (mem.read (t * K.blocksize + off) n)) ∧
      ∃ X', r.1.Holds K X' ∧ Stack K ((if op = .write then
        mem.write (t * K.blocksize + off) n buf else mem).line K.blocksize) X' := by
  by_cases ho : off < K.blocksize
  · by_cases hop : op = .write
    · subst hop
      refine (accessCache_write hK h hX hx (CState.writable_iff.mp hperm) ho hn buf u).sat.mono
        (fun _ => id) fun r hr => ?_
      simpa using hr
    · refine (accessCache_read hK h hX hx hop ho hn buf u).sat.mono (fun _ => id) fun r hr => ?_
      rw [if_neg hop, if_neg hop]
      exact ⟨hr.1, X, hr.2, hX⟩
  · obtain rfl : n = 0 := by omega
    refine (accessCache_empty hK h hX.idle _ buf u).mono
      (fun _ he => ⟨he.1, he.2, ho⟩) fun r hr => ?_
    refine ⟨hr.1.trans ?_, X, hr.2, ?_⟩
    · split
      · rfl
      · cases buf <;> rfl
    · rw [FlatMemory.write_empty, ite_self]
      exact hX

variable {a : MemAccess}

theorem finishAccess_fresh (hK : K.Private) (ha : a.cntlr = l1d)
    (ht : a.ca_address = t * K.blocksize) (h : s.Holds K X)
    (hX : Stack K (mem.line K.blocksize) X) {x : Block K.blocksize} (hx : X.block l1d t = some x)
    (hperm : a.op.permits x.state = true) (hn : a.offset + a.data_length ≤ K.blocksize)
    (hit_where : HitWhere) :
    Sat (fun _ => ¬a.Proper K) (finishAccess K s a hit_where) fun r =>
      r.2 = .returned (mem.answer a) hit_where ∧
      ∃ X', r.1.Holds K X' ∧ Stack K ((mem.step a).line K.blocksize) X' := by
  unfold finishAccess
  simp only [ha, ht]
  refine ((accessCache_fresh hK h hX hx hperm hn a.data_buf _).mono ?_ fun _ => id).bind ?_
  · rintro - ⟨hop, hwt, ho⟩ hproper
    exact ho (hproper.2.2.2 hop hwt)
  rintro ⟨s₁, buf⟩ ⟨hbuf, X₁, h₁, hX₁⟩
  refine Sat.bind (Q := fun s₂ => s₂.Holds K X₁) ?_ fun s₂ h₂ => ?_
  · unfold releaseAfterAccess
    split
    · exact h₁
    · split
      · exact h₁.lockEvent _
      · rw [ha, hK.node_l1d, require_true _ (show K.prevCntlrs l1d = [] from rfl)]
        exact h₁.lockEvent _
  · simp only at hbuf
    refine ⟨?_, X₁, h₂, ?_⟩
    · rw [hbuf, FlatMemory.answer, ht]
    · rw [FlatMemory.step, ht]
      exact hX₁

/-- Dropping a block that is not MODIFIED loses nothing. -/
theorem dropForMiss_fresh (hK : K.Private) (h : s.Holds K X)
    (hX : Stack K (mem.line K.blocksize) X)
    (hm : ∀ x, X.block l1d t = some x → x.state ≠ .modified) :
    Total (dropForMiss K s l1d (t * K.blocksize)) fun s' => ∃ X',
      s'.Holds K X' ∧ Stack K (mem.line K.blocksize) X' ∧ X'.block l1d t = none := by
  unfold dropForMiss
  cases hx : X.block l1d t with
  | none =>
    rw [getCacheState_of_absent h hx, if_neg (by simp)]
    exact ⟨X, h, hX, hx⟩
  | some x =>
    rw [getCacheState_of_block h hx, if_pos (state_ne_invalid h hx)]
    refine (invalidateCacheBlock_holds h hx (hm x hx)).mono (fun _ => id) fun s₁ h₁ =>
      ⟨_, h₁, hX.change (t := t) rfl (fun t' ht' => ?_) ?_, by simp⟩
    · exact ⟨Contents.put_block_of_ne_line ht', Contents.put_block_of_ne_line ht', rfl⟩
    · rw [Contents.put_block_self, Contents.put_block_of_ne hK.llc_ne]
      exact (hX.fresh t).drop_first fun _ => hm

/-- A call on a private stack does what the flat array does. -/
theorem processMemOpFromCore_fresh (hK : K.Private) (ha : a.cntlr = l1d) (h : s.Holds K X)
    (hX : Stack K (mem.line K.blocksize) X) :
    Sat (fun _ => ¬a.Proper K) (processMemOpFromCore K s a) fun r =>
      (∃ hit_where, r.2 = .returned (mem.answer a) hit_where) ∧
      ∃ X', r.1.Holds K X' ∧ Stack K ((mem.step a).line K.blocksize) X' := by
  unfold processMemOpFromCore
  refine (sat_require (Q := fun _ => a.ca_address % K.blocksize = 0) id
    fun hn hp => hn hp.1).bind fun _ halign => ?_
  refine (sat_require (Q := fun _ => a.offset + a.data_length ≤ K.blocksize) id
    fun hn hp => hn hp.2.1).bind fun _ hlen => ?_
  obtain ⟨t, ht⟩ : ∃ t, a.ca_address = t * K.blocksize :=
    ⟨_, (Nat.div_mul_cancel (Nat.dvd_of_mod_eq_zero halign)).symm⟩
  have hacquire : Sat (fun _ => ¬a.Proper K) (acquireForAccess K s a) fun s₁ => s₁.Holds K X := by
    unfold acquireForAccess
    split
    · exact h
    · split
      · exact h.lockEvent _
      · rw [ha, hK.node_l1d, require_true _ (show K.prevCntlrs l1d = [] from rfl)]
        exact h.lockEvent _
  refine hacquire.bind fun s₁ h₁ => ?_
  -- `passthrough` and `perfect` are off: the state of the block decides
  have hadjust : adjustHit K s₁ a.cntlr a.op a.ca_address (K.m_passthrough (K.node a.cntlr)) =
      .ok (s₁, a.op.permits (getCacheState K s₁ l1d (t * K.blocksize))) := by
    unfold adjustHit
    simp only [ha, ht, hK.node_l1d, hK.perfect, hK.passthrough]
    rw [if_neg (by simp), if_neg (by simp)]
    rfl
  rw [hadjust, ok_bind]
  simp only
  split
  · rename_i hperm
    cases hx : X.block l1d t with
    | none =>
      rw [getCacheState_of_absent h₁ hx] at hperm
      exact absurd rfl (CState.readable_ne_invalid (MemOp.readable_of_permits hperm))
    | some x =>
      rw [getCacheState_of_block h₁ hx] at hperm
      exact (finishAccess_fresh hK ha ht h₁ hX hx hperm hlen _).mono (fun _ => id)
        fun r hr => ⟨⟨_, hr.1⟩, hr.2⟩
  · rename_i hperm
    -- a miss: the own copy goes, the last level answers, and the block is filled from it
    refine (sat_require (Q := fun _ => True) (fun _ => trivial)
      fun hn hp => hn hp.2.2.1).bind fun _ _ => ?_
    have h₂ : (if lockAll K a then s₁ else
        s₁.lockEvent (.upgrade (K.getSetLock a.ca_address))).Holds K X := by
      split
      · exact h₁
      · exact h₁.lockEvent _
    generalize (if lockAll K a then s₁ else
        s₁.lockEvent (.upgrade (K.getSetLock a.ca_address))) = s₂ at h₂ ⊢
    have hdrop := dropForMiss_fresh hK h₂ hX (t := t) fun x hx hm => hperm (by
      rw [getCacheState_of_block h₁ hx, hm, MemOp.permits_modified])
    rw [ha, ht, hK.node_l1d]
    refine hdrop.sat.bind ?_
    intro s₃ h'
    obtain ⟨X₃, h₃, hX₃, hb₃⟩ := h'
    have hreq : requestNext K s₃ a a.count =
        processShmemReqFromPrevCache K 0 s₃ (K.nextCntlr l1d) l1d
          a.op (t * K.blocksize) a.count := by
      unfold requestNext
      rw [ha, ht, require_true _ hK.level_lt,
        show K.last - (l1d.level + 1) = 0 by rw [hK.last]; rfl]
      rfl
    rw [hreq]
    refine (processShmemReqFromPrevCache_fresh hK h₃ hX₃ hb₃ a.op a.count).sat.bind ?_
    rintro ⟨s₄, hit_where⟩ ⟨hhit, X₄, st, h₄, hX₄, hy₄, hb₄, hst⟩
    simp only at hhit h₄ ⊢
    rw [if_neg hhit]
    unfold completeMiss
    rw [ha, ht, hK.node_l1d]
    refine (copyDataFromNextLevel_fresh hK h₄ hX₄ hb₄ hy₄ hst).sat.bind ?_
    intro s₅ h'
    obtain ⟨X₅, h₅, hX₅, hx₅⟩ := h'
    have h₆ : (if lockAll K a then s₅ else
        s₅.lockEvent (.downgrade (K.getSetLock (t * K.blocksize)))).Holds K X₅ := by
      split
      · exact h₅
      · exact h₅.lockEvent _
    dsimp only
    rw [getCacheState_of_block h₆ hx₅, require_true _ hst]
    exact (finishAccess_fresh hK ha ht h₆ hX₅ hx₅ hst hlen _).mono (fun _ => id)
      fun r hr => ⟨⟨_, hr.1⟩, hr.2⟩

end CacheCntlr

variable {σ : Type} {K : Config σ}

/-- The state that a private stack is in when the array is `mem`. -/
def Represents (K : Config σ) (s : State σ) (mem : FlatMemory) : Prop :=
  ∃ X, s.Holds K X ∧ Stack K (mem.line K.blocksize) X

theorem represents_init (policy : CntlrId → ℕ → σ) :
    Represents K (Sys.init policy).mem fun _ => 0 := by
  refine ⟨⟨fun _ _ => none, fun _ => none, fun _ => none⟩,
    ⟨(Sys.sound_init (K := K) policy).wellFormed, fun c t => ?_, rfl, rfl⟩,
    ⟨fun _ => rfl, fun t => .uncached rfl⟩⟩
  exact Cache.block_eq_none.mpr (Sys.line_init policy c t)

theorem Config.Private.eq_l1d (hK : K.Private) {o : CntlrId} (ho : K.Cntlr o) (h0 : o.level = 0) :
    o = l1d := by
  obtain ⟨l, j⟩ := o
  obtain rfl : l = 0 := h0
  have hj : j < K.width 0 := ho.2
  rw [hK.one_core] at hj
  rw [Nat.lt_one_iff.mp hj]
  rfl

/-- A private stack refines a flat byte array: whatever calls came before, a call returns what the
array has, and no assertion stops a proper call. -/
theorem private_stack_transparent (K : Config σ) (hK : K.Private) (policy : CntlrId → ℕ → σ)
    (ops : List MemAccess) (s : State σ)
    (hrun : (coreMachine K).Run (Sys.init policy).mem ops s) (a : MemAccess)
    (ha : (coreMachine K).enabled s a) :
    (∀ s' reply, CacheCntlr.processMemOpFromCore K s a = .ok (s', reply) →
      ∃ hit_where, reply = .returned ((FlatMemory.after ops).answer a) hit_where) ∧
    (a.Proper K → ∃ r, CacheCntlr.processMemOpFromCore K s a = .ok r) := by
  have hrep : Represents K s (FlatMemory.after ops) := by
    refine hrun.simulate FlatMemory.step ?_ (represents_init policy)
    intro s mem a s' h' he hx
    obtain ⟨X, h, hX⟩ := h'
    have hsat := CacheCntlr.processMemOpFromCore_fresh hK (hK.eq_l1d he.1 he.2) h hX
    cases hp : CacheCntlr.processMemOpFromCore K s a with
    | error e =>
      simp only [coreMachine, hp] at hx
      cases hx
    | ok r =>
      simp only [coreMachine, hp] at hx
      obtain rfl : r.1 = s' := Except.ok.inj hx
      exact (hsat.of_ok hp).2
  obtain ⟨X, h, hX⟩ := hrep
  have hsat := CacheCntlr.processMemOpFromCore_fresh hK (hK.eq_l1d ha.1 ha.2) h hX
  refine ⟨fun s' reply hx => (hsat.of_ok hx).1, fun hproper => ?_⟩
  cases hp : CacheCntlr.processMemOpFromCore K s a with
  | error e => exact absurd hproper (hsat.of_error hp)
  | ok r => exact ⟨r, rfl⟩

theorem oneBlock_private : ((Hierarchy.funnel 0 1).oneBlock true).Private :=
  ⟨rfl, rfl, rfl, rfl, rfl, fun _ => rfl, fun _ => rfl, fun _ => rfl⟩

/-- A core writes the byte 7. -/
def writeSeven : MemAccess := ⟨l1d, .none, .write, 0, 5, some fun _ => 7, 1, true⟩

/-- The byte is read back. -/
theorem private_stack_transparent_writeSeven :
    ∃ s s' buf hit_where, (coreMachine ((Hierarchy.funnel 0 1).oneBlock true)).Run
      (Sys.init fun _ _ => ()).mem [writeSeven] s ∧
      CacheCntlr.processMemOpFromCore ((Hierarchy.funnel 0 1).oneBlock true) s
        ⟨l1d, .none, .read, 0, 5, some fun _ => 0, 1, true⟩ =
        .ok (s', .returned (some buf) hit_where) ∧ buf 0 = 7 := by
  have h : ([writeSeven].foldlM (coreMachine ((Hierarchy.funnel 0 1).oneBlock true)).exec
      (Sys.init fun _ _ => ()).mem).toOption.isSome := by decide +kernel
  obtain ⟨s, hs⟩ := Option.isSome_iff_exists.mp h
  have hrun := coreMachine_run (by decide) (toOption_eq_some.mp hs)
  have ht := private_stack_transparent _ oneBlock_private (fun _ _ => ()) _ s hrun
    ⟨l1d, .none, .read, 0, 5, some fun _ => 0, 1, true⟩ ⟨by decide, rfl⟩
  obtain ⟨⟨s', reply⟩, hx⟩ := ht.2 ⟨by decide, by decide, by decide, fun h => by cases h⟩
  obtain ⟨hit_where, rfl⟩ := ht.1 s' reply hx
  exact ⟨s, s', _, hit_where, hrun, hx, by decide⟩

end Sniper
