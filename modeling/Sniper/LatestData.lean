import Sniper.SubtreeUpdate
import Sniper.StackLock
import Sniper.DirtyPath

namespace Sniper
open Outcome

namespace Hierarchy

variable {H : Hierarchy}

/-- All of a cache's subtree are caches. -/
theorem Node.of_subtree {c d : CntlrId} (hc : H.Node c) (hd : d ∈ H.forest.subtree c) :
    H.Node d := by
  induction hd with
  | self => exact hc
  | @child c j d hj _ ih =>
    apply ih
    obtain ⟨hlevel, hwidth, hmaster, -⟩ := H.mem_prevCntlrs.mp hj
    have hle := hc.1.1
    exact ⟨⟨by omega, hwidth⟩, hmaster⟩

/-- Every cache is above the last level. -/
theorem Node.mem_subtree_llc {c : CntlrId} (hc : H.Node c) : c ∈ H.forest.subtree H.llc := by
  obtain ⟨n, hn⟩ : ∃ n, H.last = c.level + n := Nat.exists_eq_add_of_le hc.1.1
  induction n generalizing c with
  | zero =>
    have hllc : c = H.llc := by
      rw [← hc.1.node_last hn.symm, hc.node_eq]
    rw [hllc]
    exact .self _
  | succ n ih =>
    have hl : c.level < H.last := by omega
    have hbelow : H.Node (H.below c) := (hc.1.nextCntlr hl).node
    have hlevel : (H.below c).level = c.level + 1 := rfl
    exact H.forest.closed_subtree _ _ (ih hbelow (by omega)) _ hc.mem_prevCntlrs

end Hierarchy

/-- What the caches, the eviction buffers and the DRAM map of a state contain. -/
def State.contents {σ : Type} (K : Config σ) (s : State σ) : Contents K.blocksize where
  block c t := K.blockOf c (s.m_cache c) t
  evicting := s.m_evicting
  data_map := s.m_data_map

theorem State.WellFormed.holds {σ : Type} {K : Config σ} {s : State σ} (h : s.WellFormed K) :
    s.Holds K (s.contents K) :=
  ⟨h, fun _ _ => rfl, rfl, rfl⟩

open CacheCntlr

/-- Inclusion and the dirty path, at the line of one address. -/
structure DirtyPath {σ : Type} (K : Config σ) (s : State σ) (address : ℕ) : Prop where
  wellFormed : s.WellFormed K
  valid : ∀ c, K.Node c → c.level < K.last → getCacheState K s c address ≠ .invalid →
    getCacheState K s (K.below c) address ≠ .invalid
  modified : ∀ c, K.Node c → c.level < K.last → getCacheState K s c address = .modified →
    getCacheState K s (K.below c) address = .modified

/-- The dirty path is one: at most one cache of a level has the line MODIFIED. None of them is
evicting the line, which has left a cache before `m_evicting_address` is set. -/
structure OneDirtyPath {σ : Type} (K : Config σ) (s : State σ) (address : ℕ) : Prop extends
    DirtyPath K s address where
  one : ∀ c d, K.Node c → K.Node d → c.level = d.level → getCacheState K s c address = .modified →
    getCacheState K s d address = .modified → c = d
  notEvicting : ∀ c e, K.Node c → getCacheState K s c address = .modified →
    s.m_evicting c = some e → e.1 ≠ address

/-- Every state a hierarchy comes to has the dirty path, at every address. -/
theorem dirtyPath_of_run {σ : Type} {K : Config σ} (hK : K.Plain) (hl : 0 < K.last)
    {policy : CntlrId → ℕ → σ} {ops : List SysOp} {S : Sys σ}
    (hrun : (Sys.machine K).Run (Sys.init policy) ops S) (address : ℕ) :
    DirtyPath K S.mem address := by
  have hsound : Sys.Sound K S := hrun.inv (Sys.exec_sound hK hl) (Sys.sound_init policy)
  refine ⟨hsound.wellFormed, ?_, ?_⟩
  · intro c hc hlevel hv
    rw [getCacheState_eq] at hv ⊢
    exact (hsound.inclusion (K.below c) hlevel c hc.mem_prevCntlrs _).valid hv
  · intro c hc hlevel hm
    rw [getCacheState_eq] at hm ⊢
    exact (hsound.inclusion (K.below c) hlevel c hc.mem_prevCntlrs _).eq_modified hm

section holding

variable (H : Hierarchy) (dram : Bool) (st : CntlrId → CState) (byte : CntlrId → Byte)

/-- A state of one-block caches in which each holds line 0 in a state of its own, or nothing. -/
def State.holdingZero : State Unit :=
  .holding (fun c t => if t = 0 then st c else .invalid) byte

theorem State.holdingZero_holds : (State.holdingZero st byte).Holds (H.oneBlock dram)
    (.holding (fun c t => if t = 0 then st c else .invalid) byte 64) := by
  apply State.holding_holds (K := H.oneBlock dram) (fun _ => rfl)
  intro c t h
  by_contra ht
  exact h (if_neg fun h0 => ht h0.symm)

theorem State.holdingZero_state {address : ℕ} (ha : address < 64) (c : CntlrId) :
    getCacheState (H.oneBlock dram) (State.holdingZero st byte) c address = st c := by
  have htag : address / (H.oneBlock dram).blocksize = 0 := Nat.div_eq_of_lt ha
  rw [getCacheState_eq, htag, state_eq (State.holdingZero_holds H dram st byte)]
  exact Contents.holding_state.trans (if_pos rfl)

theorem State.holdingZero_block {c : CntlrId} (h : st c ≠ .invalid) :
    (H.oneBlock dram).blockOf c ((State.holdingZero st byte).m_cache c) 0 =
      some ⟨st c, fun _ => byte c⟩ :=
  ((State.holdingZero_holds H dram st byte).block c 0).trans (if_neg h)

/-- One path of MODIFIED copies. -/
theorem State.holdingZero_oneDirtyPath {address : ℕ} (ha : address < 64)
    (hv : ∀ c, c.level < H.last → st c ≠ .invalid → st (H.below c) ≠ .invalid)
    (hm : ∀ c, c.level < H.last → st c = .modified → st (H.below c) = .modified)
    (hone : ∀ c d, c.level = d.level → st c = .modified → st d = .modified → c = d) :
    OneDirtyPath (H.oneBlock dram) (State.holdingZero st byte) address := by
  have hst := State.holdingZero_state H dram st byte ha
  have hwf := (State.holdingZero_holds H dram st byte).wellFormed
  refine ⟨⟨hwf, ?_, ?_⟩, ?_, fun _ _ _ _ he => by cases he⟩
  · intro c _ hl h
    rw [hst] at h ⊢
    exact hv c hl h
  · intro c _ hl h
    rw [hst] at h ⊢
    exact hm c hl h
  · intro c d _ _ hl h h'
    rw [hst] at h h'
    exact hone c d hl h h'

end holding

/-- `o` has the latest data of the line in the subtree of `c`: it is the MODIFIED cache closest to
the cores, or `c` when there is none. -/
def Latest {σ : Type} (K : Config σ) (s : State σ) (c : CntlrId) (address : ℕ) (o : CntlrId) :
    Prop :=
  o ∈ K.forest.subtree c ∧ getCacheState K s o address = .modified ∧
    (∀ d ∈ K.forest.subtree c, getCacheState K s d address = .modified → o.level ≤ d.level) ∨
  o = c ∧ ∀ d ∈ K.forest.subtree c, getCacheState K s d address ≠ .modified

section

variable {σ : Type} {K : Config σ} {s : State σ} {t : ℕ} {c o : CntlrId}

theorem State.contents_state (h : s.WellFormed K) (c : CntlrId) :
    (s.contents K).state c t = getCacheState K s c (t * K.blocksize) := by
  rw [getCacheState_eq, Nat.mul_div_cancel _ K.blocksize_pos, state_eq h.holds]

theorem State.contents_dirty (h : s.WellFormed K) (c : CntlrId) :
    (s.contents K).Dirty t c ↔ getCacheState K s c (t * K.blocksize) = .modified := by
  unfold Contents.Dirty
  rw [State.contents_state h]

theorem latest_iff (h : s.WellFormed K) :
    Latest K s c (t * K.blocksize) o ↔ K.forest.Deepest ((s.contents K).Dirty t) c o := by
  unfold Latest Forest.Deepest
  simp only [State.contents_dirty h]
  constructor
  · rintro (⟨ho, hm, hle⟩ | ⟨rfl, hnone⟩)
    · exact ⟨ho, .inl ⟨hm, hle⟩⟩
    · exact ⟨.self o, .inr ⟨rfl, hnone⟩⟩
  · rintro ⟨ho, ⟨hm, hle⟩ | ⟨he, hnone⟩⟩
    · exact .inl ⟨ho, hm, hle⟩
    · exact .inr ⟨he, hnone⟩

theorem DirtyPath.parent (h : DirtyPath K s (t * K.blocksize)) (hc : K.Node c) :
    ∀ d ∈ K.forest.subtree c, ∀ b ∈ K.forest.children d, (s.contents K).Dirty t b →
      (s.contents K).Dirty t d := by
  intro d hd b hb hm
  rw [State.contents_dirty h.wellFormed] at hm ⊢
  have hbs : b ∈ K.forest.subtree c := K.forest.closed_subtree c d hd b hb
  have hdl := (hc.of_subtree hd).1.1
  obtain ⟨hlevel, -, -, hbelow⟩ := K.mem_prevCntlrs.mp hb
  rw [← hbelow]
  exact h.modified b (hc.of_subtree hbs) (by omega) hm

/-- The root of a subtree with a MODIFIED copy is MODIFIED. -/
theorem DirtyPath.root (h : DirtyPath K s (t * K.blocksize)) (hc : K.Node c)
    (ho : o ∈ K.forest.subtree c) (hm : (s.contents K).Dirty t o) : (s.contents K).Dirty t c := by
  induction ho with
  | self => exact hm
  | @child c j o hj ho ih =>
    have hjs : j ∈ K.forest.subtree c := .child hj (.self j)
    exact h.parent hc c (.self c) j hj (ih (hc.of_subtree hjs) hm)

theorem DirtyPath.clean (h : DirtyPath K s (t * K.blocksize)) (hc : K.Node c)
    (hm : getCacheState K s c (t * K.blocksize) ≠ .modified) :
    ∀ d ∈ K.forest.subtree c, ¬(s.contents K).Dirty t d := by
  intro d hd hdirty
  apply hm
  rw [← State.contents_dirty h.wellFormed]
  exact h.root hc hd hdirty

/-- Without MODIFIED copies `updateCacheBlock` is always ready. -/
theorem DirtyPath.ready_of_clean (h : DirtyPath K s (t * K.blocksize)) (hc : K.Node c)
    (hm : getCacheState K s c (t * K.blocksize) ≠ .modified) {out_buf : Option (ℕ → Byte)}
    (hp : out_buf.isSome = true → getCacheState K s c (t * K.blocksize) ≠ .invalid) :
    UpdateReady K (s.contents K) c t out_buf := by
  apply UpdateReady.of_clean hc.1.1 (h.clean hc hm)
  intro hsome hnone
  exact hp hsome (getCacheState_of_absent h.wellFormed.holds hnone)

/-- With a MODIFIED copy it is ready when somebody waits for the data at the last level. -/
theorem OneDirtyPath.ready (hwb : ∀ c, K.m_cache_writethrough c = false)
    (h : OneDirtyPath K s (t * K.blocksize)) (hc : K.Node c) {out_buf : Option (ℕ → Byte)}
    (hout : out_buf.isSome = true ∧ getCacheState K s c (t * K.blocksize) ≠ .invalid) :
    UpdateReady K (s.contents K) c t out_buf := by
  have hdirty := fun d => State.contents_dirty (t := t) h.wellFormed d
  have hev : ∀ d, K.Node d → (s.contents K).Dirty t d →
      (s.contents K).NotEvicting d (t * K.blocksize) := by
    intro d hd hdd e he
    exact h.notEvicting d e hd ((hdirty d).mp hdd) he
  refine ⟨hc.1.1, ⟨h.parent hc, ?_⟩, fun d _ _ => hwb d, ?_, ?_, ?_⟩
  · intro d hd e he hlevel hdd hed
    exact h.one d e (hc.of_subtree hd) (hc.of_subtree he) hlevel ((hdirty d).mp hdd)
      ((hdirty e).mp hed)
  · intro d hd
    exact hev d (hc.of_subtree hd)
  · intro hcd
    refine ⟨hwb c, ?_, fun _ => hout.1⟩
    intro hl
    have hbelow : (s.contents K).Dirty t (K.below c) :=
      (hdirty _).mpr (h.modified c hc hl ((hdirty c).mp hcd))
    exact ⟨hbelow, hwb _, hev _ (hc.1.nextCntlr hl).node hbelow⟩
  · intro _ hnone
    exact hout.2 (getCacheState_of_absent h.wellFormed.holds hnone)

theorem exists_latest (h : s.WellFormed K) (hv : getCacheState K s c (t * K.blocksize) ≠ .invalid) :
    ∃ o b, Latest K s c (t * K.blocksize) o ∧ K.blockOf o (s.m_cache o) t = some b := by
  obtain ⟨o, ho⟩ := K.forest.exists_deepest ((s.contents K).Dirty t) c
  have hne : getCacheState K s o (t * K.blocksize) ≠ .invalid := by
    rcases (latest_iff h).mpr ho with ⟨-, hm, -⟩ | ⟨rfl, -⟩
    · rw [hm]
      decide
    · exact hv
  obtain ⟨b, hb⟩ := Option.ne_none_iff_exists'.mp
    fun hn => hne (getCacheState_of_absent (X := s.contents K) h.holds hn)
  exact ⟨o, b, (latest_iff h).mpr ho, hb⟩

/-- A snoop to INVALID or SHARED: what `updateCacheBlock_total` says when the MODIFIED copies form
one path. -/
theorem OneDirtyPath.snoop (hwb : ∀ c, K.m_cache_writethrough c = false)
    (hco : ∀ c, K.m_coherent c = true) (hc : K.Node c) (h : OneDirtyPath K s (t * K.blocksize))
    {new : CState} (hnew : new = .invalid ∨ new = .shared) {out_buf : Option (ℕ → Byte)}
    (hroot : out_buf.isSome = true ∧ getCacheState K s c (t * K.blocksize) ≠ .invalid ∨
      out_buf = none ∧ getCacheState K s c (t * K.blocksize) ≠ .modified) :
    ∃ s' out, updateCacheBlock K c.level c.core s (t * K.blocksize) new out_buf = .ok (s', out) ∧
      (∀ d ∈ K.forest.subtree c, getCacheState K s' d (t * K.blocksize) = .invalid ∨
        getCacheState K s' d (t * K.blocksize) = new) ∧
      (out_buf.isSome = true → ∀ o b, Latest K s c (t * K.blocksize) o →
        K.blockOf o (s.m_cache o) t = some b → Filled K b.data out) ∧
      ∀ d t', t' ≠ t → K.blockOf d (s'.m_cache d) t' = K.blockOf d (s.m_cache d) t' := by
  have hready : UpdateReady K (s.contents K) c t out_buf := by
    rcases hroot with hout | ⟨hnone, hm⟩
    · exact h.ready hwb hc hout
    · exact h.ready_of_clean hc hm fun hsome => by simp [hnone] at hsome
  have hallowed : Allowed new out_buf := hnew.imp id Or.inl
  obtain ⟨⟨s', out⟩, hok, X', hX', hup, hbuf⟩ := (updateCacheBlock_total (fun _ => hco) c.level
    c.core s (s.contents K) out_buf h.wellFormed.holds hallowed hready).exists
  simp only at hX' hup hbuf
  refine ⟨s', out, hok, ?_, ?_, ?_⟩
  · intro d hd
    rw [getCacheState_eq, Nat.mul_div_cancel _ K.blocksize_pos, state_eq hX', hup.inside d hd]
    unfold CState.restate
    split
    · exact .inl rfl
    · exact .inr rfl
  · intro hsome o b ho hb
    exact hbuf.filled hsome o b ((latest_iff h.wellFormed).mp ho) hb
  · intro d t' ht
    rw [hX'.block, hup.rest d t' (fun h' => ht h'.1) fun h' => ht h'.1]
    rfl

theorem exists_lineAddress {address : ℕ} (h : address % K.blocksize = 0) :
    ∃ t, address = t * K.blocksize :=
  ⟨_, (Nat.div_mul_cancel (Nat.dvd_of_mod_eq_zero h)).symm⟩

/-- `updateCacheBlock` to INVALID or SHARED loses no dirty data and reaches the whole subtree. -/
theorem updateCacheBlock_saves_latest (hwb : ∀ c, K.m_cache_writethrough c = false)
    (hco : ∀ c, K.m_coherent c = true) (hc : K.Node c) (address : ℕ)
    (haddress : address % K.blocksize = 0) (h : OneDirtyPath K s address) (new : CState)
    (hnew : new = .invalid ∨ new = .shared) (out_buf : Option (ℕ → Byte))
    (hroot : out_buf.isSome = true ∧ getCacheState K s c address ≠ .invalid ∨
      out_buf = none ∧ getCacheState K s c address ≠ .modified) :
    ∃ s' out, updateCacheBlock K c.level c.core s address new out_buf = .ok (s', out) ∧
      (∀ d ∈ K.forest.subtree c,
        getCacheState K s' d address = .invalid ∨ getCacheState K s' d address = new) ∧
      (out_buf.isSome = true → ∃ o b, Latest K s c address o ∧
        K.blockOf o (s.m_cache o) (address / K.blocksize) = some b ∧ Filled K b.data out) ∧
      ∀ d t, t ≠ address / K.blocksize →
        K.blockOf d (s'.m_cache d) t = K.blockOf d (s.m_cache d) t := by
  obtain ⟨t, rfl⟩ := exists_lineAddress haddress
  rw [Nat.mul_div_cancel _ K.blocksize_pos]
  obtain ⟨s', out, hok, hstates, hfilled, hothers⟩ := h.snoop hwb hco hc hnew hroot
  refine ⟨s', out, hok, hstates, ?_, hothers⟩
  intro hsome
  have hv : getCacheState K s c (t * K.blocksize) ≠ .invalid := by
    rcases hroot with hout | ⟨hnone, -⟩
    · exact hout.2
    · simp [hnone] at hsome
  obtain ⟨o, b, ho, hb⟩ := exists_latest h.wellFormed hv
  exact ⟨o, b, ho, hb, hfilled hsome o b ho hb⟩

/-- Core 0 has written line 0: its caches hold it MODIFIED, and the first level has other data than
the last. -/
def writtenByFirst : State Unit :=
  .holdingZero (fun c => if c.core = 0 then .modified else .invalid)
    fun c => if c.level = 0 then 1 else 2

theorem writtenByFirst_state (dram : Bool) {address : ℕ} (ha : address < 64) (c : CntlrId) :
    getCacheState ((Hierarchy.funnel 0 2).oneBlock dram) writtenByFirst c address =
      if c.core = 0 then .modified else .invalid :=
  State.holdingZero_state _ dram _ _ ha c

theorem writtenByFirst_oneDirtyPath (dram : Bool) {address : ℕ} (ha : address < 64) :
    OneDirtyPath ((Hierarchy.funnel 0 2).oneBlock dram) writtenByFirst address := by
  have hbelow : ∀ c, (if ((Hierarchy.funnel 0 2).below c).core = 0 then CState.modified
      else .invalid) = .modified := fun _ => if_pos rfl
  have hcore : ∀ c : CntlrId, (if c.core = 0 then CState.modified else .invalid) = .modified →
      c.core = 0 := by
    intro c h
    by_contra hc
    rw [if_neg hc] at h
    cases h
  apply State.holdingZero_oneDirtyPath (Hierarchy.funnel 0 2) dram _ _ ha
  · intro c _ _
    rw [hbelow]
    decide
  · intro c _ _
    exact hbelow c
  · intro c d hl hc hd
    have h := hcore c hc
    have h' := hcore d hd
    cases c
    cases d
    simp_all

/-- The buffer gets the data of the first level. -/
theorem updateCacheBlock_saves_latest_written :
    ∃ s' buf, updateCacheBlock ((Hierarchy.funnel 0 2).oneBlock true) 1 0 writtenByFirst 0 .invalid
      (some fun _ => 9) = .ok (s', some buf) ∧ buf 0 = 1 := by
  have hstate := writtenByFirst_state true (by decide : 0 < 64)
  have hllc := Hierarchy.llc_isNode (Hierarchy.funnel 0 2)
  obtain ⟨s', out, hok, -, hout, -⟩ := updateCacheBlock_saves_latest (fun _ => rfl) (fun _ => rfl)
    hllc 0 rfl (writtenByFirst_oneDirtyPath true (by decide)) .invalid (.inl rfl)
    (some fun _ => 9) (.inl ⟨rfl, by rw [hstate]; decide⟩)
  obtain ⟨o, b, ho, hb, buf, rfl, hbuf⟩ := hout rfl
  refine ⟨s', buf, hok, ?_⟩
  have hfirst : (Hierarchy.funnel 0 2).Node ⟨0, 0⟩ := by decide
  have ho' : o = ⟨0, 0⟩ := by
    rcases ho with ⟨-, hm, hle⟩ | ⟨-, hnone⟩
    · have hlevel := hle ⟨0, 0⟩ hfirst.mem_subtree_llc (by rw [hstate]; rfl)
      rw [hstate] at hm
      cases o
      simp_all
    · exact absurd (by rw [hstate]; rfl) (hnone ⟨0, 0⟩ hfirst.mem_subtree_llc)
  rw [ho', Nat.zero_div] at hb
  have hblock := State.holdingZero_block (Hierarchy.funnel 0 2) true
    (fun c => if c.core = 0 then .modified else .invalid) (fun c => if c.level = 0 then 1 else 2)
    (c := ⟨0, 0⟩) (by decide)
  have hdata := hbuf rfl ⟨0, by decide⟩
  rw [Option.some.inj (hb.symm.trans hblock)] at hdata
  exact hdata

/-- A buffer given for a line that the root does not hold is never written, and at an address inside
the line the data do not end with it. -/
theorem updateCacheBlock_trips :
    (OneDirtyPath ((Hierarchy.funnel 0 2).oneBlock true) (.holdingZero (fun _ => .invalid) 0) 0 ∧
      getCacheState ((Hierarchy.funnel 0 2).oneBlock true)
        (.holdingZero (fun _ => .invalid) 0) ⟨1, 0⟩ 0
        ≠ .modified ∧
      updateCacheBlock ((Hierarchy.funnel 0 2).oneBlock true) 1 0
        (.holdingZero (fun _ => .invalid) 0) 0
        .invalid (some fun _ => 9) = .error .outBufNotWritten) ∧
    OneDirtyPath ((Hierarchy.funnel 0 2).oneBlock true) writtenByFirst 1 ∧
      getCacheState ((Hierarchy.funnel 0 2).oneBlock true) writtenByFirst ⟨1, 0⟩ 1 ≠ .invalid ∧
      updateCacheBlock ((Hierarchy.funnel 0 2).oneBlock true) 1 0 writtenByFirst 1 .invalid
        (some fun _ => 9) = .error .lineOverrun := by
  refine ⟨⟨?_, ?_, rfl⟩, writtenByFirst_oneDirtyPath true (by decide), ?_, rfl⟩
  · apply State.holdingZero_oneDirtyPath (Hierarchy.funnel 0 2) true _ _ (by decide)
    · exact fun _ _ h => absurd rfl h
    · exact fun _ _ h => by cases h
    · exact fun _ _ _ h => by cases h
  · rw [State.holdingZero_state (Hierarchy.funnel 0 2) true _ _ (by decide : 0 < 64)]
    decide
  · rw [writtenByFirst_state true (by decide : 1 < 64)]
    decide

/-- A run with another content of the uninitialised local buffers. -/
def Config.withGarbage (K : Config σ) (garbage : ℕ → Byte) : Config σ :=
  { K with garbage := garbage }

theorem OneDirtyPath.withGarbage {address : ℕ} (h : OneDirtyPath K s address)
    (garbage : ℕ → Byte) : OneDirtyPath (K.withGarbage garbage) s address :=
  ⟨⟨h.wellFormed, h.valid, h.modified⟩, h.one, h.notEvicting⟩

/-- The snoop that fills the reply buffer. -/
theorem OneDirtyPath.reply (hwb : ∀ c, K.m_cache_writethrough c = false)
    (hco : ∀ c, K.m_coherent c = true) (hst : K.stores = true)
    (h : OneDirtyPath K s (t * K.blocksize))
    (hv : getCacheState K s K.llc (t * K.blocksize) ≠ .invalid) {new : CState}
    (hnew : new = .invalid ∨ new = .shared) (buf : ℕ → Byte) {b : Block K.blocksize}
    (ho : Latest K s K.llc (t * K.blocksize) o) (hb : K.blockOf o (s.m_cache o) t = some b) :
    ∃ s' data, updateCacheBlock K K.last 0 s (t * K.blocksize) new (some buf) =
        .ok (s', some data) ∧ s'.sent = s.sent ∧ ∀ i : Fin K.blocksize, data i = b.data i := by
  obtain ⟨s', out, hok, -, hfilled, -⟩ :=
    h.snoop hwb hco K.toHierarchy.llc_isNode hnew (.inl ⟨Option.isSome_some, hv⟩)
  obtain ⟨data, rfl, hdata⟩ := hfilled rfl o b ho hb
  have hsilent := (updateCacheBlock_silent new K.last 0 s (some buf)
    K.toHierarchy.llc_isNode.1).of_ok hok
  exact ⟨s', data, hok, hsilent.sent, hdata hst⟩

section messages

variable (K) {address : ℕ} {data_buf out : Option (ℕ → Byte)} {s' : State σ}
  (hv : getCacheState K s K.llc address ≠ .invalid)
include hv

theorem flushReq_ok
    (hok : updateCacheBlock K K.last 0 s address .invalid (some K.garbage) = .ok (s', out)) :
    processMsgFromDramDirectory K s ⟨.flushReq, address, data_buf⟩ =
      .ok (s'.send ⟨.flushRep, address, out⟩) := by
  change processFlushReqFromDramDirectory K s ⟨.flushReq, address, data_buf⟩ = _
  unfold processFlushReqFromDramDirectory
  rw [if_pos hv]
  simp only
  rw [hok]
  rfl

theorem wbReq_ok (hup : getCacheState K s K.llc address ≠ .sharedUpgrading)
    (hok : updateCacheBlock K K.last 0 s address .shared (some K.garbage) = .ok (s', out)) :
    processMsgFromDramDirectory K s ⟨.wbReq, address, data_buf⟩ =
      .ok (s'.send ⟨.wbRep, address, out⟩) := by
  change processWbReqFromDramDirectory K s ⟨.wbReq, address, data_buf⟩ = _
  unfold processWbReqFromDramDirectory
  rw [if_pos hv, if_pos hup]
  simp only
  rw [hok]
  rfl

theorem wbReq_upgrading (hup : getCacheState K s K.llc address = .sharedUpgrading)
    (garbage : ℕ → Byte) :
    processMsgFromDramDirectory (K.withGarbage garbage) s ⟨.wbReq, address, data_buf⟩ =
      .ok (s.send ⟨.wbRep, address, some garbage⟩) := by
  have hv' : getCacheState (K.withGarbage garbage) s (K.withGarbage garbage).llc address ≠
    .invalid := hv
  have hup' : getCacheState (K.withGarbage garbage) s (K.withGarbage garbage).llc address =
    .sharedUpgrading := hup
  change processWbReqFromDramDirectory (K.withGarbage garbage) s ⟨.wbReq, address, data_buf⟩ = _
  unfold processWbReqFromDramDirectory
  rw [if_pos hv', if_neg (not_not.mpr hup')]
  rfl

end messages

/-- The data of a FLUSH_REP are the latest of the line, and so are those of a WB_REP unless the line
is SHARED_UPGRADING: then they were read from no cache. -/
theorem reply_is_latest_iff (hwb : ∀ c, K.m_cache_writethrough c = false)
    (hco : ∀ c, K.m_coherent c = true) (hst : K.stores = true) (m : ShmemMsg) (rep : MsgType)
    (hm : m.type = .flushReq ∧ rep = .flushRep ∨ m.type = .wbReq ∧ rep = .wbRep)
    (haddress : m.address % K.blocksize = 0) (h : OneDirtyPath K s m.address)
    (hv : getCacheState K s K.llc m.address ≠ .invalid) :
    (∃ o b, Latest K s K.llc m.address o ∧
      K.blockOf o (s.m_cache o) (m.address / K.blocksize) = some b ∧
      ∀ garbage, ∃ s' data,
        processMsgFromDramDirectory (K.withGarbage garbage) s m = .ok s' ∧
        s'.sent = s.sent ++ [⟨rep, m.address, some data⟩] ∧
        ∀ i : Fin K.blocksize, data i = b.data i) ↔
    ¬(m.type = .wbReq ∧ getCacheState K s K.llc m.address = .sharedUpgrading) := by
  obtain ⟨type, address, data_buf⟩ := m
  simp only at hm haddress h hv ⊢
  obtain ⟨t, rfl⟩ := exists_lineAddress haddress
  rw [Nat.mul_div_cancel _ K.blocksize_pos]
  constructor
  · rintro ⟨o, b, -, -, hall⟩ ⟨rfl, hup⟩
    -- two runs with different local buffers send different data
    have hsent : ∀ garbage : ℕ → Byte, garbage 0 = b.data ⟨0, K.blocksize_pos⟩ := by
      intro garbage
      obtain ⟨s', data, hok, hsent, hdata⟩ := hall garbage
      rw [wbReq_upgrading K hv hup] at hok
      rcases hm with ⟨hm, -⟩ | ⟨-, rfl⟩
      · cases hm
      · cases hok
        have heq := List.append_cancel_left hsent
        simp only [List.cons.injEq, ShmemMsg.mk.injEq, Option.some.injEq, true_and, and_true] at heq
        rw [← hdata, ← heq]
    have h0 := hsent fun _ => 0
    have h1 := hsent fun _ => 1
    rw [← h0] at h1
    cases h1
  · intro hnot
    obtain ⟨o, b, ho, hb⟩ := exists_latest h.wellFormed hv
    refine ⟨o, b, ho, hb, ?_⟩
    intro garbage
    have hgarbage := h.withGarbage garbage
    rcases hm with ⟨rfl, rfl⟩ | ⟨rfl, rfl⟩
    · obtain ⟨s', data, hok, hsent, hdata⟩ :=
        OneDirtyPath.reply (K := K.withGarbage garbage) hwb hco hst hgarbage hv (.inl rfl)
          garbage ho hb
      refine ⟨s'.send ⟨.flushRep, t * K.blocksize, some data⟩, data, ?_, ?_, hdata⟩
      · exact flushReq_ok (K.withGarbage garbage) hv hok
      · exact congrArg (· ++ _) hsent
    · obtain ⟨s', data, hok, hsent, hdata⟩ :=
        OneDirtyPath.reply (K := K.withGarbage garbage) hwb hco hst hgarbage hv (.inr rfl)
          garbage ho hb
      refine ⟨s'.send ⟨.wbRep, t * K.blocksize, some data⟩, data, ?_, ?_, hdata⟩
      · exact wbReq_ok (K.withGarbage garbage) hv (fun hup => hnot ⟨rfl, hup⟩) hok
      · exact congrArg (· ++ _) hsent

/-- The data of the first level are what a flush request gets. -/
theorem reply_is_latest_iff_written :
    ∃ o b, Latest ((Hierarchy.funnel 0 2).oneBlock false) writtenByFirst ⟨1, 0⟩ 0 o ∧
      ((Hierarchy.funnel 0 2).oneBlock false).blockOf o (writtenByFirst.m_cache o) 0 = some b ∧
      ∀ garbage, ∃ s' data,
        processMsgFromDramDirectory (((Hierarchy.funnel 0 2).oneBlock false).withGarbage garbage)
          writtenByFirst ⟨.flushReq, 0, none⟩ = .ok s' ∧
        s'.sent = [⟨.flushRep, 0, some data⟩] ∧ ∀ i : Fin 64, data i = b.data i := by
  apply (reply_is_latest_iff (fun _ => rfl) (fun _ => rfl) rfl ⟨.flushReq, 0, none⟩ .flushRep
    (.inl ⟨rfl, rfl⟩) rfl (writtenByFirst_oneDirtyPath false (by decide)) ?_).mpr
  · intro h'
    obtain ⟨h, -⟩ := h'
    cases h
  · have hstate := writtenByFirst_state false (by decide : 0 < 64) ⟨1, 0⟩
    change getCacheState _ writtenByFirst ⟨1, 0⟩ 0 ≠ _
    rw [hstate]
    decide

/-- The last level waits for the upgrade of line 0, which it holds filled with sevens. -/
def upgrading : State Unit :=
  .holdingZero (fun c => if c.level = 1 then .sharedUpgrading else .invalid) fun _ => 7

theorem upgrading_oneDirtyPath :
    OneDirtyPath ((Hierarchy.funnel 0 1).oneBlock false) upgrading 0 := by
  have hne : ∀ c : CntlrId,
      (if c.level = 1 then CState.sharedUpgrading else .invalid) ≠ .modified := by
    intro c
    split <;> decide
  apply State.holdingZero_oneDirtyPath (Hierarchy.funnel 0 1) false _ _ (by decide)
  · intro c hl h
    change c.level < 1 at hl
    rw [if_neg (by omega)] at h
    exact absurd rfl h
  · exact fun c _ h => absurd h (hne c)
  · exact fun c _ _ h => absurd h (hne c)

theorem upgrading_state :
    getCacheState ((Hierarchy.funnel 0 1).oneBlock false) upgrading ⟨1, 0⟩ 0 = .sharedUpgrading :=
  State.holdingZero_state (Hierarchy.funnel 0 1) false _ _ (by decide) ⟨1, 0⟩

/-- The last level sends what its local buffer happens to contain. -/
theorem wbRep_carries_garbage :
    OneDirtyPath ((Hierarchy.funnel 0 1).oneBlock false) upgrading 0 ∧
    getCacheState ((Hierarchy.funnel 0 1).oneBlock false) upgrading ⟨1, 0⟩ 0 = .sharedUpgrading ∧
    ((Hierarchy.funnel 0 1).oneBlock false).blockOf ⟨1, 0⟩ (upgrading.m_cache ⟨1, 0⟩) 0 =
      some ⟨.sharedUpgrading, fun _ => 7⟩ ∧
    ∀ garbage, processMsgFromDramDirectory
      (((Hierarchy.funnel 0 1).oneBlock false).withGarbage garbage) upgrading ⟨.wbReq, 0, none⟩ =
        .ok (upgrading.send ⟨.wbRep, 0, some garbage⟩) := by
  have hv : getCacheState ((Hierarchy.funnel 0 1).oneBlock false) upgrading ⟨1, 0⟩ 0 ≠
      .invalid := by
    rw [upgrading_state]
    decide
  refine ⟨upgrading_oneDirtyPath, upgrading_state, ?_, ?_⟩
  · exact State.holdingZero_block (Hierarchy.funnel 0 1) false _ _ (by decide)
  · exact wbReq_upgrading _ hv upgrading_state

/-- What an UPGRADE_REP brings about: the last level may write the line, whose data are those of the
message when the copy had been lost and as they were otherwise. -/
structure UpgradeCompleted (K : Config σ) (s : State σ) (m : ShmemMsg) (s' : State σ) : Prop where
  state : getCacheState K s' K.llc m.address = .modified
  permits : MemOp.write.permits (getCacheState K s' K.llc m.address) = true
  lost : K.stores = true → getCacheState K s K.llc m.address = .invalid →
    ∃ b, K.blockOf K.llc (s'.m_cache K.llc) (m.address / K.blocksize) = some b ∧
      Filled K b.data m.data_buf
  kept : K.stores = true → ∀ b,
    K.blockOf K.llc (s.m_cache K.llc) (m.address / K.blocksize) = some b →
    K.blockOf K.llc (s'.m_cache K.llc) (m.address / K.blocksize) = some ⟨.modified, b.data⟩

/-- An upgrade reply completes when the line waits for it, and only then: with the copy lost
`updateCacheBlock` has no block to put the data in. -/
theorem upgradeRep_completes_iff (m : ShmemMsg) (hm : m.type = .upgradeRep)
    (haddress : m.address % K.blocksize = 0) (h : DirtyPath K s m.address)
    (hcase : getCacheState K s K.llc m.address = .sharedUpgrading ∨
      getCacheState K s K.llc m.address = .invalid ∧ m.data_buf.isSome = true) :
    (∃ s', processMsgFromDramDirectory K s m = .ok s' ∧ UpgradeCompleted K s m s') ↔
      getCacheState K s K.llc m.address = .sharedUpgrading := by
  obtain ⟨type, address, data_buf⟩ := m
  simp only at hm haddress h hcase ⊢
  obtain ⟨t, rfl⟩ := exists_lineAddress haddress
  subst hm
  change (∃ s', processUpgradeRepFromDramDirectory K s ⟨.upgradeRep, t * K.blocksize, data_buf⟩ =
    .ok s' ∧ _) ↔ _
  unfold processUpgradeRepFromDramDirectory
  have hco : CState.modified = .invalid → ∀ c, K.m_coherent c = true := fun hn => by cases hn
  have hallowed : Allowed .modified none := .inr (.inr ⟨rfl, rfl⟩)
  have hllc : K.Node K.llc := K.toHierarchy.llc_isNode
  constructor
  · intro h'
    obtain ⟨s', hok, -⟩ := h'
    rcases hcase with hup | ⟨hinv, hsome⟩
    · exact hup
    · obtain ⟨buf, rfl⟩ := Option.isSome_iff_exists.mp hsome
      have hready : UpdateReady K (s.contents K) K.llc t none :=
        h.ready_of_clean hllc (by simp [hinv]) fun hn => by cases hn
      have hnone : (s.contents K).block K.llc t = none := by
        by_contra hne
        obtain ⟨b, hb⟩ := Option.ne_none_iff_exists'.mp hne
        exact state_ne_invalid h.wellFormed.holds hb
          ((getCacheState_of_block h.wellFormed.holds hb).symm.trans hinv)
      have hlost := updateCacheBlock_lost hco hallowed h.wellFormed.holds hready hnone buf
      change updateCacheBlock K K.last 0 s (t * K.blocksize) .modified (some buf) = _ at hlost
      simp only [hinv] at hok
      rw [require_true _ hsome, ok_bind, hlost] at hok
      cases hok
  · intro hup
    have hm : getCacheState K s K.llc (t * K.blocksize) ≠ .modified := by simp [hup]
    have hready : UpdateReady K (s.contents K) K.llc t none :=
      h.ready_of_clean hllc hm fun hn => by cases hn
    obtain ⟨⟨s', out⟩, hok, X', hX', hupd, -⟩ := (updateCacheBlock_total hco K.last 0 s
      (s.contents K) none h.wellFormed.holds hallowed hready).exists
    simp only at hX'
    have hstate : getCacheState K s' K.llc (t * K.blocksize) = .modified := by
      rw [getCacheState_eq, Nat.mul_div_cancel _ K.blocksize_pos, state_eq hX',
        hupd.inside K.llc (.self K.llc), State.contents_state h.wellFormed, hup]
      rfl
    have hclean := h.clean hllc hm
    refine ⟨s', ?_, hstate, ?_, ?_, ?_⟩
    · simp only [hup]
      rw [hok]
      rfl
    · rw [hstate]
      rfl
    · intro _ hinv
      rw [hup] at hinv
      cases hinv
    · intro hst b hb
      rw [Nat.mul_div_cancel _ K.blocksize_pos] at hb ⊢
      rw [getCacheState_eq, Nat.mul_div_cancel _ K.blocksize_pos, state_eq hX'] at hstate
      obtain ⟨b', hb', hb'm⟩ := Contents.block_of_dirty hstate
      have hdata := (hupd.own b' hb').2 hst K.llc b ⟨.self _, .inr ⟨rfl, hclean⟩⟩ hb
      rw [hX'.block, hb', ← hb'm, ← hdata]

theorem upgradeRep_completes_iff_upgrading :
    ∃ s', processMsgFromDramDirectory ((Hierarchy.funnel 0 1).oneBlock false) upgrading
      ⟨.upgradeRep, 0, none⟩ = .ok s' ∧
      UpgradeCompleted ((Hierarchy.funnel 0 1).oneBlock false) upgrading
        ⟨.upgradeRep, 0, none⟩ s' :=
  (upgradeRep_completes_iff ⟨.upgradeRep, 0, none⟩ rfl rfl upgrading_oneDirtyPath.toDirtyPath
    (.inl upgrading_state)).mpr upgrading_state

/-- The reply brings the data for a copy that has been lost, and the simulation stops. -/
theorem upgradeRep_trips :
    DirtyPath ((Hierarchy.funnel 0 1).oneBlock false) (.holdingZero (fun _ => .invalid) 0) 0 ∧
    getCacheState ((Hierarchy.funnel 0 1).oneBlock false)
      (.holdingZero (fun _ => .invalid) 0) ⟨1, 0⟩ 0
      = .invalid ∧
    processMsgFromDramDirectory ((Hierarchy.funnel 0 1).oneBlock false)
      (.holdingZero (fun _ => .invalid) 0) ⟨.upgradeRep, 0, some fun _ => 5⟩ =
        .error .outBufNotWritten := by
  refine ⟨?_, ?_, rfl⟩
  · apply OneDirtyPath.toDirtyPath
    apply State.holdingZero_oneDirtyPath (Hierarchy.funnel 0 1) false _ _ (by decide)
    · exact fun _ _ h => absurd rfl h
    · exact fun _ _ h => by cases h
    · exact fun _ _ _ h => by cases h
  · exact State.holdingZero_state (Hierarchy.funnel 0 1) false _ _ (by decide) ⟨1, 0⟩

end

end Sniper
