import Sniper.Inclusion

namespace Sniper
open Outcome

namespace CacheCntlr

variable {σ : Type} {K : Config σ} {s : State σ} {c requester : CntlrId} {address : ℕ}
  {D : Set CntlrId} {op : MemOp}

theorem adjustHit_plain (hK : K.Plain) (o : CntlrId) (count : Bool) :
    adjustHit K s o op address (K.m_passthrough (K.node o) && count) =
      .ok (s, op.permits (s.line K (K.node o) (address / K.blocksize))) := by
  unfold adjustHit
  simp only [getCacheState_eq, hK.perfect, hK.passthrough]
  simp [pure, Except.pure]

/-- A snoop of the other previous levels in a state where only some levels, above, have dropped
the line. -/
theorem updatePrev_inclusive {E : Abort → Prop} {new : CState}
    (hup : Updates K E c.level address new) (hs : s.WellFormed K) (hidle : Idle s)
    (hinc : Inclusive K.toHierarchy D (address / K.blocksize) (s.line K)) (hc : c.level ≤ K.last) :
    Sat E (updatePrev K s c requester address new) fun s' =>
      s.Moves K ((s.line K).snoop (K.forest.subtrees (others K c requester))
        (address / K.blocksize) new) s' := by
  refine updatePrev_moves hup hs requester ?_ ?_ ?_
  · intro j hj d hd b hb hm
    have h1 : d.level ≤ j.level := Forest.Covers.rank_le hd
    have h2 := (K.mem_prevCntlrs.mp hj).1
    exact hinc.dirty (by omega) hb hm
  · intro d _
    rw [hidle]
    simp
  · intro j hj hm
    refine .inr ⟨?_, hinc.dirty hc (mem_others.mp hj).1 hm⟩
    rw [hidle]
    simp

/-- What a request that hits does to the other previous levels. -/
noncomputable def hitView (K : Config σ) (c requester : CntlrId) (op : MemOp) (t : ℕ)
    (v : View) : View :=
  if op ≠ .read then v.snoop (K.forest.subtrees (others K c requester)) t .invalid
  else if v c t = .modified ∨ v c t = .exclusive then
    v.snoop (K.forest.subtrees (others K c requester)) t .shared
  else v

theorem snoopOnHit_moves {E : Abort → Prop}
    (hup : ∀ new, new = .invalid ∨ new = .shared → Updates K E c.level address new)
    (hs : s.WellFormed K) (hidle : Idle s)
    (hinc : Inclusive K.toHierarchy D (address / K.blocksize) (s.line K)) (hc : c.level ≤ K.last) :
    Sat E (snoopOnHit K s c requester op address) fun s' =>
      s.Moves K (hitView K c requester op (address / K.blocksize) (s.line K)) s' := by
  unfold snoopOnHit hitView
  simp only [getCacheState_eq]
  split
  · exact updatePrev_inclusive (hup _ (by simp)) hs hidle hinc hc
  · split
    · rename_i hm
      rw [if_pos (.inl hm)]
      exact updatePrev_inclusive (hup _ (by simp)) hs hidle hinc hc
    · split
      · rename_i he
        rw [if_pos (.inr he)]
        exact updatePrev_inclusive (hup _ (by simp)) hs hidle hinc hc
      · rw [if_neg (by tauto)]
        exact .refl hs

theorem answerHit_moves (hK : K.Plain) (hs : s.WellFormed K) (hidle : Idle s)
    (hinc : Inclusive K.toHierarchy D (address / K.blocksize) (s.line K)) (hc : c.level ≤ K.last)
    (u : Bool) :
    Sat Abort.notWriteback (answerHit K s c requester op address u) fun x =>
      x.2 = .cache c.level ∧
        s.Moves K (hitView K c requester op (address / K.blocksize) (s.line K)) x.1 := by
  refine (snoopOnHit_moves (fun new _ => updates hK _ _ new) hs hidle hinc hc).bind fun s' hs' => ?_
  refine (retrieveCacheBlock_moves hs'.wellFormed _ _).bind fun r hr => ⟨rfl, ?_⟩
  exact hs'.trans (hr.1.congr hs'.line)

theorem answerMiss_moves (hs : s.WellFormed K) (hit_where : HitWhere) :
    Sat Abort.notWriteback (answerMiss K s c address hit_where) fun x =>
      x.2 = hit_where ∧ (hit_where = .miss → x.1 = s) ∧ s.Moves K (s.line K) x.1 := by
  unfold answerMiss
  split
  · exact ⟨rfl, fun _ => rfl, .refl hs⟩
  · rename_i h
    exact (retrieveCacheBlock_moves hs _ _).bind fun r hr => ⟨rfl, fun h' => absurd h' h, hr.1⟩

/-- What a write does to the other previous levels before it passes the SHARED state of `c`. -/
noncomputable def upgradeView (K : Config σ) (c requester : CntlrId) (t : ℕ) (v : View) : View :=
  if v c t = .shared then v.snoop (K.forest.subtrees (others K c requester)) t .invalid else v

theorem snoopOnUpgrade_moves {E : Abort → Prop} (hup : Updates K E c.level address .invalid)
    (hs : s.WellFormed K) (hidle : Idle s)
    (hinc : Inclusive K.toHierarchy D (address / K.blocksize) (s.line K)) (hc : c.level ≤ K.last) :
    Sat E (snoopOnUpgrade K s c requester address) fun s' =>
      s.Moves K (upgradeView K c requester (address / K.blocksize) (s.line K)) s' := by
  unfold snoopOnUpgrade upgradeView
  have hiff : (getCacheBlockInfo K s c address).map CacheBlockInfo.cstate = some .shared ↔
      s.line K c (address / K.blocksize) = .shared := by
    rw [info_cstate hs]
    split
    · simp [*]
    · simp
  by_cases h : s.line K c (address / K.blocksize) = .shared
  · rw [if_pos (hiff.mpr h), if_pos h]
    exact updatePrev_inclusive hup hs hidle hinc hc
  · rw [if_neg (fun h' => h (hiff.mp h')), if_neg h]
    exact .refl hs

/-- What a miss at the last level does to a line that is there. -/
noncomputable def ownedView (K : Config σ) (c requester : CntlrId) (t : ℕ) (v : View) : View :=
  (if v c t = .exclusive then v.snoop (K.forest.subtrees (others K c requester)) t .invalid
    else v).assign c t .modified

/-- The ways a miss at the last level ends. -/
inductive LastLevelMiss (K : Config σ) (s : State σ) (o requester : CntlrId) (op : MemOp)
    (address : ℕ) (x : State σ × HitWhere) : Prop where
  /-- the block is there and becomes MODIFIED -/
  | upgraded (hit : x.2 = .cache (K.node o).level)
      (present : s.line K (K.node o) (address / K.blocksize) ≠ .invalid)
      (why : K.m_dram_cntlr = true ∨ s.line K (K.node o) (address / K.blocksize) = .exclusive)
      (moves : s.Moves K (ownedView K (K.node o) requester (address / K.blocksize) (s.line K)) x.1)
  /-- the line comes from DRAM -/
  | fetched (hit : x.2 = .dram) (dram : K.m_dram_cntlr = true)
      (absent : s.line K (K.node o) (address / K.blocksize) = .invalid)
      (moves : s.Moves K (x.1.line K) x.1)
      (filled : View.Filled K.toHierarchy (K.node o) (address / K.blocksize)
        (if op = .read then .shared else .modified) (s.line K) (x.1.line K))
  /-- the directory is asked -/
  | asked (miss : x.2 = .miss) (dram : K.m_dram_cntlr = false)
      (notExclusive : s.line K (K.node o) (address / K.blocksize) ≠ .exclusive)
      (request : initiateDirectoryAccess K s o op address = .ok x.1)

theorem Inclusive.dirtyBut (hinc : Inclusive K.toHierarchy D (address / K.blocksize) (s.line K)) :
    DirtyBut K s (address / K.blocksize) :=
  fun _ _ _ hd _ hb hm => hinc.dirty hd hb hm

theorem lastLevelMiss_spec (hK : K.Plain) (hs : s.WellFormed K) (hidle : Idle s) {o : CntlrId}
    (ho : K.Cntlr o) (hinc : Inclusive K.toHierarchy D (address / K.blocksize) (s.line K)) :
    Sat Abort.notWriteback (lastLevelMiss K s o requester op address)
      (LastLevelMiss K s o requester op address) := by
  have hiff : (getCacheBlockInfo K s (K.node o) address).map CacheBlockInfo.cstate =
      some .exclusive ↔ s.line K (K.node o) (address / K.blocksize) = .exclusive := by
    rw [info_cstate hs]
    split
    · simp [*]
    · simp
  have hself : K.node o ∉ K.forest.subtrees (others K (K.node o) requester) :=
    not_mem_others le_rfl
  unfold lastLevelMiss
  by_cases he : s.line K (K.node o) (address / K.blocksize) = .exclusive
  · simp only [if_pos (hiff.mpr he)]
    have hup := updates hK (K.node o).level address .invalid
    refine (updatePrev_inclusive hup hs hidle hinc ho.1).bind fun s' hs' => ?_
    have hp : s'.line K (K.node o) (address / K.blocksize) ≠ .invalid := by
      rw [hs'.line, View.snoop_of_not_mem hself, he]
      decide
    refine .upgraded rfl (by rw [he]; decide) (.inr he) ?_
    refine hs'.trans ((setCacheState_moves hs'.wellFormed (by decide) hp).congr ?_)
    rw [hs'.line, ownedView, if_pos he]
  · simp only [if_neg (fun h => he (hiff.mp h)), info_isSome hs]
    split
    · rename_i hd
      split
      · rename_i hp
        refine .upgraded rfl hp (.inl hd) ?_
        refine (setCacheState_moves hs (by decide) hp).congr ?_
        rw [ownedView, if_neg he]
      · rename_i hp
        have hdram : s.Moves K (s.line K) (getDataFromDram K s address K.garbage).1 := by
          unfold getDataFromDram
          split
          · exact ⟨hs, rfl, rfl, rfl, rfl⟩
          · exact .refl hs
        generalize getDataFromDram K s address K.garbage = r at hdram ⊢
        obtain ⟨s₁, data_buf⟩ := r
        simp only at hdram ⊢
        refine (insertCacheBlock_moves hK hdram.wellFormed (hidle.moves hdram) ho ?_ ?_ _).bind ?_
        · intro vt hvt d hl b hb
          rw [hdram.line]
          exact hinc.dirty hl hb
        · split <;> decide
        · intro s' h'
          obtain ⟨habs, hm, hfill, -⟩ := h'
          rw [hdram.line] at habs hfill
          exact .fetched rfl hd habs (hdram.trans hm) hfill
    · rename_i hd
      cases hi : initiateDirectoryAccess K s o op address with
      | ok s' => exact .asked rfl (by simpa using hd) he hi
      | error e =>
        have : Sat Abort.notWriteback (initiateDirectoryAccess K s o op address) fun _ => True := by
          unfold initiateDirectoryAccess
          simp only
          split
          · split
            · split
              · unfold processUpgradeReqToDirectory
                exact (sat_require (Q := fun _ => True) (fun _ => trivial)
                  fun _ => ⟨by decide, by decide⟩).bind fun _ _ => trivial
              · unfold processExReqToDirectory
                exact (sat_require (Q := fun _ => True) (fun _ => trivial)
                  fun _ => ⟨by decide, by decide⟩).bind fun _ _ => trivial
            · trivial
          · trivial
        exact this.of_error hi

/-- A write that controller `o` has from `requester` comes to a cache that snoops the caches of
`requester`: a level that holds the line EXCLUSIVE, and is not the last, passes it on without a
snoop, and a snoop leaves out only the very controller that asks, not its master. -/
def Recalled (K : Config σ) (v : View) (t : ℕ) : ℕ → CntlrId → CntlrId → Prop
  | 0, _, requester => requester ≠ K.node requester
  | r + 1, o, requester =>
    if v (K.node o) t = .exclusive then Recalled K v t r (K.nextCntlr o) o
    else requester ≠ K.node requester

/-- A write that is served leaves the copies of the other previous levels where they are. -/
def Spares (K : Config σ) (v : View) (t : ℕ) : ℕ → CntlrId → Prop
  | 0, o => v (K.node o) t = .sharedUpgrading ∨ v (K.node o) t = .owned
  | r + 1, o => v (K.node o) t = .exclusive ∧ ¬Recalled K v t r (K.nextCntlr o) o

theorem recalled_congr {v v' : View} {t : ℕ} (r : ℕ) : ∀ (o requester : CntlrId),
    (∀ d, o.level ≤ d.level → v d t = v' d t) →
      (Recalled K v t r o requester ↔ Recalled K v' t r o requester) := by
  induction r with
  | zero => exact fun _ _ _ => Iff.rfl
  | succ r ih =>
    intro o requester h
    unfold Recalled
    rw [h (K.node o) le_rfl]
    have := ih (K.nextCntlr o) o fun d hd => h d ((Nat.le_succ _).trans hd)
    split
    · exact this
    · exact Iff.rfl

/-- What holds when a request has been served. -/
structure Served (K : Config σ) (D : Set CntlrId) (r : ℕ) (o requester : CntlrId) (op : MemOp)
    (t : ℕ) (s s' : State σ) : Prop where
  moves : s.Moves K (s'.line K) s'
  inclusive : Inclusive K.toHierarchy D t (s'.line K)
  permits : op.permits (s'.line K (K.node o) t) = true
  shrinks : ∀ d, d.level < o.level → ∀ t', s.line K d t' = .invalid → s'.line K d t' = .invalid
  frame : ∀ d, d.level < o.level → ∀ t', t' ≠ t →
    s'.line K d t' = s.line K d t' ∨ s'.line K d t' = .invalid
  llc : K.m_dram_cntlr = false → ∀ t', s'.line K K.llc t' = s.line K K.llc t' ∨
    t' = t ∧ s.line K K.llc t = .exclusive ∧ s'.line K K.llc t = .modified
  spared : op ≠ .read → Spares K (s.line K) t r o →
    ∀ d ∈ K.forest.subtrees (others K (K.node o) requester), s'.line K d t = s.line K d t
  taken : op ≠ .read → ¬Spares K (s.line K) t r o →
    ∀ d ∈ K.forest.subtrees (others K (K.node o) requester), s'.line K d t = .invalid
  kept : op ≠ .read → s.line K (K.node o) t = .exclusive ∨ s.line K (K.node o) t = .modified →
    K.node requester ∈ K.prevCntlrs (K.node o) → ¬Recalled K (s.line K) t r o requester →
    ∀ d ∈ K.forest.subtree (K.node requester), s'.line K d t = s.line K d t
  recalled : op ≠ .read → s.line K (K.node o) t = .exclusive ∨ s.line K (K.node o) t = .modified →
    K.node requester ∈ K.prevCntlrs (K.node o) → Recalled K (s.line K) t r o requester →
    ∀ d ∈ K.forest.subtree (K.node requester), s'.line K d t = .invalid
  read : op = .read → ∀ d ∈ K.forest.subtrees (others K (K.node o) requester), s'.line K d t =
    if s.line K (K.node o) t = .modified ∨ s.line K (K.node o) t = .exclusive then
      CState.restate .shared (s.line K d t) else s.line K d t
  state : op.permits (s.line K (K.node o) t) = true →
    s'.line K (K.node o) t = s.line K (K.node o) t
  dram : K.m_dram_cntlr = true → ∀ t', s'.line K K.llc t' = s.line K K.llc t' ∨
    s'.line K K.llc t' = .invalid ∨ s'.line K K.llc t' = .shared ∨ s'.line K K.llc t' = .modified

/-- What holds when a request has missed: `s₁` is the state in which the last level asked. -/
structure Missed (K : Config σ) (D : Set CntlrId) (o o' : CntlrId) (op : MemOp) (address : ℕ)
    (s s₁ s' : State σ) : Prop where
  moves : s.Moves K (s₁.line K) s₁
  inclusive : Inclusive K.toHierarchy D (address / K.blocksize) (s₁.line K)
  shrinks : ∀ d, d.level < o.level → ∀ t', s.line K d t' = .invalid → s₁.line K d t' = .invalid
  state : s.line K (K.node o) (address / K.blocksize) ≠ .exclusive ∧
    s.line K (K.node o) (address / K.blocksize) ≠ .modified
  llc : ∀ t', s₁.line K K.llc t' = s.line K K.llc t'
  blocked : op.permits (s.line K K.llc (address / K.blocksize)) = false ∧
    s.line K K.llc (address / K.blocksize) ≠ .exclusive
  cntlr : o' = K.lastCntlr o
  dram : K.m_dram_cntlr = false
  request : initiateDirectoryAccess K s₁ o' op address = .ok s'

/-- The set of the caches that a snoop leaves out because their controller asks. -/
theorem mem_others_node {j : CntlrId} (hr : K.node requester ∈ K.prevCntlrs c)
    (hne : requester ≠ K.node requester) (hj : j ∈ K.forest.subtree (K.node requester)) :
    j ∈ K.forest.subtrees (others K c requester) := by
  refine ⟨K.node requester, mem_others.mpr ⟨hr, ?_⟩, hj⟩
  simpa using hne.symm

theorem not_mem_others_node {j : CntlrId} (hr : K.node requester ∈ K.prevCntlrs c)
    (heq : ¬requester ≠ K.node requester) (hj : j ∈ K.forest.subtree (K.node requester)) :
    j ∉ K.forest.subtrees (others K c requester) := by
  intro h
  obtain ⟨i, hi, hij⟩ := h
  have hi' := mem_others.mp hi
  have h1 := (K.mem_prevCntlrs.mp hi'.1).1
  have h2 := (K.mem_prevCntlrs.mp hr).1
  have : i = K.node requester := hij.unique hj (show i.level = (K.node requester).level by omega)
  exact hi'.2 (by rw [this, ← not_not.mp heq])

/-- A snoop for a write in `c`, that takes the copies of the others, and the change of the block of
`c` alone afterwards. -/
theorem snoop_fates {v v' : View} {t : ℕ}
    (hv : ∀ d, d.level < c.level → v' d t =
      v.snoop (K.forest.subtrees (others K c requester)) t .invalid d t) :
    (∀ d ∈ K.forest.subtrees (others K c requester), v' d t = .invalid) ∧
    (K.node requester ∈ K.prevCntlrs c → ¬requester ≠ K.node requester →
      ∀ d ∈ K.forest.subtree (K.node requester), v' d t = v d t) ∧
    (K.node requester ∈ K.prevCntlrs c → requester ≠ K.node requester →
      ∀ d ∈ K.forest.subtree (K.node requester), v' d t = .invalid) := by
  have taken : ∀ d ∈ K.forest.subtrees (others K c requester), v' d t = .invalid := by
    intro d hd
    have hlt : d.level < c.level := not_le.mp fun h => not_mem_others h hd
    rw [hv d hlt, View.snoop_of_mem hd, CState.restate_to_invalid]
  refine ⟨taken, fun hr heq d hd => ?_, fun hr hne d hd => taken d (mem_others_node hr hne hd)⟩
  have h1 : d.level ≤ (K.node requester).level := Forest.Covers.rank_le hd
  have h2 := (K.mem_prevCntlrs.mp hr).1
  rw [hv d (by omega), View.snoop_of_not_mem (not_mem_others_node hr heq hd)]

theorem recalled_iff {v : View} {t r : ℕ} {o : CntlrId}
    (h : v (K.node o) t = .exclusive → r = 0) :
    Recalled K v t r o requester ↔ requester ≠ K.node requester := by
  cases r with
  | zero => exact Iff.rfl
  | succ r =>
    have he : v (K.node o) t ≠ .exclusive := fun he => by simpa using h he
    unfold Recalled
    rw [if_neg he]

theorem level_le_of_mem_subtree {a d : CntlrId} (h : d ∈ K.forest.subtree a) :
    d.level ≤ a.level := Forest.Covers.rank_le h

theorem level_lt_of_mem_others {d : CntlrId}
    (h : d ∈ K.forest.subtrees (others K c requester)) : d.level < c.level :=
  not_le.mp fun hle => not_mem_others hle h

theorem hitView_cases (v : View) (t : ℕ) :
    ∃ S new, K.forest.Closed S ∧ (∀ d ∈ S, d.level < c.level) ∧ (new = .invalid ∨ new = .shared) ∧
      hitView K c requester op t v = v.snoop S t new := by
  unfold hitView
  split
  · exact ⟨_, _, K.forest.closed_subtrees _, fun _ => level_lt_of_mem_others, .inl rfl, rfl⟩
  · split
    · exact ⟨_, _, K.forest.closed_subtrees _, fun _ => level_lt_of_mem_others, .inr rfl, rfl⟩
    · exact ⟨∅, .invalid, fun _ h => absurd h (Set.notMem_empty _),
        fun _ h => absurd h (Set.notMem_empty _), .inl rfl, View.snoop_empty.symm⟩

theorem served_hit {r : ℕ} {o : CntlrId} {s' : State σ} {t : ℕ} (ho : K.Cntlr o)
    (hinc : Inclusive K.toHierarchy D t (s.line K))
    (hperm : op.permits (s.line K (K.node o) t) = true)
    (h : s.Moves K (hitView K (K.node o) requester op t (s.line K)) s') :
    Served K D r o requester op t s s' := by
  obtain ⟨S, new, hS, hlev, hnew, hview⟩ : ∃ S new, K.forest.Closed S ∧ _ ∧ _ ∧
      hitView K (K.node o) requester op t (s.line K) = _ := hitView_cases (s.line K) t
  have hline : s'.line K = (s.line K).snoop S t new := h.line.trans hview
  have habove : ∀ d, o.level ≤ d.level → ∀ t', s'.line K d t' = s.line K d t' := by
    intro d hd t'
    rw [hline, View.snoop_of_not_mem]
    exact fun hmem => absurd (hlev d hmem) (not_lt.mpr hd)
  have hwrite : op ≠ .read → s.line K (K.node o) t = .modified ∧
      s'.line K = (s.line K).snoop (K.forest.subtrees (others K (K.node o) requester)) t
        .invalid := by
    intro hop
    refine ⟨?_, ?_⟩
    · rwa [MemOp.permits_of_ne_read hop, CState.writable_iff] at hperm
    · rw [h.line, hitView, if_pos hop]
  have hrec : op ≠ .read → (Recalled K (s.line K) t r o requester ↔
    requester ≠ K.node requester) := by
    intro hop
    refine recalled_iff fun he => ?_
    rw [(hwrite hop).1] at he
    cases he
  have hfates : op ≠ .read → _ := fun hop => snoop_fates fun d _ => (by rw [(hwrite hop).2] :
    s'.line K d t =
      (s.line K).snoop (K.forest.subtrees (others K (K.node o) requester)) t .invalid d t)
  refine ⟨h.congr h.line.symm, ?_, ?_, ?_, ?_, ?_, ?_, ?_, ?_, ?_, ?_,
    fun _ => habove (K.node o) le_rfl t, fun _ t' => .inl (habove _ ho.1 t')⟩
  · rw [hline]
    exact hinc.snoop hS hnew
  · rwa [habove (K.node o) le_rfl]
  · intro d _ t' hd
    rw [hline]
    exact View.snoop_invalid hd
  · intro d _ t' ht
    rw [hline]
    exact .inl (View.snoop_of_ne ht)
  · exact fun _ t' => .inl (habove _ ho.1 t')
  · intro hop hsp
    exfalso
    have hm := (hwrite hop).1
    cases r <;> simp [Spares, hm] at hsp
  · exact fun hop _ => (hfates hop).1
  · exact fun hop _ hr hn => (hfates hop).2.1 hr (fun h => hn ((hrec hop).mpr h))
  · exact fun hop _ hr hn => (hfates hop).2.2 hr ((hrec hop).mp hn)
  · intro hop d hd
    rw [h.line, hitView, if_neg (by simp [hop])]
    split
    · exact View.snoop_of_mem hd
    · rfl

/-- What the requesters above the controller may have left: copies above a level without the line
only for a write, and then in a line that the next level may write. -/
def Pending (K : Config σ) (D : Set CntlrId) (o : CntlrId) (op : MemOp) (t : ℕ) (v : View) : Prop :=
  ∀ d ∈ D, ∀ b ∈ K.prevCntlrs d, v b t ≠ .invalid →
    op ≠ .read ∧ (v (K.node o) t = .exclusive ∨ v (K.node o) t = .modified)

/-- Nothing is left above a level without the line. -/
theorem Pending.invalid_above {o : CntlrId} {t : ℕ} {v : View} (hpend : Pending K D o op t v)
    (ho : K.Cntlr o) (hinc : Inclusive K.toHierarchy D t v) (hx : v (K.node o) t = .invalid) :
    ∀ d ∈ K.forest.subtree (K.node o), v d t = .invalid := by
  refine hinc.invalid_above (a := K.node o) ho.1 ?_ hx
  intro d hd b hb
  by_contra hv
  have howned := (hpend d hd b hb hv).2
  rw [hx] at howned
  simp at howned

theorem upgradeView_above {v : View} {t t' : ℕ} {d : CntlrId} (h : c.level ≤ d.level) :
    upgradeView K c requester t v d t' = v d t' := by
  unfold upgradeView
  split
  · exact View.snoop_of_not_mem (not_mem_others h)
  · rfl

theorem upgradeView_invalid {v : View} {t t' : ℕ} {d : CntlrId} (h : v d t' = .invalid) :
    upgradeView K c requester t v d t' = .invalid := by
  unfold upgradeView
  split
  · exact View.snoop_invalid h
  · exact h

theorem Inclusive.upgradeView {v : View} {t : ℕ} (h : Inclusive K.toHierarchy D t v) :
    Inclusive K.toHierarchy D t (CacheCntlr.upgradeView K c requester t v) := by
  unfold CacheCntlr.upgradeView
  split
  · exact h.snoop (K.forest.closed_subtrees _) (.inl rfl)
  · exact h

/-- A line that is there and cannot be used as it is becomes MODIFIED at the last level; the other
previous levels lose a SHARED or EXCLUSIVE line. -/
theorem ownedView_upgradeView (v : View) (t : ℕ) :
    ownedView K c requester t (upgradeView K c requester t v) =
      (if v c t = .shared ∨ v c t = .exclusive then
        v.snoop (K.forest.subtrees (others K c requester)) t .invalid else v).assign c t
          .modified := by
  unfold ownedView
  rw [upgradeView_above le_rfl]
  unfold upgradeView
  by_cases hs : v c t = .shared
  · rw [if_pos hs, if_neg (by rw [hs]; decide), if_pos (.inl hs)]
  · rw [if_neg hs]
    by_cases he : v c t = .exclusive
    · rw [if_pos he, if_pos (.inr he)]
    · rw [if_neg he, if_neg (by tauto)]

theorem served_upgraded {o : CntlrId} {s' : State σ} {t : ℕ} (ho : K.Cntlr o)
    (hl : o.level = K.last) (hinc : Inclusive K.toHierarchy D t (s.line K))
    (hD : ∀ d ∈ D, d.level < o.level) (hperm : op.permits (s.line K (K.node o) t) = false)
    (hpres : s.line K (K.node o) t ≠ .invalid)
    (why : K.m_dram_cntlr = true ∨ s.line K (K.node o) t = .exclusive)
    (h : s.Moves K (ownedView K (K.node o) requester t
      (upgradeView K (K.node o) requester t (s.line K))) s') :
    Served K D 0 o requester op t s s' := by
  have hline := h.line.trans (ownedView_upgradeView (s.line K) t)
  have hnm : s.line K (K.node o) t ≠ .modified := MemOp.not_modified hperm
  have hself : s'.line K (K.node o) t = .modified := by
    rw [hline, View.assign_self]
  -- away from the upgraded block only the snoop shows, if there was one
  have hother : ∀ d t', ¬(d = K.node o ∧ t' = t) → s'.line K d t' =
      (if s.line K (K.node o) t = .shared ∨ s.line K (K.node o) t = .exclusive then
        (s.line K).snoop (K.forest.subtrees (others K (K.node o) requester)) t .invalid
      else s.line K) d t' := by
    intro d t' hd
    rw [hline, View.assign, if_neg hd]
  have hbelow : ∀ {d : CntlrId} {t' : ℕ}, d.level < o.level → ¬(d = K.node o ∧ t' = t) := by
    intro d t' hd h'
    obtain ⟨rfl, -⟩ := h'
    exact lt_irrefl _ hd
  have hframe : ∀ d t', t' ≠ t → s'.line K d t' = s.line K d t' := by
    intro d t' ht
    rw [hother d t' (fun h => ht h.2)]
    split
    · exact View.snoop_of_ne ht
    · rfl
  have hfates := fun (hsnoop : s.line K (K.node o) t = .shared ∨
    s.line K (K.node o) t = .exclusive) =>
    snoop_fates fun d (hd : d.level < (K.node o).level) => (by
      rw [hother d t (hbelow hd), if_pos hsnoop] :
        s'.line K d t =
          (s.line K).snoop (K.forest.subtrees (others K (K.node o) requester)) t .invalid d t)
  have hrec : Recalled K (s.line K) t 0 o requester ↔ requester ≠ K.node requester := Iff.rfl
  have hnode : K.node o = K.llc := ho.node_last hl
  have hread : op = .read → ¬(s.line K (K.node o) t = .shared ∨
    s.line K (K.node o) t = .exclusive) := by
    rintro rfl (hx | hx) <;> rw [hx] at hperm <;> cases hperm
  refine ⟨h.congr h.line.symm, ?_, ?_, ?_, fun d _ t' ht => .inl (hframe d t' ht), ?_, ?_, ?_, ?_,
    ?_, ?_, ?_, ?_⟩
  · rw [hline]
    split
    · refine (hinc.snoop (K.forest.closed_subtrees _) (.inl rfl)).assign_last hl hD ?_
      intro x hx
      exact hx.modified
    · exact hinc.assign_last hl hD fun x hx => hx.modified
  · rw [hself, MemOp.permits_modified]
  · intro d hd t' hv
    rw [hother d t' (hbelow hd)]
    split
    · exact View.snoop_invalid hv
    · exact hv
  · intro hd t'
    rw [← hnode]
    by_cases ht : t' = t
    · subst ht
      refine .inr ⟨rfl, why.resolve_left ?_, hself⟩
      simp [hd]
    · exact .inl (hframe _ t' ht)
  · intro _ hsp d hd
    rw [hother d t (hbelow (level_lt_of_mem_others (c := K.node o) hd)), if_neg]
    rintro (h | h) <;> rw [Spares, h] at hsp <;> simp at hsp
  · intro _ hsp
    exact (hfates (CState.shared_or_exclusive hpres hnm hsp)).1
  · exact fun _ he hr hn => (hfates (.inr (he.resolve_right hnm))).2.1 hr (fun h => hn (hrec.mpr h))
  · exact fun _ he hr hn => (hfates (.inr (he.resolve_right hnm))).2.2 hr (hrec.mp hn)
  · intro hop d hd
    have hx := hread hop
    rw [hother d t (hbelow (level_lt_of_mem_others (c := K.node o) hd)), if_neg hx,
      if_neg (by tauto)]
  · intro hp
    rw [hp] at hperm
    cases hperm
  · intro _ t'
    rw [← hnode]
    by_cases ht : t' = t
    · subst ht
      exact .inr (.inr (.inr hself))
    · exact .inl (hframe _ t' ht)

theorem served_fetched {o : CntlrId} {s' : State σ} {t : ℕ} (ho : K.Cntlr o)
    (hl : o.level = K.last) (hinc : Inclusive K.toHierarchy D t (s.line K))
    (hD : ∀ d ∈ D, d.level < o.level) (hpend : Pending K D o op t (s.line K))
    (habs : s.line K (K.node o) t = .invalid) (hdram : K.m_dram_cntlr = true)
    (h : s.Moves K (s'.line K) s')
    (hfill : View.Filled K.toHierarchy (K.node o) t (if op = .read then .shared else .modified)
      (s.line K) (s'.line K)) :
    Served K D 0 o requester op t s s' := by
  have hinv := hpend.invalid_above ho hinc habs
  have hne : ∀ {d : CntlrId}, d.level < o.level → d ≠ K.node o := by
    rintro d hd rfl
    exact lt_irrefl _ hd
  have hother : ∀ d ∈ K.forest.subtrees (others K (K.node o) requester),
      s.line K d t = .invalid ∧ s'.line K d t = .invalid := by
    intro d h'
    obtain ⟨j, hj, hd⟩ := h'
    have hdc : d ∈ K.forest.subtree (K.node o) := .child (mem_others.mp hj).1 hd
    have hlt := level_lt_of_mem_others (c := K.node o) ⟨j, hj, hd⟩
    exact ⟨hinv d hdc, hfill.shrinks (hne hlt) (hinv d hdc)⟩
  refine ⟨h, ?_, ?_, fun d hd t' => hfill.shrinks (hne hd), fun d hd t' _ => hfill.frame (hne hd),
    ?_, ?_, ?_, ?_, ?_, ?_, ?_, ?_⟩
  · refine (hinc.insert_absent (c := K.node o) ho.1 habs).filled hD hfill ?_ ?_
    · intro b hb hb'
      exact absurd (hinv b (.child hb (.self b))) hb'
    · intro d hd hmem
      have h1 : o.level + 1 = d.level := (K.mem_prevCntlrs.mp hmem).1
      omega
  · rw [hfill.self]
    cases op <;> rfl
  · intro hd
    rw [hdram] at hd
    cases hd
  · intro _ hsp
    simp [Spares, habs] at hsp
  · exact fun _ _ d hd => (hother d hd).2
  · intro _ he
    simp [habs] at he
  · intro _ he
    simp [habs] at he
  · intro _ d hd
    rw [(hother d hd).1, (hother d hd).2]
    simp
  · intro hp
    rw [habs] at hp
    cases op <;> cases hp
  · intro _ t'
    rw [← ho.node_last hl]
    by_cases ht : t' = t
    · subst ht
      rw [hfill.self]
      split <;> simp
    · rcases hfill.same_cache ht with hx | hx
      · exact .inl hx
      · exact .inr (.inl hx)

theorem dropBlock_moves (hs : s.WellFormed K) :
    Sat Abort.notWriteback (dropBlock K s c address) fun s' =>
      s.Moves K ((s.line K).assign c (address / K.blocksize) .invalid) s' := by
  unfold dropBlock
  split
  · exact (invalidateCacheBlock_moves hs).mono (fun _ h => h) fun _ h => h.1
  · rename_i h
    refine (State.Moves.refl hs).congr (View.assign_eq ?_).symm
    by_contra hne
    exact h ((info_isSome hs).mpr hne)

/-- The states when a level that is not the last passes a request on. -/
noncomputable def passView (K : Config σ) (c requester : CntlrId) (t : ℕ) (v : View) : View :=
  (upgradeView K c requester t v).assign c t .invalid

section pass

variable {v : View} {t : ℕ}

theorem passView_self : passView K c requester t v c t = .invalid := View.assign_self

theorem passView_above {d : CntlrId} {t' : ℕ} (h : c.level ≤ d.level) (hne : d ≠ c) :
    passView K c requester t v d t' = v d t' := by
  rw [passView, View.assign_of_ne hne, upgradeView_above h]

theorem passView_below {d : CntlrId} {t' : ℕ} (h : c.level < d.level) :
    passView K c requester t v d t' = v d t' :=
  passView_above h.le (by rintro rfl; exact lt_irrefl _ h)

theorem passView_invalid {d : CntlrId} {t' : ℕ} (h : v d t' = .invalid) :
    passView K c requester t v d t' = .invalid := by
  unfold passView View.assign
  split
  · rfl
  · exact upgradeView_invalid h

theorem passView_frame {d : CntlrId} {t' : ℕ} (ht : t' ≠ t) :
    passView K c requester t v d t' = v d t' := by
  rw [passView, View.assign_of_ne_line ht, upgradeView]
  split
  · exact View.snoop_of_ne ht
  · rfl

/-- An EXCLUSIVE block is passed by without a snoop. -/
theorem passView_exclusive (he : v c t = .exclusive) {d : CntlrId} {t' : ℕ} (hne : d ≠ c) :
    passView K c requester t v d t' = v d t' := by
  rw [passView, View.assign_of_ne hne, upgradeView, if_neg (by rw [he]; decide)]

theorem Inclusive.passView (hinc : Inclusive K.toHierarchy D t v) (hc : c.level ≤ K.last)
    (hm : v c t ≠ .modified) :
    Inclusive K.toHierarchy (insert c D) t (CacheCntlr.passView K c requester t v) := by
  refine (Inclusive.upgradeView hinc).drop hc ?_
  rwa [upgradeView_above le_rfl]

/-- The states in which a level above the last can miss a request. -/
theorem missing_state {o : CntlrId} (ho : K.Cntlr o) (hl : o.level < K.last)
    (hinc : Inclusive K.toHierarchy D t v) (hD : ∀ d ∈ D, d.level < o.level)
    (hperm : op.permits (v (K.node o) t) = false) :
    v (K.node o) t = .invalid ∨ op ≠ .read ∧ v (K.node o) t = .shared ∨
      op ≠ .read ∧ v (K.node o) t = .exclusive ∧
        (v (K.node (K.nextCntlr o)) t = .exclusive ∨ v (K.node (K.nextCntlr o)) t = .modified) := by
  have hmem := ho.node_mem hl
  have habove := hinc.above (K.node (K.nextCntlr o)) hl (K.node o) hmem t fun h => by
    have h1 : o.level + 1 < o.level := hD _ h.1
    omega
  have hread : ∀ x : CState, x.readable = true → op.permits x = false → op ≠ .read := by
    rintro x hx hp rfl
    rw [MemOp.permits_read, hx] at hp
    cases hp
  cases hx : v (K.node o) t with
  | invalid => exact .inl rfl
  | shared => exact .inr (.inl ⟨hread _ rfl (hx ▸ hperm), rfl⟩)
  | exclusive =>
    rw [hx] at habove
    exact .inr (.inr ⟨hread _ rfl (hx ▸ hperm), rfl, habove⟩)
  | modified => exact absurd hx (MemOp.not_modified hperm)
  | sharedUpgrading =>
    rw [hx] at habove
    exact habove.elim
  | owned =>
    rw [hx] at habove
    exact habove.elim

/-- What is left above when a request is passed on is left for a write to an EXCLUSIVE block. -/
theorem Pending.pass {o : CntlrId} (ho : K.Cntlr o) (hl : o.level < K.last)
    (hinc : Inclusive K.toHierarchy D t v) (hD : ∀ d ∈ D, d.level < o.level)
    (hpend : Pending K D o op t v) (hperm : op.permits (v (K.node o) t) = false)
    (hreq : requester ∈ K.prevCntlrs (K.node o) → v requester t = .invalid) :
    ∀ d ∈ insert (K.node o) D, ∀ b ∈ K.prevCntlrs d,
      passView K (K.node o) requester t v b t ≠ .invalid →
        op ≠ .read ∧ v (K.node o) t = .exclusive ∧
          (v (K.node (K.nextCntlr o)) t = .exclusive ∨
            v (K.node (K.nextCntlr o)) t = .modified) := by
  intro d hd b hb hv
  have hvb : v b t ≠ .invalid := fun h => hv (passView_invalid h)
  have hbc : b ≠ K.node o := by
    rintro rfl
    exact hv passView_self
  rcases missing_state ho hl hinc hD hperm with hx | ⟨hop, hx⟩ | ⟨hop, hx, hn⟩
  · exfalso
    rcases hd with rfl | hd
    · refine (hinc.above (K.node o) ho.1 b hb t ?_).valid hvb hx
      exact fun h => lt_irrefl o.level (hD (K.node o) h.1)
    · have := (hpend d hd b hb hvb).2
      rw [hx] at this
      simp at this
  · exfalso
    rcases hd with rfl | hd
    · by_cases hr : b = requester
      · subst hr
        exact hvb (hreq hb)
      · refine hv ?_
        have hmem : b ∈ K.forest.subtrees (others K (K.node o) requester) :=
          ⟨b, mem_others.mpr ⟨hb, by simpa using hr⟩, .self b⟩
        rw [passView, View.assign_of_ne hbc, upgradeView, if_pos hx, View.snoop_of_mem hmem,
          CState.restate_to_invalid]
    · have := (hpend d hd b hb hvb).2
      rw [hx] at this
      simp at this
  · exact ⟨hop, hx, hn⟩

end pass

/-- A request comes to controller `o`: the levels in `D` have passed it on. -/
structure Asks (K : Config σ) (D : Set CntlrId) (o requester : CntlrId) (op : MemOp) (t : ℕ)
    (s : State σ) : Prop where
  cntlr : K.Cntlr o
  inclusive : Inclusive K.toHierarchy D t (s.line K)
  passed : ∀ d ∈ D, d.level < o.level
  pending : Pending K D o op t (s.line K)
  requester : requester ∈ K.prevCntlrs (K.node o) → s.line K requester t = .invalid

section pass

variable {o : CntlrId} {t : ℕ} {s₁ s₂ s' : State σ} (ha : Asks K D o requester op t s)
  (hl : o.level < K.last) (hperm : op.permits (s.line K (K.node o) t) = false)
  (h₁ : s.Moves K (passView K (K.node o) requester t (s.line K)) s₁)

include h₁ in
theorem passed_below {d : CntlrId} (hd : o.level < d.level) (t' : ℕ) :
    s₁.line K d t' = s.line K d t' := by
  rw [h₁.line, passView_below (c := K.node o) hd]

include ha hl hperm h₁

/-- The next level is asked in the same way. -/
theorem Asks.pass : Asks K (insert (K.node o) D) (K.nextCntlr o) o op t s₁ := by
  have hpend := Pending.pass ha.cntlr hl ha.inclusive ha.passed ha.pending hperm ha.requester
  refine ⟨ha.cntlr.nextCntlr hl, ?_, ?_, ?_, ?_⟩
  · rw [h₁.line]
    exact Inclusive.passView ha.inclusive ha.cntlr.1 (MemOp.not_modified hperm)
  · rintro d (rfl | hd)
    · exact Nat.lt_succ_self o.level
    · exact (ha.passed d hd).trans (Nat.lt_succ_self o.level)
  · intro d hd b hb hv
    rw [h₁.line] at hv
    rw [passed_below h₁ (d := K.node (K.nextCntlr o)) (Nat.lt_succ_self o.level)]
    have hleft := hpend d hd b hb hv
    exact ⟨hleft.1, hleft.2.2⟩
  · intro hmem
    have hself : passView K (K.node o) requester t (s.line K) (K.node o) t = .invalid :=
      passView_self
    have hno : K.node o = o := by
      have := (K.mem_prevCntlrs.mp hmem).2.2.1
      unfold Hierarchy.node
      rw [this]
    rw [h₁.line]
    rw [hno] at hself ⊢
    exact hself

theorem Missed.pass {o' : CntlrId} (ht : t = address / K.blocksize)
    (h : Missed K (insert (K.node o) D) (K.nextCntlr o) o' op address s₁ s₂ s') :
    Missed K D o o' op address s s₂ s' := by
  subst ht
  have hstate := h.state
  rw [passed_below h₁ (d := K.node (K.nextCntlr o)) (Nat.lt_succ_self o.level)] at hstate
  have hcases := missing_state ha.cntlr hl ha.inclusive ha.passed hperm
  have hllc := passed_below h₁ (d := K.llc) hl
  -- nothing is left above a level that dropped the line, for the next level could not write it
  have hleft : ∀ d ∈ insert (K.node o) D, ∀ b ∈ K.prevCntlrs d,
      s₂.line K b (address / K.blocksize) = .invalid := by
    intro d hd b hb
    have hlev : b.level < (K.nextCntlr o).level := by
      have h1 := (K.mem_prevCntlrs.mp hb).1
      have h2 := (ha.pass hl hperm h₁).passed d hd
      omega
    refine h.shrinks b hlev _ ?_
    rw [h₁.line]
    by_contra hv
    have hleft := Pending.pass ha.cntlr hl ha.inclusive ha.passed ha.pending hperm ha.requester
      d hd b hb hv
    tauto
  refine ⟨h₁.trans h.moves, ?_, ?_, ?_, ?_, ?_, h.cntlr.trans (K.lastCntlr_next hl), h.dram,
    h.request⟩
  · constructor
    · intro d hd b hb t' hn
      by_cases hdc : d = K.node o ∧ t' = address / K.blocksize
      · rw [hdc.2, hleft d (.inl hdc.1) b hb]
        trivial
      · refine h.inclusive.above d hd b hb t' ?_
        intro h'
        obtain ⟨rfl | hmem, ht⟩ := h'
        · exact hdc ⟨rfl, ht⟩
        · exact hn ⟨hmem, ht⟩
    · exact fun d hd b hb => .inl (hleft d (.inr hd) b hb)
  · intro d hd t' hv
    refine h.shrinks d (hd.trans (Nat.lt_succ_self _)) t' ?_
    rw [h₁.line]
    exact passView_invalid hv
  · rcases hcases with hx | ⟨-, hx⟩ | ⟨-, hx, hn⟩
    · rw [hx]
      exact ⟨by decide, by decide⟩
    · rw [hx]
      exact ⟨by decide, by decide⟩
    · tauto
  · exact fun t' => (h.llc t').trans (hllc t')
  · rw [← hllc]
    exact h.blocked

section served

variable {r : ℕ}
  (h : Served K (insert (K.node o) D) r (K.nextCntlr o) o op t s₁ s₂)
  (hfill : View.Filled K.toHierarchy (K.node o) t (s₂.line K (K.node (K.nextCntlr o)) t)
    (s₂.line K) (s'.line K))

include h hfill

omit ha hl hperm h₁ in
/-- What the levels above have lost by the time the next level is asked does not come back. -/
theorem Served.pass_shrinks {d : CntlrId} (hd : d.level < o.level) {t' : ℕ}
    (hv : s₁.line K d t' = .invalid) : s'.line K d t' = .invalid :=
  hfill.shrinks (by rintro rfl; exact lt_irrefl _ hd)
    (h.shrinks d (hd.trans (Nat.lt_succ_self _)) t' hv)

omit ha hl hperm in
theorem Served.pass_invalid {d : CntlrId} (hd : d.level < o.level) {t' : ℕ}
    (hv : s.line K d t' = .invalid) : s'.line K d t' = .invalid := by
  refine h.pass_shrinks hfill hd ?_
  rw [h₁.line]
  exact passView_invalid hv

/-- A write to an EXCLUSIVE block: the copies above it depend on whether it comes back to them. -/
theorem Served.pass_exclusive (hop : op ≠ .read) (hx : s.line K (K.node o) t = .exclusive)
    {d : CntlrId} (hd : d ∈ K.forest.subtree (K.node o)) (hlev : d.level < o.level) :
    (¬Recalled K (s.line K) t r (K.nextCntlr o) o → s'.line K d t = s.line K d t) ∧
      (Recalled K (s.line K) t r (K.nextCntlr o) o → s'.line K d t = .invalid) := by
  have hmem := ha.cntlr.node_mem hl
  have hdo : d ≠ K.node o := by
    rintro rfl
    exact lt_irrefl _ hlev
  have hstate : s₁.line K (K.node (K.nextCntlr o)) t = .exclusive ∨
      s₁.line K (K.node (K.nextCntlr o)) t = .modified := by
    rw [passed_below h₁ (d := K.node (K.nextCntlr o)) (Nat.lt_succ_self o.level)]
    rcases missing_state ha.cntlr hl ha.inclusive ha.passed hperm with hx' | ⟨-, hx'⟩ | ⟨-, -, hn⟩
    · rw [hx] at hx'
      cases hx'
    · rw [hx] at hx'
      cases hx'
    · exact hn
  have hrec := recalled_congr (K := K) (v := s₁.line K) (t := t) r
    (K.nextCntlr o) o fun d hd => passed_below h₁ hd t
  rw [hfill.of_ne hdo]
  constructor
  · intro hn
    rw [h.kept hop hstate hmem (fun h => hn (hrec.mp h)) d hd, h₁.line, passView_exclusive hx hdo]
  · exact fun hr => h.recalled hop hstate hmem (hrec.mpr hr) d hd

/-- Any other request leaves no copy in the other previous levels on its way. -/
theorem Served.pass_taken (hx : s.line K (K.node o) t ≠ .exclusive)
    {d : CntlrId} (hd : d ∈ K.forest.subtrees (others K (K.node o) requester)) :
    s'.line K d t = .invalid := by
  have hlev : d.level < o.level := level_lt_of_mem_others (c := K.node o) hd
  refine h.pass_shrinks hfill hlev ?_
  rw [h₁.line]
  rcases missing_state ha.cntlr hl ha.inclusive ha.passed hperm with hi | ⟨-, hsh⟩ | ⟨-, he, -⟩
  · obtain ⟨j, hj, hdj⟩ := hd
    exact passView_invalid (ha.pending.invalid_above ha.cntlr ha.inclusive hi d
      (.child (mem_others.mp hj).1 hdj))
  · have hdo : d ≠ K.node o := by
      rintro rfl
      exact lt_irrefl _ hlev
    rw [passView, View.assign_of_ne hdo, upgradeView, if_pos hsh, View.snoop_of_mem hd,
      CState.restate_to_invalid]
  · exact absurd he hx

theorem Served.pass (h₂ : s₂.Moves K (s'.line K) s') :
    Served K D (r + 1) o requester op t s s' := by
  have hchild : ∀ b ∈ K.prevCntlrs (K.node o), b.level < o.level := by
    intro b hb
    have h1 := (K.mem_prevCntlrs.mp hb).1
    have h2 : (K.node o).level = o.level := rfl
    omega
  have hsub : ∀ d ∈ K.forest.subtrees (others K (K.node o) requester),
      d ∈ K.forest.subtree (K.node o) := by
    intro d h'
    obtain ⟨j, hj, hd⟩ := h'
    exact .child (mem_others.mp hj).1 hd
  have hlt : ∀ d ∈ K.forest.subtrees (others K (K.node o) requester), d.level < o.level :=
    fun d hd => level_lt_of_mem_others (c := K.node o) hd
  have hnm : s.line K (K.node o) t ≠ .modified := MemOp.not_modified hperm
  have hllc := passed_below h₁ (d := K.llc) hl
  have hout : K.llc ∉ K.forest.subtree (K.node o) := fun hm =>
    absurd (level_le_of_mem_subtree hm) (not_le.mpr hl)
  -- what becomes of the copies above an EXCLUSIVE block, those of the requester included
  have hback := fun (hop : op ≠ .read) (hx : s.line K (K.node o) t = .exclusive)
    (d : CntlrId) => h.pass_exclusive ha hl hperm h₁ hfill hop hx (d := d)
  refine ⟨(h₁.trans h.moves).trans h₂, ?_, ?_, fun d hd t' =>
    h.pass_invalid h₁ hfill hd, ?_, ?_, ?_,
    ?_, ?_, ?_, ?_, ?_, ?_⟩
  · refine h.inclusive.filled ha.passed hfill ?_ ?_
    · intro b hb hv
      have hop : op ≠ .read := by
        refine (Pending.pass ha.cntlr hl ha.inclusive ha.passed ha.pending hperm ha.requester
          (K.node o) (.inl rfl) b hb ?_).1
        rw [← h₁.line]
        exact fun hv' => hv (h.shrinks b ((hchild b hb).trans (Nat.lt_succ_self _)) t hv')
      have hwrite := h.permits
      rwa [MemOp.permits_of_ne_read hop, CState.writable_iff] at hwrite
    · intro d hd hcd
      have hdn : d = K.node (K.nextCntlr o) := by
        rw [← (K.mem_prevCntlrs.mp hcd).2.2.2, ha.cntlr.below_node hl]
      rw [hdn]
      exact CState.above_self (MemOp.readable_of_permits h.permits)
  · rw [hfill.self]
    exact h.permits
  · intro d hd t' ht
    have hdo : d ≠ K.node o := by
      rintro rfl
      exact lt_irrefl _ hd
    rcases hfill.frame hdo with hx | hx
    · rw [hx]
      rcases h.frame d (hd.trans (Nat.lt_succ_self _)) t' ht with hy | hy
      · rw [hy, h₁.line]
        exact .inl (passView_frame ht)
      · exact .inr hy
    · exact .inr hx
  · intro hd t'
    simp only [hfill.outside hout, ← hllc]
    exact h.llc hd t'
  · intro hop hsp d hd
    exact (hback hop hsp.1 d (hsub d hd) (hlt d hd)).1 hsp.2
  · intro hop hsp d hd
    by_cases hx : s.line K (K.node o) t = .exclusive
    · refine (hback hop hx d (hsub d hd) (hlt d hd)).2 ?_
      by_contra hr
      exact hsp ⟨hx, hr⟩
    · exact h.pass_taken ha hl hperm h₁ hfill hx hd
  · intro hop he hr hn d hd
    have hx := he.resolve_right hnm
    unfold Recalled at hn
    rw [if_pos hx] at hn
    have hlev := level_le_of_mem_subtree hd
    exact (hback hop hx d (.child hr hd) (lt_of_le_of_lt hlev (hchild _ hr))).1 hn
  · intro hop he hr hn d hd
    have hx := he.resolve_right hnm
    unfold Recalled at hn
    rw [if_pos hx] at hn
    have hlev := level_le_of_mem_subtree hd
    exact (hback hop hx d (.child hr hd) (lt_of_le_of_lt hlev (hchild _ hr))).2 hn
  · -- a read misses only where the line is not there, and then it is nowhere above
    intro hop d hd
    have hx : s.line K (K.node o) t = .invalid := by
      rcases missing_state ha.cntlr hl ha.inclusive ha.passed hperm with hx | hx | hx
      · exact hx
      · exact absurd hop hx.1
      · exact absurd hop hx.1
    have hv := ha.pending.invalid_above ha.cntlr ha.inclusive hx d (hsub d hd)
    rw [hv, h.pass_invalid h₁ hfill (hlt d hd) hv]
    simp
  · intro hp
    rw [hp] at hperm
    cases hperm
  · intro hd t'
    simp only [hfill.outside hout, ← hllc]
    exact h.dram hd t'

end served

end pass

/-- A state that differs from the one a request left in the replacement information only. -/
theorem Served.moved {r : ℕ} {o : CntlrId} {t : ℕ} {s₁ s' : State σ}
    (h : Served K D r o requester op t s s₁) (hm : s₁.Moves K (s₁.line K) s') :
    Served K D r o requester op t s s' := by
  obtain ⟨h1, h2, h3, h4, h5, h6, h7, h8, h9, h10, h11, h12, h13⟩ := h
  have hl := hm.line
  constructor
  · rw [hl]
    exact h1.trans hm
  all_goals
    rw [hl]
    assumption

theorem missed_last {o : CntlrId} {s₁ s' : State σ} (ho : K.Cntlr o) (hl : o.level = K.last)
    (hinc : Inclusive K.toHierarchy D (address / K.blocksize) (s.line K))
    (hperm : op.permits (s.line K (K.node o) (address / K.blocksize)) = false)
    (h₁ : s.Moves K (upgradeView K (K.node o) requester (address / K.blocksize) (s.line K)) s₁)
    (hdram : K.m_dram_cntlr = false)
    (hne : s₁.line K (K.node o) (address / K.blocksize) ≠ .exclusive)
    (h : initiateDirectoryAccess K s₁ o op address = .ok s') :
    Missed K D o o op address s s₁ s' := by
  have hnode : K.node o = K.llc := ho.node_last hl
  have habove : ∀ t', s₁.line K (K.node o) t' = s.line K (K.node o) t' := by
    intro t'
    rw [h₁.line, upgradeView_above le_rfl]
  rw [habove] at hne
  refine ⟨h₁.congr h₁.line.symm, ?_, ?_, ⟨hne, ?_⟩, ?_, ⟨hnode ▸ hperm, hnode ▸ hne⟩, ?_, hdram, h⟩
  · rw [h₁.line]
    exact Inclusive.upgradeView hinc
  · intro d _ t' hv
    rw [h₁.line]
    exact upgradeView_invalid hv
  · exact MemOp.not_modified hperm
  · rw [← hnode]
    exact habove
  · rw [Hierarchy.lastCntlr, hl, Nat.sub_self]
    rfl

/-- How a request ends: it is served, and then the line may be used and the levels above are as they
should be, or it misses and the last level has asked the directory. -/
def Ends (K : Config σ) (D : Set CntlrId) (r : ℕ) (o requester : CntlrId) (op : MemOp) (address : ℕ)
    (s : State σ) (x : State σ × HitWhere) : Prop :=
  (x.2 ≠ .miss → Served K D r o requester op (address / K.blocksize) s x.1) ∧
    (x.2 = .miss → ∃ o' s₁, Missed K D o o' op address s s₁ x.1)

section ends

variable {r : ℕ} {o : CntlrId} (hK : K.Plain) (hidle : Idle s)
  (ha : Asks K D o requester op (address / K.blocksize) s)

include hK hidle ha

/-- At every level, a request that may proceed is answered there. -/
theorem answerHit_ends (hs : s.WellFormed K)
    (hperm : op.permits (s.line K (K.node o) (address / K.blocksize)) = true) (u : Bool) :
    Sat Abort.notWriteback (answerHit K s (K.node o) requester op address u)
      (Ends K D r o requester op address s) := by
  refine (answerHit_moves (c := K.node o) hK hs hidle ha.inclusive ha.cntlr.1 u).mono
    (fun _ h => h) fun x hx => ⟨fun _ => served_hit ha.cntlr ha.inclusive hperm hx.2, fun h => ?_⟩
  rw [hx.1] at h
  cases h

/-- The last level goes to DRAM or to the directory for what it misses. -/
theorem lastLevelMiss_ends (hl : o.level = K.last)
    (hperm : op.permits (s.line K (K.node o) (address / K.blocksize)) = false) {s₁ : State σ}
    (h₁ : s.Moves K (upgradeView K (K.node o) requester (address / K.blocksize) (s.line K)) s₁) :
    Sat Abort.notWriteback (do
      let x ← lastLevelMiss K s₁ o requester op address
      answerMiss K x.1 (K.node o) address x.2) (Ends K D 0 o requester op address s) := by
  have hinc₁ : Inclusive K.toHierarchy D (address / K.blocksize) (s₁.line K) := by
    rw [h₁.line]
    exact Inclusive.upgradeView ha.inclusive
  have hstate : s₁.line K (K.node o) (address / K.blocksize) =
      s.line K (K.node o) (address / K.blocksize) := by
    rw [h₁.line, upgradeView_above le_rfl]
  refine (lastLevelMiss_spec hK h₁.wellFormed (hidle.moves h₁) ha.cntlr hinc₁).bind ?_
  intro h' h₂
  obtain ⟨s₂, hw⟩ := h'
  rcases h₂ with ⟨hhit, hpres, why, hmv⟩ | ⟨hhit, hdram, habs, hmv, hfill⟩ |
    ⟨hhit, hdram, hne, hrq⟩
  · simp only at hhit hmv
    subst hhit
    rw [hstate] at hpres why
    refine (answerMiss_moves hmv.wellFormed _).mono (fun _ h => h) fun x hx => ?_
    refine ⟨fun _ => Served.moved ?_ hx.2.2, fun h => by simp [hx.1] at h⟩
    exact served_upgraded ha.cntlr hl ha.inclusive ha.passed hperm hpres why
      (h₁.trans (h₁.line ▸ hmv))
  · simp only at hhit hmv hfill
    subst hhit
    rw [hstate] at habs
    -- without a copy at the last level there was nothing to snoop
    have hv : s₁.line K = s.line K := by
      rw [h₁.line, upgradeView, if_neg (by rw [habs]; decide)]
    rw [hv] at hfill
    refine (answerMiss_moves hmv.wellFormed _).mono (fun _ h => h) fun x hx => ?_
    refine ⟨fun _ => Served.moved ?_ hx.2.2, fun h => by simp [hx.1] at h⟩
    exact served_fetched ha.cntlr hl ha.inclusive ha.passed ha.pending habs hdram
      (h₁.trans hmv) hfill
  · simp only at hhit hrq
    subst hhit
    exact ⟨fun h => absurd rfl h,
      fun _ => ⟨o, s₁, missed_last ha.cntlr hl ha.inclusive hperm h₁ hdram hne hrq⟩⟩

/-- Any other level fills from the next one when that has served the request. -/
theorem fillFromNextLevel_ends (hl : o.level < K.last)
    (hperm : op.permits (s.line K (K.node o) (address / K.blocksize)) = false) {s₁ : State σ}
    (h₁ : s.Moves K (passView K (K.node o) requester (address / K.blocksize) (s.line K)) s₁)
    {x : State σ × HitWhere}
    (h : Ends K (insert (K.node o) D) r (K.nextCntlr o) o op address s₁ x) :
    Sat Abort.notWriteback (do
      let s' ← fillFromNextLevel K x.1 o op address x.2
      answerMiss K s' (K.node o) address x.2) (Ends K D (r + 1) o requester op address s) := by
  obtain ⟨s₂, hw⟩ := x
  obtain ⟨hserved, hmissed⟩ := h
  simp only at hserved hmissed ⊢
  by_cases hmiss : hw = .miss
  · subst hmiss
    obtain ⟨o', s₃, hm⟩ := hmissed rfl
    simp only [fillFromNextLevel, answerMiss, if_pos]
    exact ⟨fun h => absurd rfl h, fun _ => ⟨o', s₃, Missed.pass ha hl hperm h₁ rfl hm⟩⟩
  · have hsv := hserved hmiss
    have habs : s₂.line K (K.node o) (address / K.blocksize) = .invalid := by
      refine hsv.shrinks (K.node o) (Nat.lt_succ_self o.level) _ ?_
      rw [h₁.line, passView_self]
    simp only [fillFromNextLevel, if_neg hmiss]
    refine (copyDataFromNextLevel_moves hK hsv.moves.wellFormed
      ((hidle.moves h₁).moves hsv.moves) ha.cntlr (Inclusive.dirtyBut hsv.inclusive) habs).bind ?_
    intro s₃ h'
    obtain ⟨-, h₃, hfill⟩ := h'
    refine (answerMiss_moves h₃.wellFormed hw).mono (fun _ h => h) ?_
    rintro ⟨s', hw'⟩ ⟨hhw, -, hm⟩
    simp only at hhw hm ⊢
    subst hhw
    exact ⟨fun _ => (Served.pass ha hl hperm h₁ hsv hfill h₃).moved hm, fun h => absurd h hmiss⟩

end ends

/-- What a request does at any level. -/
theorem processShmemReqFromPrevCache_spec (hK : K.Plain) (count : Bool) (r : ℕ) :
    ∀ (s : State σ) (o requester : CntlrId) (D : Set CntlrId), K.Cntlr o → o.level + r = K.last →
      s.WellFormed K → Idle s → Inclusive K.toHierarchy D (address / K.blocksize) (s.line K) →
      (∀ d ∈ D, d.level < o.level) → Pending K D o op (address / K.blocksize) (s.line K) →
      (requester ∈ K.prevCntlrs (K.node o) →
        s.line K requester (address / K.blocksize) = .invalid) →
      Sat Abort.notWriteback (processShmemReqFromPrevCache K r s o requester op address count)
        fun x => (x.2 ≠ .miss → Served K D r o requester op (address / K.blocksize) s x.1) ∧
          (x.2 = .miss → ∃ o' s₁, Missed K D o o' op address s s₁ x.1) := by
  induction r with
  | zero =>
    intro s o requester D ho hl hs hidle hinc hD hpend hreq
    have ha : Asks K D o requester op (address / K.blocksize) s := ⟨ho, hinc, hD, hpend, hreq⟩
    unfold processShmemReqFromPrevCache
    simp only [adjustHit_plain hK, ok_bind, getCacheState_eq]
    cases hperm : op.permits (s.line K (K.node o) (address / K.blocksize)) with
    | true =>
      rw [if_pos rfl]
      exact answerHit_ends hK hidle ha hs hperm _
    | false =>
      rw [if_neg (by decide)]
      have hup := updates hK (K.node o).level address .invalid
      refine (snoopOnUpgrade_moves hup hs hidle hinc ho.1).bind fun s₁ h₁ => ?_
      exact lastLevelMiss_ends hK hidle ha hl hperm h₁
  | succ r ih =>
    intro s o requester D ho hl hs hidle hinc hD hpend hreq
    have ha : Asks K D o requester op (address / K.blocksize) s := ⟨ho, hinc, hD, hpend, hreq⟩
    have hlt : o.level < K.last := by omega
    unfold processShmemReqFromPrevCache
    simp only [adjustHit_plain hK, ok_bind, getCacheState_eq]
    cases hperm : op.permits (s.line K (K.node o) (address / K.blocksize)) with
    | true =>
      rw [if_pos rfl]
      exact answerHit_ends hK hidle ha hs hperm _
    | false =>
      rw [if_neg (by decide)]
      -- the level gives up its own copy before it asks the next
      have hup := updates hK (K.node o).level address .invalid
      refine (snoopOnUpgrade_moves hup hs hidle hinc ho.1).bind fun s₀ h₀ => ?_
      refine (dropBlock_moves (c := K.node o) h₀.wellFormed).bind fun s₁ h => ?_
      have h₁ : s.Moves K (passView K (K.node o) requester (address / K.blocksize) (s.line K)) s₁ :=
        h₀.trans (h.congr (by rw [h₀.line]; rfl))
      have hnext := ha.pass hlt hperm h₁
      refine (ih s₁ (K.nextCntlr o) o (insert (K.node o) D) hnext.cntlr
        (by simp only [Hierarchy.nextCntlr]; omega) h₁.wellFormed (hidle.moves h₁) hnext.inclusive
        hnext.passed hnext.pending hnext.requester).bind fun x hx => ?_
      exact fillFromNextLevel_ends hK hidle ha hlt hperm h₁ hx

end CacheCntlr
end Sniper
