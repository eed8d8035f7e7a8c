import Sniper.DirtyPath

namespace Sniper
open Outcome

variable {σ : Type} {K : Config σ} {s s' : State σ} {a : MemAccess}

/-- A first-level cache that holds a line MODIFIED is the only one that holds it. -/
def SingleWriter (K : Config σ) (s : State σ) : Prop :=
  ∀ i j address, K.Node i → K.Node j → i.level = 0 → j.level = 0 → i ≠ j →
    CacheCntlr.getCacheState K s i address = .modified →
    CacheCntlr.getCacheState K s j address = .invalid

/-- A read that misses in its own first-level cache, of a line that is MODIFIED at the last level
and that another first-level cache holds. -/
def ReadsDirty (K : Config σ) (s : State σ) (a : MemAccess) : Prop :=
  a.op = .read ∧
    (CacheCntlr.getCacheState K s (K.node a.cntlr) a.ca_address).readable = false ∧
    CacheCntlr.getCacheState K s K.llc a.ca_address = .modified ∧
    ∃ j, K.Node j ∧ j.level = 0 ∧ j ≠ K.node a.cntlr ∧
      CacheCntlr.getCacheState K s j a.ca_address ≠ .invalid

/-- What holds between two calls, whether or not a line has two writers. -/
structure Settled (K : Config σ) (s : State σ) : Prop where
  wellFormed : s.WellFormed K
  idle : CacheCntlr.Idle s
  inclusion : Inclusion K.toHierarchy (s.line K)
  llc : ∀ t, s.line K K.llc t = .invalid ∨ s.line K K.llc t = .shared ∨ s.line K K.llc t = .modified

/-- The same of one line. -/
def OneWriter (K : Config σ) (s : State σ) (t : ℕ) : Prop :=
  ∀ i j, K.Node i → K.Node j → i.level = 0 → j.level = 0 → i ≠ j →
    s.line K i t = .modified → s.line K j t = .invalid

theorem singleWriter_iff_line : SingleWriter K s ↔ ∀ t, OneWriter K s t := by
  unfold SingleWriter
  simp only [CacheCntlr.getCacheState_eq]
  constructor
  · intro h t i j hi hj hi0 hj0 hne hm
    have hline := h i j (t * K.blocksize) hi hj hi0 hj0 hne
    rw [Nat.mul_div_cancel _ K.blocksize_pos] at hline
    exact hline hm
  · exact fun h i j address => h (address / K.blocksize) i j

/-- A cache whose line the others do not have may write it. -/
theorem OneWriter.of_alone {t : ℕ} {c : CntlrId} (hnone : ∀ d, K.Node d → d.level = 0 → d ≠ c →
    s.line K d t = .invalid) : OneWriter K s t := by
  intro i j hi hj hi0 hj0 hne hm
  have hic : i = c := by
    by_contra hic
    rw [hnone i hi hi0 hic] at hm
    cases hm
  exact hnone j hj hj0 fun h => hne (hic.trans h.symm)

/-- The first-level caches are the previous-level caches of the last level. -/
theorem mem_prevCntlrs_llc (h1 : K.last = 1) {i : CntlrId} :
    i ∈ K.prevCntlrs K.llc ↔ K.Node i ∧ i.level = 0 := by
  constructor
  · intro h
    obtain ⟨hl, hw, hm, -⟩ := K.mem_prevCntlrs.mp h
    have hlev : i.level + 1 = K.last := hl
    exact ⟨⟨⟨by omega, hw⟩, hm⟩, by omega⟩
  · intro h'
    obtain ⟨hi, hl⟩ := h'
    have := hi.mem_prevCntlrs
    rwa [show K.below i = K.llc from ?_] at this
    have hn := hi.1.nextCntlr (by omega)
    exact hn.node_last (by simp only [Hierarchy.nextCntlr]; omega)

/-- A line that is not MODIFIED at the last level has no writer. -/
theorem Settled.not_modified (h : Settled K s) (h1 : K.last = 1) {i : CntlrId} (hi : K.Node i)
    (h0 : i.level = 0) {t : ℕ} (hm : s.line K i t = .modified) : s.line K K.llc t = .modified :=
  (h.inclusion K.llc le_rfl i ((mem_prevCntlrs_llc h1).mpr ⟨hi, h0⟩) t).eq_modified hm

theorem Settled.absent (h : Settled K s) (h1 : K.last = 1) {i : CntlrId} (hi : K.Node i)
    (h0 : i.level = 0) {t : ℕ} (hm : s.line K K.llc t = .invalid) : s.line K i t = .invalid := by
  by_contra hv
  exact (h.inclusion K.llc le_rfl i ((mem_prevCntlrs_llc h1).mpr ⟨hi, h0⟩) t).valid hv hm

/-- What a call that fetches line `t` makes of the first-level caches. -/
structure FetchFacts (K : Config σ) (a : MemAccess) (t : ℕ) (s s' : State σ) : Prop where
  settled : Settled K s'
  frame : ∀ d, d.level = 0 → ∀ t', t' ≠ t →
    s'.line K d t' = s.line K d t' ∨ s'.line K d t' = .invalid
  taken : a.op ≠ .read → ∀ d, K.Node d → d.level = 0 → d ≠ K.node a.cntlr →
    s'.line K d t = .invalid
  read : a.op = .read → ∀ d, K.Node d → d.level = 0 → d ≠ K.node a.cntlr →
    s'.line K d t =
      if s.line K K.llc t = .modified then CState.restate .shared (s.line K d t)
      else s.line K d t
  own : s'.line K (K.node a.cntlr) t = s'.line K K.llc t
  llc : a.op = .read → s.line K K.llc t ≠ .invalid → s'.line K K.llc t = s.line K K.llc t

theorem fetchFacts (h1 : K.last = 1) (hd : K.m_dram_cntlr = true) (h : Settled K s)
    (ha : K.Cntlr a.cntlr) (h0 : a.cntlr.level = 0) {s₀ s₁ : State σ}
    (hdrop : s.Moves K
      ((s.line K).assign (K.node a.cntlr) (a.ca_address / K.blocksize) .invalid) s₀)
    (hf : CacheCntlr.Fetched K a s₀ s₁ s') :
    FetchFacts K a (a.ca_address / K.blocksize) s s' := by
  have hnext : K.Cntlr (K.nextCntlr a.cntlr) := ha.nextCntlr (by omega)
  have hllc : K.node (K.nextCntlr a.cntlr) = K.llc :=
    hnext.node_last (by simp only [Hierarchy.nextCntlr]; omega)
  have hne : K.llc ≠ K.node a.cntlr := by
    intro hc
    have : K.llc.level = (K.node a.cntlr).level := congrArg CntlrId.level hc
    change K.last = a.cntlr.level at this
    omega
  have hsv := hf.served
  have hfill := hf.filled
  rw [show K.last - (a.cntlr.level + 1) = 0 by omega] at hsv
  rw [hllc] at hfill
  obtain ⟨-, -, hperm, hshrink, hframe, -, -, htaken, -, -, hread, hstate, hdram⟩ := hsv
  rw [hllc] at hperm htaken hread hstate
  have hincl := hf.inclusion ha h0 (by omega)
  generalize a.ca_address / K.blocksize = t at *
  have hs₀ : ∀ d, d ≠ K.node a.cntlr → ∀ t', s₀.line K d t' = s.line K d t' := by
    intro d hd t'
    rw [hdrop.line, View.assign_of_ne hd]
  have habs : s₀.line K (K.node a.cntlr) t = .invalid := by
    rw [hdrop.line, View.assign_self]
  have hlev : ∀ d : CntlrId, d.level = 0 → d.level < (K.nextCntlr a.cntlr).level := by
    intro d hd
    rw [hd]
    exact Nat.succ_pos _
  have hout : K.llc ∉ K.forest.subtree (K.node a.cntlr) := by
    intro hm
    have : K.last ≤ a.cntlr.level := CacheCntlr.level_le_of_mem_subtree hm
    omega
  have hother : ∀ d, K.Node d → d.level = 0 → d ≠ K.node a.cntlr →
      d ∈ K.forest.subtrees (CacheCntlr.others K K.llc a.cntlr) := by
    intro d hdn hd0 hdne
    refine ⟨d, CacheCntlr.mem_others.mpr ⟨(mem_prevCntlrs_llc h1).mpr ⟨hdn, hd0⟩, ?_⟩, .self d⟩
    intro hc
    obtain rfl := Option.some.inj hc
    exact hdne hdn.node_eq.symm
  have hllcs : ∀ t', s₀.line K K.llc t' = s.line K K.llc t' := hs₀ _ hne
  refine ⟨⟨hf.moves.wellFormed, ((h.idle.moves hdrop).moves hf.served.moves).moves hf.moves,
    ?_, ?_⟩, ?_, ?_, ?_, ?_, ?_⟩
  · exact hincl habs
  · intro t'
    rw [hfill.outside hout]
    rcases hdram hd t' with hx | hx | hx | hx
    · rw [hx, hllcs]
      exact h.llc t'
    all_goals simp [hx]
  · intro d hd0 t' ht
    by_cases hdc : d = K.node a.cntlr
    · subst hdc
      rcases hfill.same_cache ht with hx | hx
      · rw [hx]
        rcases hframe (K.node a.cntlr) (hlev _ hd0) t' ht with hy | hy
        · rw [hy, hdrop.line, View.assign_of_ne_line ht]
          exact .inl rfl
        · exact .inr hy
      · exact .inr hx
    · rcases hfill.frame hdc with hx | hx
      · rw [hx, ← hs₀ d hdc]
        exact hframe d (hlev _ hd0) t' ht
      · exact .inr hx
  · -- with direct DRAM access the last level never has the states that spare the others
    intro hop d hdn hd0 hdne
    rw [hfill.of_ne hdne]
    refine htaken hop ?_ d (hother d hdn hd0 hdne)
    intro hsp
    have hl := h.llc t
    have hsp' : s₀.line K (K.node (K.nextCntlr a.cntlr)) t = .sharedUpgrading ∨
        s₀.line K (K.node (K.nextCntlr a.cntlr)) t = .owned := hsp
    rw [hllc, hllcs] at hsp'
    rcases hl with hl | hl | hl <;> simp [hl] at hsp'
  · intro hop d hdn hd0 hdne
    rw [hfill.of_ne hdne, hread hop d (hother d hdn hd0 hdne), hllcs, hs₀ d hdne]
    have hl := h.llc t
    have he : s.line K K.llc t ≠ .exclusive := by
      rcases hl with hl | hl | hl <;> simp [hl]
    simp [he]
  · rw [hfill.self, hfill.outside hout]
  · intro hop hv
    rw [hfill.outside hout, ← hllcs]
    refine hstate ?_
    rw [hop, hllcs]
    rcases h.llc t with hl | hl | hl
    · exact absurd hl hv
    · rw [hl]
      rfl
    · rw [hl]
      rfl

/-- What a completed call does: it hits, or it fetches the line from the last level. -/
theorem exec_cases (hK : K.Plain) (hd : K.m_dram_cntlr = true) (h : Settled K s)
    (ha : K.Cntlr a.cntlr) (h0 : a.cntlr.level = 0) (hx : (coreMachine K).exec s a = .ok s') :
    (a.op.permits (s.line K (K.node a.cntlr) (a.ca_address / K.blocksize)) = true ∧
      s.Moves K (s.line K) s') ∨
    ∃ s₀ s₁, a.op.permits (s.line K (K.node a.cntlr) (a.ca_address / K.blocksize)) = false ∧
      s.Moves K ((s.line K).assign (K.node a.cntlr) (a.ca_address / K.blocksize) .invalid) s₀ ∧
      CacheCntlr.Fetched K a s₀ s₁ s' := by
  have hsat := CacheCntlr.processMemOpFromCore_spec hK h.wellFormed h.idle h.inclusion ha h0
  cases hp : CacheCntlr.processMemOpFromCore K s a with
  | error e =>
    simp only [coreMachine, hp] at hx
    cases hx
  | ok x =>
    simp only [coreMachine, hp] at hx
    obtain rfl : x.1 = s' := Except.ok.inj hx
    cases (hsat.of_ok hp).1 with
    | hit hperm hm => exact .inl ⟨hperm, hm⟩
    | fetched hmiss hdrop hf => exact .inr ⟨_, _, hmiss, hdrop, hf⟩
    | waiting _ _ hm _ => simp [hm.dram] at hd

section fetch

variable {t : ℕ} (hf : FetchFacts K a t s s')

include hf

/-- The other lines only leave caches. -/
theorem FetchFacts.oneWriter_of_ne {t' : ℕ} (ht : t' ≠ t) (h : OneWriter K s t') :
    OneWriter K s' t' := by
  intro i j hi hj hi0 hj0 hne hm
  rcases hf.frame j hj0 t' ht with hy | hy
  · rw [hy]
    rcases hf.frame i hi0 t' ht with hx | hx
    · exact h i j hi hj hi0 hj0 hne (hx ▸ hm)
    · rw [hx] at hm
      cases hm
  · exact hy

/-- A read of a line that is not MODIFIED at the last level makes no writer. -/
theorem FetchFacts.oneWriter_of_clean (h : Settled K s) (h1 : K.last = 1) (hop : a.op = .read)
    (hm : s.line K K.llc t ≠ .modified) : OneWriter K s' t := by
  rcases h.llc t with hl | hl | hl
  · -- nobody had the line
    refine .of_alone (c := K.node a.cntlr) fun d hd hd0 hda => ?_
    rw [hf.read hop d hd hd0 hda, if_neg hm, h.absent h1 hd hd0 hl]
  · intro i j hi hj hi0 hj0 hne hmi
    have hwrite := hf.settled.not_modified h1 hi hi0 hmi
    rw [hf.llc hop (by rw [hl]; decide), hl] at hwrite
    cases hwrite
  · exact absurd hl hm

/-- A read of one that is gets the MODIFIED state of the last level; the others stay SHARED. -/
theorem FetchFacts.oneWriter_iff_of_dirty (ha : K.Cntlr a.cntlr) (h0 : a.cntlr.level = 0)
    (hop : a.op = .read) (hm : s.line K K.llc t = .modified) : OneWriter K s' t ↔
      ¬∃ j, K.Node j ∧ j.level = 0 ∧ j ≠ K.node a.cntlr ∧ s.line K j t ≠ .invalid := by
  have hreader : s'.line K (K.node a.cntlr) t = .modified := by
    rw [hf.own, hf.llc hop (by rw [hm]; decide), hm]
  have hothers : ∀ d, K.Node d → d.level = 0 → d ≠ K.node a.cntlr →
      (s'.line K d t = .invalid ↔ s.line K d t = .invalid) := by
    intro d hdn hd0 hdne
    rw [hf.read hop d hdn hd0 hdne, if_pos hm, CState.restate_eq_invalid (by decide)]
  constructor
  · intro hsw h
    obtain ⟨j, hj, hj0, hjne, hv⟩ := h
    exact hv ((hothers j hj hj0 hjne).mp
      (hsw (K.node a.cntlr) j ha.node hj h0 hj0 hjne.symm hreader))
  · intro hno
    refine .of_alone fun d hdn hd0 hdne => (hothers d hdn hd0 hdne).mpr ?_
    by_contra hv
    exact hno ⟨d, hdn, hd0, hdne, hv⟩

end fetch

/-- One call: it lets two first-level caches hold a line that one of them may write exactly when it
is one of those reads. -/
theorem step_iff (hK : K.Plain) (h1 : K.last = 1) (hd : K.m_dram_cntlr = true) (h : Settled K s)
    (he : (coreMachine K).enabled s a) (hx : (coreMachine K).exec s a = .ok s') :
    Settled K s' ∧ (SingleWriter K s → (SingleWriter K s' ↔ ¬ReadsDirty K s a)) := by
  obtain ⟨ha, h0⟩ := he
  have hbad : ReadsDirty K s a ↔ a.op = .read ∧
      (s.line K (K.node a.cntlr) (a.ca_address / K.blocksize)).readable = false ∧
      s.line K K.llc (a.ca_address / K.blocksize) = .modified ∧
      ∃ j, K.Node j ∧ j.level = 0 ∧ j ≠ K.node a.cntlr ∧
        s.line K j (a.ca_address / K.blocksize) ≠ .invalid := by
    unfold ReadsDirty
    simp only [CacheCntlr.getCacheState_eq]
  rw [hbad]
  simp only [singleWriter_iff_line]
  rcases exec_cases hK hd h ha h0 hx with ⟨hperm, hm⟩ | ⟨s₀, s₁, hmiss, hdrop, hf⟩
  · -- a hit moves no line
    refine ⟨⟨hm.wellFormed, h.idle.moves hm, by rw [hm.line]; exact h.inclusion,
      by rw [hm.line]; exact h.llc⟩, fun hsw => ?_⟩
    unfold OneWriter at hsw ⊢
    rw [hm.line]
    refine iff_of_true hsw ?_
    intro h'
    obtain ⟨-, hr, -⟩ := h'
    rw [MemOp.readable_of_permits hperm] at hr
    cases hr
  have hfacts := fetchFacts h1 hd h ha h0 hdrop hf
  refine ⟨hfacts.settled, fun hsw => ?_⟩
  generalize a.ca_address / K.blocksize = t at *
  have hline : (∀ t', OneWriter K s' t') ↔ OneWriter K s' t := by
    refine ⟨fun h => h t, fun ht t' => ?_⟩
    by_cases htt : t' = t
    · exact htt ▸ ht
    · exact hfacts.oneWriter_of_ne htt (hsw t')
  rw [hline]
  by_cases hop : a.op = .read
  · have hunread : (s.line K (K.node a.cntlr) t).readable = false := by
      rw [hop] at hmiss
      exact hmiss
    by_cases hm : s.line K K.llc t = .modified
    · rw [hfacts.oneWriter_iff_of_dirty ha h0 hop hm]
      exact not_congr ⟨fun hj => ⟨hop, hunread, hm, hj⟩, fun hb => hb.2.2.2⟩
    · exact iff_of_true (hfacts.oneWriter_of_clean h h1 hop hm) fun hb => hm hb.2.2.1
  · exact iff_of_true (.of_alone (hfacts.taken hop)) fun hb => hop hb.1

theorem settled_init (policy : CntlrId → ℕ → σ) : Settled K (Sys.init policy).mem where
  wellFormed := (Sys.sound_init (K := K) policy).wellFormed
  idle := (Sys.sound_init (K := K) policy).idle
  inclusion := (Sys.sound_init (K := K) policy).inclusion
  llc _ := .inl (Sys.line_init policy _ _)

/-- Over one last-level cache with direct DRAM access, a line has one writer and no reader beside it
in every state of a run exactly when no call of the run is a read of a line that is MODIFIED at the
last level and held by another first-level cache. -/
theorem singleWriter_always_iff (K : Config σ) (hK : K.Plain) (h1 : K.last = 1)
    (hd : K.m_dram_cntlr = true) (policy : CntlrId → ℕ → σ) (ops : List MemAccess) (s : State σ)
    (hrun : (coreMachine K).Run (Sys.init policy).mem ops s) :
    (∀ done s₁, done <+: ops → (coreMachine K).Run (Sys.init policy).mem done s₁ →
      SingleWriter K s₁) ↔
    ∀ done a s₁, done ++ [a] <+: ops → (coreMachine K).Run (Sys.init policy).mem done s₁ →
      ¬ReadsDirty K s₁ a := by
  refine hrun.always_iff (J := Settled K) (fun s a s' hJ he hx => step_iff hK h1 hd hJ he hx)
    (settled_init policy) ?_
  rw [singleWriter_iff_line]
  intro t i j _ _ _ _ _ hm
  rw [Sys.line_init] at hm
  cases hm

/-- One core writes a block, the other reads it. -/
def writeThenRead : List MemAccess :=
  [⟨⟨0, 0⟩, .none, .write, 0, 0, none, 0, true⟩, ⟨⟨0, 1⟩, .none, .read, 0, 0, none, 0, true⟩]

/-- The reader is left with a MODIFIED block, the writer with a SHARED one. -/
theorem read_leaves_two_holders :
    ∃ s, (coreMachine ((Hierarchy.funnel 0 2).oneBlock true)).Run (Sys.init fun _ _ => ()).mem
      writeThenRead s ∧ ¬SingleWriter ((Hierarchy.funnel 0 2).oneBlock true) s := by
  have h : (writeThenRead.foldlM (coreMachine ((Hierarchy.funnel 0 2).oneBlock true)).exec
      (Sys.init fun _ _ => ()).mem).toOption.map (fun s =>
        (CacheCntlr.getCacheState ((Hierarchy.funnel 0 2).oneBlock true) s ⟨0, 1⟩ 0,
          CacheCntlr.getCacheState ((Hierarchy.funnel 0 2).oneBlock true) s ⟨0, 0⟩ 0)) =
      some (.modified, .shared) := by decide +kernel
  obtain ⟨s, hs, hst⟩ := Option.map_eq_some_iff.mp h
  simp only [Prod.mk.injEq] at hst
  refine ⟨s, coreMachine_run (by decide) (toOption_eq_some.mp hs), fun hsw => ?_⟩
  have := hsw ⟨0, 1⟩ ⟨0, 0⟩ 0 (by decide) (by decide) rfl rfl (by decide) hst.1
  rw [hst.2] at this
  cases this

/-- The write alone leaves one holder. -/
theorem singleWriter_always_iff_write :
    ∃ s, (coreMachine ((Hierarchy.funnel 0 2).oneBlock true)).Run (Sys.init fun _ _ => ()).mem
      (writeThenRead.take 1) s ∧ SingleWriter ((Hierarchy.funnel 0 2).oneBlock true) s := by
  have h : ((writeThenRead.take 1).foldlM (coreMachine ((Hierarchy.funnel 0 2).oneBlock true)).exec
      (Sys.init fun _ _ => ()).mem).toOption.isSome := by decide +kernel
  obtain ⟨s, hs⟩ := Option.isSome_iff_exists.mp h
  have hrun := coreMachine_run (by decide) (toOption_eq_some.mp hs)
  refine ⟨s, hrun, ?_⟩
  refine (singleWriter_always_iff _ (oneBlock_plain _ _) rfl rfl (fun _ _ => ()) _ s hrun).mpr ?_
    _ s List.prefix_rfl hrun
  rintro done a s₁ ⟨rest, hp⟩ - ⟨hop, -⟩
  have hmem : a ∈ writeThenRead.take 1 := by
    rw [← hp]
    simp
  rw [List.mem_singleton.mp hmem] at hop
  cases hop

end Sniper
