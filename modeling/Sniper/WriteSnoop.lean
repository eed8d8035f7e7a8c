import Sniper.DirtyPath

namespace Sniper
open Outcome

variable {σ : Type} {K : Config σ}

/-- Some previous-level cache of `c` but `requester`, or a cache above it, has a copy. -/
def OtherCopy (K : Config σ) (s : State σ) (c requester : CntlrId) (address : ℕ) : Prop :=
  ∃ j ∈ K.prevCntlrs c, j ≠ requester ∧ ∃ d, K.forest.Covers j d ∧
    CacheCntlr.getCacheState K s d address ≠ .invalid

/-- A cache spares the other copies when a write it serves takes none of them: it is not the last
level, holds the line EXCLUSIVE, and the levels below do not snoop it in turn. (The last level would
in the states OWNED and SHARED_UPGRADING, which no line has with direct DRAM access.) -/
abbrev SparesCopies (K : Config σ) (s : State σ) (c : CntlrId) (address : ℕ) : Prop :=
  CacheCntlr.Spares K (s.line K) (address / K.blocksize) (K.last - c.level) c

/-- Where no cache is perfect or passthrough, a write leaves another copy exactly when there was one
and the cache spares it. -/
theorem otherCopy_after_write_iff (K : Config σ) (hK : K.Plain) (s : State σ)
    (hs : s.WellFormed K) (hidle : CacheCntlr.Idle s)
    (hinc : Inclusion K.toHierarchy (s.line K)) (c requester : CntlrId) (hc : K.Node c)
    (op : MemOp) (hop : op ≠ .read) (address : ℕ) (count : Bool)
    (habs : CacheCntlr.getCacheState K s requester address = .invalid) (s' : State σ)
    (hit_where : HitWhere)
    (hx : CacheCntlr.processShmemReqFromPrevCache K (K.last - c.level) s c requester op address
      count = .ok (s', hit_where)) (hhit : hit_where ≠ .miss) :
    ¬OtherCopy K s' c requester address ↔
      ¬(SparesCopies K s c address ∧ OtherCopy K s c requester address) := by
  have hnode : K.node c = c := hc.node_eq
  have hlevel : c.level + (K.last - c.level) = K.last := Nat.add_sub_cancel' hc.1.1
  rw [CacheCntlr.getCacheState_eq] at habs
  have hsat : Sat _ (CacheCntlr.processShmemReqFromPrevCache K (K.last - c.level) s c requester op
      address count) _ := CacheCntlr.processShmemReqFromPrevCache_spec hK count
    (K.last - c.level) s c requester ∅ hc.1 hlevel hs hidle (.of_inclusion hinc _)
    (fun _ h => absurd h (Set.notMem_empty _)) (fun _ h => absurd h (Set.notMem_empty _))
    (fun _ => habs)
  have hserved := (hsat.of_ok hx).1 hhit
  have hmem : ∀ j, j ∈ CacheCntlr.others K c requester ↔ j ∈ K.prevCntlrs c ∧ j ≠ requester := by
    intro j
    rw [CacheCntlr.mem_others]
    simp
  -- the copies in question are those in the subtrees that the snoop is for
  have hother : ∀ s : State σ, OtherCopy K s c requester address ↔
      ∃ d ∈ K.forest.subtrees (CacheCntlr.others K c requester),
        s.line K d (address / K.blocksize) ≠ .invalid := by
    intro s
    unfold OtherCopy
    simp only [CacheCntlr.getCacheState_eq]
    constructor
    · intro h'
      obtain ⟨j, hj, hne, d, hd, hv⟩ := h'
      exact ⟨d, ⟨j, (hmem j).mpr ⟨hj, hne⟩, hd⟩, hv⟩
    · rintro ⟨d, ⟨j, hj, hd⟩, hv⟩
      exact ⟨j, ((hmem j).mp hj).1, ((hmem j).mp hj).2, d, hd, hv⟩
  rw [not_iff_not, hother, hother]
  have hspared := hserved.spared hop
  have htaken := hserved.taken hop
  rw [hnode] at hspared htaken
  constructor
  · intro h'
    obtain ⟨d, hd, hv⟩ := h'
    by_cases hsp : SparesCopies K s c address
    · exact ⟨hsp, d, hd, by rwa [← hspared hsp d hd]⟩
    · exact absurd (htaken hsp d hd) hv
  · intro h'
    obtain ⟨hsp, d, hd, hv⟩ := h'
    exact ⟨d, hd, by rwa [hspared hsp d hd]⟩

/-- In the state after `missReplyResume` one core has the line EXCLUSIVE. A write of the other core
is served by the middle level and leaves that copy. -/
theorem write_leaves_exclusive_copy :
    ∃ S : Sys Unit, (Sys.machine ((Hierarchy.funnel 1 2).oneBlock false)).Run
      (Sys.init fun _ _ => ()) missReplyResume S ∧
      Inclusion (Hierarchy.funnel 1 2) (S.mem.line ((Hierarchy.funnel 1 2).oneBlock false)) ∧
      CacheCntlr.getCacheState ((Hierarchy.funnel 1 2).oneBlock false) S.mem ⟨0, 1⟩ 0 = .invalid ∧
      ∃ s' hit_where, CacheCntlr.processShmemReqFromPrevCache
        ((Hierarchy.funnel 1 2).oneBlock false)
        1 S.mem ⟨1, 0⟩ ⟨0, 1⟩ .write 0 true = .ok (s', hit_where) ∧ hit_where ≠ .miss ∧
        OtherCopy ((Hierarchy.funnel 1 2).oneBlock false) s' ⟨1, 0⟩ ⟨0, 1⟩ 0 := by
  have h : ((missReplyResume.foldlM (Sys.exec ((Hierarchy.funnel 1 2).oneBlock false))
      (Sys.init fun _ _ => ())).toOption.bind fun S =>
        (CacheCntlr.processShmemReqFromPrevCache ((Hierarchy.funnel 1 2).oneBlock false)
          1 S.mem ⟨1, 0⟩ ⟨0, 1⟩ .write 0 true).toOption.map fun r =>
            (CacheCntlr.getCacheState ((Hierarchy.funnel 1 2).oneBlock false) S.mem ⟨0, 1⟩ 0, r.2,
              CacheCntlr.getCacheState ((Hierarchy.funnel 1 2).oneBlock false) r.1 ⟨0, 0⟩ 0)) =
      some (.invalid, .cache 2, .exclusive) := by decide +kernel
  obtain ⟨S, hS, h⟩ := Option.bind_eq_some_iff.mp h
  obtain ⟨⟨s', hit_where⟩, hx, h⟩ := Option.map_eq_some_iff.mp h
  simp only [Prod.mk.injEq] at h
  have hrun := missReplyResume_run (toOption_eq_some.mp hS)
  have hsound := hrun.inv (Sys.exec_sound (oneBlock_plain _ _) (by decide))
    (Sys.sound_init fun _ _ => ())
  refine ⟨S, hrun, hsound.inclusion, h.1, s', hit_where, toOption_eq_some.mp hx,
    by rw [h.2.1]; decide, ⟨0, 0⟩, by decide, by decide, ⟨0, 0⟩, .self _, ?_⟩
  rw [h.2.2]
  decide

/-- The same write of the same core, in the state at the start: there is no copy to leave. -/
theorem otherCopy_after_write_iff_init :
    ∃ s' hit_where, CacheCntlr.processShmemReqFromPrevCache ((Hierarchy.funnel 1 2).oneBlock true)
      1 (Sys.init fun _ _ => ()).mem ⟨1, 0⟩ ⟨0, 1⟩ .write 0 true = .ok (s', hit_where) ∧
      ¬OtherCopy ((Hierarchy.funnel 1 2).oneBlock true) s' ⟨1, 0⟩ ⟨0, 1⟩ 0 := by
  have h : ((CacheCntlr.processShmemReqFromPrevCache ((Hierarchy.funnel 1 2).oneBlock true)
      1 (Sys.init fun _ _ => ()).mem ⟨1, 0⟩ ⟨0, 1⟩ .write 0 true).toOption.map Prod.snd) =
        some .dram := by decide +kernel
  obtain ⟨⟨s', hit_where⟩, hx, h⟩ := Option.map_eq_some_iff.mp h
  simp only at h
  subst h
  have hsound := Sys.sound_init (K := (Hierarchy.funnel 1 2).oneBlock true) fun _ _ => ()
  refine ⟨s', .dram, toOption_eq_some.mp hx, ?_⟩
  refine (otherCopy_after_write_iff _ (oneBlock_plain _ _) _ hsound.wellFormed hsound.idle
    hsound.inclusion ⟨1, 0⟩ ⟨0, 1⟩ (by decide) .write (by decide) 0 true ?_ s' .dram
    (toOption_eq_some.mp hx) (by decide)).mpr ?_
  · rw [CacheCntlr.getCacheState_eq]
    exact Sys.line_init _ _ _
  · intro h'
    obtain ⟨hsp, -⟩ := h'
    have := hsp.1
    rw [Sys.line_init] at this
    cases this

end Sniper
