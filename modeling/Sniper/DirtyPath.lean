import Sniper.System

namespace Sniper
open Outcome

variable {σ : Type} {K : Config σ}

/-- The levels below a MODIFIED block are MODIFIED down to the last. -/
theorem Inclusion.dirty_path {v : View} (h : Inclusion K.toHierarchy v) {t : ℕ} (n : ℕ) :
    ∀ c, K.Node c → c.level + n ≤ K.last → v c t = .modified →
      v (K.below^[n] c) t = .modified := by
  induction n with
  | zero => exact fun _ _ _ hm => hm
  | succ n ih =>
    intro c hc hn hm
    rw [Function.iterate_succ_apply]
    have hl : c.level < K.last := by omega
    have hlevel : (K.below c).level = c.level + 1 := rfl
    refine ih (K.below c) (hc.1.nextCntlr hl).node (by omega) ?_
    exact (h (K.below c) hl c hc.mem_prevCntlrs t).eq_modified hm

theorem oneBlock_plain (H : Hierarchy) (dram : Bool) : (H.oneBlock dram).Plain :=
  ⟨fun _ => rfl, fun _ => rfl, fun _ => rfl, fun _ => rfl⟩

/-- In every state a hierarchy of coherent write-back caches comes to, a valid block has a valid
block below it, a MODIFIED one has MODIFIED blocks down to the last level, and no operation stops
because a write-back finds no MODIFIED block. -/
theorem inclusion_and_dirty_path (K : Config σ) (hK : K.Plain) (hl : 0 < K.last)
    (policy : CntlrId → ℕ → σ) (ops : List SysOp) (S : Sys σ)
    (hrun : (Sys.machine K).Run (Sys.init policy) ops S) :
    (∀ c address, K.Node c → c.level < K.last →
      CacheCntlr.getCacheState K S.mem c address ≠ .invalid →
      CacheCntlr.getCacheState K S.mem (K.below c) address ≠ .invalid) ∧
    (∀ c address n, K.Node c → c.level + n ≤ K.last →
      CacheCntlr.getCacheState K S.mem c address = .modified →
      CacheCntlr.getCacheState K S.mem (K.below^[n] c) address = .modified) ∧
    ∀ op e, Sys.Enabled K S op → Sys.exec K S op = .error e →
      e ≠ .writethroughMiss ∧ e ≠ .writebackNonModified := by
  have hstep := Sys.exec_sound hK hl
  have hsound : Sys.Sound K S := hrun.inv hstep (Sys.sound_init policy)
  simp only [CacheCntlr.getCacheState_eq]
  refine ⟨?_, ?_, ?_⟩
  · intro c address hc hlevel hv
    exact (hsound.inclusion (K.below c) hlevel c hc.mem_prevCntlrs _).valid hv
  · intro c address n hc hn hm
    exact hsound.inclusion.dirty_path n c hc hn hm
  · intro op e he hx
    exact hrun.error hstep (Sys.sound_init policy) he hx

/-- A core misses, the directory answers, and the core goes on. -/
def missReplyResume : List SysOp :=
  [.access ⟨⟨0, 0⟩, .none, .read, 0, 0, none, 0, true⟩,
    .receive ⟨.exRep, 0, some fun _ => 1⟩, .resume ⟨2, 0⟩]

theorem missReplyResume_run {S : Sys Unit}
    (h : missReplyResume.foldlM (Sys.exec ((Hierarchy.funnel 1 2).oneBlock false))
      (Sys.init fun _ _ => ()) = .ok S) :
    (Sys.machine ((Hierarchy.funnel 1 2).oneBlock false)).Run (Sys.init fun _ _ => ())
      missReplyResume S := by
  refine Machine.Run.of_foldlM _ ?_ S h
  intro done op rest s' hops hdone
  rcases done with _ | ⟨op₀, done⟩
  · cases hops
    cases hdone
    exact ⟨⟨by decide, by decide⟩, rfl, rfl, fun _ _ h => by cases h⟩
  · have hmem : op ∈ [SysOp.receive ⟨.exRep, 0, some fun _ => 1⟩, .resume ⟨2, 0⟩] := by
      rw [(List.cons_eq_cons.mp hops).2]
      simp
    rcases List.mem_pair.mp hmem with rfl | rfl <;> trivial

/-- The copy of the first level has copies below it. -/
theorem inclusion_and_dirty_path_missReplyResume :
    ∃ S, (Sys.machine ((Hierarchy.funnel 1 2).oneBlock false)).Run (Sys.init fun _ _ => ())
      missReplyResume S ∧
      CacheCntlr.getCacheState ((Hierarchy.funnel 1 2).oneBlock false) S.mem ⟨1, 0⟩ 0 ≠
        .invalid := by
  have h : (missReplyResume.foldlM (Sys.exec ((Hierarchy.funnel 1 2).oneBlock false))
      (Sys.init fun _ _ => ())).toOption.map
        (fun S => CacheCntlr.getCacheState ((Hierarchy.funnel 1 2).oneBlock false) S.mem ⟨0, 0⟩ 0) =
          some .exclusive := by decide +kernel
  obtain ⟨S, hS, hst⟩ := Option.map_eq_some_iff.mp h
  have hrun := missReplyResume_run (toOption_eq_some.mp hS)
  refine ⟨S, hrun, ?_⟩
  refine (inclusion_and_dirty_path ((Hierarchy.funnel 1 2).oneBlock false) (oneBlock_plain _ _)
    (by decide) (fun _ _ => ()) missReplyResume S hrun).1 ⟨0, 0⟩ 0 (by decide) (by decide) ?_
  rw [hst]
  decide

end Sniper
