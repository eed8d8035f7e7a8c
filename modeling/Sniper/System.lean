import Sniper.Library.Machine
import Sniper.Access
import Sniper.DirectoryMsg

namespace Sniper
open Outcome

/-- A hierarchy with the accesses that wait for the directory, by the controller of the last level
of the core that made them. -/
structure Sys (σ : Type) where
  mem : State σ
  pending : CntlrId → Option MemAccess

/-- What happens in a hierarchy. -/
inductive SysOp where
  /-- a core calls `processMemOpFromCore` -/
  | access (a : MemAccess)
  /-- a core that waits is woken -/
  | resume (o : CntlrId)
  /-- the network thread processes a message of the directory -/
  | receive (m : ShmemMsg)
  /-- the network thread asks for an upgrade in place of a waiter -/
  | upgrade (address : ℕ)
  /-- the network thread removes the first waiter -/
  | dequeue (address : ℕ)

namespace Sys

variable {σ : Type} (K : Config σ)

/-- A core has one access at a time, and the lock `m_smt_lock` admits one for each first-level
cache. -/
def Enabled (S : Sys σ) : SysOp → Prop
  | .access a => K.Cntlr a.cntlr ∧ a.cntlr.level = 0 ∧ S.pending (K.lastCntlr a.cntlr) = none ∧
      ∀ o b, S.pending o = some b → K.node b.cntlr ≠ K.node a.cntlr
  | _ => True

def exec (S : Sys σ) : SysOp → Except Abort (Sys σ)
  | .access a => do
    let (s, reply) ← CacheCntlr.processMemOpFromCore K S.mem a
    match reply with
    | .returned _ _ => return { S with mem := s }
    | .waiting => return ⟨s, Function.update S.pending (K.lastCntlr a.cntlr) (some a)⟩
  | .resume o =>
    match S.pending o with
    | some a => do
      let (s, _) ← CacheCntlr.resumeMemOpFromCore K S.mem a
      return ⟨s, Function.update S.pending o none⟩
    | none => return S
  | .receive m => do
    let s ← CacheCntlr.processMsgFromDramDirectory K S.mem m
    return { S with mem := s }
  | .upgrade address => do
    let s ← CacheCntlr.processUpgradeReqToDirectory K S.mem address
    return { S with mem := s }
  | .dequeue address =>
    return { S with mem := S.mem.setWaiters address (S.mem.m_directory_waiters address).tail }

def machine : Machine (Sys σ) SysOp Abort where
  enabled := Enabled K
  exec := exec K

/-- The state at the start: all blocks of all caches are invalid. -/
def init (policy : CntlrId → ℕ → σ) : Sys σ where
  mem :=
    { m_cache := fun c => ⟨fun i => ⟨fun _ => .create, fun _ => 0, policy c i⟩⟩
      m_evicting := fun _ => none
      m_data_map := fun _ => none
      m_directory_waiters := fun _ => []
      sent := []
      locks := [] }
  pending := fun _ => none

/-- What every operation keeps. -/
structure Sound (S : Sys σ) : Prop where
  wellFormed : S.mem.WellFormed K
  idle : CacheCntlr.Idle S.mem
  inclusion : Inclusion K.toHierarchy (S.mem.line K)
  first : ∀ o a, S.pending o = some a → K.Cntlr a.cntlr ∧ a.cntlr.level = 0
  fits : ∀ o a, S.pending o = some a →
    a.ca_address % K.blocksize = 0 ∧ a.offset + a.data_length ≤ K.blocksize
  absent : ∀ o a, S.pending o = some a →
    S.mem.line K (K.node a.cntlr) (a.ca_address / K.blocksize) = .invalid
  single : ∀ o a o' a', S.pending o = some a → S.pending o' = some a' →
    K.node a.cntlr = K.node a'.cntlr → o = o'

variable {K}

theorem line_init (policy : CntlrId → ℕ → σ) (c : CntlrId) (t : ℕ) :
    (init policy).mem.line K c t = .invalid := by
  refine Cache.lineState_of_absent ?_
  refine CacheSet.find_eq_none.mpr fun w _ => ?_
  simp [init, CacheBlockInfo.create]

theorem sound_init (policy : CntlrId → ℕ → σ) : Sound K (init policy) where
  wellFormed c := by
    constructor <;> intro i <;> simp [init, CacheBlockInfo.create, CacheSet.UniqueTags]
  idle d := rfl
  inclusion d _ b _ t := by
    rw [line_init]
    trivial
  first o a h := by cases h
  fits o a h := by cases h
  absent o a h := by cases h
  single o a o' a' h := by cases h

end Sys

/-- The first-level caches but `c` get no line. -/
def LeavesKept (c : CntlrId) (v v' : View) : Prop :=
  ∀ d, d.level = 0 → d ≠ c → ∀ t, v d t = .invalid → v' d t = .invalid

namespace CacheCntlr

variable {σ : Type} {K : Config σ} {s s' : State σ} {c : CntlrId} {address : ℕ} {op : MemOp}
  {a : MemAccess}

theorem Fetched.inclusion {s₁ : State σ} (ha : K.Cntlr a.cntlr) (hfirst : a.cntlr.level = 0)
    (hl : 0 < K.last)
    (habs : s.line K (K.node a.cntlr) (a.ca_address / K.blocksize) = .invalid)
    (h : Fetched K a s s₁ s') : Inclusion K.toHierarchy (s'.line K) := by
  have hc : s₁.line K (K.node a.cntlr) (a.ca_address / K.blocksize) = .invalid :=
    h.served.shrinks (K.node a.cntlr) (Nat.lt_succ_self _) _ habs
  refine Inclusive.inclusion (t := a.ca_address / K.blocksize) ?_
  refine (h.served.inclusive.insert_absent (c := K.node a.cntlr) ha.1 hc).filled
    (fun _ h => absurd h (Set.notMem_empty _)) h.filled ?_ ?_
  · intro b hb
    rw [prevCntlrs_nil (c := K.node a.cntlr) hfirst] at hb
    cases hb
  · intro d hd hcd
    have hdn : d = K.node (K.nextCntlr a.cntlr) := by
      rw [← (K.mem_prevCntlrs.mp hcd).2.2.2, ha.below_node (by omega)]
    rw [hdn]
    exact CState.above_self (MemOp.readable_of_permits h.served.permits)

theorem Fetched.leaves {s₁ : State σ} (h : Fetched K a s s₁ s') :
    LeavesKept (K.node a.cntlr) (s.line K) (s'.line K) := by
  intro d hd hne t hv
  refine h.filled.shrinks hne (h.served.shrinks d ?_ t hv)
  rw [hd]
  exact Nat.succ_pos _

/-- A SHARED block at the last level may be marked as upgrading. -/
theorem Inclusion.upgrading {v : View} {t : ℕ} (h : Inclusion K.toHierarchy v)
    (hst : v K.llc t = .shared) : Inclusion K.toHierarchy (v.assign K.llc t .sharedUpgrading) := by
  refine Inclusive.inclusion (t := t) ((Inclusive.of_inclusion h t).assign_last (c := K.llc) rfl
    (fun _ h => absurd h (Set.notMem_empty _)) ?_)
  intro x hx
  rw [hst] at hx
  revert hx
  cases x <;> decide

/-- Every block of the line becomes MODIFIED. -/
theorem Inclusion.modified {v : View} {t : ℕ} (h : Inclusion K.toHierarchy v) :
    Inclusion K.toHierarchy (v.snoop (K.forest.subtree K.llc) t .modified) := by
  intro d hd b hb u
  have habove := h d hd b hb u
  by_cases ht : u = t
  · subst ht
    by_cases hdm : d ∈ K.forest.subtree K.llc
    · rw [View.snoop_of_mem hdm, View.snoop_of_mem (K.forest.closed_subtree _ d hdm b hb)]
      unfold CState.restate
      split
      · trivial
      · rw [if_neg (habove.valid ‹_›)]
        rfl
    · have hbm : b ∉ K.forest.subtree K.llc := by
        intro hbm
        have hlev := (K.mem_prevCntlrs.mp hb).1
        refine hdm (Forest.Covers.parent hbm hb ?_)
        rintro rfl
        have : K.llc.level = K.last := rfl
        omega
      rwa [View.snoop_of_not_mem hdm, View.snoop_of_not_mem hbm]
  · rwa [View.snoop_of_ne ht, View.snoop_of_ne ht]

theorem Inclusion.snoop {v : View} {t : ℕ} {new : CState} (h : Inclusion K.toHierarchy v)
    (hn : new = .invalid ∨ new = .shared) :
    Inclusion K.toHierarchy (v.snoop (K.forest.subtree K.llc) t new) :=
  ((Inclusive.of_inclusion h t).snoop (K.forest.closed_subtree _) hn).inclusion

theorem Asked.inclusion (h : Asked K s op address s') (hinc : Inclusion K.toHierarchy (s.line K)) :
    Inclusion K.toHierarchy (s'.line K) := by
  rcases h with ⟨-, hl, -⟩ | ⟨-, -, hl, -⟩ | ⟨-, -, hst, hl, -⟩ | ⟨-, -, -, hl, -⟩
  · rwa [hl]
  · rwa [hl]
  · rw [hl]
    exact Inclusion.upgrading hinc hst
  · rwa [hl]

/-- What the last level does alone is not seen at the first. -/
theorem Asked.leaf (h : Asked K s op address s') (hl : 0 < K.last) {d : CntlrId}
    (hd : d.level = 0) (t : ℕ) : s'.line K d t = s.line K d t := by
  have hne : d ≠ K.llc := by
    rintro rfl
    change K.last = 0 at hd
    omega
  rcases h with ⟨-, hl, -⟩ | ⟨-, -, hl, -⟩ | ⟨-, -, -, hl, -⟩ | ⟨-, -, -, hl, -⟩
  · rw [hl]
  · rw [hl]
  · rw [hl, View.assign_of_ne hne]
  · rw [hl]

/-- The state after any way an access ends. -/
theorem AccessResult.sound {x : State σ × Reply} (hl : 0 < K.last) (hidle : Idle s)
    (hinc : Inclusion K.toHierarchy (s.line K)) (ha : K.Cntlr a.cntlr) (hfirst : a.cntlr.level = 0)
    (h : AccessResult K a s x) :
    x.1.WellFormed K ∧ Idle x.1 ∧ Inclusion K.toHierarchy (x.1.line K) ∧
      LeavesKept (K.node a.cntlr) (s.line K) (x.1.line K) ∧
      (x.2 = .waiting → x.1.line K (K.node a.cntlr) (a.ca_address / K.blocksize) = .invalid) := by
  have hdrop : ∀ {s₀ : State σ}, s.Moves K ((s.line K).assign (K.node a.cntlr)
      (a.ca_address / K.blocksize) .invalid) s₀ → Inclusion K.toHierarchy (s₀.line K) ∧
        s₀.line K (K.node a.cntlr) (a.ca_address / K.blocksize) = .invalid ∧
        ∀ d, d ≠ K.node a.cntlr → ∀ t, s₀.line K d t = s.line K d t := by
    intro s₀ h
    refine ⟨?_, by rw [h.line, View.assign_self],
      fun d hd t => by rw [h.line, View.assign_of_ne hd]⟩
    rw [h.line]
    exact Inclusion.drop_leaf hinc (prevCntlrs_nil hfirst)
  cases h with
  | hit _ hm =>
    refine ⟨hm.wellFormed, hidle.moves hm, by rwa [hm.line], ?_, fun h => by cases h⟩
    intro d _ _ t hv
    rwa [hm.line]
  | fetched _ hd hf =>
    obtain ⟨-, habs, hother⟩ := hdrop hd
    refine ⟨hf.moves.wellFormed, ((hidle.moves hd).moves hf.served.moves).moves hf.moves,
      hf.inclusion ha hfirst hl habs, ?_, fun h => by cases h⟩
    intro d hd0 hne t hv
    exact hf.leaves d hd0 hne t (by rwa [hother d hne])
  | @waiting s₀ s₁ s₂ s' o' _ hd hm hlock =>
    obtain ⟨-, habs, hother⟩ := hdrop hd
    obtain ⟨e, rfl⟩ := hlock
    obtain ⟨hwf, hev, -, hasked⟩ := initiateDirectoryAccess_spec hm.moves.wellFormed hm.request
    have hlev : ∀ d : CntlrId, d.level = 0 → d.level < (K.nextCntlr a.cntlr).level := by
      intro d hd
      rw [hd]
      exact Nat.succ_pos _
    refine ⟨hwf, ?_, hasked.inclusion hm.inclusive.inclusion, ?_, fun _ => ?_⟩
    · intro d
      change s₂.evictingAddress d = none
      rw [hev]
      exact (hidle.moves hd).moves hm.moves d
    · intro d hd0 hne t hv
      exact (hasked.leaf hl hd0 t).trans (hm.shrinks d (hlev d hd0) t (by rwa [hother d hne]))
    · exact (hasked.leaf hl (d := K.node a.cntlr) hfirst _).trans
        (hm.shrinks (K.node a.cntlr) (hlev _ hfirst) _ habs)

/-- The network thread changes no first-level cache but to take lines away, or to make valid lines
MODIFIED. -/
structure MessageKeeps (K : Config σ) (s s' : State σ) : Prop where
  moves : s.Moves K (s'.line K) s'
  inclusion : Inclusion K.toHierarchy (s'.line K)
  leaves : ∀ d, d.level = 0 → ∀ t, s.line K d t = .invalid → s'.line K d t = .invalid

theorem MessageKeeps.refl (hs : s.WellFormed K) (hinc : Inclusion K.toHierarchy (s.line K)) :
    MessageKeeps K s s :=
  ⟨.refl hs, hinc, fun _ _ _ h => h⟩

/-- What the network thread sends is no request. -/
theorem MessageKeeps.send (h : MessageKeeps K s s') (r : ShmemMsg) (hr : r.type.isRequest = false) :
    MessageKeeps K s (s'.send r) := by
  obtain ⟨hm, hi, hd⟩ := h
  refine ⟨⟨hm.wellFormed, rfl, hm.evicting, hm.waiters, ?_⟩, hi, hd⟩
  rw [State.send, requests_append, hm.requests, requests, requests,
    List.filter_cons_of_neg (by simp [hr])]
  simp

/-- The whole hierarchy may be snooped from the last level. -/
theorem snoopReady_llc (hs : s.WellFormed K) (hidle : Idle s)
    (hinc : Inclusion K.toHierarchy (s.line K)) : SnoopReady K s ⟨K.last, 0⟩ address := by
  refine ⟨hs, ?_, ?_, fun _ h => absurd h (lt_irrefl _)⟩
  · intro d hd b hb hm
    exact (hinc d (level_le_of_mem_subtree hd) b hb _).eq_modified hm
  · intro d _
    rw [hidle]
    simp

theorem insertCacheBlock_llc_keeps (hK : K.Plain) (hl : 0 < K.last) (hs : s.WellFormed K)
    (hidle : Idle s) (hinc : Inclusion K.toHierarchy (s.line K)) {st : CState} (hst : st ≠ .invalid)
    (data_buf : Option (ℕ → Byte)) :
    Sat Abort.notWriteback (insertCacheBlock K s K.llc address st data_buf) (MessageKeeps K s) := by
  have hllc : K.Cntlr K.llc := ⟨le_rfl, K.width_last⟩
  have hnode : K.node K.llc = K.llc := hllc.node_last rfl
  refine (insertCacheBlock_moves hK hs hidle hllc (Inclusive.dirtyBut (D := ∅)
    (.of_inclusion hinc _)) hst data_buf).mono (fun _ h => h) ?_
  intro s' h'
  obtain ⟨habs, hm, hfill, -⟩ := h'
  rw [hnode] at habs hfill
  refine ⟨hm, ?_, ?_⟩
  · refine Inclusive.inclusion (t := address / K.blocksize) ?_
    refine (((Inclusive.of_inclusion hinc _).insert_absent (c := K.llc) le_rfl habs).filled
      (fun _ h => absurd h (Set.notMem_empty _)) hfill ?_ ?_)
    · intro b hb hv
      exact absurd habs ((hinc K.llc le_rfl b hb _).valid hv)
    · intro d hd hcd
      have : K.last + 1 = d.level := (K.mem_prevCntlrs.mp hcd).1
      omega
  · intro d hd t hv
    refine hfill.shrinks ?_ hv
    rintro rfl
    have : K.llc.level = K.last := rfl
    omega

theorem updateCacheBlock_llc_keeps (hK : K.Plain) (hs : s.WellFormed K) (hidle : Idle s)
    (hinc : Inclusion K.toHierarchy (s.line K)) (new : CState) (out_buf : Option (ℕ → Byte))
    (hnew : new = .invalid ∨ new = .shared ∨ new = .modified) :
    Sat Abort.notWriteback (updateCacheBlock K K.last 0 s address new out_buf) fun x =>
      MessageKeeps K s x.1 := by
  refine (updateCacheBlock_moves hK new K.last 0 s out_buf (snoopReady_llc hs hidle hinc)).mono
    (fun _ h => h) fun x hx => ⟨hx.congr hx.line.symm, ?_, ?_⟩
  · rw [hx.line]
    rcases hnew with hn | hn | rfl
    · exact Inclusion.snoop hinc (.inl hn)
    · exact Inclusion.snoop hinc (.inr hn)
    · exact Inclusion.modified hinc
  · intro d _ t hv
    rw [hx.line]
    exact View.snoop_invalid hv

theorem processMsgFromDramDirectory_spec (hK : K.Plain) (hl : 0 < K.last) (hs : s.WellFormed K)
    (hidle : Idle s) (hinc : Inclusion K.toHierarchy (s.line K)) (m : ShmemMsg) :
    Sat Abort.notWriteback (processMsgFromDramDirectory K s m) (MessageKeeps K s) := by
  have hinsert := fun (st : CState) (hst : st ≠ .invalid) =>
    (insertCacheBlock_llc_keeps hK hl hs hidle hinc hst m.data_buf :
      Sat _ (insertCacheBlock K s K.llc m.address st m.data_buf) _)
  have hupdate := fun (new : CState) (out_buf : Option (ℕ → Byte)) =>
    (updateCacheBlock_llc_keeps hK hs hidle hinc new out_buf :
      new = .invalid ∨ new = .shared ∨ new = .modified →
        Sat _ (updateCacheBlock K K.last 0 s m.address new out_buf) _)
  have hkeep := MessageKeeps.refl hs hinc
  unfold processMsgFromDramDirectory
  cases m.type with
  | exRep => exact hinsert .exclusive (by decide)
  | shRep => exact hinsert .shared (by decide)
  | upgradeRep =>
    simp only [processUpgradeRepFromDramDirectory]
    cases getCacheState K s K.llc m.address with
    | invalid =>
      refine (sat_require (Q := fun _ => True) (fun _ => trivial)
        fun _ => ⟨by decide, by decide⟩).bind fun _ _ => ?_
      exact (hupdate .modified m.data_buf (by simp)).bind fun x hx => hx
    | sharedUpgrading => exact (hupdate .modified none (by simp)).bind fun x hx => hx
    | shared => exact ⟨by decide, by decide⟩
    | exclusive => exact ⟨by decide, by decide⟩
    | owned => exact ⟨by decide, by decide⟩
    | modified => exact ⟨by decide, by decide⟩
  | invReq =>
    simp only [processInvReqFromDramDirectory]
    split
    · exact (hupdate .invalid none (by simp)).bind fun x hx => hx.send _ rfl
    · exact hkeep
  | flushReq =>
    simp only [processFlushReqFromDramDirectory]
    split
    · exact (hupdate .invalid (some K.garbage) (by simp)).bind fun x hx => hx.send _ rfl
    · exact hkeep
  | wbReq =>
    simp only [processWbReqFromDramDirectory]
    split
    · split
      · exact (hupdate .shared (some K.garbage) (by simp)).bind fun x hx => hx.send _ rfl
      · exact hkeep.send _ rfl
    · exact hkeep
  | exReq => exact ⟨by decide, by decide⟩
  | shReq => exact ⟨by decide, by decide⟩
  | upgradeReq => exact ⟨by decide, by decide⟩
  | invRep => exact ⟨by decide, by decide⟩
  | flushRep => exact ⟨by decide, by decide⟩
  | wbRep => exact ⟨by decide, by decide⟩

end CacheCntlr

namespace Sys

variable {σ : Type} {K : Config σ} {S : Sys σ}

/-- A change of the hierarchy that gives first-level caches no line keeps what holds of the
accesses that wait. -/
theorem Sound.mem (h : Sound K S) {s : State σ} (hs : s.WellFormed K) (hidle : CacheCntlr.Idle s)
    (hinc : Inclusion K.toHierarchy (s.line K))
    (hleaf : ∀ d, d.level = 0 → ∀ t, S.mem.line K d t = .invalid → s.line K d t = .invalid) :
    Sound K { S with mem := s } :=
  ⟨hs, hidle, hinc, h.first, h.fits,
    fun o a ho => hleaf (K.node a.cntlr) (h.first o a ho).2 _ (h.absent o a ho), h.single⟩

theorem exec_access_sound (hK : K.Plain) (hl : 0 < K.last) (h : Sound K S) {a : MemAccess}
    (he : Enabled K S (.access a)) :
    Sat Abort.notWriteback (exec K S (.access a)) (Sound K) := by
  obtain ⟨ha, hfirst, hfree, hlock⟩ := he
  refine (CacheCntlr.processMemOpFromCore_spec hK h.wellFormed h.idle h.inclusion ha hfirst).bind ?_
  rintro ⟨s, reply⟩ ⟨hres, hfits⟩
  obtain ⟨hs, hidle, hinc, hleaf, hwait⟩ := hres.sound hl h.idle h.inclusion ha hfirst
  simp only at hs hidle hinc hleaf hwait
  have hkept : ∀ o b, S.pending o = some b →
      s.line K (K.node b.cntlr) (b.ca_address / K.blocksize) = .invalid := fun o b hb =>
    hleaf (K.node b.cntlr) (h.first o b hb).2 (hlock o b hb) _ (h.absent o b hb)
  cases reply with
  | returned buf hw => exact ⟨hs, hidle, hinc, h.first, h.fits, hkept, h.single⟩
  | waiting =>
    have hcases : ∀ o b, Function.update S.pending (K.lastCntlr a.cntlr) (some a) o = some b →
        o = K.lastCntlr a.cntlr ∧ b = a ∨ o ≠ K.lastCntlr a.cntlr ∧ S.pending o = some b := by
      intro o b hb
      by_cases ho : o = K.lastCntlr a.cntlr
      · subst ho
        rw [Function.update_self] at hb
        exact .inl ⟨rfl, (Option.some.inj hb).symm⟩
      · rw [Function.update_of_ne ho] at hb
        exact .inr ⟨ho, hb⟩
    refine ⟨hs, hidle, hinc, ?_, ?_, ?_, ?_⟩
    · intro o b hb
      rcases hcases o b hb with ⟨-, rfl⟩ | ⟨-, hb⟩
      · exact ⟨ha, hfirst⟩
      · exact h.first o b hb
    · intro o b hb
      rcases hcases o b hb with ⟨-, rfl⟩ | ⟨-, hb⟩
      · exact hfits
      · exact h.fits o b hb
    · intro o b hb
      rcases hcases o b hb with ⟨-, rfl⟩ | ⟨-, hb⟩
      · exact hwait rfl
      · exact hkept o b hb
    · intro o b o' b' hb hb' hn
      rcases hcases o b hb with ⟨rfl, rfl⟩ | ⟨-, hb₁⟩ <;>
        rcases hcases o' b' hb' with ⟨rfl, rfl⟩ | ⟨-, hb₂⟩
      · rfl
      · exact absurd hn.symm (hlock o' b' hb₂)
      · exact absurd hn (hlock o b hb₁)
      · exact h.single o b o' b' hb₁ hb₂ hn

theorem exec_resume_sound (hK : K.Plain) (hl : 0 < K.last) (h : Sound K S) (o : CntlrId) :
    Sat Abort.notWriteback (exec K S (.resume o)) (Sound K) := by
  simp only [exec]
  cases hp : S.pending o with
  | none => exact h
  | some a =>
    obtain ⟨ha, hfirst⟩ := h.first o a hp
    have habs := h.absent o a hp
    refine (CacheCntlr.resumeMemOpFromCore_spec hK h.wellFormed h.idle h.inclusion ha habs).bind ?_
    rintro ⟨s, reply⟩ ⟨s₁, hf⟩
    simp only at hf ⊢
    have hcases : ∀ o' b, Function.update S.pending o none o' = some b →
        o' ≠ o ∧ S.pending o' = some b := by
      intro o' b hb
      by_cases ho : o' = o
      · subst ho
        rw [Function.update_self] at hb
        cases hb
      · rw [Function.update_of_ne ho] at hb
        exact ⟨ho, hb⟩
    refine ⟨hf.moves.wellFormed, (h.idle.moves hf.served.moves).moves hf.moves,
      hf.inclusion ha hfirst hl habs, ?_, ?_, ?_, ?_⟩
    · exact fun o' b hb => h.first o' b (hcases o' b hb).2
    · exact fun o' b hb => h.fits o' b (hcases o' b hb).2
    · intro o' b hb
      obtain ⟨ho, hb⟩ := hcases o' b hb
      refine hf.leaves (K.node b.cntlr) (h.first o' b hb).2 ?_ _ (h.absent o' b hb)
      exact fun hn => ho (h.single o' b o a hb hp hn)
    · intro o' b o'' b' hb hb' hn
      exact h.single o' b o'' b' (hcases o' b hb).2 (hcases o'' b' hb').2 hn

/-- Every operation keeps inclusion and the dirty path, and finds a place for what it writes back.
-/
theorem exec_sound (hK : K.Plain) (hl : 0 < K.last) (S : Sys σ) (op : SysOp) (h : Sound K S)
    (he : Enabled K S op) : Sat Abort.notWriteback (exec K S op) (Sound K) := by
  cases op with
  | access a => exact exec_access_sound hK hl h he
  | resume o => exact exec_resume_sound hK hl h o
  | receive m =>
    refine (CacheCntlr.processMsgFromDramDirectory_spec hK hl h.wellFormed h.idle
      h.inclusion m).bind ?_
    intro s h'
    obtain ⟨hm, hinc, hleaf⟩ := h'
    exact h.mem hm.wellFormed (h.idle.moves hm) hinc hleaf
  | upgrade address =>
    cases hu : CacheCntlr.processUpgradeReqToDirectory K S.mem address with
    | ok s =>
      simp only [exec, hu, Outcome.ok_bind]
      obtain ⟨hst, hs, hline, hev, -, -⟩ :=
        CacheCntlr.processUpgradeReqToDirectory_spec h.wellFormed hu
      refine h.mem hs (fun d => by rw [hev]; exact h.idle d) ?_ ?_
      · rw [hline]
        exact CacheCntlr.Inclusion.upgrading h.inclusion hst
      · intro d hd t hv
        rw [hline, View.assign_of_ne]
        · exact hv
        · rintro rfl
          change K.last = 0 at hd
          omega
    | error e =>
      simp only [exec, hu, Outcome.error_bind]
      unfold CacheCntlr.processUpgradeReqToDirectory at hu
      have : Sat Abort.notWriteback (CacheCntlr.processUpgradeReqToDirectory K S.mem address)
          fun _ => True :=
        (sat_require (Q := fun _ => True) (fun _ => trivial)
          fun _ => ⟨by decide, by decide⟩).bind fun _ _ => trivial
      exact this.of_error hu
  | dequeue address => exact h.mem h.wellFormed h.idle h.inclusion fun _ _ _ hv => hv

end Sys
theorem coreMachine_run {H : Hierarchy} {ops : List MemAccess} {s : State Unit}
    (hops : ∀ a ∈ ops, H.Cntlr a.cntlr ∧ a.cntlr.level = 0)
    (h : ops.foldlM (coreMachine (H.oneBlock true)).exec (Sys.init fun _ _ => ()).mem = .ok s) :
    (coreMachine (H.oneBlock true)).Run (Sys.init fun _ _ => ()).mem ops s := by
  refine Machine.Run.of_foldlM _ ?_ s h
  rintro done op rest s' rfl -
  exact hops op (by simp)

end Sniper
