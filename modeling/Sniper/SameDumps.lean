import Sniper.BlockWalk
import Sniper.ReadSegments

namespace Sniper
open Segments

/-- What happens to the registry before a dump. -/
inductive FootprintOp where
  | count (op : CountOp)
  | dramAccess (address now lpacc : ℕ) (RW : Bool) (block_size : ℕ)

namespace FootprintOp

/-- The operation registers byte `a`, which is not registered. -/
def registers (m : MagicServer) (a : ℕ) : FootprintOp → Bool
  | .count (.addApprox address _) => address = a ∧ a ∉ m.approx_vars.keys
  | _ => false

/-- What the operation is for the counters of the byte. -/
def event (m : MagicServer) (a : ℕ) : FootprintOp → Option (Option (Counter × ℤ))
  | .count op => m.event a op
  | .dramAccess .. => none

end FootprintOp

/-- The registry, and what has happened to the counters of each byte since it was registered. -/
structure Footprint where
  server : MagicServer
  log : ℕ → List (Option (Counter × ℤ))

namespace Footprint

def init : Footprint := ⟨.init, fun _ => []⟩

def step (F : Footprint) (op : FootprintOp) : Footprint where
  server := match op with
    | .count op => F.server.count op
    | .dramAccess address now lpacc RW block_size =>
      (F.server.updateLiftime address now lpacc RW block_size).1
  log a := if op.registers F.server a then [] else F.log a ++ (op.event F.server a).toList

/-- The registry after a sequence of operations. -/
def after (ops : List FootprintOp) : Footprint := ops.foldl step init

/-- The counters of the registered bytes are those that their logs leave. -/
def Logged (F : Footprint) : Prop :=
  ∀ a v, F.server.approx_vars.find a = some v → v.bank = Bank.after asInt Counter.IsOp (F.log a)

theorem mem_of_mem_count {m : MagicServer} {op : CountOp} {a : ℕ}
    (h : a ∈ (m.count op).approx_vars.keys) :
    a ∈ m.approx_vars.keys ∨ ∃ s, op = .addApprox a s := by
  cases op with
  | addApprox address s =>
    rcases (MagicServer.mem_addApprox s).mp h with rfl | h
    · exact .inr ⟨s, rfl⟩
    · exact .inl h
  | delApprox address => exact .inl (MagicServer.mem_delApprox.mp h).2
  | access type address cid cachelvl n =>
    rw [MagicServer.count_access, ← SortedMap.find_isSome, ← Option.isSome_map,
      MagicServer.map_find_addAcc (g := fun _ => ()) fun _ => rfl, Option.isSome_map,
      SortedMap.find_isSome] at h
    exact .inl h
  | addCnt arg0 arg1 => exact .inl (SortedMap.mem_of_find_map _ (MagicServer.find_addCnt arg1) h)
  | mulCnt arg0 arg1 => exact .inl (SortedMap.mem_of_find_map _ (MagicServer.find_mulCnt arg1) h)
  | core mem_component mem_op_type address offset n =>
    left
    unfold MagicServer.count MagicServer.coreInitiateMemoryAccess at h
    dsimp only at h
    split at h
    · exact SortedMap.mem_of_find_map _ MagicServer.find_commitRead h
    · exact h

section step

variable {F : Footprint} {a : ℕ}

/-- An operation that does not register the byte adds its event to the log. -/
theorem Logged.count (h : Logged F) {op : CountOp} (hold : a ∈ F.server.approx_vars.keys)
    (hop : op ≠ .delApprox a) {v : AppVar} (hv : (F.server.count op).approx_vars.find a = some v) :
    v.bank = Bank.after asInt Counter.IsOp (F.log a ++ (F.server.event a op).toList) := by
  have hv₀ := SortedMap.find_of_mem _ hold
  obtain ⟨v', hv', hbank⟩ := MagicServer.bank_count hop hv₀
  obtain rfl : v = v' := Option.some.inj (hv.symm.trans hv')
  rw [hbank, h a _ hv₀, Bank.after, Bank.after, List.foldl_append]

theorem Logged.step (h : Logged F) (op : FootprintOp) : Logged (F.step op) := by
  intro a v hv
  cases op with
  | count op =>
    change (F.server.count op).approx_vars.find a = some v at hv
    by_cases hnew : FootprintOp.registers F.server a (.count op) = true
    · have hlog : (F.step (.count op)).log a = [] := if_pos hnew
      rw [hlog]
      cases op with
      | addApprox address s =>
        obtain ⟨rfl, hmem⟩ := of_decide_eq_true hnew
        have hfresh := (MagicServer.find_addApprox_self hmem s).symm.trans hv
        rw [← Option.some.inj hfresh]
        rfl
      | _ => cases hnew
    · have hlog : (F.step (.count op)).log a =
        F.log a ++ (F.server.event a op).toList := if_neg hnew
      rw [hlog]
      have hkeys := (SortedMap.find_isSome _).mp (Option.isSome_iff_exists.mpr ⟨v, hv⟩)
      apply h.count _ _ hv
      · rcases mem_of_mem_count hkeys with hold | ⟨s, rfl⟩
        · exact hold
        · by_contra hmem
          exact hnew (decide_eq_true ⟨rfl, hmem⟩)
      · rintro rfl
        exact (MagicServer.mem_delApprox.mp hkeys).1 rfl
  | dramAccess address now lpacc RW n =>
    change (F.server.updateLiftime address now lpacc RW n).1.approx_vars.find a = some v at hv
    have hkept := F.server.map_find_updateLiftime address now lpacc RW n a
    rw [hv, Option.map_some] at hkept
    obtain ⟨v₀, hv₀, hcounts⟩ := Option.map_eq_some_iff.mp hkept.symm
    have hbank : v.bank = v₀.bank := congrArg (fun x => Bank.mk x.2.1 x.2.2) hcounts.symm
    have hlog : (F.step (.dramAccess address now lpacc RW n)).log a = F.log a ++ [] := rfl
    rw [hlog, List.append_nil, hbank]
    exact h a v₀ hv₀

end step

theorem after_logged (ops : List FootprintOp) : Logged (after ops) := by
  unfold after
  induction ops using List.reverseRecOn with
  | nil => exact fun a v h => by simp [init, MagicServer.init, SortedMap.find] at h
  | append_singleton ops op ih =>
    rw [List.foldl_append]
    exact ih.step op

/-- The two dumps print the same rows, and in the columns of each byte all amounts that were
accepted for it since it was registered. -/
def SameDumps (F : Footprint) : Prop :=
  F.server.delRows = F.server.markerRows ∧
  ∀ a v, F.server.approx_vars.find a = some v → ∀ c : Counter, c.IsOp →
    v.footprint c = Bank.total c (all (F.log a))

/-- The accesses of each kind since the last read of the byte are no more than those of a segment
that a read has ended, and the largest sum of amounts that a read has found is the sum of them all.
The numbers are those of an `int`. -/
structure Committed (log : List (Option (Counter × ℤ))) : Prop where
  accesses : ∀ c ∈ AppVar.printed, ¬c.IsOp → asInt (Bank.total c (current log)) ≤
    ((ended log).map fun s => asInt (Bank.total c s)).foldl max 0
  amounts : ∀ c : Counter, c.IsOp →
    ((before log).map fun s => asInt (Bank.total c s)).foldl max 0 = Bank.total c (all log)

theorem committed_iff {v : AppVar} {log : List (Option (Counter × ℤ))}
    (h : v.bank = Bank.after asInt Counter.IsOp log) :
    ((∀ c ∈ AppVar.printed, v.poten c ≤ v.footprint c) ∧
      ∀ c : Counter, c.IsOp → v.footprint c = Bank.total c (all log)) ↔ Committed log := by
  have hpoten : ∀ c, v.poten c = (Bank.after asInt Counter.IsOp log).poten c :=
    fun c => congrFun (congrArg Bank.poten h) c
  have hsaved : ∀ c, v.footprint c = (Bank.after asInt Counter.IsOp log).saved c :=
    fun c => congrFun (congrArg Bank.saved h) c
  constructor
  · intro h'
    obtain ⟨hle, hsum⟩ := h'
    refine ⟨fun c hc hop => ?_, fun c hop => ?_⟩
    · obtain ⟨hp, hs⟩ := Bank.after_of_not_kept log rfl asInt_add hop
      rw [← hp, ← hs, ← hpoten, ← hsaved]
      exact hle c hc
    · rw [← (Bank.after_of_kept log rfl asInt_add hop).2, ← hsaved]
      exact hsum c hop
  · intro hcom
    have hsum : ∀ c : Counter, c.IsOp → v.footprint c = Bank.total c (all log) := by
      intro c hop
      rw [hsaved, (Bank.after_of_kept log rfl asInt_add hop).2]
      exact hcom.amounts c hop
    refine ⟨fun c hc => ?_, hsum⟩
    by_cases hop : c.IsOp
    -- the sum of all amounts is saved, so it is an `int` and also the potential count
    · have hlt := foldl_asInt_lt (Bank.total c) (before log)
      have hnonneg := (Bank.foldl_max_le_iff.mp
        (le_refl (((before log).map fun s => asInt (Bank.total c s)).foldl max 0))).1
      rw [hcom.amounts c hop] at hlt hnonneg
      rw [hsum c hop, hpoten, (Bank.after_of_kept log rfl asInt_add hop).1,
        asInt_of_fits (by omega) hlt]
    · obtain ⟨hp, hs⟩ := Bank.after_of_not_kept log rfl asInt_add hop
      rw [hpoten, hsaved, hp, hs]
      exact hcom.accesses c hc hop

end Footprint

/-- After every sequence of operations the two dumps agree, with all amounts in them, exactly when
the reads of each registered byte leave nothing of its log to save. -/
theorem sameDumps_iff (ops : List FootprintOp) : (Footprint.after ops).SameDumps ↔
    ∀ a ∈ (Footprint.after ops).server.approx_vars.keys,
      Footprint.Committed ((Footprint.after ops).log a) := by
  have hlogged := Footprint.after_logged ops
  generalize Footprint.after ops = F at hlogged ⊢
  unfold Footprint.SameDumps
  rw [MagicServer.delRows_eq_markerRows_iff]
  constructor
  · intro h a ha
    have hv := SortedMap.find_of_mem _ ha
    exact (Footprint.committed_iff (hlogged a _ hv)).mp ⟨h.1 a _ hv, h.2 a _ hv⟩
  · intro h
    have hboth := fun a v (hv : F.server.approx_vars.find a = some v) =>
      (Footprint.committed_iff (hlogged a v hv)).mpr
        (h a ((SortedMap.find_isSome _).mp (Option.isSome_iff_exists.mpr ⟨v, hv⟩)))
    exact ⟨fun a v hv => (hboth a v hv).1, fun a v hv => (hboth a v hv).2⟩

/-- An amount that no read has committed is missing from one of the dumps. -/
theorem addCnt_missing_from_delRows :
    ¬(Footprint.after [.count (.addApprox 64 0), .count (.addCnt 64 5)]).SameDumps := by
  intro h
  have hsaved := MagicServer.delRows_eq_markerRows_iff.mp h.1
  have hle := hsaved 64 _ (SortedMap.find_of_mem _ (by decide)) .approx_add_cnt (by decide)
  revert hle
  decide

end Sniper
