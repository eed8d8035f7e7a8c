import Sniper.Accounting
import Sniper.BlockWalk
import Sniper.CacheLines
import Sniper.InjectedFaults
import Sniper.MemorySystem

namespace Sniper
open Outcome

/-- What `fault_injection/type` says for a type. -/
def FaultType.word : FaultType → String
  | .toggle => "toggle"
  | .set0 => "set0"
  | .set1 => "set1"

theorem FaultinjectionManager.create_word (type : FaultType) :
    FaultinjectionManager.create type.word "random" = .ok (some ⟨type, .random⟩) := by
  cases type <;> rfl

namespace MagicServer

variable {m : MagicServer} {address n : ℕ}

theorem approxAddrSetnum_congr {m' : MagicServer} {a : ℕ}
    (h : (m'.approx_vars.find a).map AppVar.set_num = (m.approx_vars.find a).map AppVar.set_num) :
    m'.approxAddrSetnum a = m.approxAddrSetnum a := by
  unfold approxAddrSetnum
  cases hv : m.approx_vars.find a <;> cases hv' : m'.approx_vars.find a <;> rw [hv, hv'] at h <;>
    simp_all

theorem setnum_addAcc {inc : AppVar → AppVar} (hinc : ∀ v, (inc v).set_num = v.set_num) (a : ℕ) :
    (m.addAcc inc address n).approxAddrSetnum a = m.approxAddrSetnum a :=
  approxAddrSetnum_congr (map_find_addAcc hinc address n a)

theorem setnum_updateLiftime (now lpacc : ℕ) (RW : Bool) (a : ℕ) :
    (m.updateLiftime address now lpacc RW n).1.approxAddrSetnum a = m.approxAddrSetnum a := by
  apply approxAddrSetnum_congr
  have h := congrArg (Option.map Prod.fst) (m.map_find_updateLiftime address now lpacc RW n a)
  rwa [Option.map_map, Option.map_map] at h

end MagicServer

/-- A call of `preRead` or `postWrite`, with what the injector is given. -/
structure InjectorCall where
  read : Bool
  env : Env
  addr : ℕ
  data_size : ℕ
  fault : ℕ → Byte

/-- Among the draws of the call for one bit two fire, or one does and the bit does not have the
value that the type clears or sets. -/
def InjectorCall.Misfires (c : InjectorCall) (type : FaultType) : Prop :=
  ∃ i < c.data_size, ∃ j < 8,
    ¬FaultInjectorRandom.DrawOk type c.env c.read c.addr c.fault i j

section

variable {ι κ σ : Type} [DecidableEq ι] [DecidableEq κ] (P : MemoryParams ι σ)

/-- The call an operation makes to the injector of its component: the bytes read are those stored,
the bytes written those the operation is given. -/
def MemoryOp.injectorCall (M : Memory ι κ σ) : MemoryOp ι κ → Option ((ι ⊕ κ) × InjectorCall)
  | .insertSingleLine i addr fill_buff evict_buff =>
    let t := Cache.tagOf (P.cache i) addr
    let S := (((M.m_cache i).setOf (P.cache i) addr).insert (P.cache i) ⟨some t, .invalid⟩ fill_buff
      evict_buff (M.magic.isBlockApprox (Cache.tagToAddress (P.cache i) t)
        (P.cache i).blocksize)).1
    (S.find (P.cache i) t).map fun w => (.inl i, ⟨false, M.cacheEnv i, addr, (P.cache i).blocksize,
      fun j => S.m_blocks (CacheSet.getDataPtr (P.cache i) w 0 + j)⟩)
  | .accessSingleLine i addr access_type buff bytes _ =>
    ((M.m_cache i).way (P.cache i) addr).map fun w =>
      let stored := fun j => ((M.m_cache i).setOf (P.cache i) addr).m_blocks
        (CacheSet.getDataPtr (P.cache i) w (Cache.blockOffset (P.cache i) addr) + j)
      match access_type with
      | .load => (.inl i, ⟨true, M.cacheEnv i, addr, bytes, stored⟩)
      | .store => (.inl i, ⟨false, M.cacheEnv i, addr, bytes, buff.getD stored⟩)
  | .getDataFromDram d address _ _ => some (.inr d, ⟨true, (M.dramState d).env, address,
      P.dram_blocksize, (M.m_dram d).m_data_map.block address⟩)
  | .putDataToDram d address data_buf _ => some (.inr d, ⟨false, (M.dramState d).env, address,
      P.dram_blocksize, data_buf⟩)
  | .addApprox _ _ | .delApprox _ => none

/-- The injector call of the operation changes a bit that the type does not allow to change. -/
def MemoryOp.Misfires (type : FaultType) (M : Memory ι κ σ) (op : MemoryOp ι κ) : Prop :=
  ∃ c call, op.injectorCall P M = some (c, call) ∧ call.Misfires type

/-- Every fault injected so far honours the type. -/
def Memory.Honours (type : FaultType) (M : Memory ι κ σ) : Prop :=
  ∀ c, ∀ f ∈ (M.rng c).injected, f.Honours type

end

namespace FaultInjectorRandom

variable {type : FaultType} {e e' : Env} {addr n : ℕ} {fault fault' : ℕ → Byte}

theorem drawOk_congr (hr : e'.rng = e.rng)
    (hs : ∀ a, e'.magic.approxAddrSetnum a = e.magic.approxAddrSetnum a) {i : ℕ}
    (hf : fault' i = fault i) (read : Bool) (j : ℕ) :
    DrawOk type e' read addr fault' i j ↔ DrawOk type e read addr fault i j := by
  unfold DrawOk drawsBefore
  simp only [hr, hs, hf]

/-- A call leaves the faults injected before, and adds some that honour the type unless it
misfires. -/
def Injects (r r' : RandomState) (type : FaultType) (c : InjectorCall) : Prop :=
  ∃ new, r'.injected = r.injected ++ new ∧ ((∀ f ∈ new, f.Honours type) ↔ ¬c.Misfires type)

theorem not_misfires (c : InjectorCall) : ¬c.Misfires type ↔
    ∀ i < c.data_size, ∀ j < 8, DrawOk type c.env c.read c.addr c.fault i j := by
  unfold InjectorCall.Misfires
  push Not
  exact Iff.rfl

/-- What the injector does depends on the registered set numbers, not on the counters. -/
theorem overBytes_injects (read : Bool) (hr : e'.rng = e.rng)
    (hs : ∀ a, e'.magic.approxAddrSetnum a = e.magic.approxAddrSetnum a)
    (hf : ∀ i < n, fault' i = fault i) :
    Injects e.rng (overBytes (byteFaults read) e' addr fault' n).2.rng type
      ⟨read, e, addr, n, fault⟩ := by
  obtain ⟨new, hnew, hok⟩ := (overBytes_draws type read e' addr fault' n).injected
  refine ⟨new, hr ▸ hnew, hok.trans ?_⟩
  rw [not_misfires]
  apply forall₂_congr
  intro i hi
  apply forall₂_congr
  intro j _
  exact drawOk_congr hr hs (hf i hi) read j

end FaultInjectorRandom

section

open FaultInjectorRandom

variable {ι κ σ : Type} {P : MemoryParams ι σ} {type : FaultType} {i : ι} {C : Cache σ} {e : Env}
  {addr n w : ℕ} {u : Bool} {r : Cache.Accessed σ Env} {buff : Option (ℕ → Byte)}

theorem injector_eq {manager : FaultinjectionManager} (h : manager.m_injector = .random) :
    manager.getFaultInjector =
      ⟨fun e addr n fault => overBytes (byteFaults true) e addr fault n,
        fun e addr n fault => overBytes (byteFaults false) e addr fault n⟩ := by
  unfold FaultinjectionManager.getFaultInjector
  rw [h, ← readByte_eq, ← writeByte_eq]
  rfl

theorem probe_injector : (P.probe i).injector = P.manager.getFaultInjector := rfl

theorem inject_injects {k : CacheParams σ} (hk : k.stores = true) (read : Bool) {S : CacheSet σ}
    {e' : Env} (hr : e'.rng = e.rng)
    (hs : ∀ a, e'.magic.approxAddrSetnum a = e.magic.approxAddrSetnum a) {ptr : ℕ}
    {fault : ℕ → Byte} (hf : ∀ j < n, S.m_blocks (ptr + j) = fault j) :
    Injects e.rng (Cache.inject k (fun e addr n fault => overBytes (byteFaults read) e addr fault n)
      S e' addr n ptr).2.rng type ⟨read, e, addr, n, fault⟩ := by
  unfold Cache.inject
  rw [if_pos hk]
  exact overBytes_injects read hr hs hf

theorem setnum_addReadAcc (a : ℕ) : ((P.probe i).addReadAcc e addr).magic.approxAddrSetnum a =
    e.magic.approxAddrSetnum a := by
  apply MagicServer.setnum_addAcc
  intro v
  unfold AppVar.incReadCnt
  split <;> rfl

theorem setnum_addWriteAcc (a : ℕ) : ((P.probe i).addWriteAcc e addr).magic.approxAddrSetnum a =
    e.magic.approxAddrSetnum a := by
  apply MagicServer.setnum_addAcc
  intro v
  unfold AppVar.incWriteCnt
  split <;> rfl

theorem load_injects (hP : P.manager.m_injector = .random) (hw : C.way (P.cache i) addr = some w)
    (hx : C.accessSingleLine (P.probe i) (P.cache i) e addr .load buff n u = .ok r) :
    Injects e.rng r.env.rng type ⟨true, e, addr, n, fun j => (C.setOf (P.cache i) addr).m_blocks
      (CacheSet.getDataPtr (P.cache i) w (Cache.blockOffset (P.cache i) addr) + j)⟩ := by
  simp only [Cache.accessSingleLine, hw] at hx
  obtain ⟨x, -, hx⟩ := bind_eq_ok.mp hx
  cases hx
  rw [probe_injector, injector_eq hP]
  have hr : ((P.probe i).addReadAcc e addr).rng = e.rng := rfl
  exact inject_injects (P.stores i) true hr setnum_addReadAcc fun _ _ => rfl

theorem store_injects (hP : P.manager.m_injector = .random) (hw : C.way (P.cache i) addr = some w)
    (hx : C.accessSingleLine (P.probe i) (P.cache i) e addr .store buff n u = .ok r) :
    Injects e.rng r.env.rng type ⟨false, e, addr, n, buff.getD fun j =>
      (C.setOf (P.cache i) addr).m_blocks
        (CacheSet.getDataPtr (P.cache i) w (Cache.blockOffset (P.cache i) addr) + j)⟩ := by
  simp only [Cache.accessSingleLine, hw] at hx
  obtain ⟨S, hS, hx⟩ := bind_eq_ok.mp hx
  obtain ⟨_, -, hS⟩ := bind_eq_ok.mp hS
  cases hS
  cases hx
  rw [probe_injector, injector_eq hP]
  have hr : ((P.probe i).addWriteAcc e addr).rng = e.rng := rfl
  apply inject_injects (P.stores i) false hr setnum_addWriteAcc
  intro j hj
  rw [Cache.CacheSet.touch_blocks]
  cases buff with
  | none => rfl
  | some b =>
    simp only [P.stores i, if_true, Option.getD_some]
    rw [Buffer.copy_add hj, Nat.zero_add]

/-- A DRAM controller reads and writes blocks as a whole. -/
theorem storeBlock_injects {k : DramParams} {D D' : DramState} (read : Bool)
    (hr : D'.env.rng = D.env.rng)
    (hs : ∀ a, D'.env.magic.approxAddrSetnum a = D.env.magic.approxAddrSetnum a)
    {address : ℕ} {block fault : ℕ → Byte} (hf : ∀ j < k.blocksize, block j = fault j) :
    Injects D.env.rng (DramCntlr.storeBlock k D'
      (fun e addr n fault => overBytes (byteFaults read) e addr fault n) address block).env.rng type
      ⟨read, D.env, address, k.blocksize, fault⟩ :=
  overBytes_injects read hr hs hf

variable {D D' : DramState} {address now : ℕ} {buf : ℕ → Byte} {k : DramParams}
  {manager : FaultinjectionManager}

theorem setnum_accessPage (RW : Bool) (a : ℕ) :
    (DramCntlr.accessPage k D address now RW).env.magic.approxAddrSetnum a =
      D.env.magic.approxAddrSetnum a := by
  rw [DramCntlr.accessPage_magic, MagicServer.setnum_updateLiftime]

theorem getDataFromDram_injects (hP : P.manager.m_injector = .random) (buf : ℕ → Byte) :
    Injects D.env.rng (DramCntlr.getDataFromDram P.dram D address buf now).1.env.rng type
      ⟨true, D.env, address, P.dram_blocksize, D.cntlr.m_data_map.block address⟩ := by
  change Injects _ (DramCntlr.storeBlock P.dram (DramCntlr.accessPage P.dram D address now true)
    P.manager.getFaultInjector.preRead address (D.cntlr.m_data_map.block address)).env.rng _ _
  rw [injector_eq hP]
  have hr : (DramCntlr.accessPage P.dram D address now true).env.rng = D.env.rng := rfl
  exact storeBlock_injects true hr (setnum_accessPage true) fun _ _ => rfl

theorem putDataToDram_injects (hP : P.manager.m_injector = .random)
    (h : DramCntlr.putDataToDram P.dram D address buf now = .ok D') :
    Injects D.env.rng D'.env.rng type ⟨false, D.env, address, P.dram_blocksize, buf⟩ := by
  obtain ⟨D₁, hD₁, h⟩ := bind_eq_ok.mp h
  cases h
  change Injects _ D₁.env.rng _ _
  unfold DramCntlr.writeBlock MemoryParams.dram at hD₁
  simp only at hD₁
  split at hD₁
  · cases hD₁
    rw [injector_eq hP]
    have hr : (DramCntlr.accessPage P.dram D address now false).env.rng = D.env.rng := rfl
    apply storeBlock_injects false hr (setnum_accessPage false)
    intro j hj
    rw [Buffer.copy_in (Nat.zero_le j) (by rwa [Nat.zero_add]), Nat.zero_add, Nat.sub_zero]
  · cases hD₁

end

namespace Memory

variable {ι κ σ : Type} [DecidableEq ι] [DecidableEq κ] {P : MemoryParams ι σ} {type : FaultType}
  {M T : Memory ι κ σ} {op : MemoryOp ι κ} {out : MemoryOut ι}

/-- The faults of an operation are those of its injector call. -/
theorem exec_injects (type : FaultType) (hP : P.manager.m_injector = .random)
    (hx : M.exec P op = .ok (T, out)) :
    (op.injectorCall P M = none ∧ T.rng = M.rng) ∨
      ∃ c call, op.injectorCall P M = some (c, call) ∧
        FaultInjectorRandom.Injects (M.rng c) (T.rng c) type call ∧
          ∀ c' ≠ c, T.rng c' = M.rng c' := by
  cases op with
  -- an insertion that evicts injects into the line that leaves
  | insertSingleLine i addr fill evict =>
    cases hx
    have hother : ∀ (C : Cache σ) (e : Env), ∀ c' ≠ .inl i, (M.putCache i C e).rng c' = M.rng c' :=
      fun _ _ c' hc' => Function.update_of_ne hc' ..
    have hself : ∀ (C : Cache σ) (e : Env), (M.putCache i C e).rng (.inl i) = e.rng :=
      fun _ _ => Function.update_self ..
    unfold Cache.insertSingleLine MemoryOp.injectorCall
    simp only
    split
    · rename_i w hw
      right
      refine ⟨.inl i, _, congrArg (Option.map _) hw, ?_, hother _ _⟩
      rw [hself, probe_injector, injector_eq hP]
      exact inject_injects (P.stores i) false rfl (fun _ => rfl) fun _ _ => rfl
    · rename_i hw
      left
      exact ⟨congrArg (Option.map _) hw, Function.update_eq_self _ _⟩
  | accessSingleLine i addr access_type buff bytes update =>
    obtain ⟨r, hr, hx⟩ := bind_eq_ok.mp hx
    cases hx
    cases hw : (M.m_cache i).way (P.cache i) addr with
    | none =>
      left
      simp only [Cache.accessSingleLine, hw] at hr
      cases hr
      exact ⟨by simp [MemoryOp.injectorCall, hw], Function.update_eq_self _ _⟩
    | some w =>
      right
      have hother : ∀ c' ≠ .inl i, (M.putCache i r.cache r.env).rng c' = M.rng c' :=
        fun c' hc' => Function.update_of_ne hc' ..
      have hself : (M.putCache i r.cache r.env).rng (.inl i) = r.env.rng :=
        Function.update_self ..
      cases access_type with
      | load =>
        have hload : FaultInjectorRandom.Injects _ _ type _ := load_injects hP hw hr
        rw [← hself] at hload
        exact ⟨.inl i, _, by simp only [MemoryOp.injectorCall, hw]; rfl, hload, hother⟩
      | store =>
        have hstore : FaultInjectorRandom.Injects _ _ type _ := store_injects hP hw hr
        rw [← hself] at hstore
        exact ⟨.inl i, _, by simp only [MemoryOp.injectorCall, hw]; rfl, hstore, hother⟩
  | getDataFromDram d address buf now =>
    cases hx
    right
    refine ⟨.inr d, _, rfl, ?_, fun c' hc' => Function.update_of_ne hc' ..⟩
    have hself : ∀ D : DramState, (M.putDram d D).rng (.inr d) = D.env.rng :=
      fun _ => Function.update_self ..
    rw [hself]
    exact getDataFromDram_injects hP buf
  | putDataToDram d address buf now =>
    obtain ⟨D, hD, hx⟩ := bind_eq_ok.mp hx
    cases hx
    right
    refine ⟨.inr d, _, rfl, ?_, fun c' hc' => Function.update_of_ne hc' ..⟩
    have hself : (M.putDram d D).rng (.inr d) = D.env.rng := Function.update_self ..
    rw [hself]
    exact putDataToDram_injects hP hD
  | addApprox address set_number =>
    cases hx
    exact .inl ⟨rfl, rfl⟩
  | delApprox address =>
    cases hx
    exact .inl ⟨rfl, rfl⟩

theorem exec_honours_iff (hP : P.manager.m_injector = .random) (hM : M.Honours type)
    (hx : M.exec P op = .ok (T, out)) : T.Honours type ↔ ¬op.Misfires P type M := by
  unfold Honours MemoryOp.Misfires
  rcases exec_injects type hP hx with ⟨hnone, hrng⟩ | ⟨c, call, hcall, hinj, hother⟩
  · rw [hnone, hrng]
    exact iff_of_true hM (by simp)
  · obtain ⟨new, hnew, hok⟩ := hinj
    have hmis : (∃ c call, op.injectorCall P M = some (c, call) ∧ call.Misfires type) ↔
        call.Misfires type := by simp [hcall]
    rw [hmis, ← hok]
    constructor
    · intro h f hf
      exact h c f (hnew ▸ List.mem_append_right _ hf)
    · intro h c' f hf
      by_cases hc : c' = c
      · subst hc
        rw [hnew] at hf
        rcases List.mem_append.mp hf with hf | hf
        · exact hM c' f hf
        · exact h f hf
      · rw [hother c' hc] at hf
        exact hM c' f hf

end Memory

/-- Along a run the faults injected honour the configured type exactly when no injector call
misfires. -/
theorem faults_honour_type_iff {ι κ σ : Type} [DecidableEq ι] [DecidableEq κ] (type : FaultType)
    (P : MemoryParams ι σ)
    (hP : FaultinjectionManager.create type.word "random" = .ok (some P.manager))
    (M : Memory ι κ σ) (hM : ∀ c, (M.rng c).injected = []) (ops : List (MemoryOp ι κ))
    (S : Memory ι κ σ × List (MemoryOut ι)) (hrun : (Memory.machine P).Run (M, []) ops S) :
    (∀ done T, done <+: ops → (Memory.machine P).Run (M, []) done T → T.1.Honours type) ↔
      ∀ done op T, done ++ [op] <+: ops → (Memory.machine P).Run (M, []) done T →
        ¬op.Misfires P type T.1 := by
  have hrandom : P.manager.m_injector = .random := by
    rw [FaultinjectionManager.create_word] at hP
    rw [← Option.some.inj (Except.ok.inj hP)]
  refine Machine.Run.always_iff (J := fun _ => True) ?_ hrun trivial fun c f hf => ?_
  · intro T op T' _ _ hx
    obtain ⟨⟨N, out⟩, hexec, hT'⟩ := bind_eq_ok.mp hx
    cases hT'
    exact ⟨trivial, fun hT => Memory.exec_honours_iff hrandom hT hexec⟩
  · rw [hM c] at hf
    cases hf

namespace Memory

/-- The line of the registered address 0 is filled with zeros. -/
def fillZero : List (MemoryOp Unit Unit) :=
  [.addApprox 0 0, .insertSingleLine () 0 (some fun _ => 0) fun _ => 0]

end Memory

open Memory in
theorem faults_honour_type_iff_fillZero : ∃ S, (machine oneWay).Run (start noFault, []) fillZero S ∧
    ((∀ done T, done <+: fillZero → (machine oneWay).Run (start noFault, []) done T →
        T.1.Honours .set0) ↔
      ∀ done op T, done ++ [op] <+: fillZero → (machine oneWay).Run (start noFault, []) done T →
        ¬op.Misfires oneWay .set0 T.1) := by
  obtain ⟨S, hS⟩ : ∃ S, fillZero.foldlM (machine oneWay).exec (start noFault, []) = .ok S :=
    ⟨_, rfl⟩
  exact ⟨S, run_of_foldlM hS, faults_honour_type_iff .set0 oneWay rfl (start noFault)
    (fun _ => rfl) fillZero S (run_of_foldlM hS)⟩

open Memory in
/-- With type `set0` a fault sets bit 0 of the byte at the registered address. -/
theorem set0_fault_sets_bit : FaultinjectionManager.create "set0" "random" =
      .ok (some oneWay.manager) ∧
    ∃ S : Memory Unit Unit Unit × List (MemoryOut Unit),
      (machine oneWay).Run (start firstWrite, []) fillZero S ∧
        ∃ f ∈ (S.1.rng (.inl ())).injected, bitOf f.before 0 = false ∧ bitOf f.after 0 = true := by
  refine ⟨rfl, ?_⟩
  obtain ⟨S, hS⟩ : ∃ S, fillZero.foldlM (machine oneWay).exec (start firstWrite, []) = .ok S :=
    ⟨_, rfl⟩
  refine ⟨S, run_of_foldlM hS, ?_⟩
  have hinjected : ((fillZero.foldlM (machine oneWay).exec (start firstWrite, [])).toOption.map
      fun S => decide (∃ f ∈ (S.1.rng (.inl ())).injected,
        bitOf f.before 0 = false ∧ bitOf f.after 0 = true)) = some true := by decide +kernel
  rw [hS] at hinjected
  exact of_decide_eq_true (Option.some.inj hinjected)

end Sniper
