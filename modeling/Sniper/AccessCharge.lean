import Sniper.CacheAgree
import Sniper.Accounting

namespace Sniper
open Outcome

/-- The counter that `inc_read_cnt` or `inc_write_cnt` increments. -/
def AccessType.counter : AccessType → ℕ → CacheName → Option Counter
  | .load => Counter.read
  | .store => Counter.write

/-- `inc_read_cnt` or `inc_write_cnt`. -/
def AppVar.incCnt (type : AccessType) (cid : ℕ) (cachelvl : CacheName) (v : AppVar) : AppVar :=
  match type with
  | .load => v.incReadCnt cid cachelvl
  | .store => v.incWriteCnt cid cachelvl

theorem AppVar.incCnt_of_some {type : AccessType} {cid : ℕ} {cachelvl : CacheName} {c : Counter}
    (h : type.counter cid cachelvl = some c) (v : AppVar) :
    v.incCnt type cid cachelvl = v.bump c 1 := by
  cases type with
  | load =>
    have hc : Counter.read cid cachelvl = some c := h
    simp only [AppVar.incCnt, AppVar.incReadCnt, hc]
  | store =>
    have hc : Counter.write cid cachelvl = some c := h
    simp only [AppVar.incCnt, AppVar.incWriteCnt, hc]

theorem AppVar.incCnt_of_none {type : AccessType} {cid : ℕ} {cachelvl : CacheName}
    (h : type.counter cid cachelvl = none) (v : AppVar) : v.incCnt type cid cachelvl = v := by
  cases type with
  | load =>
    have hc : Counter.read cid cachelvl = none := h
    simp only [AppVar.incCnt, AppVar.incReadCnt, hc]
  | store =>
    have hc : Counter.write cid cachelvl = none := h
    simp only [AppVar.incCnt, AppVar.incWriteCnt, hc]

namespace MagicServer

variable {m m' : MagicServer} {addr bytes n b : ℕ}

theorem Reached.mem (h : m.Reached addr n b) : b ∈ m.approx_vars.keys := by
  obtain ⟨-, i, -, hib, hall⟩ := h
  exact hib ▸ hall i le_rfl

section

variable (hn : n ≤ 2 ^ 64) (inc : AppVar → AppVar)
include hn

theorem find_addAcc_of_reached (h : m.Reached addr n b) :
    (m.addAcc inc addr n).approx_vars.find b = (m.approx_vars.find b).map inc :=
  (find_addAcc inc hn b).trans (if_pos h)

theorem find_addAcc_of_not_reached (h : ¬m.Reached addr n b) :
    (m.addAcc inc addr n).approx_vars.find b = m.approx_vars.find b :=
  (find_addAcc inc hn b).trans (if_neg h)

end

/-- A potential counter of `b` is not what it was. -/
def Charged (m m' : MagicServer) (b : ℕ) : Prop :=
  ∃ v v', m.approx_vars.find b = some v ∧ m'.approx_vars.find b = some v' ∧ v'.poten ≠ v.poten

/-- The loop charges the bytes that it reaches, when the access is counted at all. -/
theorem charged_addAcc_iff (hn : n ≤ 2 ^ 64) {type : AccessType} {cid : ℕ} {cachelvl : CacheName} :
    Charged m (m.addAcc (fun v => v.incCnt type cid cachelvl) addr n) b ↔
      type.counter cid cachelvl ≠ none ∧ m.Reached addr n b := by
  constructor
  · intro h'
    obtain ⟨v, v', hv, hv', hne⟩ := h'
    by_cases hreach : m.Reached addr n b
    · rw [find_addAcc_of_reached hn _ hreach, hv] at hv'
      cases hv'
      exact ⟨fun hnone => hne (congrArg AppVar.poten (AppVar.incCnt_of_none hnone v)), hreach⟩
    · rw [find_addAcc_of_not_reached hn _ hreach, hv] at hv'
      cases hv'
      exact absurd rfl hne
  · intro h'
    obtain ⟨hcount, hreach⟩ := h'
    obtain ⟨c, hc⟩ := Option.ne_none_iff_exists'.mp hcount
    have hv := SortedMap.find_of_mem m.approx_vars hreach.mem
    refine ⟨_, _, hv, (find_addAcc_of_reached hn _ hreach).trans (congrArg (Option.map _) hv), ?_⟩
    simp only [AppVar.incCnt_of_some hc]
    exact bump_poten_ne _ c

/-- The bytes that an access touches are the only ones it charges, and they lie in one line. -/
structure ChargedOnly (m m' : MagicServer) (addr bytes block_size : ℕ) : Prop where
  touched : ∀ b, Charged m m' b → addr ≤ b ∧ b < addr + bytes
  line : ∀ b, Charged m m' b → b / block_size = addr / block_size

/-- The loop comes to another byte than the `bytes` first ones exactly when it is run at all, and
these and the one after them are registered. -/
theorem exists_reached_past_iff (m : MagicServer) {addr : ℕ} (hfits : addr + bytes ≤ 2 ^ 64)
    (hle : bytes ≤ n) (hn : n ≤ 2 ^ 64) :
    (∃ b, m.Reached addr n b ∧ ¬(addr ≤ b ∧ b < addr + bytes)) ↔
      bytes < n ∧ ¬m.Outside addr n ∧ ∀ i ≤ bytes, (addr + i) % 2 ^ 64 ∈ m.approx_vars.keys := by
  constructor
  · intro h
    obtain ⟨b, ⟨hout, i, hi, hib, hall⟩, hpast⟩ := h
    have hbytes : bytes ≤ i := by
      by_contra hlt
      rw [Nat.mod_eq_of_lt (by omega)] at hib
      omega
    exact ⟨by omega, hout, fun j hj => hall j (by omega)⟩
  · intro h
    obtain ⟨hlt, hout, hall⟩ := h
    exact ⟨_, ⟨hout, bytes, hlt, rfl, hall⟩, by omega⟩

end MagicServer

namespace Cache

variable {ι σ : Type} (P : MemoryParams ι σ) (i : ι) (C : Cache σ) (e : Env) {addr bytes : ℕ}

/-- An access that hits calls the accounting once, with its own address and the block size. -/
theorem accessSingleLine_charges (hhit : (C.way (P.cache i) addr).isSome = true)
    (hfits : addr % (P.cache i).blocksize + bytes ≤ (P.cache i).blocksize) (type : AccessType)
    (buff : Option (ℕ → Byte)) (u : Bool) :
    ∃ r, C.accessSingleLine (P.probe i) (P.cache i) e addr type buff bytes u = .ok r ∧
      r.env.magic = e.magic.addAcc (fun v => v.incCnt type (P.core_id i) (P.name i)) addr
        (P.cache i).blocksize := by
  obtain ⟨w, hw⟩ := Option.isSome_iff_exists.mp hhit
  have hoff : blockOffset (P.cache i) addr + bytes ≤ (P.cache i).blocksize := hfits
  unfold accessSingleLine
  simp only [hw]
  cases type with
  | load =>
    simp only [CacheSet.readLine, require_true _ hoff, ok_bind]
    refine ⟨_, rfl, ?_⟩
    exact inject_magic P.manager.preRead_confined _ _
  | store =>
    simp only [CacheSet.writeLine, require_true _ hoff, ok_bind]
    refine ⟨_, rfl, ?_⟩
    exact inject_magic P.manager.postWrite_confined _ _

end Cache

/-- An access that hits charges only the bytes it touches exactly when it touches a whole line, or
the test of the bounds skips it, or the loop of the accounting ends before it has passed them, or
the cache counts nothing. -/
theorem accessSingleLine_chargedOnly_iff {ι σ : Type} (P : MemoryParams ι σ) (i : ι) (C : Cache σ)
    (e : Env) (addr bytes : ℕ) (type : AccessType) (buff : Option (ℕ → Byte)) (u : Bool)
    (hline : (addr / (P.cache i).blocksize + 1) * (P.cache i).blocksize ≤ 2 ^ 64)
    (hhit : (C.way (P.cache i) addr).isSome = true)
    (hfits : addr % (P.cache i).blocksize + bytes ≤ (P.cache i).blocksize) :
    (∃ r, C.accessSingleLine (P.probe i) (P.cache i) e addr type buff bytes u = .ok r ∧
      e.magic.ChargedOnly r.env.magic addr bytes (P.cache i).blocksize) ↔
    bytes = (P.cache i).blocksize ∨ e.magic.Outside addr (P.cache i).blocksize ∨
      (∃ j ≤ bytes, (addr + j) % 2 ^ 64 ∉ e.magic.approx_vars.keys) ∨
      type.counter (P.core_id i) (P.name i) = none := by
  obtain ⟨r, hr, hmagic⟩ := Cache.accessSingleLine_charges P i C e hhit hfits type buff u
  have hdiv := Nat.div_add_mod' addr (P.cache i).blocksize
  rw [Nat.succ_mul] at hline
  have hn : (P.cache i).blocksize ≤ 2 ^ 64 := by omega
  have hcharged : ∀ b, e.magic.Charged r.env.magic b ↔
      type.counter (P.core_id i) (P.name i) ≠ none ∧
        e.magic.Reached addr (P.cache i).blocksize b := by
    intro b
    rw [hmagic]
    exact MagicServer.charged_addAcc_iff hn
  have hpast := e.magic.exists_reached_past_iff (show addr + bytes ≤ 2 ^ 64 by omega)
    (show bytes ≤ (P.cache i).blocksize by omega) hn
  constructor
  · intro h
    obtain ⟨r', hr', honly⟩ := h
    obtain rfl : r = r' := Except.ok.inj (hr.symm.trans hr')
    by_contra hcon
    obtain ⟨hlen, hrest⟩ := not_or.mp hcon
    obtain ⟨hout, hrest⟩ := not_or.mp hrest
    obtain ⟨hmem, hcount⟩ := not_or.mp hrest
    have hall : ∀ j ≤ bytes, (addr + j) % 2 ^ 64 ∈ e.magic.approx_vars.keys := by
      intro j hj
      by_contra ha
      exact hmem ⟨j, hj, ha⟩
    obtain ⟨b, hreach, hb⟩ := hpast.mpr ⟨by omega, hout, hall⟩
    exact hb (honly.touched b ((hcharged b).mpr ⟨hcount, hreach⟩))
  · intro hwhen
    have htouched : ∀ b, e.magic.Charged r.env.magic b → addr ≤ b ∧ b < addr + bytes := by
      intro b hb
      obtain ⟨hcount, hreach⟩ := (hcharged b).mp hb
      by_contra hnot
      obtain ⟨hlt, hout, hall⟩ := hpast.mp ⟨b, hreach, hnot⟩
      rcases hwhen with hlen | hskip | ⟨j, hj, hmem⟩ | hnone
      · omega
      · exact hout hskip
      · exact hmem (hall j hj)
      · exact hcount hnone
    refine ⟨r, hr, htouched, fun b hb => ?_⟩
    obtain ⟨h1, h2⟩ := htouched b hb
    rw [Nat.div_eq_iff (P.cache i).blocksize_pos]
    omega

/-- The line of the bytes 0 to 3, modified. -/
def firstLine : Cache Unit := ⟨fun _ => ⟨fun _ => ⟨some 0, .modified⟩, fun _ => 0, ()⟩⟩

/-- These bytes registered, and no faults. -/
def registered (bytes : List ℕ) : Env where
  magic := bytes.foldl (fun m address => (m.addApprox address 0).1) .init
  rng := ⟨Memory.noFault, fun _ => 0, []⟩

theorem accessSingleLine_chargedOnly_iff_last : ∃ r,
    firstLine.accessSingleLine (Memory.oneWay.probe ()) (Memory.oneWay.cache ()) (registered [3])
      3 .load none 1 true = .ok r ∧ (registered [3]).magic.ChargedOnly r.env.magic 3 1 4 :=
  (accessSingleLine_chargedOnly_iff Memory.oneWay () firstLine (registered [3]) 3 1 .load none true
    (by decide) (by decide) (by decide)).mpr (.inr (.inr (.inl ⟨1, by decide⟩)))

/-- A load of the last byte of a line charges the first one of the next. -/
theorem accessSingleLine_charges_next :
    (firstLine.way (Memory.oneWay.cache ()) 3).isSome = true ∧ 3 % 4 + 1 ≤ 4 ∧
    ¬∃ r, firstLine.accessSingleLine (Memory.oneWay.probe ()) (Memory.oneWay.cache ())
      (registered [3, 4]) 3 .load none 1 true = .ok r ∧
        (registered [3, 4]).magic.ChargedOnly r.env.magic 3 1 4 := by
  refine ⟨by decide, by decide, ?_⟩
  intro h
  obtain ⟨r, hr, honly⟩ := h
  obtain ⟨r', hr', hmagic⟩ := Cache.accessSingleLine_charges Memory.oneWay () firstLine
    (registered [3, 4]) (show (firstLine.way _ 3).isSome = true by decide)
    (show 3 % 4 + 1 ≤ 4 by decide) .load none true
  obtain rfl : r' = r := Except.ok.inj (hr'.symm.trans hr)
  have hnext : (registered [3, 4]).magic.Charged r'.env.magic 4 := by
    rw [hmagic]
    exact (MagicServer.charged_addAcc_iff (by decide)).mpr ⟨by decide, by decide⟩
  have := honly.touched 4 hnext
  omega

end Sniper
