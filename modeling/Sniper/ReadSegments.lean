import Sniper.Library.Segments
import Sniper.AccessCharge
import Sniper.Footprint

namespace Sniper
open Segments

/-- What `mem_component` is compared with. -/
inductive MemComponent where
  | l1Icache | l1Dcache | other
deriving DecidableEq, Repr

/-- The operations that change counters, and those that change the registry. -/
inductive CountOp where
  | addApprox (address set_number : ℕ)
  | delApprox (address : ℕ)
  | access (access_type : AccessType) (address cid : ℕ) (cachelvl : CacheName) (block_size : UInt32)
  | addCnt (arg0 arg1 : ℕ)
  | mulCnt (arg0 arg1 : ℕ)
  | core (mem_component : MemComponent) (mem_op_type : MemOp) (address offset data_length : ℕ)

namespace MagicServer

variable (m : MagicServer)

/-- The end of `MemoryManager::coreInitiateMemoryAccess`, with `mem_footprint/enable`. -/
def coreInitiateMemoryAccess (mem_component : MemComponent) (mem_op_type : MemOp)
    (address offset data_length : ℕ) : MagicServer :=
  if (mem_op_type = .read ∨ mem_op_type = .readEx) ∧ mem_component = .l1Dcache then
    m.commitRead (address + offset) data_length
  else m

def count : CountOp → MagicServer
  | .addApprox address set_number => (m.addApprox address set_number).1
  | .delApprox address => (m.delApprox address).1
  | .access .load address cid cachelvl block_size =>
    m.addReadAcc address cid cachelvl block_size.toNat
  | .access .store address cid cachelvl block_size =>
    m.addWriteAcc address cid cachelvl block_size.toNat
  | .addCnt arg0 arg1 => (m.addCnt arg0 arg1).1
  | .mulCnt arg0 arg1 => (m.mulCnt arg0 arg1).1
  | .core mem_component mem_op_type address offset data_length =>
    m.coreInitiateMemoryAccess mem_component mem_op_type address offset data_length

def countAll (ops : List CountOp) : MagicServer := ops.foldl count m

/-- What an operation is for the counters of the byte `a`: an amount added to one of them, the end
of a segment, or neither. -/
def event (a : ℕ) : CountOp → Option (Option (Counter × ℤ))
  | .access access_type address cid cachelvl block_size =>
    if m.Reached address block_size.toNat a then
      (access_type.counter cid cachelvl).map fun c => some (c, 1)
    else none
  | .addCnt arg0 arg1 => if arg0 = a then some (some (.approx_add_cnt, toInt arg1)) else none
  | .mulCnt arg0 arg1 => if arg0 = a then some (some (.approx_mul_cnt, toInt arg1)) else none
  | .core mem_component mem_op_type address offset data_length =>
    if ((mem_op_type = .read ∨ mem_op_type = .readEx) ∧ mem_component = .l1Dcache) ∧
        InRange (address + offset) data_length a then some none
    else none
  | .addApprox .. | .delApprox .. => none

/-- The events of a run, in their order. -/
def events (a : ℕ) : MagicServer → List CountOp → List (Option (Counter × ℤ))
  | _, [] => []
  | m, op :: ops => (m.event a op).toList ++ events a (m.count op) ops

end MagicServer

/-- The byte is one of those that the operation is about. -/
def CountOp.Touches (a : ℕ) : CountOp → Prop
  | .addApprox address _ | .delApprox address => address = a
  | .access _ address _ _ block_size => InRange address block_size.toNat a
  | .addCnt arg0 _ | .mulCnt arg0 _ => arg0 = a
  | .core _ _ address offset data_length => InRange (address + offset) data_length a

theorem Counter.read_ne_op (cid : ℕ) (cachelvl : CacheName) :
    Counter.read cid cachelvl ≠ some .approx_add_cnt ∧
      Counter.read cid cachelvl ≠ some .approx_mul_cnt := by
  unfold Counter.read
  split <;> exact ⟨by decide, by decide⟩

theorem Counter.write_ne_op (cid : ℕ) (cachelvl : CacheName) :
    Counter.write cid cachelvl ≠ some .approx_add_cnt ∧
      Counter.write cid cachelvl ≠ some .approx_mul_cnt := by
  unfold Counter.write
  split <;> exact ⟨by decide, by decide⟩

/-- The counts of the program itself, which `reset` does not clear. -/
def Counter.IsOp (c : Counter) : Prop := c = .approx_add_cnt ∨ c = .approx_mul_cnt

instance : DecidablePred Counter.IsOp := fun _ => inferInstanceAs (Decidable (_ ∨ _))

def AppVar.bank (v : AppVar) : Bank Counter ℤ := ⟨v.footprint, v.poten⟩

/-- A read is the end of a segment for every counter. -/
theorem AppVar.bank_commit (v : AppVar) :
    v.upsave.reset.bank = Bank.step asInt Counter.IsOp v.bank none := by
  have hpoten : v.upsave.reset.poten = fun c => if c.IsOp then v.poten c else 0 := by
    funext c
    cases c <;> rfl
  exact congrArg (Bank.mk _) hpoten

namespace MagicServer

variable {m : MagicServer} {a : ℕ}

theorem toNat_le_space (n : UInt32) : n.toNat ≤ 2 ^ 64 := by
  have := n.toNat_lt
  omega

theorem count_access (type : AccessType) (address cid : ℕ) (cachelvl : CacheName) (n : UInt32) :
    m.count (.access type address cid cachelvl n) =
      m.addAcc (fun v => v.incCnt type cid cachelvl) address n.toNat := by
  cases type <;> rfl

/-- One operation does to the counters of a byte what its event does to a bank of counters. -/
theorem bank_count {op : CountOp} (hop : op ≠ .delApprox a) {v : AppVar}
    (hv : m.approx_vars.find a = some v) :
    ∃ v', (m.count op).approx_vars.find a = some v' ∧
      v'.bank = (m.event a op).toList.foldl (Bank.step asInt Counter.IsOp) v.bank := by
  have hmem : a ∈ m.approx_vars.keys :=
    (SortedMap.find_isSome _).mp (Option.isSome_iff_exists.mpr ⟨v, hv⟩)
  cases op with
  | addApprox address s =>
    refine ⟨v, ?_, rfl⟩
    by_cases ha : address = a
    · subst ha
      simp only [count, addApprox_of_mem hmem, hv]
    · exact (find_addApprox_of_ne (Ne.symm ha) s).trans hv
  | delApprox address =>
    have ha : a ≠ address := fun h => hop (by rw [h])
    exact ⟨v, (find_delApprox_of_ne ha).trans hv, rfl⟩
  | access type address cid cachelvl n =>
    rw [count_access]
    by_cases hreach : m.Reached address n.toNat a
    · rw [find_addAcc_of_reached (toNat_le_space n) _ hreach, hv]
      refine ⟨_, rfl, ?_⟩
      simp only [event, if_pos hreach]
      cases hc : type.counter cid cachelvl with
      | none => exact congrArg AppVar.bank (AppVar.incCnt_of_none hc v)
      | some c => exact congrArg AppVar.bank (AppVar.incCnt_of_some hc v)
    · refine ⟨v, (find_addAcc_of_not_reached (toNat_le_space n) _ hreach).trans hv, ?_⟩
      simp only [event, if_neg hreach]
      rfl
  | addCnt arg0 arg1 =>
    refine ⟨_, (find_addCnt arg1).trans (by rw [hv]; rfl), ?_⟩
    by_cases ha : arg0 = a
    · simp only [event, if_pos ha, if_pos ha.symm]
      rfl
    · simp only [event, if_neg ha, if_neg (Ne.symm ha)]
      rfl
  | mulCnt arg0 arg1 =>
    refine ⟨_, (find_mulCnt arg1).trans (by rw [hv]; rfl), ?_⟩
    by_cases ha : arg0 = a
    · simp only [event, if_pos ha, if_pos ha.symm]
      rfl
    · simp only [event, if_neg ha, if_neg (Ne.symm ha)]
      rfl
  | core mem_component mem_op_type address offset n =>
    simp only [count, coreInitiateMemoryAccess, event]
    -- a core read commits the byte if it reaches it; other core operations count nothing
    by_cases hread : (mem_op_type = .read ∨ mem_op_type = .readEx) ∧ mem_component = .l1Dcache
    · rw [if_pos hread, find_commitRead, hv]
      refine ⟨_, rfl, ?_⟩
      by_cases hin : InRange (address + offset) n a
      · simp only [if_pos hin, if_pos (And.intro hread hin)]
        exact AppVar.bank_commit v
      · rw [if_neg fun h => hin h.2]
        exact congrArg AppVar.bank (if_neg hin)
    · rw [if_neg hread, if_neg fun h => hread h.1]
      exact ⟨v, hv, rfl⟩

/-- A run does to the counters of a byte that stays registered what its events do. -/
theorem bank_countAll (ops : List CountOp) : ∀ {m : MagicServer}, .delApprox a ∉ ops →
    ∀ {v : AppVar},
    m.approx_vars.find a = some v → ∃ v', (m.countAll ops).approx_vars.find a = some v' ∧
      v'.bank = (events a m ops).foldl (Bank.step asInt Counter.IsOp) v.bank := by
  induction ops with
  | nil => exact fun _ v hv => ⟨v, hv, rfl⟩
  | cons op ops ih =>
    intro m hdel v hv
    obtain ⟨hop, hops⟩ := not_or.mp (List.mem_cons.not.mp hdel)
    obtain ⟨v₁, hv₁, hbank₁⟩ := bank_count (Ne.symm hop) hv
    obtain ⟨v', hv', hbank⟩ := ih hops hv₁
    refine ⟨v', hv', ?_⟩
    rw [hbank, hbank₁, events, List.foldl_append]

/-- Accesses are not counted among the counts of the program. -/
theorem counter_not_isOp {type : AccessType} {cid : ℕ} {cachelvl : CacheName} {c : Counter}
    (h : type.counter cid cachelvl = some c) : ¬c.IsOp := by
  have hread := Counter.read_ne_op cid cachelvl
  have hwrite := Counter.write_ne_op cid cachelvl
  cases type with
  | load =>
    have hc : Counter.read cid cachelvl = some c := h
    rintro (rfl | rfl)
    · exact hread.1 hc
    · exact hread.2 hc
  | store =>
    have hc : Counter.write cid cachelvl = some c := h
    rintro (rfl | rfl)
    · exact hwrite.1 hc
    · exact hwrite.2 hc

/-- The events of a run are increments of a cache counter by one, or amounts that it was given. -/
theorem mem_events {ops : List CountOp} : ∀ {m : MagicServer} {c : Counter} {val : ℤ},
    some (c, val) ∈ events a m ops → ¬c.IsOp ∧ val = 1 ∨
      c = .approx_add_cnt ∧ (∃ arg1, .addCnt a arg1 ∈ ops ∧ val = toInt arg1) ∨
      c = .approx_mul_cnt ∧ ∃ arg1, .mulCnt a arg1 ∈ ops ∧ val = toInt arg1 := by
  induction ops with
  | nil => exact fun h => by cases h
  | cons op ops ih =>
    intro m c val h
    rcases List.mem_append.mp h with h | h
    · have hev : m.event a op = some (some (c, val)) := Option.mem_toList.mp h
      cases op with
      | addApprox address s => cases hev
      | delApprox address => cases hev
      | access type address cid cachelvl n =>
        simp only [event] at hev
        split at hev
        · obtain ⟨d, hd, hev⟩ := Option.map_eq_some_iff.mp hev
          cases hev
          exact .inl ⟨counter_not_isOp hd, rfl⟩
        · cases hev
      | addCnt arg0 arg1 =>
        simp only [event] at hev
        split at hev
        · rename_i ha
          cases hev
          exact .inr (.inl ⟨rfl, arg1, by simp [ha], rfl⟩)
        · cases hev
      | mulCnt arg0 arg1 =>
        simp only [event] at hev
        split at hev
        · rename_i ha
          cases hev
          exact .inr (.inr ⟨rfl, arg1, by simp [ha], rfl⟩)
        · cases hev
      | core mem_component mem_op_type address offset n =>
        simp only [event] at hev
        split at hev <;> cases hev
    · rcases ih h with h | ⟨hc, arg1, hmem, hval⟩ | ⟨hc, arg1, hmem, hval⟩
      · exact .inl h
      · exact .inr (.inl ⟨hc, arg1, List.mem_cons_of_mem _ hmem, hval⟩)
      · exact .inr (.inr ⟨hc, arg1, List.mem_cons_of_mem _ hmem, hval⟩)

/-- An operation on other bytes leaves the entry of a byte as it is. -/
theorem find_count_of_not_touches {op : CountOp} (h : ¬op.Touches a) :
    (m.count op).approx_vars.find a = m.approx_vars.find a := by
  cases op with
  | addApprox address s => exact find_addApprox_of_ne (fun ha => h ha.symm) s
  | delApprox address => exact find_delApprox_of_ne fun ha => h ha.symm
  | access type address cid cachelvl n =>
    rw [count_access]
    exact find_addAcc_of_not_reached (toNat_le_space n) _ fun hreach => h hreach.inRange
  | addCnt arg0 arg1 =>
    refine (find_addCnt arg1).trans ?_
    simp only [if_neg fun ha : a = arg0 => h ha.symm]
    exact congrFun Option.map_id_fun' _
  | mulCnt arg0 arg1 =>
    refine (find_mulCnt arg1).trans ?_
    simp only [if_neg fun ha : a = arg0 => h ha.symm]
    exact congrFun Option.map_id_fun' _
  | core mem_component mem_op_type address offset n =>
    simp only [count, coreInitiateMemoryAccess]
    split
    · rw [find_commitRead]
      simp only [if_neg (show ¬InRange (address + offset) n a from h)]
      exact congrFun Option.map_id_fun' _
    · rfl

end MagicServer

/-- The counters of a byte, by the segments of a run: the largest number of increments of a segment
and the number of those of the segment not ended; the sums of the amounts of all ended segments. -/
structure AppVar.OfSegments (v : AppVar) (events : List (Option (Counter × ℤ))) : Prop where
  saved : ∀ c, ¬c.IsOp → v.footprint c =
    ((ended events).map fun s => ((s.countP fun x => x.1 = c : ℕ) : ℤ)).foldl max 0
  poten : ∀ c, ¬c.IsOp → v.poten c = ((current events).countP fun x => x.1 = c : ℕ)
  sums : ∀ c, c.IsOp → v.footprint c = Bank.total c (ended events).flatten

/-- These numbers of increments, and these sums, are such that an `int` holds them. -/
structure FitsInt (events : List (Option (Counter × ℤ))) : Prop where
  saved : ∀ c : Counter, ¬c.IsOp → ∀ s ∈ ended events, (s.countP fun x => x.1 = c) < 2 ^ 31
  poten : ∀ c : Counter, ¬c.IsOp → ((current events).countP fun x => x.1 = c) < 2 ^ 31
  sums : ∀ c : Counter, c.IsOp → Bank.total c (ended events).flatten < 2 ^ 31

section bank

variable {v : AppVar} {events : List (Option (Counter × ℤ))} {c : Counter}

theorem asInt_natCast {n : ℕ} (h : n < 2 ^ 31) : asInt n = n := asInt_of_fits (by omega) (by omega)

theorem foldl_asInt_lt {α : Type} (f : α → ℤ) (l : List α) :
    (l.map fun s => asInt (f s)).foldl max 0 < 2 ^ 31 := by
  rw [Bank.foldl_max_lt_iff]
  refine ⟨by decide, fun x hx => ?_⟩
  obtain ⟨s, -, rfl⟩ := List.mem_map.mp hx
  exact asInt_lt _

/-- The counters of accesses, each increment by one. -/
theorem accesses_ofSegments_iff (hbank : v.bank = Bank.after asInt Counter.IsOp events)
    (hc : ¬c.IsOp) (hone : ∀ val, some (c, val) ∈ events → val = 1) :
    (v.footprint c =
        ((ended events).map fun s => ((s.countP fun x => x.1 = c : ℕ) : ℤ)).foldl max 0 ↔
      ∀ s ∈ ended events, (s.countP fun x => x.1 = c) < 2 ^ 31) ∧
    (v.poten c = ((current events).countP fun x => x.1 = c : ℕ) ↔
      ((current events).countP fun x => x.1 = c) < 2 ^ 31) := by
  obtain ⟨hpoten, hsaved⟩ := Bank.after_of_not_kept events rfl asInt_add hc
  rw [← hbank] at hpoten hsaved
  have htotal : ∀ s ∈ ended events, Bank.total c s = (s.countP fun x => x.1 = c : ℕ) :=
    fun s hs => Bank.total_eq_countP fun val hval => hone val (mem_ended hs hval)
  rw [Bank.total_eq_countP fun val hval => hone val (mem_current hval)] at hpoten
  refine ⟨⟨fun h s hs => ?_, fun h => ?_⟩, ⟨fun h => ?_, fun h => ?_⟩⟩
  · have hlt := foldl_asInt_lt (Bank.total c) (ended events)
    rw [← hsaved, show v.bank.saved c = v.footprint c from rfl, h, Bank.foldl_max_lt_iff] at hlt
    exact_mod_cast hlt.2 _ (List.mem_map_of_mem hs)
  · refine hsaved.trans (congrArg (List.foldl max 0) (List.map_congr_left fun s hs => ?_))
    rw [htotal s hs, asInt_natCast (h s hs)]
  · have hlt := asInt_lt ((current events).countP fun x => x.1 = c : ℕ)
    rw [← hpoten, show v.bank.poten c = v.poten c from rfl, h] at hlt
    exact_mod_cast hlt
  · exact hpoten.trans (asInt_natCast h)

/-- The counts of the program, each amount at least 0. -/
theorem amounts_ofSegments_iff (hbank : v.bank = Bank.after asInt Counter.IsOp events)
    (hc : c.IsOp) (hpos : ∀ val, some (c, val) ∈ events → 0 ≤ val) :
    v.footprint c = Bank.total c (ended events).flatten ↔
      Bank.total c (ended events).flatten < 2 ^ 31 := by
  obtain ⟨-, hsaved⟩ := Bank.after_of_kept events rfl asInt_add hc
  rw [← hbank] at hsaved
  have hflat : ∀ val, (c, val) ∈ (ended events).flatten → 0 ≤ val :=
    fun val hval => hpos val (mem_flatten_ended hval)
  constructor
  · intro h
    have hlt := foldl_asInt_lt (Bank.total c) (before events)
    rwa [← hsaved, show v.bank.saved c = v.footprint c from rfl, h] at hlt
  · intro h
    rw [← Bank.foldl_max_before hpos]
    refine hsaved.trans (congrArg (List.foldl max 0) (List.map_congr_left fun s hs => ?_))
    have hpre := prefix_of_mem_before hs
    have hle := Bank.total_le_of_prefix hpre hflat
    have hnonneg : 0 ≤ Bank.total c s :=
      Bank.total_nonneg fun val hval => hflat val (hpre.subset hval)
    exact asInt_of_fits (by omega) (by omega)

theorem ofSegments_iff (hbank : v.bank = Bank.after asInt Counter.IsOp events)
    (hone : ∀ c, ¬c.IsOp → ∀ val, some (c, val) ∈ events → val = 1)
    (hpos : ∀ c, c.IsOp → ∀ val, some (c, val) ∈ events → 0 ≤ val) :
    v.OfSegments events ↔ FitsInt events := by
  have haccesses := fun c (hc : ¬c.IsOp) => accesses_ofSegments_iff hbank hc (hone c hc)
  have hamounts := fun c (hc : c.IsOp) => amounts_ofSegments_iff hbank hc (hpos c hc)
  constructor
  · intro h
    exact ⟨fun c hc => (haccesses c hc).1.mp (h.saved c hc),
      fun c hc => (haccesses c hc).2.mp (h.poten c hc), fun c hc =>
        (hamounts c hc).mp (h.sums c hc)⟩
  · intro h
    exact ⟨fun c hc => (haccesses c hc).1.mpr (h.saved c hc),
      fun c hc => (haccesses c hc).2.mpr (h.poten c hc), fun c hc =>
        (hamounts c hc).mpr (h.sums c hc)⟩

end bank

/-- The segments of a run say what the counters of a byte are that stays registered. -/
theorem MagicServer.countAll_ofSegments_iff (m : MagicServer) (a : ℕ) (ops : List CountOp)
    (hstart : m.approx_vars.find a = some .create) (hdel : .delApprox a ∉ ops)
    (hadd : ∀ arg1, .addCnt a arg1 ∈ ops → 0 ≤ toInt arg1)
    (hmul : ∀ arg1, .mulCnt a arg1 ∈ ops → 0 ≤ toInt arg1) :
    (∃ v, (m.countAll ops).approx_vars.find a = some v ∧ v.OfSegments (m.events a ops)) ↔
      FitsInt (m.events a ops) := by
  obtain ⟨v, hv, hbank⟩ := MagicServer.bank_countAll ops hdel hstart
  have hone : ∀ c, ¬c.IsOp → ∀ val, some (c, val) ∈ m.events a ops → val = 1 := by
    intro c hc val hmem
    rcases MagicServer.mem_events hmem with h | ⟨h, -⟩ | ⟨h, -⟩
    · exact h.2
    · exact (hc (.inl h)).elim
    · exact (hc (.inr h)).elim
  have hpos : ∀ c, c.IsOp → ∀ val, some (c, val) ∈ m.events a ops → 0 ≤ val := by
    intro c hc val hmem
    rcases MagicServer.mem_events hmem with h | ⟨-, arg1, hop, hval⟩ | ⟨-, arg1, hop, hval⟩
    · exact absurd hc h.1
    · rw [hval]
      exact hadd arg1 hop
    · rw [hval]
      exact hmul arg1 hop
  rw [← ofSegments_iff (v := v) hbank hone hpos, hv]
  simp only [Option.some.injEq, exists_eq_left']

/-- The counters of a byte that stays registered are those of the segments that the reads of the
byte end exactly when an `int` holds them, and no operation on other bytes changes them. -/
theorem counters_ofSegments_iff (m : MagicServer) (a : ℕ) (ops : List CountOp)
    (hstart : m.approx_vars.find a = some .create) (hdel : .delApprox a ∉ ops)
    (hadd : ∀ arg1, .addCnt a arg1 ∈ ops → 0 ≤ toInt arg1)
    (hmul : ∀ arg1, .mulCnt a arg1 ∈ ops → 0 ≤ toInt arg1) :
    ((∃ v, (m.countAll ops).approx_vars.find a = some v ∧ v.OfSegments (m.events a ops)) ↔
      FitsInt (m.events a ops)) ∧
    ∀ (m : MagicServer) (op : CountOp), ¬op.Touches a →
      (m.count op).approx_vars.find a = m.approx_vars.find a :=
  ⟨m.countAll_ofSegments_iff a ops hstart hdel hadd hmul,
    fun _ _ h => MagicServer.find_count_of_not_touches h⟩

/-- Three loads and an addition of five, with a read of the byte before the last load. -/
def readOnce : List CountOp :=
  [.access .load 64 0 .l1d 1, .access .load 64 0 .l1d 1, .addCnt 64 5,
    .core .l1Dcache .read 60 2 4, .access .load 64 0 .l1d 1]

theorem counters_ofSegments_iff_readOnce :
    ∃ v, ((MagicServer.init.addApprox 64 0).1.countAll readOnce).approx_vars.find 64 = some v ∧
      v.footprint .L1_read_cnt = 2 ∧ v.poten .L1_read_cnt = 1 ∧
        v.footprint .approx_add_cnt = 5 := by
  have hadd : ∀ arg1, .addCnt 64 arg1 ∈ readOnce → 0 ≤ toInt arg1 := by
    intro arg1 h
    obtain rfl : arg1 = 5 := by simpa [readOnce] using h
    decide
  have hfits : FitsInt ((MagicServer.init.addApprox 64 0).1.events 64 readOnce) :=
    ⟨fun c _ => by cases c <;> decide, fun c _ => by cases c <;> decide,
      fun c _ => by cases c <;> decide⟩
  obtain ⟨v, hv, h⟩ := (counters_ofSegments_iff (MagicServer.init.addApprox 64 0).1 64 readOnce
    (MagicServer.find_addApprox_self (by decide) 0) (by simp [readOnce]) hadd
    (by simp [readOnce])).1.mpr hfits
  exact ⟨v, hv, (h.saved _ (by decide)).trans (by decide),
    (h.poten _ (by decide)).trans (by decide),
    (h.sums _ (by decide)).trans (by decide)⟩

/-- Two additions of which an `int` does not hold the sum, and a read of the byte. -/
def readOverflow : List CountOp :=
  [.addCnt 64 (2 ^ 31 - 1), .addCnt 64 1, .core .l1Dcache .read 64 0 1]

/-- The sum wraps, and the read saves 0. -/
theorem counters_wrap : (∀ arg1, .addCnt 64 arg1 ∈ readOverflow → 0 ≤ toInt arg1) ∧
    (∀ arg1, .mulCnt 64 arg1 ∈ readOverflow → 0 ≤ toInt arg1) ∧
    ¬∃ v, ((MagicServer.init.addApprox 64 0).1.countAll readOverflow).approx_vars.find 64 = some v ∧
      v.OfSegments ((MagicServer.init.addApprox 64 0).1.events 64 readOverflow) := by
  have hadd : ∀ arg1, .addCnt 64 arg1 ∈ readOverflow → 0 ≤ toInt arg1 := by
    intro arg1 h
    obtain rfl | rfl : arg1 = 2 ^ 31 - 1 ∨ arg1 = 1 := by simpa [readOverflow] using h
    · decide
    · decide
  have hmul : ∀ arg1, .mulCnt 64 arg1 ∈ readOverflow → 0 ≤ toInt arg1 := by simp [readOverflow]
  refine ⟨hadd, hmul, ?_⟩
  rw [MagicServer.countAll_ofSegments_iff _ 64 readOverflow
    (MagicServer.find_addApprox_self (by decide) 0) (by simp [readOverflow]) hadd hmul]
  intro h
  have hsum := h.sums .approx_add_cnt (by decide)
  revert hsum
  decide

end Sniper
