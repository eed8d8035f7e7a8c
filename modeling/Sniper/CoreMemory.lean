import Sniper.LineSplit
import Sniper.Transparent

namespace Sniper
open Outcome AlignedBlocks WhileLoop

/-- The bytes of the host, in which the buffers of the accesses are. -/
abbrev HostMemory := ℕ → Byte

/-- How far the calls of an access have come: all have returned, one waits for the directory, or an
assertion has failed. -/
inductive Progress (σ : Type) where
  | running (s : State σ) (host : HostMemory)
  | waiting (s : State σ)
  | stopped (e : Abort)

/-- The arguments of `Core::initiateMemoryAccess`; `count` is false for `MEM_MODELED_NONE` only. -/
structure CoreAccess extends MemoryAccess where
  cntlr : CntlrId
  lock_signal : LockSignal
  mem_op_type : MemOp
  count : Bool

namespace CoreAccess

variable {σ : Type} (K : Config σ) (where_t : HitWhere → ℕ) (A : CoreAccess)

/-- The arguments of the call for one line; the data are where the pointer points to. -/
def call (host : HostMemory) (p : LineAccess) : MemAccess where
  cntlr := A.cntlr
  lock_signal := A.lock_signal
  op := A.mem_op_type
  ca_address := p.curr_addr_aligned
  offset := p.curr_offset
  data_buf := p.data_buf.map fun curr_data_buffer_head i => host (curr_data_buffer_head + i)
  data_length := p.curr_size
  count := A.count

/-- The host's bytes once the call has left `data_buf` in its buffer. -/
def fill (host : HostMemory) (p : LineAccess) (data_buf : Option (ℕ → Byte)) : HostMemory :=
  match p.data_buf, data_buf with
  | some curr_data_buffer_head, some buf =>
    Buffer.copy host curr_data_buffer_head buf 0 p.curr_size
  | _, _ => host

/-- `MemoryManager::coreInitiateMemoryAccess`, without the TLBs and the memory footprint. `where_t`
numbers the places where a call can hit. -/
def coreInitiateMemoryAccess (P : Progress σ) (p : LineAccess) : Progress σ × ℕ :=
  match P with
  | .running s host =>
    match CacheCntlr.processMemOpFromCore K s (A.call host p) with
    | .ok (s', .returned buf hit_where) => (.running s' (fill host p buf), where_t hit_where)
    | .ok (s', .waiting) => (.waiting s', A.UNKNOWN)
    | .error e => (.stopped e, A.UNKNOWN)
  | _ => (P, A.UNKNOWN)

/-- `Core::initiateMemoryAccess` ends, in `P'`. -/
def Ends (P P' : Progress σ) : Prop :=
  if A.data_size = 0 then P' = P
  else ∃ s, A.LoopEnds (A.coreInitiateMemoryAccess K where_t) P s ∧ P' = s.mem

/-- What `n` bytes of the access from `addr` on do, which are at `covered` in its buffer: they are
copied between a flat byte array and the host. -/
def copied (addr covered n : ℕ) (M : FlatMemory × HostMemory) : FlatMemory × HostMemory :=
  match A.data_buf with
  | none => M
  | some buf =>
    if A.mem_op_type = .write then (Buffer.copy M.1 addr M.2 (buf + covered) n, M.2)
    else (M.1, Buffer.copy M.2 (buf + covered) M.1 addr n)

/-- An access of a core that no assertion stops, not at the end of the address space. -/
structure Sound : Prop where
  cntlr : K.Cntlr A.cntlr
  first_level : A.cntlr.level = 0
  block_size : A.cache_block_size = K.blocksize
  lock : A.lock_signal ≠ .unlock
  fits : A.data_size ≠ 0 → A.Fits
  bound : A.address + A.data_size + A.cache_block_size < 2 ^ 64

variable {K where_t A} {M : FlatMemory × HostMemory} {addr covered n k : ℕ}

theorem copied_zero : A.copied addr covered 0 M = M := by
  unfold copied
  split
  · rfl
  · split <;> rw [Buffer.copy_zero]

theorem copied_append : A.copied (addr + n) (covered + n) k (A.copied addr covered n M) =
    A.copied addr covered (n + k) M := by
  unfold copied
  cases A.data_buf with
  | none => rfl
  | some buf =>
    simp only
    split
    · rw [← Nat.add_assoc, Buffer.copy_append]
    · rw [← Nat.add_assoc, Buffer.copy_append]

/-- The call for one line does what a flat array would with its bytes. -/
theorem call_copied {p : LineAccess} (hp : p.data_buf = A.data_buf.map (· + covered))
    (haddr : p.curr_addr_aligned + p.curr_offset = addr) (mem : FlatMemory) (host : HostMemory) :
    (mem.step (A.call host p), fill host p (mem.answer (A.call host p))) =
      A.copied addr covered p.curr_size (mem, host) := by
  unfold copied FlatMemory.step FlatMemory.answer fill call
  rw [hp]
  cases A.data_buf with
  | none =>
    simp only [Option.map_none]
    split <;> rfl
  | some buf =>
    simp only [Option.map_some]
    split
    · refine Prod.ext ?_ ?_
      · rw [haddr]
        rfl
      · exact Buffer.copy_self host (buf + covered) p.curr_size
    · refine Prod.ext rfl ?_
      rw [haddr]
      funext x
      change Buffer.copy host (buf + covered) (mem.read addr p.curr_size _) 0 p.curr_size x =
        Buffer.copy host (buf + covered) mem addr p.curr_size x
      unfold Buffer.copy FlatMemory.read
      split
      · rw [if_pos (by omega), Nat.zero_add]
      · rfl

/-- In a state that stands for a flat array, a call for a line within the first-level cache's line
returns what the array has. -/
def Serves (K : Config σ) (R : State σ → FlatMemory → Prop) : Prop :=
  ∀ s mem a, R s mem → K.Cntlr a.cntlr → a.cntlr.level = 0 → a.Proper K → ∃ s' hit_where,
    CacheCntlr.processMemOpFromCore K s a = .ok (s', .returned (mem.answer a) hit_where) ∧
      R s' (mem.step a)

variable {R : State σ → FlatMemory → Prop} {s : State σ}

/-- The calls for the pieces of an access, one after the other. -/
theorem Sound.pieces (hR : Serves K R) (h : A.Sound K) {stop : ℕ} {pieces : List LineAccess}
    (ht : A.Tiles addr stop covered pieces) (hs : R s M.1) :
    addr ≤ stop ∧ ∃ s', pieces.foldl (fun P p => (A.coreInitiateMemoryAccess K where_t P p).1)
        (.running s M.2) = .running s' (A.copied addr covered (stop - addr) M).2 ∧
      R s' (A.copied addr covered (stop - addr) M).1 := by
  induction pieces generalizing addr covered s M with
  | nil =>
    obtain rfl : addr = stop := ht
    rw [Nat.sub_self, copied_zero]
    exact ⟨le_rfl, s, rfl, hs⟩
  | cons p rest ih =>
    obtain ⟨haddr, hline, hpos, hwithin, hbuf, hrest⟩ := ht
    have hproper : (A.call M.2 p).Proper K := by
      rw [h.block_size] at hline hwithin
      refine ⟨Nat.mod_eq_zero_of_dvd hline, hwithin, h.lock, fun _ _ => ?_⟩
      change p.curr_offset < K.blocksize
      omega
    obtain ⟨s₁, hit_where, hcall, hs₁⟩ :=
      hR s M.1 (A.call M.2 p) hs h.cntlr h.first_level hproper
    have hcopied := call_copied hbuf haddr M.1 M.2
    have hstep : (A.coreInitiateMemoryAccess K where_t (.running s M.2) p).1 =
        .running s₁ (A.copied addr covered p.curr_size M).2 := by
      unfold coreInitiateMemoryAccess
      simp only [hcall]
      exact congrArg (fun M' => Progress.running s₁ (Prod.snd M')) hcopied
    rw [show M.1.step (A.call M.2 p) = _ from congrArg Prod.fst hcopied] at hs₁
    obtain ⟨hle, s', hfold, hs'⟩ := ih hrest hs₁
    have hsize : p.curr_size + (stop - (addr + p.curr_size)) = stop - addr := by omega
    rw [copied_append, hsize] at hfold hs'
    refine ⟨by omega, s', ?_, hs'⟩
    rw [List.foldl_cons, hstep]
    exact hfold

end CoreAccess

/-- Ten bytes over the end of a line, written from the host's bytes from 1000 on, or read to those
from 2000 on. -/
def CoreAccess.twoLines (mem_op_type : MemOp) : CoreAccess where
  toMemoryAccess := { MemoryAccess.twoLines with
    data_buf := some (if mem_op_type = .write then 1000 else 2000) }
  cntlr := l1d
  lock_signal := .none
  mem_op_type := mem_op_type
  count := true

end Sniper
