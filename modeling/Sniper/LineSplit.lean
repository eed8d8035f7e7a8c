import Sniper.CoreAccess
import Sniper.Library.AlignedBlocks
import Sniper.Library.WhileLoop

namespace Sniper
open AlignedBlocks WhileLoop

/-- The arguments in which the calls of `coreInitiateMemoryAccess` differ. -/
structure LineAccess where
  curr_addr_aligned : ℕ
  curr_offset : ℕ
  data_buf : Option ℕ
  curr_size : ℕ
deriving DecidableEq

/-- An access of a core; the buffer is `none` for NULL. `UNKNOWN` is `HitWhere::UNKNOWN`. -/
structure MemoryAccess where
  address : ℕ
  data_buf : Option ℕ
  data_size : ℕ
  cache_block_size : ℕ
  UNKNOWN : ℕ

/-- The loop over the lines: its variables, and the memory that the calls work on. -/
structure LineLoop (σ : Type) where
  curr_addr_aligned : ℕ
  curr_data_buffer_head : ℕ
  hit_where : ℕ
  mem : σ

namespace MemoryAccess

variable (A : MemoryAccess)

def end_addr : ℕ := (A.address + A.data_size) % 2 ^ 64

def begin_addr_aligned : ℕ := A.address - A.address % A.cache_block_size

def end_addr_aligned : ℕ := A.end_addr - A.end_addr % A.cache_block_size

def curr_offset (curr_addr_aligned : ℕ) : ℕ :=
  if curr_addr_aligned = A.begin_addr_aligned then A.address % A.cache_block_size % 2 ^ 32 else 0

/-- Differences of 32 bits. -/
def curr_size (curr_addr_aligned : ℕ) : ℕ :=
  if curr_addr_aligned = A.end_addr_aligned then
    (A.end_addr % A.cache_block_size + 2 ^ 32 - A.curr_offset curr_addr_aligned) % 2 ^ 32
  else (A.cache_block_size + 2 ^ 32 - A.curr_offset curr_addr_aligned) % 2 ^ 32

variable {σ : Type} (coreInitiateMemoryAccess : σ → LineAccess → σ × ℕ)

/-- A turn of the loop of `Core::initiateMemoryAccess`. -/
def turn (s : LineLoop σ) : LineLoop σ :=
  let curr := s.curr_addr_aligned
  let next := (curr + A.cache_block_size) % 2 ^ 64
  if curr = A.end_addr_aligned ∧ A.curr_size curr = 0 then { s with curr_addr_aligned := next }
  else
    let (mem, this_hit_where) := coreInitiateMemoryAccess s.mem
      ⟨curr, A.curr_offset curr, A.data_buf.map fun _ => s.curr_data_buffer_head, A.curr_size curr⟩
    { curr_addr_aligned := next
      curr_data_buffer_head := s.curr_data_buffer_head + A.curr_size curr
      hit_where :=
        if s.hit_where = A.UNKNOWN ∨ (this_hit_where ≠ A.UNKNOWN ∧
          this_hit_where > s.hit_where) then
          this_hit_where
        else s.hit_where
      mem := mem }

def start (mem : σ) : LineLoop σ := ⟨A.begin_addr_aligned, A.data_buf.getD 0, A.UNKNOWN, mem⟩

/-- The loop comes to an end in state `s`. -/
def LoopEnds (mem : σ) (s : LineLoop σ) : Prop :=
  Ends (fun s => s.curr_addr_aligned ≤ A.end_addr_aligned) (A.turn coreInitiateMemoryAccess)
    (A.start mem) s

/-- The pieces cover the bytes from `addr` to before `stop`, one after the other, each within a line
of its own, and come with the buffer from its byte `covered` on. -/
def Tiles (addr stop covered : ℕ) : List LineAccess → Prop
  | [] => addr = stop
  | p :: rest => p.curr_addr_aligned + p.curr_offset = addr ∧
      A.cache_block_size ∣ p.curr_addr_aligned ∧ 0 < p.curr_size ∧
      p.curr_offset + p.curr_size ≤ A.cache_block_size ∧ p.data_buf = A.data_buf.map (· + covered) ∧
        Tiles (addr + p.curr_size) stop (covered + p.curr_size) rest

/-- The loop ends after it has passed on the pieces of an exact partition, one for each line that
the access touches. -/
def SplitsExactly (mem : σ) : Prop :=
  ∃ pieces s, A.LoopEnds coreInitiateMemoryAccess mem s ∧
    s.mem = pieces.foldl (fun m p => (coreInitiateMemoryAccess m p).1) mem ∧
    A.Tiles A.address (A.address + A.data_size) 0 pieces ∧
      pieces.length = (touched A.cache_block_size A.address (A.address + A.data_size)).card

/-- The block size is a power of two in 32 bits, and the access with the line behind it lies in the
address space. -/
structure Fits : Prop where
  pow : ∃ b < 32, A.cache_block_size = 2 ^ b
  size : 1 ≤ A.data_size
  bound : A.address + A.data_size + A.cache_block_size ≤ 2 ^ 64

variable {A} {coreInitiateMemoryAccess} {t : ℕ}

theorem Fits.block_pos (h : A.Fits) : 0 < A.cache_block_size := by
  obtain ⟨b, -, hB⟩ := h.pow
  rw [hB]
  positivity

theorem Fits.block_lt (h : A.Fits) : A.cache_block_size < 2 ^ 32 := by
  obtain ⟨b, hb, hB⟩ := h.pow
  rw [hB]
  exact Nat.pow_lt_pow_right (by decide) hb

theorem Fits.block_dvd (h : A.Fits) : A.cache_block_size ∣ 2 ^ 64 := by
  obtain ⟨b, hb, hB⟩ := h.pow
  rw [hB]
  exact pow_dvd_pow 2 (by omega)

theorem Fits.lt_end (h : A.Fits) : A.address < A.address + A.data_size := by
  have hsize := h.size
  omega

theorem Fits.end_addr (h : A.Fits) : A.end_addr = A.address + A.data_size := by
  have hpos := h.block_pos
  have hbound := h.bound
  exact Nat.mod_eq_of_lt (by omega)

theorem begin_aligned : A.begin_addr_aligned =
    A.address / A.cache_block_size * A.cache_block_size :=
  Nat.div_mul_self_eq_mod_sub_self.symm

theorem Fits.end_aligned (h : A.Fits) : A.end_addr_aligned =
    (A.address + A.data_size) / A.cache_block_size * A.cache_block_size := by
  rw [Nat.div_mul_self_eq_mod_sub_self, ← h.end_addr]
  rfl

/-- Where the part of the access in the lines from line `t` on starts. -/
abbrev lineStart (A : MemoryAccess) (t : ℕ) : ℕ :=
  cut A.cache_block_size A.address (A.address + A.data_size) t

theorem Fits.offset (h : A.Fits) (hfirst : A.address / A.cache_block_size ≤ t)
    (hlast : t * A.cache_block_size ≤ A.address + A.data_size) :
    A.curr_offset (t * A.cache_block_size) = A.lineStart t - t * A.cache_block_size := by
  have hpos := h.block_pos
  unfold curr_offset
  rw [begin_aligned]
  by_cases ht : t = A.address / A.cache_block_size
  · have hmod : A.address % A.cache_block_size < 2 ^ 32 := (Nat.mod_lt _ hpos).trans h.block_lt
    have hdiv := Nat.div_add_mod' A.address A.cache_block_size
    rw [if_pos (by rw [ht]), Nat.mod_eq_of_lt hmod, lineStart, ht, cut_first (Nat.le_add_right _ _)]
    omega
  · have hne : t * A.cache_block_size ≠ A.address / A.cache_block_size * A.cache_block_size :=
      fun heq => ht (Nat.eq_of_mul_eq_mul_right hpos heq)
    rw [if_neg hne, lineStart, cut_of_lt hpos (by omega) hlast, Nat.sub_self]

theorem Fits.size_eq (h : A.Fits) (hfirst : A.address / A.cache_block_size ≤ t)
    (hlast : t * A.cache_block_size ≤ A.address + A.data_size) :
    A.curr_size (t * A.cache_block_size) = A.lineStart (t + 1) - A.lineStart t := by
  have hpos := h.block_pos
  have hlt := h.block_lt
  have hsucc : (t + 1) * A.cache_block_size = t * A.cache_block_size + A.cache_block_size := by ring
  have hcut : t * A.cache_block_size ≤ A.lineStart t := mul_le_cut hlast
  have hmono : A.lineStart t ≤ A.lineStart (t + 1) := cut_mono
  unfold curr_size
  rw [h.offset hfirst hlast, h.end_aligned, h.end_addr]
  by_cases ht : t = (A.address + A.data_size) / A.cache_block_size
  · have hdiv := Nat.div_add_mod' (A.address + A.data_size) A.cache_block_size
    have hmod := Nat.mod_lt (A.address + A.data_size) hpos
    rw [← ht] at hdiv
    have hend : A.lineStart (t + 1) = A.address + A.data_size := cut_of_le (by omega)
    rw [if_pos (by rw [ht])]
    rw [hend] at hmono ⊢
    omega
  · have hle : (t + 1) * A.cache_block_size ≤ A.address + A.data_size := by
      have htle : t ≤ (A.address + A.data_size) / A.cache_block_size :=
        (Nat.le_div_iff_mul_le hpos).mpr hlast
      exact (Nat.le_div_iff_mul_le hpos).mp (by omega)
    have hne : t * A.cache_block_size ≠
        (A.address + A.data_size) / A.cache_block_size * A.cache_block_size :=
      fun heq => ht (Nat.eq_of_mul_eq_mul_right hpos heq)
    have hend : A.lineStart (t + 1) = (t + 1) * A.cache_block_size :=
      cut_of_lt hpos (by omega) hle
    rw [if_neg hne]
    rw [hend] at hmono ⊢
    omega

/-- The piece of line `t`. -/
def piece (A : MemoryAccess) (t head : ℕ) : LineAccess :=
  ⟨t * A.cache_block_size, A.lineStart t - t * A.cache_block_size, A.data_buf.map fun _ => head,
    A.lineStart (t + 1) - A.lineStart t⟩

variable (coreInitiateMemoryAccess) in
/-- The turns of the loop, in terms of lines. -/
theorem Fits.turn_eq (h : A.Fits) {s : LineLoop σ}
    (hs : s.curr_addr_aligned = t * A.cache_block_size)
    (hfirst : A.address / A.cache_block_size ≤ t)
    (hlast : t * A.cache_block_size ≤ A.address + A.data_size) :
    (A.turn coreInitiateMemoryAccess s).curr_addr_aligned =
        (t * A.cache_block_size + A.cache_block_size) % 2 ^ 64 ∧
      (A.turn coreInitiateMemoryAccess s).curr_data_buffer_head =
        s.curr_data_buffer_head + (A.lineStart (t + 1) - A.lineStart t) ∧
      (A.turn coreInitiateMemoryAccess s).mem =
        if A.lineStart t = A.address + A.data_size then s.mem
        else (coreInitiateMemoryAccess s.mem (A.piece t s.curr_data_buffer_head)).1 := by
  have hsize := h.size_eq hfirst hlast
  have hoffset := h.offset hfirst hlast
  have hmono : A.lineStart t ≤ A.lineStart (t + 1) := cut_mono
  have hend : A.lineStart (t + 1) ≤ A.address + A.data_size := cut_le
  unfold turn
  rw [hs]
  by_cases hskip : A.lineStart t = A.address + A.data_size
  -- nothing of the access is left: this is the line of its end, at the end of which the access ends
  · have hzero : A.curr_size (t * A.cache_block_size) = 0 := by omega
    have hline : t * A.cache_block_size = A.end_addr_aligned := by
      have hle := (cut_eq_end h.lt_end).mp hskip
      rw [h.end_aligned, ← hlast.antisymm hle, Nat.mul_div_cancel _ h.block_pos]
    rw [if_pos ⟨hline, hzero⟩, if_pos hskip]
    refine ⟨rfl, ?_, rfl⟩
    change s.curr_data_buffer_head = _
    omega
  · have hpiece : ¬(t * A.cache_block_size = A.end_addr_aligned ∧
        A.curr_size (t * A.cache_block_size) = 0) := by
      have hlt : A.lineStart t < A.lineStart (t + 1) :=
        cut_lt_succ h.block_pos hfirst (cut_le.lt_of_ne hskip)
      omega
    rw [if_neg hpiece, if_neg hskip, hsize, hoffset]
    exact ⟨rfl, rfl, rfl⟩

/-- A piece before those of the lines behind it. -/
theorem Fits.tiles_piece (h : A.Fits) (hfirst : A.address / A.cache_block_size ≤ t)
    (hlast : t * A.cache_block_size ≤ A.address + A.data_size)
    (hrest : A.lineStart t < A.address + A.data_size) {pieces : List LineAccess}
    (htiles : A.Tiles (A.lineStart (t + 1)) (A.address + A.data_size)
      (A.lineStart (t + 1) - A.address) pieces) :
    A.Tiles (A.lineStart t) (A.address + A.data_size) (A.lineStart t - A.address)
      (A.piece t (A.data_buf.getD 0 + (A.lineStart t - A.address)) :: pieces) := by
  have hpos := h.block_pos
  have hle : A.address ≤ A.lineStart t := le_cut h.lt_end.le
  have hmono : A.lineStart t ≤ A.lineStart (t + 1) := cut_mono
  have hstart : t * A.cache_block_size ≤ A.lineStart t := mul_le_cut hlast
  have hstop : A.lineStart (t + 1) ≤ (t + 1) * A.cache_block_size := cut_succ_le hpos hfirst
  have hpiece : A.lineStart t < A.lineStart (t + 1) := cut_lt_succ hpos hfirst hrest
  have hsucc : (t + 1) * A.cache_block_size = t * A.cache_block_size + A.cache_block_size := by
    ring
  refine ⟨?_, Nat.dvd_mul_left _ _, ?_, ?_, ?_, ?_⟩
  · change t * A.cache_block_size + (A.lineStart t - t * A.cache_block_size) = A.lineStart t
    omega
  · change 0 < A.lineStart (t + 1) - A.lineStart t
    omega
  · change A.lineStart t - t * A.cache_block_size + (A.lineStart (t + 1) - A.lineStart t) ≤ _
    omega
  · unfold piece
    cases A.data_buf <;> rfl
  · change A.Tiles (A.lineStart t + (A.lineStart (t + 1) - A.lineStart t)) _
      (A.lineStart t - A.address + (A.lineStart (t + 1) - A.lineStart t)) pieces
    rw [Nat.add_sub_cancel' hmono, show A.lineStart t - A.address +
      (A.lineStart (t + 1) - A.lineStart t) = A.lineStart (t + 1) - A.address by omega]
    exact htiles

variable (coreInitiateMemoryAccess) in
/-- The loop from line `t` on: by the number of lines up to the one of the end of the access. -/
theorem Fits.ends_from (h : A.Fits)
    (hlt : A.address + A.data_size + A.cache_block_size < 2 ^ 64) :
    ∀ k t (s : LineLoop σ), t + k = (A.address + A.data_size) / A.cache_block_size + 1 →
      A.address / A.cache_block_size ≤ t → s.curr_addr_aligned = t * A.cache_block_size →
      s.curr_data_buffer_head = A.data_buf.getD 0 + (A.lineStart t - A.address) →
      ∃ pieces s', Ends (fun s => s.curr_addr_aligned ≤ A.end_addr_aligned)
          (A.turn coreInitiateMemoryAccess) s s' ∧
        s'.mem = pieces.foldl (fun m p => (coreInitiateMemoryAccess m p).1) s.mem ∧
        A.Tiles (A.lineStart t) (A.address + A.data_size) (A.lineStart t - A.address) pieces ∧
        pieces.length = (A.address + A.data_size - 1) / A.cache_block_size + 1 - t := by
  have hpos := h.block_pos
  intro k
  induction k with
  | zero =>
    intro t s ht _ hs _
    have hend : (A.address + A.data_size) / A.cache_block_size < t := by omega
    have hpast : A.address + A.data_size < t * A.cache_block_size :=
      (Nat.div_lt_iff_lt_mul hpos).mp hend
    have hlines : (A.address + A.data_size - 1) / A.cache_block_size < t :=
      (Nat.div_lt_iff_lt_mul hpos).mpr (by omega)
    refine ⟨[], s, .stop ?_, rfl, cut_of_le hpast.le, ?_⟩
    · apply decide_eq_false
      rw [hs, h.end_aligned]
      exact not_le.mpr (Nat.mul_lt_mul_of_pos_right hend hpos)
    · rw [List.length_nil]
      omega
  | succ k ih =>
    intro t s ht hfirst hs hhead
    have htle : t ≤ (A.address + A.data_size) / A.cache_block_size := by omega
    have hlast : t * A.cache_block_size ≤ A.address + A.data_size :=
      (Nat.le_div_iff_mul_le hpos).mp htle
    have hsucc : (t + 1) * A.cache_block_size = t * A.cache_block_size + A.cache_block_size := by
      ring
    have hle : A.address ≤ A.lineStart t := le_cut h.lt_end.le
    have hmono : A.lineStart t ≤ A.lineStart (t + 1) := cut_mono
    obtain ⟨hcurr, hhead', hmem⟩ := h.turn_eq coreInitiateMemoryAccess hs hfirst hlast
    rw [Nat.mod_eq_of_lt (by omega), ← hsucc] at hcurr
    have hcond : decide (s.curr_addr_aligned ≤ A.end_addr_aligned) = true := by
      apply decide_eq_true
      rw [hs, h.end_aligned]
      exact Nat.mul_le_mul_right _ htle
    obtain ⟨pieces, s', hends, hfold, htiles, hlen⟩ := ih (t + 1) _ (by omega) (by omega) hcurr
      (by omega)
    by_cases hskip : A.lineStart t = A.address + A.data_size
    · have hnext : A.lineStart (t + 1) = A.lineStart t := (cut_le.trans hskip.ge).antisymm hmono
      have hlines : (A.address + A.data_size - 1) / A.cache_block_size < t := by
        have hend := (cut_eq_end h.lt_end).mp hskip
        exact (Nat.div_lt_iff_lt_mul hpos).mpr (by have := h.size; omega)
      rw [if_pos hskip] at hmem
      rw [hmem] at hfold
      rw [hnext] at htiles
      exact ⟨pieces, s', hends.turn hcond, hfold, htiles, by omega⟩
    · have hrest : A.lineStart t < A.address + A.data_size := cut_le.lt_of_ne hskip
      have hlines : t ≤ (A.address + A.data_size - 1) / A.cache_block_size := by
        have hstart : t * A.cache_block_size ≤ A.lineStart t := mul_le_cut hlast
        exact (Nat.le_div_iff_mul_le hpos).mpr (by omega)
      rw [if_neg hskip] at hmem
      refine ⟨A.piece t s.curr_data_buffer_head :: pieces, s', hends.turn hcond, ?_, ?_, ?_⟩
      · rw [hfold, hmem]
        rfl
      · rw [hhead]
        exact h.tiles_piece hfirst hlast hrest htiles
      · rw [List.length_cons, hlen]
        omega

/-- What `processMemOpFromCore` asserts of its arguments. -/
theorem Tiles.asserts {addr stop covered : ℕ} {pieces : List LineAccess}
    (h : A.Tiles addr stop covered pieces) : ∀ p ∈ pieces,
      p.curr_addr_aligned % A.cache_block_size = 0 ∧
        p.curr_offset + p.curr_size ≤ A.cache_block_size := by
  induction pieces generalizing addr covered with
  | nil => exact fun p hp => absurd hp List.not_mem_nil
  | cons q rest ih =>
    obtain ⟨-, haligned, -, hwithin, -, hrest⟩ := h
    intro p hp
    rcases List.mem_cons.mp hp with hp | hp
    · rw [hp]
      exact ⟨Nat.mod_eq_zero_of_dvd haligned, hwithin⟩
    · exact ih hrest p hp

/-- The loop does not end when the line behind the access would start at the end of the address
space: its address wraps to 0. -/
theorem Fits.not_loopEnds (h : A.Fits)
    (hend : A.address + A.data_size + A.cache_block_size = 2 ^ 64) (mem : σ) (s : LineLoop σ) :
    ¬A.LoopEnds coreInitiateMemoryAccess mem s := by
  have hpos := h.block_pos
  have hdvd : A.cache_block_size ∣ A.address + A.data_size :=
    (Nat.dvd_add_left (dvd_refl _)).mp (hend ▸ h.block_dvd)
  have haligned : A.end_addr_aligned = A.address + A.data_size := by
    rw [h.end_aligned, Nat.div_mul_cancel hdvd]
  have hturn : ∀ s : LineLoop σ, (A.turn coreInitiateMemoryAccess s).curr_addr_aligned =
      (s.curr_addr_aligned + A.cache_block_size) % 2 ^ 64 := by
    intro s
    unfold turn
    dsimp only
    split <;> rfl
  refine not_ends (I := fun s : LineLoop σ => A.cache_block_size ∣ s.curr_addr_aligned ∧
    s.curr_addr_aligned ≤ A.address + A.data_size) ?_ ⟨?_, ?_⟩
  · intro s hs
    obtain ⟨hline, hle⟩ := hs
    refine ⟨decide_eq_true (by rwa [haligned]), ?_⟩
    rw [hturn]
    by_cases hlast : s.curr_addr_aligned = A.address + A.data_size
    · rw [hlast, hend, Nat.mod_self]
      exact ⟨dvd_zero _, Nat.zero_le _⟩
    · have hnext : s.curr_addr_aligned + A.cache_block_size ≤ A.address + A.data_size := by
        have hgap := Nat.le_of_dvd (by omega) (Nat.dvd_sub hdvd hline)
        omega
      rw [Nat.mod_eq_of_lt (by omega)]
      exact ⟨Nat.dvd_add hline (dvd_refl _), hnext⟩
  · change A.cache_block_size ∣ A.begin_addr_aligned
    rw [begin_aligned]
    exact Nat.dvd_mul_left _ _
  · exact (Nat.sub_le _ _).trans h.lt_end.le

end MemoryAccess

open MemoryAccess in
/-- An access is split exactly, whatever the calls do, when it does not end one line before the end
of the address space; then the loop goes on for ever. -/
theorem splitsExactly_iff {σ : Type} (coreInitiateMemoryAccess : σ → LineAccess → σ × ℕ) (mem : σ)
    (A : MemoryAccess) (h : A.Fits) : A.SplitsExactly coreInitiateMemoryAccess mem ↔
      A.address + A.data_size + A.cache_block_size < 2 ^ 64 := by
  constructor
  · intro hsplit
    obtain ⟨pieces, s, hends, -⟩ := hsplit
    by_contra hlt
    exact h.not_loopEnds (h.bound.antisymm (not_lt.mp hlt)) mem s hends
  · intro hlt
    have hpos := h.block_pos
    have hfirst : A.lineStart (A.address / A.cache_block_size) = A.address := cut_first h.lt_end.le
    have hle : A.address / A.cache_block_size ≤
        (A.address + A.data_size) / A.cache_block_size := Nat.div_le_div_right h.lt_end.le
    obtain ⟨pieces, s, hends, hfold, htiles, hlen⟩ := h.ends_from
      coreInitiateMemoryAccess hlt
      ((A.address + A.data_size) / A.cache_block_size + 1 - A.address / A.cache_block_size)
      (A.address / A.cache_block_size) (A.start mem) (by omega) le_rfl begin_aligned
      (by rw [hfirst, Nat.sub_self]; rfl)
    rw [hfirst, Nat.sub_self] at htiles
    refine ⟨pieces, s, hends, hfold, htiles, ?_⟩
    rw [hlen, card_touched hpos h.lt_end]

/-- Ten bytes over the end of a line. -/
def MemoryAccess.twoLines : MemoryAccess where
  address := 60
  data_buf := some 1000
  data_size := 10
  cache_block_size := 64
  UNKNOWN := 0

theorem MemoryAccess.twoLines_fits : MemoryAccess.twoLines.Fits :=
  ⟨⟨6, by decide, by decide⟩, by decide, by decide⟩

theorem splitsExactly_iff_twoLines :
    MemoryAccess.twoLines.SplitsExactly (fun (m : List LineAccess) p => (m ++ [p], 1)) [] :=
  (splitsExactly_iff _ [] .twoLines MemoryAccess.twoLines_fits).mpr (by decide)

/-- The last byte but 64 of the address space. -/
def MemoryAccess.nearEnd : MemoryAccess where
  address := 2 ^ 64 - 65
  data_buf := none
  data_size := 1
  cache_block_size := 64
  UNKNOWN := 0

theorem nearEnd_never_split : ¬MemoryAccess.nearEnd.SplitsExactly
    (fun (m : List LineAccess) p => (m ++ [p], 1)) [] := by
  intro h
  obtain ⟨pieces, s, hends, -⟩ := h
  have hfits : MemoryAccess.nearEnd.Fits := ⟨⟨6, by decide, by decide⟩, by decide, by decide⟩
  exact hfits.not_loopEnds (by decide) [] s hends

end Sniper
