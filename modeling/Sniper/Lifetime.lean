import Sniper.Library.Machine
import Sniper.BlockWalk
import Sniper.DramCntlr

namespace Sniper
open Outcome
open MagicServer (PAGE_SIZE PageFits)

/-- A call that changes the lifetimes of registered bytes. -/
inductive DramOp where
  | getDataFromDram (address : ℕ) (data_buf : ℕ → Byte) (now : ℕ)
  | putDataToDram (address : ℕ) (data_buf : ℕ → Byte) (now : ℕ)
  | addApprox (address set_number : ℕ)
  | delApprox (address : ℕ)

namespace DramOp

variable (bs a : ℕ)

/-- The address of an access, and whether it is a read. -/
def access : DramOp → Option (ℕ × Bool)
  | getDataFromDram address _ _ => some (address, true)
  | putDataToDram address _ _ => some (address, false)
  | addApprox _ _ | delApprox _ => none

def time : DramOp → ℕ
  | getDataFromDram _ _ now | putDataToDram _ _ now => now
  | addApprox _ _ | delApprox _ => 0

/-- An access of the page of byte `a`. -/
def OnPage (op : DramOp) : Prop :=
  ∃ address RW, op.access = some (address, RW) ∧ a / PAGE_SIZE = address / PAGE_SIZE

/-- An access of the block of byte `a`, a read or a write as `RW` says. -/
def OnBlock (op : DramOp) (RW : Bool) : Prop :=
  ∃ address, op.access = some (address, RW) ∧ address ≤ a ∧ a < address + bs

instance (op : DramOp) : Decidable (op.OnPage a) :=
  match h : op.access with
  | some (address, RW) =>
    if ha : a / PAGE_SIZE = address / PAGE_SIZE then .isTrue ⟨address, RW, h, ha⟩
    else .isFalse fun ⟨_, _, h', ha'⟩ => ha (by rw [h] at h'; cases h'; exact ha')
  | none => .isFalse fun ⟨_, _, h', _⟩ => by rw [h] at h'; cases h'

end DramOp

namespace Lifetime

variable (bs : ℕ) (ops : List DramOp) (a : ℕ)

/-- `L(e)`: the largest time of the accesses so far to the page of `a`, or 0. -/
def lastTime : ℕ := ops.foldl (fun t op => if op.OnPage a then max t op.time else t) 0

/-- The gap of the `i`-th operation: its distance from the latest access of the page. -/
def gap (i : ℕ) : ℕ := Nat.dist ((ops[i]?.map DramOp.time).getD 0) (lastTime (ops.take i) a)

def registered : Bool :=
  ops.foldl (fun b op => match op with
    | .addApprox address _ => if address = a then true else b
    | .delApprox address => if address = a then false else b
    | _ => b) false

/-- The `i`-th operation registers `a`. -/
def Registers (i : ℕ) : Prop :=
  (∃ s, ops[i]? = some (.addApprox a s)) ∧ registered (ops.take i) a = false

/-- Operation `k` is an access of the page of `a` after the latest access of its block that comes
before operation `e`, and after `a` was last registered. -/
structure Segment (k e : ℕ) : Prop where
  le : k ≤ e
  page : ∃ op, ops[k]? = some op ∧ op.OnPage a
  quiet : ∀ j, k ≤ j → j < e → ∀ op RW, ops[j]? = some op → ¬op.OnBlock bs a RW
  since : ∀ j, k ≤ j → ¬Registers ops a j

/-- The gaps that reads of the block of `a` have committed. -/
def committed : Set ℕ :=
  {g | ∃ k e, Segment bs ops a k e ∧ (∃ op, ops[e]? = some op ∧ op.OnBlock bs a true) ∧
    g = gap ops a k}

/-- The gaps since the latest access of the block. -/
def pending : Set ℕ := {g | ∃ k, Segment bs ops a k ops.length ∧ k < ops.length ∧ g = gap ops a k}

section append

variable {bs ops a} {op : DramOp} {i k e : ℕ}

theorem getElem?_append_lt (h : i < ops.length) : (ops ++ [op])[i]? = ops[i]? :=
  List.getElem?_append_left h

theorem getElem?_append_eq : (ops ++ [op])[ops.length]? = some op := List.getElem?_concat_length

theorem lastTime_append : lastTime (ops ++ [op]) a =
    if op.OnPage a then max (lastTime ops a) op.time else lastTime ops a := by
  simp [lastTime]

theorem gap_append_lt (h : i < ops.length) : gap (ops ++ [op]) a i = gap ops a i := by
  unfold gap
  rw [getElem?_append_lt h, List.take_append_of_le_length h.le]

theorem gap_append_eq : gap (ops ++ [op]) a ops.length = Nat.dist op.time (lastTime ops a) := by
  unfold gap
  rw [getElem?_append_eq, List.take_left]
  rfl

theorem registers_append_lt (h : i < ops.length) :
    Registers (ops ++ [op]) a i ↔ Registers ops a i := by
  unfold Registers
  rw [getElem?_append_lt h, List.take_append_of_le_length h.le]

theorem registers_append_eq : Registers (ops ++ [op]) a ops.length ↔
    (∃ s, op = .addApprox a s) ∧ registered ops a = false := by
  unfold Registers
  rw [getElem?_append_eq, List.take_left]
  simp only [Option.some.injEq]

theorem Registers.lt (h : Registers ops a i) : i < ops.length := by
  obtain ⟨⟨s, hs⟩, -⟩ := h
  exact (List.getElem?_eq_some_iff.mp hs).1

theorem since_append : (∀ j, k ≤ j → ¬Registers (ops ++ [op]) a j) ↔
    (∀ j, k ≤ j → ¬Registers ops a j) ∧ (k ≤ ops.length →
      ¬Registers (ops ++ [op]) a ops.length) := by
  constructor
  · intro h
    refine ⟨fun j hj hr => ?_, fun hk => h _ hk⟩
    exact h j hj ((registers_append_lt hr.lt).mpr hr)
  · intro h' j hj hr
    obtain ⟨h, hlast⟩ := h'
    have hlt := hr.lt
    rw [List.length_append, List.length_singleton] at hlt
    by_cases hjn : j = ops.length
    · rw [hjn] at hr hj
      exact hlast hj hr
    · exact h j hj ((registers_append_lt (by omega)).mp hr)

/-- A segment that the last operation comes after. -/
theorem segment_append_lt (hk : k < ops.length) (he : e ≤ ops.length) :
    Segment bs (ops ++ [op]) a k e ↔
      Segment bs ops a k e ∧ ¬Registers (ops ++ [op]) a ops.length := by
  have hquiet : (∀ j, k ≤ j → j < e → ∀ op' RW, (ops ++ [op])[j]? = some op' →
      ¬op'.OnBlock bs a RW) ↔
      ∀ j, k ≤ j → j < e → ∀ op' RW, ops[j]? = some op' → ¬op'.OnBlock bs a RW := by
    refine forall_congr' fun j => forall_congr' fun _ => forall_congr' fun hj => ?_
    rw [getElem?_append_lt (by omega)]
  constructor
  · intro h
    obtain ⟨h1, h2, h3, h4⟩ := h
    rw [getElem?_append_lt hk] at h2
    rw [since_append] at h4
    exact ⟨⟨h1, h2, hquiet.mp h3, h4.1⟩, h4.2 hk.le⟩
  · rintro ⟨⟨h1, h2, h3, h4⟩, hr⟩
    refine ⟨h1, ?_, hquiet.mpr h3, since_append.mpr ⟨h4, fun _ => hr⟩⟩
    rwa [getElem?_append_lt hk]

/-- A segment that the last operation prolongs. -/
theorem segment_append_succ (hk : k < ops.length) :
    Segment bs (ops ++ [op]) a k (ops.length + 1) ↔ Segment bs ops a k ops.length ∧
      ¬Registers (ops ++ [op]) a ops.length ∧ ∀ RW, ¬op.OnBlock bs a RW := by
  constructor
  · intro h
    obtain ⟨h1, h2, h3, h4⟩ := h
    have hseg : Segment bs (ops ++ [op]) a k ops.length :=
      ⟨hk.le, h2, fun j hj hjn => h3 j hj (by omega), h4⟩
    obtain ⟨hseg, hr⟩ := (segment_append_lt hk le_rfl).mp hseg
    exact ⟨hseg, hr, fun RW => h3 ops.length hk.le (by omega) op RW getElem?_append_eq⟩
  · intro h
    obtain ⟨hseg, hr, hop⟩ := h
    obtain ⟨h1, h2, h3, h4⟩ := (segment_append_lt hk le_rfl).mpr ⟨hseg, hr⟩
    refine ⟨by omega, h2, fun j hj hjn op' RW hop' => ?_, h4⟩
    by_cases hjl : j = ops.length
    · rw [hjl, getElem?_append_eq] at hop'
      cases hop'
      exact hop RW
    · exact h3 j hj (by omega) op' RW hop'

/-- The last operation begins a segment. -/
theorem segment_append_self (he : e = ops.length ∨ e = ops.length + 1) :
    Segment bs (ops ++ [op]) a ops.length e ↔
      op.OnPage a ∧ (e = ops.length + 1 → ∀ RW, ¬op.OnBlock bs a RW) := by
  have hpage : (∃ op', (ops ++ [op])[ops.length]? = some op' ∧ op'.OnPage a) ↔ op.OnPage a := by
    rw [getElem?_append_eq]
    simp
  constructor
  · intro h'
    obtain ⟨-, h2, h3, -⟩ := h'
    exact ⟨hpage.mp h2, fun he RW => h3 ops.length le_rfl (by omega) op RW getElem?_append_eq⟩
  · intro h'
    obtain ⟨hop, hend⟩ := h'
    refine ⟨by omega, hpage.mpr hop, fun j hj hje op' RW hop' => ?_, fun j hj hr => ?_⟩
    · obtain rfl : j = ops.length := by omega
      rw [getElem?_append_eq] at hop'
      cases hop'
      exact hend (by omega) RW
    · have hlt := hr.lt
      rw [List.length_append, List.length_singleton] at hlt
      obtain rfl : j = ops.length := by omega
      obtain ⟨⟨s, rfl⟩, -⟩ := registers_append_eq.mp hr
      obtain ⟨_, _, h, -⟩ := hop
      cases h

theorem committed_registers (hr : Registers (ops ++ [op]) a ops.length) :
    committed bs (ops ++ [op]) a = ∅ := by
  refine Set.eq_empty_of_forall_notMem ?_
  rintro g ⟨k, e, hseg, ⟨op', hop', -⟩, -⟩
  have hlt := (List.getElem?_eq_some_iff.mp hop').1
  rw [List.length_append, List.length_singleton] at hlt
  exact hseg.since ops.length (by have := hseg.le; omega) hr

theorem pending_registers (hr : Registers (ops ++ [op]) a ops.length) :
    pending bs (ops ++ [op]) a = ∅ := by
  refine Set.eq_empty_of_forall_notMem ?_
  intro g h
  obtain ⟨k, hseg, hlt, -⟩ := h
  rw [List.length_append, List.length_singleton] at hlt
  exact hseg.since ops.length (by omega) hr

/-- A read of the block commits what is pending. -/
theorem committed_append (hr : ¬Registers (ops ++ [op]) a ops.length)
    (hpage : ∀ RW, op.OnBlock bs a RW → op.OnPage a) : committed bs (ops ++ [op]) a =
      committed bs ops a ∪ {g | op.OnBlock bs a true ∧
        (g ∈ pending bs ops a ∨ g = Nat.dist op.time (lastTime ops a))} := by
  ext g
  simp only [Set.mem_union, Set.mem_ofPred_eq]
  constructor
  · rintro ⟨k, e, hseg, ⟨op', hop', hread⟩, rfl⟩
    have hlt := (List.getElem?_eq_some_iff.mp hop').1
    rw [List.length_append, List.length_singleton] at hlt
    have hle := hseg.le
    by_cases he : e = ops.length
    · subst he
      rw [getElem?_append_eq] at hop'
      cases hop'
      refine .inr ⟨hread, ?_⟩
      by_cases hk : k = ops.length
      · exact .inr (by rw [hk, gap_append_eq])
      · have hkl : k < ops.length := by omega
        exact .inl ⟨k, ((segment_append_lt hkl le_rfl).mp hseg).1, hkl, gap_append_lt hkl⟩
    · have hkl : k < ops.length := by omega
      rw [getElem?_append_lt (by omega)] at hop'
      exact .inl ⟨k, e, ((segment_append_lt hkl (by omega)).mp hseg).1, ⟨op', hop', hread⟩,
        gap_append_lt hkl⟩
  · rintro (⟨k, e, hseg, ⟨op', hop', hread⟩, rfl⟩ | ⟨hread, ⟨k, hseg, hk, rfl⟩ | rfl⟩)
    · have hlt := (List.getElem?_eq_some_iff.mp hop').1
      have hkl : k < ops.length := by have := hseg.le; omega
      refine ⟨k, e, (segment_append_lt hkl hlt.le).mpr ⟨hseg, hr⟩, ⟨op', ?_, hread⟩,
        (gap_append_lt hkl).symm⟩
      rwa [getElem?_append_lt hlt]
    · exact ⟨k, ops.length, (segment_append_lt hk le_rfl).mpr ⟨hseg, hr⟩,
        ⟨op, getElem?_append_eq, hread⟩, (gap_append_lt hk).symm⟩
    · exact ⟨ops.length, ops.length, (segment_append_self (.inl rfl)).mpr
        ⟨hpage true hread, by omega⟩, ⟨op, getElem?_append_eq, hread⟩, gap_append_eq.symm⟩

/-- An access of the page adds to what is pending; one of the block leaves nothing. -/
theorem pending_append (hr : ¬Registers (ops ++ [op]) a ops.length) : pending bs (ops ++ [op]) a =
    {g | (∀ RW, ¬op.OnBlock bs a RW) ∧ (g ∈ pending bs ops a ∨
      op.OnPage a ∧ g = Nat.dist op.time (lastTime ops a))} := by
  ext g
  simp only [pending, List.length_append, List.length_singleton, Set.mem_ofPred_eq]
  constructor
  · intro h
    obtain ⟨k, hseg, hk, rfl⟩ := h
    by_cases hkl : k = ops.length
    · subst hkl
      obtain ⟨hpage, hquiet⟩ := (segment_append_self (.inr rfl)).mp hseg
      exact ⟨hquiet rfl, .inr ⟨hpage, gap_append_eq⟩⟩
    · have hkl : k < ops.length := by omega
      obtain ⟨hseg, -, hquiet⟩ := (segment_append_succ hkl).mp hseg
      exact ⟨hquiet, .inl ⟨k, hseg, hkl, gap_append_lt hkl⟩⟩
  · rintro ⟨hquiet, ⟨k, hseg, hk, rfl⟩ | ⟨hpage, rfl⟩⟩
    · exact ⟨k, (segment_append_succ hk).mpr ⟨hseg, hr, hquiet⟩, by omega, (gap_append_lt hk).symm⟩
    · exact ⟨ops.length, (segment_append_self (.inr rfl)).mpr ⟨hpage, fun _ => hquiet⟩, by omega,
        gap_append_eq.symm⟩

end append

/-- The two lifetimes of an entry: the largest committed gap, and the largest gap of all. -/
structure Tracks (C Q : Set ℕ) (v : AppVar) : Prop where
  committed : IsGreatest (insert 0 C) v.maxlifetime
  all : IsGreatest (insert 0 (C ∪ Q)) (max v.maxlifetime v.poten_maxlifetime)

namespace Tracks

variable {C Q : Set ℕ} {v : AppVar} {g : ℕ}

theorem create : Tracks ∅ ∅ .create where
  committed := by simp [AppVar.create]
  all := by simp [AppVar.create]

theorem congr {C' Q' : Set ℕ} (h : Tracks C Q v) (hC : C' = C) (hQ : Q' = Q) :
    Tracks C' Q' v := by
  rw [hC, hQ]
  exact h

theorem raise (h : Tracks C Q v) (g : ℕ) : Tracks C (insert g Q) (v.raise g) := by
  have hmax : max (v.raise g).maxlifetime (v.raise g).poten_maxlifetime =
      max g (max v.maxlifetime v.poten_maxlifetime) := by
    unfold AppVar.raise
    split
    · change max v.maxlifetime g = _
      omega
    · omega
  have hsame : (v.raise g).maxlifetime = v.maxlifetime := by
    unfold AppVar.raise
    split <;> rfl
  refine ⟨by rw [hsame]; exact h.committed, ?_⟩
  rw [hmax, Set.union_insert, Set.insert_comm]
  exact h.all.insert g

/-- A read of the block: all gaps are committed. -/
theorem read (h : Tracks C Q v) : Tracks (C ∪ Q) ∅ (v.settle true) := by
  have hmax : (v.settle true).maxlifetime = max v.maxlifetime v.poten_maxlifetime ∧
      max (v.settle true).maxlifetime (v.settle true).poten_maxlifetime =
        max v.maxlifetime v.poten_maxlifetime := by
    unfold AppVar.settle
    by_cases hlt : v.maxlifetime < v.poten_maxlifetime
    · rw [if_pos ⟨rfl, hlt⟩]
      simp only
      omega
    · rw [if_neg (fun hc => hlt hc.2), if_neg (fun hc => hlt hc.2)]
      omega
  refine ⟨?_, ?_⟩
  · rw [hmax.1]
    exact h.all
  · rw [hmax.2, Set.union_empty]
    exact h.all

/-- A write of the block: the gaps since the previous access of the block are dropped. -/
theorem write (h : Tracks C Q v) : Tracks C ∅ (v.settle false) := by
  have hmax : (v.settle false).maxlifetime = v.maxlifetime ∧
      max (v.settle false).maxlifetime (v.settle false).poten_maxlifetime = v.maxlifetime := by
    unfold AppVar.settle
    rw [if_neg (fun hc => by cases hc.1)]
    by_cases hlt : v.maxlifetime < v.poten_maxlifetime
    · rw [if_pos ⟨rfl, hlt⟩]
      simp
    · rw [if_neg (fun hc => hlt hc.2)]
      omega
  refine ⟨?_, ?_⟩
  · rw [hmax.1]
    exact h.committed
  · rw [hmax.2, Set.union_empty]
    exact h.committed

end Tracks

/-- The calls of one DRAM controller and of the registry, each completed before the next. No address
is in the last page, whose end wraps. -/
def machine (k : DramParams) : Machine DramState DramOp Abort where
  enabled _ op := ∀ address RW, op.access = some (address, RW) →
    address % k.blocksize = 0 ∧ PageFits address
  exec D op := match op with
    | .getDataFromDram address data_buf now =>
      .ok (DramCntlr.getDataFromDram k D address data_buf now).1
    | .putDataToDram address data_buf now => DramCntlr.putDataToDram k D address data_buf now
    | .addApprox address set_number =>
      .ok { D with env := { D.env with magic := (D.env.magic.addApprox address set_number).1 } }
    | .delApprox address =>
      .ok { D with env := { D.env with magic := (D.env.magic.delApprox address).1 } }

def init (rng : RandomState) : DramState where
  cntlr := .init
  sets := ⟨∅, ∅⟩
  env := ⟨.init, rng⟩

/-- What every call keeps. -/
structure Inv (k : DramParams) (ops : List DramOp) (D : DramState) : Prop where
  pages : ∀ a, (D.cntlr.pages.find (DramCntlr.staddr a)).getD 0 = lastTime ops a
  mem : ∀ a, a ∈ D.env.magic.approx_vars.keys ↔ registered ops a = true
  tracks : ∀ a v, D.env.magic.approx_vars.find a = some v →
    Tracks (committed k.blocksize ops a) (pending k.blocksize ops a) v

namespace Inv

variable {k : DramParams} {ops : List DramOp} {D D' : DramState} {op : DramOp} {address : ℕ}
  {RW : Bool} {a : ℕ}

theorem init (rng : RandomState) : Inv k [] (init rng) where
  pages a := rfl
  mem a := by simp [Lifetime.init, MagicServer.init, registered]
  tracks a v h := by simp [Lifetime.init, MagicServer.init, SortedMap.find] at h

theorem onPage_iff (hop : op.access = some (address, RW)) :
    op.OnPage a ↔ a / PAGE_SIZE = address / PAGE_SIZE := by
  unfold DramOp.OnPage
  rw [hop]
  constructor
  · rintro ⟨_, _, ⟨⟩, ha⟩
    exact ha
  · exact fun ha => ⟨address, RW, rfl, ha⟩

theorem onBlock_iff {bs : ℕ} (hop : op.access = some (address, RW)) (RW' : Bool) :
    op.OnBlock bs a RW' ↔ RW' = RW ∧ address ≤ a ∧ a < address + bs := by
  unfold DramOp.OnBlock
  rw [hop]
  constructor
  · rintro ⟨_, ⟨⟩, ha⟩
    exact ⟨rfl, ha⟩
  · intro h
    obtain ⟨rfl, ha⟩ := h
    exact ⟨address, rfl, ha⟩

theorem not_onPage (hop : op.access = none) : ¬op.OnPage a := by
  intro h
  obtain ⟨_, _, hc, -⟩ := h
  rw [hop] at hc
  cases hc

theorem not_onBlock {bs : ℕ} (hop : op.access = none) (RW : Bool) : ¬op.OnBlock bs a RW := by
  intro h
  obtain ⟨_, hc, -⟩ := h
  rw [hop] at hc
  cases hc

/-- A block lies in one page. -/
theorem onPage_of_onBlock (hbs : k.blocksize ∣ PAGE_SIZE) (halign : address % k.blocksize = 0)
    (h1 : address ≤ a) (h2 : a < address + k.blocksize) : a / PAGE_SIZE = address / PAGE_SIZE := by
  obtain ⟨c, hc⟩ := hbs
  have hpos : 0 < k.blocksize := by omega
  have hline : a / k.blocksize = address / k.blocksize := by
    obtain ⟨q, rfl⟩ := Nat.dvd_of_mod_eq_zero halign
    rw [Nat.mul_div_cancel_left _ hpos]
    refine Nat.div_eq_of_lt_le (by rw [Nat.mul_comm]; exact h1) ?_
    rw [Nat.succ_mul, Nat.mul_comm]
    exact h2
  rw [hc, ← Nat.div_div_eq_div_mul, ← Nat.div_div_eq_div_mul, hline]

theorem staddr_eq_iff : DramCntlr.staddr a = DramCntlr.staddr address ↔
    a / PAGE_SIZE = address / PAGE_SIZE := by
  unfold DramCntlr.staddr
  exact Nat.mul_left_inj (by decide)

/-- A block ends where its page ends, or before. -/
theorem block_fits (hbs : k.blocksize ∣ PAGE_SIZE) (halign : address % k.blocksize = 0)
    (hpage : PageFits address) : address + k.blocksize < 2 ^ 64 := by
  have hpos : 0 < k.blocksize := Nat.pos_of_dvd_of_pos hbs (by decide)
  have hlast := onPage_of_onBlock hbs halign (show address ≤ address + (k.blocksize - 1) by omega)
    (by omega)
  unfold PageFits at hpage
  unfold PAGE_SIZE at hpage hlast
  omega

/-- The bookkeeping of an access. -/
theorem access (h : Inv k ops D) (hbs : k.blocksize ∣ PAGE_SIZE)
    (halign : address % k.blocksize = 0) (hpage : PageFits address)
    (hop : op.access = some (address, RW))
    (hmagic : D'.env.magic = (DramCntlr.accessPage k D address op.time RW).env.magic)
    (hpages : D'.cntlr.pages = (DramCntlr.accessPage k D address op.time RW).cntlr.pages) :
    Inv k (ops ++ [op]) D' := by
  have hnoreg : ∀ a, ¬Registers (ops ++ [op]) a ops.length := by
    intro a hr
    obtain ⟨⟨s, rfl⟩, -⟩ := registers_append_eq.mp hr
    cases hop
  have hregistered : ∀ a, registered (ops ++ [op]) a = registered ops a := by
    intro a
    unfold registered
    rw [List.foldl_append]
    cases op with
    | getDataFromDram | putDataToDram => rfl
    | addApprox | delApprox => cases hop
  -- the gap that the access closes or leaves open is the time since the last one of its page
  have hlast : ∀ a, a / PAGE_SIZE = address / PAGE_SIZE →
      (D.cntlr.pages.find (DramCntlr.staddr address)).getD 0 = lastTime ops a := by
    intro a hp
    rw [← staddr_eq_iff.mpr hp]
    exact h.pages a
  refine ⟨fun a => ?_, fun a => ?_, fun a v hv => ?_⟩
  · rw [hpages, DramCntlr.accessPage_lastacc, h.pages, lastTime_append]
    simp only [staddr_eq_iff, onPage_iff hop]
  · rw [hmagic, DramCntlr.accessPage_magic, MagicServer.mem_updateLiftime, hregistered]
    exact h.mem a
  rw [hmagic, DramCntlr.accessPage_magic,
    MagicServer.find_updateLiftime (block_fits hbs halign hpage) hpage] at hv
  obtain ⟨v₀, hv₀, rfl⟩ := Option.map_eq_some_iff.mp hv
  have ht := h.tracks a v₀ hv₀
  rw [committed_append (hnoreg a) fun RW' hb => (onPage_iff hop).mpr <|
      onPage_of_onBlock hbs halign ((onBlock_iff hop RW').mp hb).2.1
        ((onBlock_iff hop RW').mp hb).2.2,
    pending_append (hnoreg a)]
  simp only [onBlock_iff hop, onPage_iff hop]
  by_cases hin : address ≤ a ∧ a < address + k.blocksize
  · have hp := onPage_of_onBlock hbs halign hin.1 hin.2
    rw [hlast a hp, if_pos hin, if_pos hp]
    cases RW with
    | true =>
      refine ((ht.raise _).read).congr ?_ ?_
      · ext g
        simp only [hin, Set.mem_union, Set.mem_insert_iff, Set.mem_ofPred_eq]
        tauto
      · ext g
        simp [hin]
    | false =>
      refine ((ht.raise _).write).congr ?_ ?_
      · ext g
        simp
      · ext g
        simp [hin]
  · rw [if_neg hin]
    by_cases hp : a / PAGE_SIZE = address / PAGE_SIZE
    · rw [hlast a hp, if_pos hp]
      refine (ht.raise _).congr ?_ ?_
      · ext g
        simp [hin]
      · ext g
        simp [hin, hp, or_comm]
    · rw [if_neg hp]
      refine ht.congr ?_ ?_
      · ext g
        simp [hin]
      · ext g
        simp [hin, hp]

theorem addApprox (h : Inv k ops D) (address s : ℕ) :
    Inv k (ops ++ [.addApprox address s])
      { D with env := { D.env with magic := (D.env.magic.addApprox address s).1 } } := by
  have hnopage : ∀ a, ¬(DramOp.addApprox address s).OnPage a := fun a => not_onPage rfl
  have hnoblock : ∀ a RW, ¬(DramOp.addApprox address s).OnBlock k.blocksize a RW :=
    fun a RW => not_onBlock rfl RW
  refine ⟨fun a => ?_, fun a => ?_, fun a v hv => ?_⟩
  · rw [lastTime_append, if_neg (hnopage a)]
    exact h.pages a
  · refine (MagicServer.mem_addApprox s).trans ?_
    rw [h.mem]
    unfold registered
    rw [List.foldl_append]
    by_cases ha : a = address
    · simp [ha]
    · simp [ha, Ne.symm ha]
  by_cases hr : Registers (ops ++ [.addApprox address s]) a ops.length
  · obtain ⟨⟨s', hs⟩, hfresh⟩ := registers_append_eq.mp hr
    obtain rfl : address = a := by injection hs
    have hno : address ∉ D.env.magic.approx_vars.keys := by
      rw [h.mem, hfresh]
      decide
    rw [show _ = some AppVar.create from MagicServer.find_addApprox_self hno s] at hv
    cases hv
    rw [committed_registers hr, pending_registers hr]
    exact Tracks.create
  · have hold : D.env.magic.approx_vars.find a = some v := by
      rw [← hv]
      by_cases ha : a = address
      · subst ha
        have hmem : a ∈ D.env.magic.approx_vars.keys := by
          rw [h.mem]
          by_contra hc
          exact hr (registers_append_eq.mpr ⟨⟨s, rfl⟩, Bool.not_eq_true _ |>.mp hc⟩)
        exact (congrArg (fun r : MagicServer × Bool => r.1.approx_vars.find a)
          (MagicServer.addApprox_of_mem hmem s)).symm
      · exact (MagicServer.find_addApprox_of_ne ha s).symm
    rw [committed_append hr fun RW hb => absurd hb (hnoblock a RW), pending_append hr]
    refine (h.tracks a v hold).congr ?_ ?_
    · ext g
      simp [hnoblock]
    · ext g
      simp [hnoblock, hnopage]

theorem delApprox (h : Inv k ops D) (address : ℕ) :
    Inv k (ops ++ [.delApprox address])
      { D with env := { D.env with magic := (D.env.magic.delApprox address).1 } } := by
  have hnopage : ∀ a, ¬(DramOp.delApprox address).OnPage a := fun a => not_onPage rfl
  have hnoblock : ∀ a RW, ¬(DramOp.delApprox address).OnBlock k.blocksize a RW :=
    fun a RW => not_onBlock rfl RW
  have hnoreg : ∀ a, ¬Registers (ops ++ [.delApprox address]) a ops.length := by
    intro a hr
    obtain ⟨⟨s, hc⟩, -⟩ := registers_append_eq.mp hr
    cases hc
  refine ⟨fun a => ?_, fun a => ?_, fun a v hv => ?_⟩
  · rw [lastTime_append, if_neg (hnopage a)]
    exact h.pages a
  · refine MagicServer.mem_delApprox.trans ?_
    rw [h.mem]
    unfold registered
    rw [List.foldl_append]
    by_cases ha : a = address
    · simp [ha]
    · simp [ha, Ne.symm ha]
  · have hne : a ≠ address := by
      rintro rfl
      have hmem := (SortedMap.find_isSome _).mp (Option.isSome_iff_exists.mpr ⟨v, hv⟩)
      exact (MagicServer.mem_delApprox.mp hmem).1 rfl
    rw [committed_append (hnoreg a) fun RW hb => absurd hb (hnoblock a RW),
      pending_append (hnoreg a)]
    refine (h.tracks a v ((MagicServer.find_delApprox_of_ne hne).symm.trans hv)).congr ?_ ?_
    · ext g
      simp [hnoblock]
    · ext g
      simp [hnoblock, hnopage]

theorem step (h : Inv k ops D) (hbs : k.blocksize ∣ PAGE_SIZE) (he : (machine k).enabled D op)
    (hx : (machine k).exec D op = .ok D') : Inv k (ops ++ [op]) D' := by
  cases op with
  | getDataFromDram address data_buf now =>
    cases hx
    obtain ⟨hmagic, hpages⟩ := DramCntlr.getDataFromDram_accessPage (k := k) (D := D)
    exact h.access hbs (he address true rfl).1 (he address true rfl).2 rfl hmagic hpages
  | putDataToDram address data_buf now =>
    obtain ⟨hmagic, hpages⟩ := DramCntlr.putDataToDram_accessPage hx
    exact h.access hbs (he address false rfl).1 (he address false rfl).2 rfl hmagic hpages
  | addApprox address s =>
    cases hx
    exact h.addApprox address s
  | delApprox address =>
    cases hx
    exact h.delApprox address

theorem run (hbs : k.blocksize ∣ PAGE_SIZE) {rng : RandomState}
    (h : (machine k).Run (Lifetime.init rng) ops D) : Inv k ops D := by
  generalize hD₀ : Lifetime.init rng = D₀ at h
  induction h with
  | nil =>
    rw [← hD₀]
    exact Inv.init rng
  | snoc _ he hx ih => exact ih.step hbs he hx

end Inv
end Lifetime

/-- At every moment the lifetime of a registered byte is the largest gap, among the accesses of its
page since it was registered, that a read of its block has closed, and 0 when there is none. -/
theorem maxlifetime_eq_gap (k : DramParams) (hbs : k.blocksize ∣ PAGE_SIZE) (rng : RandomState)
    (ops : List DramOp) (D : DramState) (hrun : (Lifetime.machine k).Run (Lifetime.init rng) ops D)
    (a : ℕ) (v : AppVar) (hv : D.env.magic.approx_vars.find a = some v) :
    IsGreatest (insert 0 (Lifetime.committed k.blocksize ops a)) v.maxlifetime :=
  ((Lifetime.Inv.run hbs hrun).tracks a v hv).committed

/-- A byte is registered, its page is read at time 5 and its block at time 12. -/
def readTwice : List DramOp :=
  [.addApprox 64 0, .getDataFromDram 0 (fun _ => 0) 5, .getDataFromDram 64 (fun _ => 0) 12]

theorem maxlifetime_eq_gap_readTwice : ∃ D v, (Lifetime.machine ⟨64, none⟩).Run
    (Lifetime.init ⟨fun _ _ => false, fun _ => 0, []⟩) readTwice D ∧
    D.env.magic.approx_vars.find 64 = some v ∧
    IsGreatest (insert 0 (Lifetime.committed 64 readTwice 64)) v.maxlifetime := by
  obtain ⟨D, hrun⟩ : ∃ D, (Lifetime.machine ⟨64, none⟩).Run
      (Lifetime.init ⟨fun _ _ => false, fun _ => 0, []⟩) readTwice D := by
    refine ⟨_, .snoc (.snoc (.snoc (.nil _) ?_ rfl) ?_ rfl)
      ?_ rfl⟩
    · intro _ _ h
      obtain ⟨⟩ := h
    · intro _ _ h
      obtain ⟨⟩ := h
      decide
    · intro _ _ h
      obtain ⟨⟩ := h
      decide
  have hmem := ((Lifetime.Inv.run (k := ⟨64, none⟩) ⟨64, rfl⟩ hrun).mem 64).mpr rfl
  have hv := SortedMap.find_of_mem _ hmem
  exact ⟨D, _, hrun, hv, maxlifetime_eq_gap ⟨64, none⟩ ⟨64, rfl⟩ _ readTwice D hrun 64 _ hv⟩

end Sniper
