import Sniper.Library.SortedMap

namespace Sniper

/-- The counters of an `appvar`. Each has a saved and a potential value. -/
inductive Counter where
  | approx_add_cnt | approx_mul_cnt
  | L1_write_cnt | L1_read_cnt
  | L1_1_write_cnt | L1_1_read_cnt
  | L1_2_write_cnt | L1_2_read_cnt
  | L1_3_write_cnt | L1_3_read_cnt
  | L2_write_cnt | L2_read_cnt
deriving DecidableEq, Repr

/-- What `cachelvl` is compared with: `"L1-D"` or `"l1d"`, `"L2"` or `"l2"`. -/
inductive CacheName where
  | l1d | l2 | other
deriving DecidableEq, Repr

namespace Counter

/-- `none` where the source prints `ERROR: invalid core number`. -/
def read : ℕ → CacheName → Option Counter
  | 0, .l1d => some L1_read_cnt
  | 1, .l1d => some L1_1_read_cnt
  | 2, .l1d => some L1_2_read_cnt
  | 3, .l1d => some L1_3_read_cnt
  | _, .l1d => none
  | _, .l2 => some L2_read_cnt
  | _, .other => none

def write : ℕ → CacheName → Option Counter
  | 0, .l1d => some L1_write_cnt
  | 1, .l1d => some L1_1_write_cnt
  | 2, .l1d => some L1_2_write_cnt
  | 3, .l1d => some L1_3_write_cnt
  | _, .l1d => none
  | _, .l2 => some L2_write_cnt
  | _, .other => none

end Counter

/-- A number as an `int`, with wraparound. -/
def asInt (n : ℤ) : ℤ := Int.bmod n (2 ^ 32)

/-- A `UInt64` passed as an `int`. -/
def toInt (val : ℕ) : ℤ := asInt val

theorem asInt_of_fits {n : ℤ} (hlo : -2 ^ 31 ≤ n) (hhi : n < 2 ^ 31) : asInt n = n :=
  Int.bmod_eq_of_le (by omega) (by omega)

theorem asInt_lt (n : ℤ) : asInt n < 2 ^ 31 := by
  have h := Int.bmod_lt (x := n) (show 0 < 2 ^ 32 by decide)
  unfold asInt
  omega

/-- A sum may be wrapped early. -/
theorem asInt_add (n k : ℤ) : asInt (asInt n + k) = asInt (n + k) := Int.bmod_add_bmod

/-- `appvar`, without the address it is found by. The counters are of type `int`. -/
structure AppVar where
  set_num : ℕ
  footprint : Counter → ℤ
  poten : Counter → ℤ
  maxlifetime : ℕ
  poten_maxlifetime : ℕ

namespace AppVar

variable (v : AppVar)

/-- What `add_approx` inserts; the set number it is given is not stored. -/
def create : AppVar where
  set_num := 0
  footprint _ := 0
  poten _ := 0
  maxlifetime := 0
  poten_maxlifetime := 0

def upsave : AppVar := { v with footprint := fun c => max (v.poten c) (v.footprint c) }

/-- The counts of additions and multiplications are not reset. -/
def reset : AppVar :=
  { v with poten := fun c => match c with
      | .approx_add_cnt | .approx_mul_cnt => v.poten c
      | _ => 0 }

def bump (c : Counter) (val : ℤ) : AppVar :=
  { v with poten := Function.update v.poten c (asInt (v.poten c + val)) }

def incReadCnt (cid : ℕ) (cachelvl : CacheName) : AppVar :=
  match Counter.read cid cachelvl with
  | some c => v.bump c 1
  | none => v

def incWriteCnt (cid : ℕ) (cachelvl : CacheName) : AppVar :=
  match Counter.write cid cachelvl with
  | some c => v.bump c 1
  | none => v

def incAddCnt (val : ℤ) : AppVar := v.bump .approx_add_cnt val

def incMulCnt (val : ℤ) : AppVar := v.bump .approx_mul_cnt val

/-- The counters `print` writes before and after the lifetime. -/
def printed : List Counter :=
  [.L1_read_cnt, .L1_write_cnt, .L2_read_cnt, .L2_write_cnt, .approx_add_cnt, .approx_mul_cnt]

/-- The columns of the row of an address. -/
def columns (addr : ℕ) : List ℤ :=
  [(addr : ℤ), v.footprint .L1_read_cnt, v.footprint .L1_write_cnt, v.footprint .L2_read_cnt,
    v.footprint .L2_write_cnt, (v.maxlifetime : ℤ), v.footprint .approx_add_cnt,
    v.footprint .approx_mul_cnt]

/-- The text of a row: the columns with blanks and tabs between them. -/
def rowText (columns : List ℤ) : List Char :=
  List.intercalate [' ', '\t', '\t'] (columns.map fun n => (toString n).toList)

def print (addr : ℕ) : List Char := rowText (v.columns addr)

/-- An access of the page `inter` after or before the latest one. -/
def raise (inter : ℕ) : AppVar :=
  if v.poten_maxlifetime < inter then { v with poten_maxlifetime := inter } else v

/-- An access of the block: a read commits the potential lifetime, a write drops it. -/
def settle (RW : Bool) : AppVar :=
  if RW = true ∧ v.maxlifetime < v.poten_maxlifetime then
    { v with maxlifetime := v.poten_maxlifetime }
  else if RW = false ∧ v.maxlifetime < v.poten_maxlifetime then
    { v with poten_maxlifetime := v.maxlifetime }
  else v

end AppVar

/-- `approx_vars` with the bounds of all addresses that were ever inserted. -/
structure MagicServer where
  approx_vars : SortedMap ℕ AppVar
  start_addr : ℕ
  end_addr : ℕ
  within : ∀ a ∈ approx_vars.keys, start_addr ≤ a ∧ a ≤ end_addr

namespace MagicServer

variable (m : MagicServer)

def init : MagicServer where
  approx_vars := ⟨∅, fun _ => .create⟩
  start_addr := 2 ^ 64 - 1
  end_addr := 0
  within a h := absurd h (Finset.notMem_empty a)

/-- The server after a change of the entries, not of their addresses. -/
def withVars (vars : SortedMap ℕ AppVar) (h : vars.keys = m.approx_vars.keys) : MagicServer :=
  { m with approx_vars := vars, within := by rw [h]; exact m.within }

def addApprox (address _set_number : ℕ) : MagicServer × Bool :=
  if h : address ∈ m.approx_vars.keys then (m, false)
  else
    ({ approx_vars := m.approx_vars.insertNew address .create
       start_addr := if address < m.start_addr then address else m.start_addr
       end_addr := if m.end_addr < address then address else m.end_addr
       within := by
        intro a ha
        rcases m.approx_vars.mem_insertNew.mp ha with rfl | ha
        · constructor <;> split <;> omega
        · have := m.within a ha
          constructor <;> split <;> omega }, true)

def delApprox (address : ℕ) : MagicServer × Bool :=
  if address ∈ m.approx_vars.keys then
    ({ m with
       approx_vars := m.approx_vars.erase address
       within := fun a ha => m.within a (m.approx_vars.mem_erase.mp ha).2 }, true)
  else (m, false)

def isApprox (address : ℕ) : Bool := (m.approx_vars.find address).isSome

def isBlockApprox (address block_size : ℕ) : Bool :=
  (List.range block_size).any fun i => m.isApprox ((address + i) % 2 ^ 64)

def approxAddrSetnum (address : ℕ) : ℤ :=
  match m.approx_vars.find address with
  | some v => toInt v.set_num
  | none => -1

/-- The loop of `approx_block_setnum`. -/
def approxBlockSetnum (address : ℕ) : ℕ → ℤ
  | 0 => -1
  | n + 1 =>
    let setnum := m.approxAddrSetnum (address % 2 ^ 64)
    if setnum ≠ -1 then setnum else approxBlockSetnum (address + 1) n

/-- The loop of `add_read_acc` and `add_write_acc`: it returns at the first byte that is not
registered. -/
def countBytes (inc : AppVar → AppVar) :
    ℕ → ℕ → SortedMap ℕ AppVar → SortedMap ℕ AppVar
  | _, 0, vars => vars
  | address, n + 1, vars =>
    if address % 2 ^ 64 ∈ vars.keys then
      countBytes inc (address + 1) n (vars.modify (address % 2 ^ 64) inc)
    else vars

theorem keys_countBytes (inc : AppVar → AppVar) (n : ℕ) : ∀ address vars,
    (countBytes inc address n vars).keys = vars.keys := by
  induction n with
  | zero => exact fun _ _ => rfl
  | succ n ih =>
    intro address vars
    unfold countBytes
    split
    · rw [ih, SortedMap.keys_modify]
    · rfl

/-- The test that the block lies outside the addresses that were ever inserted. Its sum wraps, and
then the test can hold of a block with registered bytes. -/
def Outside (address block_size : ℕ) : Prop :=
  (address + block_size) % 2 ^ 64 < m.start_addr ∨ m.end_addr < address

instance (address block_size : ℕ) : Decidable (m.Outside address block_size) :=
  inferInstanceAs (Decidable (_ ∨ _))

def addAcc (inc : AppVar → AppVar) (address block_size : ℕ) : MagicServer :=
  if m.Outside address block_size then m
  else m.withVars (countBytes inc address block_size m.approx_vars) (keys_countBytes ..)

def addReadAcc (address cid : ℕ) (cachelvl : CacheName) (block_size : ℕ) : MagicServer :=
  m.addAcc (fun v => v.incReadCnt cid cachelvl) address block_size

def addWriteAcc (address cid : ℕ) (cachelvl : CacheName) (block_size : ℕ) : MagicServer :=
  m.addAcc (fun v => v.incWriteCnt cid cachelvl) address block_size

/-- The second loop of `update_liftime`, `n` iterations before it ends. -/
def settleBlock (RW : Bool) (address block_size : ℕ) :
    ℕ → ℕ → Option ℕ → Bool → SortedMap ℕ AppVar → SortedMap ℕ AppVar
  | 0, _, _, _, vars => vars
  | n + 1, i, none, realend, vars =>
    if realend then vars
    else settleBlock RW address block_size n (i + 1)
        (vars.iter ((address + i) % 2 ^ 64)) realend vars
  | n + 1, i, some a, realend, vars =>
    if address ≤ a ∧ a < (address + block_size) % 2 ^ 64 then
      settleBlock RW address block_size n (i + 1) (vars.next a) true
        (vars.modify a fun v => v.settle RW)
    else settleBlock RW address block_size n (i + 1) (vars.next a) realend vars

theorem keys_settleBlock (RW : Bool) (address block_size n : ℕ) : ∀ i it realend vars,
    (settleBlock RW address block_size n i it realend vars).keys = vars.keys := by
  induction n with
  | zero => exact fun _ _ _ _ => rfl
  | succ n ih =>
    intro i it realend vars
    cases it with
    | none =>
      unfold settleBlock
      split
      · rfl
      · exact ih _ _ _ _
    | some a =>
      unfold settleBlock
      split
      · rw [ih, SortedMap.keys_modify]
      · exact ih _ _ _ _

def PAGE_SIZE : ℕ := 4096

/-- The first loop of `update_liftime`, over the bytes of the page. The end of the last page wraps
to 0, and the loop ends before its first byte. -/
def raisePage (address inter : ℕ) : MagicServer :=
  let first := address / PAGE_SIZE * PAGE_SIZE
  let last := (address / PAGE_SIZE + 1) * PAGE_SIZE % 2 ^ 64
  m.withVars (m.approx_vars.modifyRange first (last - first) fun v => v.raise inter)
    (SortedMap.keys_modifyRange _)

/-- The second loop. -/
def settleAccess (RW : Bool) (address block_size : ℕ) : MagicServer :=
  m.withVars (settleBlock RW address block_size (block_size + 1) 0 (m.approx_vars.iter address)
    false m.approx_vars) (keys_settleBlock ..)

def updateLiftime (address now lpacc : ℕ) (RW : Bool) (block_size : ℕ) : MagicServer × Bool :=
  let inter := if lpacc ≤ now then now - lpacc else lpacc - now
  let m' := m.raisePage address inter
  if m.Outside address block_size then (m', false)
  else (m'.settleAccess RW address block_size, true)

/-- The addresses `address+i`. -/
def bytesFrom (address len : ℕ) : List ℕ := (List.range len).map fun i => (address + i) % 2 ^ 64

def upsaveCnters (address len : ℕ) : MagicServer :=
  m.withVars (m.approx_vars.modifyAll (bytesFrom address len) AppVar.upsave)
    (SortedMap.keys_modifyAll _ _)

def resetCnters (address len : ℕ) : MagicServer :=
  m.withVars (m.approx_vars.modifyAll (bytesFrom address len) AppVar.reset)
    (SortedMap.keys_modifyAll _ _)

end MagicServer
end Sniper
