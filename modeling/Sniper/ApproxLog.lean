import Sniper.Library.TextStream
import Sniper.Footprint

namespace Sniper
open TextStream

/-- The lines of a text file, each with its newline. -/
def fileText (lines : List (List Char)) : List Char := lines.flatMap fun line => line ++ ['\n']

namespace MagicServer

def delHeader : List Char :=
  ("ADDR  \t\tL1_READS \t\tL1_WRITES \t\tL2_READS \t\tL2_WRITES \t\tLIFETIME " ++
    "\t\tAPPROX_ADD \t\tAPPROX_MUL").toList

/-- The file the `SIM_CMD_DEL_APPROX_ADDRS` dump writes, with `mem_footprint/enable` or without. -/
def delDump (m : MagicServer) (mem_footprint : Bool) : List Char :=
  fileText (if mem_footprint then
      delHeader :: m.approx_vars.entries.map fun e => e.2.print e.1
    else ["mem footprint disabled!".toList])

/-- The numbers of a dump are of the types of the source, and the counters are not negative. -/
structure Printable (m : MagicServer) : Prop where
  addr : ∀ a ∈ m.approx_vars.keys, a < 2 ^ 64
  count : ∀ a v, m.approx_vars.find a = some v → ∀ c ∈ AppVar.printed,
    0 ≤ v.footprint c ∧ v.footprint c < 2 ^ 31
  maxlifetime : ∀ a v, m.approx_vars.find a = some v → v.maxlifetime < 2 ^ 64

end MagicServer

namespace ProbabilityAnalysis

/-- The variables the loader of `run.cpp` reads a row into; `δ` is `double`. -/
structure Row (δ : Type) where
  addr : ℕ
  L1_reads : ℕ
  L1_writes : ℕ
  L2_reads : ℕ
  L2_writes : ℕ
  mlifetime : δ
  add_cnt : ℕ
  mul_cnt : ℕ

/-- The `double` of a number, and its product with `1e-9`. -/
structure Doubles (δ : Type) where
  ofNat : ℕ → δ
  nano : δ → δ

variable {δ : Type} (F : Doubles δ)

/-- The variables after the extractions of one turn; `r` has what they held before. -/
def readRow (r : Row δ) (s : TextStream) : Row δ × TextStream :=
  let (s, addr) := s.extract (some (2 ^ 64 - 1))
  let (s, L1_reads) := s.extract (some (2 ^ 31 - 1))
  let (s, L1_writes) := s.extract (some (2 ^ 31 - 1))
  let (s, L2_reads) := s.extract (some (2 ^ 31 - 1))
  let (s, L2_writes) := s.extract (some (2 ^ 31 - 1))
  let (s, mlifetime) := s.extract none
  let (s, add_cnt) := s.extract (some (2 ^ 31 - 1))
  let (s, mul_cnt) := s.extract (some (2 ^ 31 - 1))
  ({ addr := addr.getD r.addr
     L1_reads := L1_reads.getD r.L1_reads
     L1_writes := L1_writes.getD r.L1_writes
     L2_reads := L2_reads.getD r.L2_reads
     L2_writes := L2_writes.getD r.L2_writes
     mlifetime := (mlifetime.map F.ofNat).getD r.mlifetime
     add_cnt := add_cnt.getD r.add_cnt
     mul_cnt := mul_cnt.getD r.mul_cnt }, s)

/-- The record a row becomes: the lifetime is in seconds. -/
def toVar (r : Row δ) : Row δ := { r with mlifetime := F.nano r.mlifetime }

theorem readRow_size (r : Row δ) {s : TextStream} (h : s.good = true) :
    (readRow F r s).2.size < s.size := by
  have h1 := size_extract_lt h (some (2 ^ 64 - 1))
  unfold readRow
  simp only
  refine (size_extract_le _).trans ((size_extract_le _).trans ((size_extract_le _).trans
    ((size_extract_le _).trans ((size_extract_le _).trans ((size_extract_le _).trans
    (size_extract_le _)))))) |>.trans_lt h1

/-- The loop `while (ifs.good())`. What the variables of its `i`-th turn hold before they are read
into is `fresh i`. -/
def loadRows (fresh : ℕ → Row δ) (i : ℕ) (s : TextStream) : List (Row δ) :=
  if h : s.good = true then
    toVar F (readRow F (fresh i) s).1 :: loadRows fresh (i + 1) (readRow F (fresh i) s).2
  else []
termination_by s.size
decreasing_by exact readRow_size F (fresh i) h

/-- The loader: the first line is thrown away. -/
def load (fresh : ℕ → Row δ) (file : List Char) : List (Row δ) :=
  loadRows F fresh 0 ((ofText file).getline 256)

/-- The record of an entry of the registry. -/
def record (addr : ℕ) (v : AppVar) : Row δ where
  addr := addr
  L1_reads := (v.footprint .L1_read_cnt).toNat
  L1_writes := (v.footprint .L1_write_cnt).toNat
  L2_reads := (v.footprint .L2_read_cnt).toNat
  L2_writes := (v.footprint .L2_write_cnt).toNat
  mlifetime := F.nano (F.ofNat v.maxlifetime)
  add_cnt := (v.footprint .approx_add_cnt).toNat
  mul_cnt := (v.footprint .approx_mul_cnt).toNat

/-- The loader gets back from the file of a dump the records of the registry. -/
def RoundTrip (fresh : ℕ → Row δ) (m : MagicServer) : Prop :=
  load F fresh (m.delDump true) = m.approx_vars.entries.map fun e => record F e.1 e.2

/-- The text of a row of natural numbers. -/
def rowOf : List ℕ → List Char
  | [] => []
  | [n] => Nat.toDigits 10 n
  | n :: ns => Nat.toDigits 10 n ++ [' ', '\t', '\t'] ++ rowOf ns

theorem toString_toList (n : ℕ) : (toString (n : ℤ)).toList = Nat.toDigits 10 n := by
  change (Nat.repr n).toList = _
  exact Nat.toList_repr

theorem rowText_eq (ns : List ℕ) : AppVar.rowText (ns.map Int.ofNat) = rowOf ns := by
  unfold AppVar.rowText
  rw [List.map_map]
  induction ns with
  | nil => rfl
  | cons n ns ih =>
    cases ns with
    | nil => simpa [rowOf, List.intercalate] using toString_toList n
    | cons n' ns =>
      simp only [List.map_cons, Function.comp_apply, Int.ofNat_eq_natCast, toString_toList] at ih ⊢
      rw [rowOf, ← ih]
      · simp [List.intercalate]
      · simp

/-- The columns of an entry are natural numbers. -/
theorem columns_eq {m : MagicServer} (hm : m.Printable) {a : ℕ} {v : AppVar}
    (hv : m.approx_vars.find a = some v) : v.columns a = [a,
      (v.footprint .L1_read_cnt).toNat, (v.footprint .L1_write_cnt).toNat,
      (v.footprint .L2_read_cnt).toNat, (v.footprint .L2_write_cnt).toNat, v.maxlifetime,
      (v.footprint .approx_add_cnt).toNat, (v.footprint .approx_mul_cnt).toNat].map Int.ofNat := by
  have hcount : ∀ c ∈ AppVar.printed, Int.ofNat (v.footprint c).toNat = v.footprint c :=
    fun c hc => Int.toNat_of_nonneg (hm.count a v hv c hc).1
  simp only [AppVar.columns, List.map_cons, List.map_nil, hcount .L1_read_cnt (by decide),
    hcount .L1_write_cnt (by decide), hcount .L2_read_cnt (by decide),
    hcount .L2_write_cnt (by decide), hcount .approx_add_cnt (by decide),
    hcount .approx_mul_cnt (by decide)]
  rfl

/-- One turn of the loop reads one row. -/
theorem readRow_print {m : MagicServer} (hm : m.Printable) {a : ℕ} {v : AppVar}
    (hv : m.approx_vars.find a = some v) (fresh : Row δ) {ws : List Char}
    (hws : ∀ c ∈ ws, isSpace c = true) (rest : List Char) :
    toVar F (readRow F fresh (ofText (ws ++ (v.print a ++ '\n' :: rest)))).1 = record F a v ∧
      (readRow F fresh (ofText (ws ++ (v.print a ++ '\n' :: rest)))).2 = ofText ('\n' :: rest) := by
  have ha : ∀ k ∈ some (2 ^ 64 - 1), a ≤ k := by
    intro _ h
    obtain ⟨⟩ := h
    exact Nat.le_sub_one_of_lt (hm.addr a ((SortedMap.find_isSome _).mp (by rw [hv]; rfl)))
  have hcount : ∀ c ∈ AppVar.printed, ∀ k ∈ some (2 ^ 31 - 1), (v.footprint c).toNat ≤ k := by
    intro c hc _ h
    obtain ⟨⟩ := h
    have := (hm.count a v hv c hc).2
    omega
  have hlife : ∀ k ∈ (none : Option ℕ), v.maxlifetime ≤ k := fun _ hk => by cases hk
  have hcolumn : ∀ n max, (∀ k ∈ max, n ≤ k) → ∀ c, c.isDigit = false → ∀ text,
      (ofText (' ' :: '\t' :: '\t' :: (Nat.toDigits 10 n ++ c :: text))).extract max =
        (ofText (c :: text), some n) := by
    intro n max hmax c hc text
    have hblank : ∀ c ∈ [' ', '\t', '\t'], isSpace c = true := by simp [isSpace]
    exact extract_decimal hblank hc hmax
  have hspace : Char.isDigit ' ' = false := by decide
  have hnewline : Char.isDigit '\n' = false := by decide
  have htext : v.print a = rowOf _ := (congrArg AppVar.rowText (columns_eq hm hv)).trans
    (rowText_eq _)
  rw [htext]
  simp only [rowOf, List.append_assoc, List.cons_append, List.nil_append]
  simp only [readRow, extract_decimal hws hspace ha,
    hcolumn _ _ (hcount .L1_read_cnt (by decide)) _ hspace,
    hcolumn _ _ (hcount .L1_write_cnt (by decide)) _ hspace,
    hcolumn _ _ (hcount .L2_read_cnt (by decide)) _ hspace,
    hcolumn _ _ (hcount .L2_write_cnt (by decide)) _ hspace,
    hcolumn _ _ hlife _ hspace,
    hcolumn _ _ (hcount .approx_add_cnt (by decide)) _ hspace,
    hcolumn _ _ (hcount .approx_mul_cnt (by decide)) _ hnewline, and_true]
  rfl

/-- The turn after the last row reads nothing. -/
theorem readRow_end (fresh : Row δ) {ws : List Char} (hws : ∀ c ∈ ws, isSpace c = true) :
    (readRow F fresh (ofText ws)).1 = fresh ∧ (readRow F fresh (ofText ws)).2.good = false := by
  have hbad : (⟨[], true, true⟩ : TextStream).good = false := rfl
  simp only [readRow, extract_blank hws, extract_of_not_good hbad]
  exact ⟨rfl, rfl⟩

/-- The loop reads all rows, and then one that is not there. -/
theorem loadRows_rows {m : MagicServer} (hm : m.Printable) (fresh : ℕ → Row δ)
    (entries : List (ℕ × AppVar)) : ∀ (i : ℕ) (ws : List Char), (∀ c ∈ ws, isSpace c = true) →
    (∀ e ∈ entries, m.approx_vars.find e.1 = some e.2) →
    loadRows F fresh i (ofText (ws ++ fileText (entries.map fun e => e.2.print e.1))) =
      entries.map (fun e => record F e.1 e.2) ++ [toVar F (fresh (i + entries.length))] := by
  induction entries with
  | nil =>
    intro i ws hws _
    have hblank : ∀ c ∈ ws ++ [], isSpace c = true := by simpa using hws
    obtain ⟨h1, h2⟩ := readRow_end F (fresh i) hblank
    rw [loadRows, dif_pos (show (ofText _).good = true from rfl)]
    change toVar F (readRow F (fresh i) (ofText (ws ++ []))).1 ::
      loadRows F fresh (i + 1) (readRow F (fresh i) (ofText (ws ++ []))).2 = _
    rw [h1, loadRows, dif_neg (by rw [h2]; decide)]
    rfl
  | cons e entries ih =>
    intro i ws hws hmem
    have hsplit : ws ++ fileText ((e :: entries).map fun e => e.2.print e.1) =
        ws ++ (e.2.print e.1 ++ '\n' :: fileText (entries.map fun e => e.2.print e.1)) := by
      simp [fileText]
    obtain ⟨h1, h2⟩ := readRow_print F hm (hmem e (by simp)) (fresh i) hws
      (fileText (entries.map fun e => e.2.print e.1))
    rw [hsplit, loadRows, dif_pos (show (ofText _).good = true from rfl), h1, h2]
    have hrest := ih (i + 1) ['\n'] (by simp [isSpace]) fun e' he' => hmem e' (by simp [he'])
    rw [List.singleton_append] at hrest
    rw [hrest, List.map_cons, List.cons_append, List.length_cons, Nat.add_right_comm, Nat.add_assoc]

/-- The loader returns one record more than the dump has rows. -/
theorem load_delDump {m : MagicServer} (hm : m.Printable) (fresh : ℕ → Row δ) :
    load F fresh (m.delDump true) = m.approx_vars.entries.map (fun e => record F e.1 e.2) ++
      [toVar F (fresh m.approx_vars.entries.length)] := by
  have hfile : m.delDump true = MagicServer.delHeader ++
      '\n' :: fileText (m.approx_vars.entries.map fun e => e.2.print e.1) := by
    simp [MagicServer.delDump, fileText]
  have hmem : ∀ e ∈ m.approx_vars.entries, m.approx_vars.find e.1 = some e.2 := by
    intro e he
    obtain ⟨hk, hv⟩ := (SortedMap.mem_entries _).mp he
    rw [hv]
    exact SortedMap.find_of_mem _ hk
  unfold load
  rw [hfile, getline_line (by decide) (by decide)]
  have hrows := loadRows_rows F hm fresh m.approx_vars.entries 0 [] (by simp) hmem
  rwa [List.nil_append, Nat.zero_add] at hrows

end ProbabilityAnalysis

open ProbabilityAnalysis in
/-- No dump is read back as it was written: there is always a record too many. -/
theorem approxLog_never_roundTrip {δ : Type} (F : Doubles δ) (fresh : ℕ → Row δ) (m : MagicServer)
    (hm : m.Printable) : ¬RoundTrip F fresh m ∧
      (load F fresh (m.delDump true)).length = m.approx_vars.entries.length + 1 := by
  have hload := load_delDump F hm fresh
  constructor
  · intro h
    rw [RoundTrip, hload] at h
    simpa using congrArg List.length h
  · rw [hload]
    simp

namespace ProbabilityAnalysis

/-- A registry of one address. -/
def oneAddr : MagicServer := (MagicServer.init.addApprox 64 0).1

theorem find_oneAddr {a : ℕ} {v : AppVar} (h : oneAddr.approx_vars.find a = some v) :
    v = .create := by
  have ha : a ∈ oneAddr.approx_vars.keys := (SortedMap.find_isSome _).mp (by rw [h]; rfl)
  have hkeys : oneAddr.approx_vars.keys = {64} := rfl
  rw [hkeys, Finset.mem_singleton] at ha
  subst ha
  exact (Option.some.inj h).symm

theorem oneAddr_printable : oneAddr.Printable where
  addr := by decide
  count a v hv c _ := by
    rw [find_oneAddr hv]
    exact ⟨le_refl 0, show (0 : ℤ) < 2 ^ 31 by decide⟩
  maxlifetime a v hv := by
    rw [find_oneAddr hv]
    decide

end ProbabilityAnalysis

open ProbabilityAnalysis in
theorem approxLog_never_roundTrip_oneAddr : oneAddr.Printable ∧
    ¬RoundTrip (⟨id, id⟩ : Doubles ℕ) (fun _ => ⟨0, 0, 0, 0, 0, 0, 0, 0⟩) oneAddr ∧
      (load (⟨id, id⟩ : Doubles ℕ) (fun _ => ⟨0, 0, 0, 0, 0, 0, 0, 0⟩)
        (oneAddr.delDump true)).length = oneAddr.approx_vars.entries.length + 1 :=
  ⟨oneAddr_printable, approxLog_never_roundTrip ⟨id, id⟩ _ oneAddr oneAddr_printable⟩

namespace ProbabilityAnalysis

/-- The variables of the loader: what an earlier turn left in them, but for the first. -/
def leftOver (i : ℕ) : Row ℕ := ⟨if i = 0 then 0 else 64, 0, 0, 0, 0, 0, 0, 0⟩

end ProbabilityAnalysis

open ProbabilityAnalysis in
/-- The one row comes back as two records. -/
theorem approxLog_one_row_two_records : oneAddr.Printable ∧
    ¬RoundTrip (⟨id, id⟩ : Doubles ℕ) leftOver oneAddr ∧
    load (⟨id, id⟩ : Doubles ℕ) leftOver (oneAddr.delDump true) =
      [⟨64, 0, 0, 0, 0, 0, 0, 0⟩, ⟨64, 0, 0, 0, 0, 0, 0, 0⟩] := by
  have hentries : oneAddr.approx_vars.entries = [(64, .create)] := by
    have hkeys : oneAddr.approx_vars.keys = {64} := rfl
    rw [SortedMap.entries, hkeys, Finset.sort_singleton]
    rfl
  have hload := load_delDump (⟨id, id⟩ : Doubles ℕ) oneAddr_printable leftOver
  rw [hentries] at hload
  refine ⟨oneAddr_printable, ?_, hload⟩
  rw [RoundTrip, hload, hentries]
  exact fun h => absurd (congrArg List.length h) (by decide)

end Sniper
