import Sniper.Library.ForLoop
import Sniper.BlockWalk

namespace Sniper
open ForLoop

namespace MagicServer

/-- The variables of the second loop of `update_liftime`, and the bytes that it has settled. -/
structure Walk where
  it : Option ℕ
  realend : Bool
  vars : SortedMap ℕ AppVar
  settled : List ℕ

def Walk.start (m : MagicServer) (address : ℕ) : Walk :=
  ⟨m.approx_vars.iter address, false, m.approx_vars, []⟩

/-- A turn of the loop, which returns when it is `really the end`. -/
def walkBody (RW : Bool) (address block_size i : ℕ) (s : Walk) : Except Walk Walk :=
  match s.it with
  | none =>
    if s.realend then .error s
    else .ok { s with it := s.vars.iter ((address + i) % 2 ^ 64) }
  | some a =>
    if address ≤ a ∧ a < (address + block_size) % 2 ^ 64 then
      .ok
        { it := s.vars.next a
          realend := true
          vars := s.vars.modify a fun v => v.settle RW
          settled := s.settled ++ [a] }
    else .ok { s with it := s.vars.next a }

/-- The variables at the end of the loop, or where it returns. -/
def Walk.last : Except Walk Walk → Walk
  | .ok s | .error s => s

/-- `update_liftime` with the `unsigned int` index of its second loop, and what it returns. -/
def updateLiftimeLoop (m : MagicServer) (address now lpacc : ℕ) (RW : Bool) (block_size fuel : ℕ) :
    Option (Walk × Bool) :=
  let inter := if lpacc ≤ now then now - lpacc else lpacc - now
  let m := m.raisePage address inter
  if m.Outside address block_size then some (.start m address, false)
  else (forLoop 32 (fun i => i ≤ block_size) (walkBody RW address block_size) fuel 0
    (.start m address)).map fun r => (Walk.last r, true)

/-- The walk has settled the registered bytes of the block, each of them once, as a scan does that
looks up one byte after the other. -/
structure Scanned (m : MagicServer) (RW : Bool) (address block_size : ℕ) (s : Walk) : Prop where
  settled : s.settled =
    ((List.range block_size).map (address + ·)).filter (· ∈ m.approx_vars.keys)
  vars : s.vars = (List.range block_size).foldl
    (fun vars i => vars.modify (address + i) fun v => v.settle RW) m.approx_vars

section walk

variable {RW : Bool} {address block_size : ℕ} (hwrap : address + block_size < 2 ^ 64)

/-- From a turn on the loop settles these bytes and ends. -/
def Settles (RW : Bool) (address block_size i : ℕ) (s : Walk) (bytes : List ℕ) : Prop :=
  ∃ r, Ends 32 (fun i => i ≤ block_size) (walkBody RW address block_size) i s r ∧
    (Walk.last r).vars = bytes.foldl (fun vars a => vars.modify a fun v => v.settle RW) s.vars ∧
    (Walk.last r).settled = s.settled ++ bytes

variable {i a : ℕ} {s s' : Walk} {bytes : List ℕ}

theorem Settles.done (h : ¬i ≤ block_size) : Settles RW address block_size i s [] :=
  ⟨.ok s, .stop (decide_eq_false h), rfl, (List.append_nil _).symm⟩

/-- A turn that settles nothing. -/
theorem Settles.skip (hi : i ≤ block_size) (hb : walkBody RW address block_size i s = .ok s')
    (hvars : s'.vars = s.vars) (hsettled : s'.settled = s.settled)
    (h : Settles RW address block_size ((i + 1) % 2 ^ 32) s' bytes) :
    Settles RW address block_size i s bytes := by
  obtain ⟨r, hends, h1, h2⟩ := h
  exact ⟨r, .turn (decide_eq_true hi) hb hends, by rw [h1, hvars], by rw [h2, hsettled]⟩

include hwrap in
theorem Settles.settle (hi : i ≤ block_size) (hit : s.it = some a) (h1 : address ≤ a)
    (h2 : a < address + block_size) (h : Settles RW address block_size ((i + 1) % 2 ^ 32)
      ⟨s.vars.next a, true, s.vars.modify a fun v => v.settle RW, s.settled ++ [a]⟩ bytes) :
    Settles RW address block_size i s (a :: bytes) := by
  obtain ⟨r, hends, hvars, hsettled⟩ := h
  refine ⟨r, .turn (decide_eq_true hi) ?_ hends, hvars, ?_⟩
  · unfold walkBody
    simp only [hit, Nat.mod_eq_of_lt hwrap]
    rw [if_pos ⟨h1, h2⟩]
  · rw [hsettled, List.append_assoc]
    rfl

/-- `really the end`. -/
theorem Settles.return (hend : s.realend = true) (hit : s.it = none) :
    Settles RW address block_size i s [] := by
  by_cases hi : i ≤ block_size
  · refine ⟨.error s, .ret (decide_eq_true hi) ?_, rfl, (List.append_nil _).symm⟩
    unfold walkBody
    rw [hit]
    exact if_pos hend
  · exact .done hi

include hwrap in
/-- Past the block the walk comes to the end of the entries. -/
theorem settles_past : ∀ {n i : ℕ} {s : Walk}, s.realend = true →
    (∀ a, s.it = some a → address + block_size ≤ a ∧ (s.vars.keys.filter (a < ·)).card < n) →
    Settles RW address block_size i s [] := by
  intro n
  induction n with
  | zero =>
    intro i s hend hit
    apply Settles.return hend
    rw [Option.eq_none_iff_forall_not_mem]
    exact fun a ha => Nat.not_lt_zero _ (hit a ha).2
  | succ n ih =>
    intro i s hend hit
    cases h : s.it with
    | none => exact .return hend h
    | some a =>
      obtain ⟨ha, hcard⟩ := hit a h
      have hb : walkBody RW address block_size i s = .ok { s with it := s.vars.next a } := by
        unfold walkBody
        simp only [h, Nat.mod_eq_of_lt hwrap]
        rw [if_neg (by omega)]
      by_cases hi : i ≤ block_size
      · apply Settles.skip hi hb rfl rfl
        apply ih
        · exact hend
        · intro a' ha'
          have hlt := s.vars.card_next_lt ha'
          have hnext := (s.vars.next_eq_some ha').2.1
          exact ⟨by omega, by simp only; omega⟩
      · exact .done hi

include hwrap in
/-- From a registered byte of the block the walk settles those from it on. -/
theorem settles_walk : ∀ {n i a : ℕ} {s : Walk}, s.it = some a → a ∈ s.vars.keys → address ≤ a →
    a < address + block_size → i ≤ a - address + 1 → address + block_size ≤ a + n →
    Settles RW address block_size i s (s.vars.keysIn a (address + block_size)) := by
  intro n
  induction n with
  | zero => exact fun _ _ _ _ _ _ => by omega
  | succ n ih =>
    intro i a s hit hmem h1 h2 hi hn
    rw [SortedMap.keysIn_of_mem hmem h2]
    apply Settles.settle hwrap (by omega) hit h1 h2
    have hindex : (i + 1) % 2 ^ 32 ≤ i + 1 := Nat.mod_le _ _
    -- the entry after `a` is missing, in the block, or past it
    cases hnext : s.vars.next a with
    | none =>
      have hnone : s.vars.keysIn (a + 1) (address + block_size) = [] := by
        apply SortedMap.keysIn_eq_nil
        intro c hc hac
        have := s.vars.next_eq_none.mp hnext c hc
        omega
      rw [hnone]
      exact settles_past hwrap (n := 0) rfl fun _ h => by cases h
    | some a' =>
      obtain ⟨hmem', hlt, hleast⟩ := s.vars.next_eq_some hnext
      by_cases ha' : a' < address + block_size
      · rw [SortedMap.keysIn_skip hlt ha'.le fun c hc hac => hleast c hc hac]
        have hkeys : (s.vars.modify a fun v => v.settle RW).keysIn a' (address + block_size) =
            s.vars.keysIn a' (address + block_size) := by
          unfold SortedMap.keysIn
          rw [SortedMap.keys_modify]
        rw [← hkeys]
        apply ih rfl
        · rwa [SortedMap.keys_modify]
        · omega
        · exact ha'
        · omega
        · omega
      · have hnone : s.vars.keysIn (a + 1) (address + block_size) = [] := by
          apply SortedMap.keysIn_eq_nil
          intro c hc hac
          have := hleast c hc hac
          omega
        rw [hnone]
        apply settles_past hwrap (n := (s.vars.keys.filter (a' < ·)).card + 1) rfl
        intro c hc
        cases hc
        simp only [SortedMap.keys_modify]
        omega

include hwrap in
theorem walkBody_probe (hi : i ≤ block_size) (hit : s.it = none) (hend : s.realend = false) :
    walkBody RW address block_size i s = .ok { s with it := s.vars.iter (address + i) } := by
  unfold walkBody
  simp only [hit, hend, Nat.mod_eq_of_lt (show address + i < 2 ^ 64 by omega)]
  rfl

include hwrap in
/-- The search finds the first registered byte of a block that has one. -/
theorem settles_search (hbs : block_size < 2 ^ 32) {b : ℕ} : ∀ {n i : ℕ} {s : Walk}, s.it = none →
    s.realend = false → b ∈ s.vars.keys → b < address + block_size → address + i + n = b →
    Settles RW address block_size i s (s.vars.keysIn (address + i) (address + block_size)) := by
  intro n
  induction n with
  | zero =>
    intro i s hit hend hmem hb hi
    rw [Nat.add_zero] at hi
    apply Settles.skip (by omega) (walkBody_probe hwrap (by omega) hit hend) rfl rfl
    apply settles_walk hwrap (n := block_size)
    · rw [hi]
      exact if_pos hmem
    · rwa [hi]
    · omega
    · omega
    · have := Nat.mod_le (i + 1) (2 ^ 32)
      omega
    · omega
  | succ n ih =>
    intro i s hit hend hmem hb hi
    apply Settles.skip (by omega) (walkBody_probe hwrap (by omega) hit hend) rfl rfl
    have hindex : (i + 1) % 2 ^ 32 = i + 1 := Nat.mod_eq_of_lt (by omega)
    by_cases hfound : address + i ∈ s.vars.keys
    · apply settles_walk hwrap (n := block_size)
      · exact if_pos hfound
      · exact hfound
      · omega
      · omega
      · omega
      · omega
    · rw [hindex, SortedMap.keysIn_skip (k := address + (i + 1)) (by omega) (by omega)]
      · exact ih (if_neg hfound) hend hmem hb (by omega)
      · intro c hc hle
        by_contra hlt
        obtain rfl : c = address + i := by omega
        exact hfound hc

/-- The variables while the walk has found nothing. -/
structure Searching (keys : Finset ℕ) (s : Walk) : Prop where
  realend : s.realend = false
  same : s.vars.keys = keys
  it : ∀ a, s.it = some a → a ∈ keys

include hwrap in
/-- No turn returns or settles anything when no byte of the block is registered. -/
theorem Searching.turn {keys : Finset ℕ} (h : Searching keys s)
    (hnone : ∀ b ∈ keys, address ≤ b → address + block_size ≤ b) (hi : i ≤ block_size) :
    ∃ it, walkBody RW address block_size i s = .ok { s with it := it } ∧
      Searching keys { s with it := it } := by
  cases hit : s.it with
  | none =>
    refine ⟨_, walkBody_probe hwrap hi hit h.realend, h.realend, h.same, ?_⟩
    intro a ha
    unfold SortedMap.iter at ha
    split at ha
    · rename_i hmem
      cases ha
      rwa [← h.same]
    · cases ha
  | some a =>
    refine ⟨s.vars.next a, ?_, h.realend, h.same, ?_⟩
    · have := hnone a (h.it a hit)
      unfold walkBody
      simp only [hit, Nat.mod_eq_of_lt hwrap]
      rw [if_neg (by omega)]
    · intro a' ha'
      rw [← h.same]
      exact (s.vars.next_eq_some ha').1

include hwrap in
theorem settles_nothing {keys : Finset ℕ} (hbs : block_size + 1 < 2 ^ 32)
    (hnone : ∀ b ∈ keys, address ≤ b → address + block_size ≤ b) : ∀ {n i : ℕ} {s : Walk},
    Searching keys s → i + n = block_size + 1 → Settles RW address block_size i s [] := by
  intro n
  induction n with
  | zero => exact fun _ hi => .done (by omega)
  | succ n ih =>
    intro i s hs hi
    obtain ⟨it, hb, hs'⟩ := hs.turn hwrap hnone (show i ≤ block_size by omega)
    apply Settles.skip (by omega) hb rfl rfl
    rw [Nat.mod_eq_of_lt (by omega)]
    exact ih hs' (by omega)

include hwrap in
/-- An index that is never greater than the block size. -/
theorem not_settles {keys : Finset ℕ} (hbs : block_size = 2 ^ 32 - 1)
    (hnone : ∀ b ∈ keys, address ≤ b → address + block_size ≤ b) (hs : Searching keys s)
    (r : Except Walk Walk) :
    ¬Ends 32 (fun i => i ≤ block_size) (walkBody RW address block_size) 0 s r := by
  apply not_ends (I := fun i s => i < 2 ^ 32 ∧ Searching keys s) _ ⟨by decide, hs⟩
  intro i s h
  obtain ⟨hi, hs⟩ := h
  obtain ⟨it, hb, hs'⟩ := hs.turn hwrap hnone (show i ≤ block_size by omega)
  exact ⟨decide_eq_true (by omega), _, hb, Nat.mod_lt _ (by decide), hs'⟩

end walk

theorem outside_raisePage {m : MagicServer} {address n : ℕ} (inter : ℕ) :
    (m.raisePage address inter).Outside address n ↔ m.Outside address n := Iff.rfl

theorem Searching.start (m : MagicServer) (address : ℕ) :
    Searching m.approx_vars.keys (.start m address) := by
  refine ⟨rfl, rfl, ?_⟩
  intro a ha
  simp only [Walk.start, SortedMap.iter] at ha
  split at ha
  · cases ha
    assumption
  · cases ha

/-- Which registered bytes a scan of the block settles. -/
theorem filter_range_map (m : MagicServer) (address n : ℕ) :
    ((List.range n).map (address + ·)).filter (· ∈ m.approx_vars.keys) =
      m.approx_vars.keysIn address (address + n) := by
  rw [SortedMap.keysIn, Nat.add_sub_cancel_left, List.range'_eq_map_range]

theorem Settles.scanned {m : MagicServer} {RW : Bool} {address block_size : ℕ}
    {r : Except Walk Walk}
    (hvars : (Walk.last r).vars = (m.approx_vars.keysIn address (address + block_size)).foldl
      (fun vars a => vars.modify a fun v => v.settle RW) m.approx_vars)
    (hsettled : (Walk.last r).settled =
      [] ++ m.approx_vars.keysIn address (address + block_size)) :
    Scanned m RW address block_size (Walk.last r) := by
  refine ⟨?_, ?_⟩
  · rw [hsettled, filter_range_map, List.nil_append]
  · rw [hvars, ← SortedMap.modifyRange_eq]
    rfl

/-- Where no byte is registered, a scan changes nothing. -/
theorem scanned_start {m : MagicServer} {RW : Bool} {address block_size : ℕ}
    (h : m.approx_vars.keysIn address (address + block_size) = []) :
    Scanned m RW address block_size (.start m address) := by
  refine ⟨?_, ?_⟩
  · rw [filter_range_map, h]
    rfl
  · have hvars : m.approx_vars.modifyRange address block_size (fun v => v.settle RW) = _ :=
      SortedMap.modifyRange_eq block_size
    rw [h] at hvars
    exact hvars.symm

/-- The whole walk, except where its index is never greater than the block size and it finds
nothing. -/
theorem settles_block {m : MagicServer} (RW : Bool) {address block_size : ℕ}
    (hwrap : address + block_size < 2 ^ 64) (hbs : block_size < 2 ^ 32)
    (h : block_size = 2 ^ 32 - 1 →
      ∃ b ∈ m.approx_vars.keys, address ≤ b ∧ b < address + block_size) :
    Settles RW address block_size 0 (.start m address)
      (m.approx_vars.keysIn address (address + block_size)) := by
  by_cases hsome : ∃ b ∈ m.approx_vars.keys, address ≤ b ∧ b < address + block_size
  · obtain ⟨b, hb, hle, hlt⟩ := hsome
    by_cases hfirst : address ∈ m.approx_vars.keys
    · exact settles_walk hwrap (n := block_size) (if_pos hfirst) hfirst le_rfl (by omega)
        (Nat.zero_le _) le_rfl
    · exact settles_search hwrap hbs (n := b - address) (if_neg hfirst) rfl hb hlt (by omega)
  · have hpast : ∀ b ∈ m.approx_vars.keys, address ≤ b → address + block_size ≤ b := by
      intro b hb hle
      by_contra hlt
      exact hsome ⟨b, hb, hle, not_le.mp hlt⟩
    have hmax : block_size ≠ 2 ^ 32 - 1 := fun hmax => hsome (h hmax)
    rw [SortedMap.keysIn_eq_nil hpast]
    exact settles_nothing hwrap (by omega) hpast (.start m address) (Nat.zero_add _)

theorem ends_settles {m : MagicServer} {RW : Bool} {address block_size : ℕ}
    (hwrap : address + block_size < 2 ^ 64) {r : Except Walk Walk}
    (hends : Ends 32 (fun i => i ≤ block_size) (walkBody RW address block_size) 0
      (.start m address) r) (hmax : block_size = 2 ^ 32 - 1) :
    ∃ b ∈ m.approx_vars.keys, address ≤ b ∧ b < address + block_size := by
  by_contra hnone
  apply not_settles hwrap hmax _ (.start m address) r hends
  intro b hb hle
  by_contra hlt
  exact hnone ⟨b, hb, hle, not_le.mp hlt⟩

/-- Where the loop of the source ends, it leaves the registry of `updateLiftime`. -/
theorem updateLiftimeLoop_eq {m : MagicServer} {address now lpacc block_size fuel : ℕ}
    {RW ret : Bool}
    {s : Walk} (hbs : block_size < 2 ^ 32) (hwrap : address + block_size < 2 ^ 64)
    (h : m.updateLiftimeLoop address now lpacc RW block_size fuel = some (s, ret)) :
    ret = (m.updateLiftime address now lpacc RW block_size).2 ∧ ∀ b, s.vars.find b =
      (m.updateLiftime address now lpacc RW block_size).1.approx_vars.find b := by
  have hout : (m.raisePage address (if lpacc ≤ now then now - lpacc else lpacc - now)).Outside
      address block_size ↔ m.Outside address block_size := outside_raisePage _
  unfold updateLiftimeLoop at h
  unfold updateLiftime
  simp only [← hout] at h ⊢
  generalize m.raisePage address (if lpacc ≤ now then now - lpacc else lpacc - now) = m' at *
  by_cases hskip : m'.Outside address block_size
  · rw [if_pos hskip] at h ⊢
    cases h
    exact ⟨rfl, fun _ => rfl⟩
  · rw [if_neg hskip, Option.map_eq_some_iff] at h
    obtain ⟨r, hr, he⟩ := h
    cases he
    rw [if_neg hskip]
    refine ⟨rfl, ?_⟩
    intro b
    obtain ⟨r', hends, hvars, -⟩ := settles_block RW hwrap hbs (ends_settles hwrap ⟨fuel, hr⟩)
    have hscan : m'.approx_vars.modifyRange address block_size (fun v => v.settle RW) =
        (Walk.last r').vars := (SortedMap.modifyRange_eq block_size).trans hvars.symm
    rw [Ends.unique ⟨fuel, hr⟩ hends, find_settleAccess hwrap, ← hscan, SortedMap.find_modifyRange]

/-- With nothing to find, the loop over a block of `UINT32_MAX` bytes does not end. -/
theorem updateLiftimeLoop_none {m : MagicServer} {address now lpacc block_size : ℕ} {RW : Bool}
    (hwrap : address + block_size < 2 ^ 64) (hmax : block_size = 2 ^ 32 - 1)
    (hout : ¬m.Outside address block_size)
    (hnone : ∀ b ∈ m.approx_vars.keys, address ≤ b → address + block_size ≤ b) (fuel : ℕ) :
    m.updateLiftimeLoop address now lpacc RW block_size fuel = none := by
  have hout' : ¬(m.raisePage address (if lpacc ≤ now then now - lpacc else lpacc - now)).Outside
      address block_size := fun h => hout ((outside_raisePage _).mp h)
  have hkeys :
      (m.raisePage address (if lpacc ≤ now then now - lpacc else lpacc - now)).approx_vars.keys =
      m.approx_vars.keys := SortedMap.keys_modifyRange _
  unfold updateLiftimeLoop
  simp only
  generalize m.raisePage address (if lpacc ≤ now then now - lpacc else lpacc - now) = m' at *
  rw [if_neg hout', Option.map_eq_none_iff]
  by_contra h
  obtain ⟨r, hr⟩ := Option.ne_none_iff_exists'.mp h
  obtain ⟨b, hb, hle, hlt⟩ := ends_settles hwrap ⟨fuel, hr⟩ hmax
  rw [hkeys] at hb
  exact absurd (hnone b hb hle) (not_le.mpr hlt)

end MagicServer

open MagicServer in
/-- The walk ends and does what the scan of the block does, but for one block size: with
`UINT32_MAX` the index is never greater, and the loop ends only when it finds a registered byte. -/
theorem liftimeWalk_scans_iff (m : MagicServer) (address now lpacc : ℕ) (RW : Bool) (block_size : ℕ)
    (hbs : block_size < 2 ^ 32) (hwrap : address + block_size < 2 ^ 64) :
    (∃ fuel s ret, m.updateLiftimeLoop address now lpacc RW block_size fuel = some (s, ret) ∧
      Scanned (m.raisePage address (Nat.dist now lpacc)) RW address block_size s) ↔
    (block_size = 2 ^ 32 - 1 → m.Outside address block_size ∨
      ∃ b ∈ m.approx_vars.keys, address ≤ b ∧ b < address + block_size) := by
  have hinter : (if lpacc ≤ now then now - lpacc else lpacc - now) = Nat.dist now lpacc := by
    unfold Nat.dist
    split <;> omega
  unfold updateLiftimeLoop
  simp only [hinter]
  generalize hm : m.raisePage address (Nat.dist now lpacc) = m'
  have hout : m'.Outside address block_size ↔ m.Outside address block_size := by
    rw [← hm]
    exact outside_raisePage _
  have hkeys : ∀ b, b ∈ m.approx_vars.keys ↔ b ∈ m'.approx_vars.keys := by
    intro b
    rw [← hm, mem_raisePage]
  rw [← hout]
  simp only [hkeys]
  clear hout hkeys hm
  constructor
  · intro h' hmax
    obtain ⟨fuel, s, ret, hrun, -⟩ := h'
    by_contra h
    rw [not_or] at h
    rw [if_neg h.1, Option.map_eq_some_iff] at hrun
    obtain ⟨r, hr, -⟩ := hrun
    exact h.2 (ends_settles hwrap ⟨fuel, hr⟩ hmax)
  · intro h
    by_cases hout : m'.Outside address block_size
    · have hnone : m'.approx_vars.keysIn address (address + block_size) = [] := by
        apply SortedMap.keysIn_eq_nil
        intro b hb hle
        by_contra hlt
        exact hout.notMem hwrap hle (not_le.mp hlt) hb
      refine ⟨0, .start m' address, false, if_pos hout, ?_⟩
      exact scanned_start hnone
    · have hsettles : Settles RW address block_size 0 (.start m' address)
          (m'.approx_vars.keysIn address (address + block_size)) :=
        settles_block _ hwrap hbs fun hmax => (h hmax).resolve_left hout
      obtain ⟨r, ⟨fuel, hr⟩, hvars, hsettled⟩ := hsettles
      refine ⟨fuel, Walk.last r, true, ?_, Settles.scanned hvars hsettled⟩
      rw [if_neg hout, hr]
      rfl

open MagicServer in
theorem liftimeWalk_scans_iff_hole : ∃ fuel s ret,
    (MagicServer.init.addApprox 65 0).1.updateLiftimeLoop 64 10 3 true 64 fuel = some (s, ret) ∧
      Scanned ((MagicServer.init.addApprox 65 0).1.raisePage 64 (Nat.dist 10 3)) true 64 64 s :=
  (liftimeWalk_scans_iff (MagicServer.init.addApprox 65 0).1 64 10 3 true 64 (by decide)
    (by decide)).mpr fun h => absurd h (by decide)

/-- Bytes are registered on both sides of the block, and none in it. -/
def MagicServer.farApart : MagicServer :=
  ((MagicServer.init.addApprox 0 0).1.addApprox (2 ^ 40) 0).1

open MagicServer in
/-- The loop over that block does not end. -/
theorem liftimeWalk_runs_on :
    (∀ fuel, farApart.updateLiftimeLoop (2 ^ 32) 10 3 true (2 ^ 32 - 1) fuel = none) ∧
    ¬∃ fuel s ret, farApart.updateLiftimeLoop (2 ^ 32) 10 3 true (2 ^ 32 - 1) fuel = some (s, ret) ∧
      Scanned (farApart.raisePage (2 ^ 32) (Nat.dist 10 3)) true (2 ^ 32) (2 ^ 32 - 1) s := by
  have hkeys : ∀ b ∈ farApart.approx_vars.keys, 2 ^ 32 ≤ b → 2 ^ 32 + (2 ^ 32 - 1) ≤ b := by
    intro b hb hle
    rcases (mem_addApprox 0).mp hb with rfl | hb
    · decide
    · rcases (mem_addApprox 0).mp hb with rfl | hb
      · exact absurd hle (by decide)
      · cases hb
  have hnone : ∀ fuel,
      farApart.updateLiftimeLoop (2 ^ 32) 10 3 true (2 ^ 32 - 1) fuel = none :=
    updateLiftimeLoop_none (by decide) rfl (by decide) hkeys
  refine ⟨hnone, ?_⟩
  intro h
  obtain ⟨fuel, s, ret, hrun, -⟩ := h
  rw [hnone fuel] at hrun
  cases hrun

end Sniper
