import Sniper.Appmul
import Sniper.ApproxLog
import Sniper.RangeRegistration
import Sniper.Rapcla
import Sniper.ReadSegments

namespace Sniper
open ForLoop

/-- The names of `fault_injection/injector` that the commands ask for. -/
inductive InjectorName where
  | none | random | other
deriving DecidableEq

/-- The configuration as the commands read it; `roi_magic` stands for `ROI_MAGIC`. -/
structure MagicConfig where
  roi_magic : Bool
  injector : InjectorName
  mem_footprint : Bool
  mul16x16 : ℤ → ℤ → ℤ → ℤ

inductive MagicCommand where
  | roiToggle
  | roiStart
  | roiEnd
  | marker (arg0 arg1 : ℕ)
  | addApproxAddrs (arg0 arg1 : ℕ)
  | delApproxAddrs (arg0 arg1 : ℕ)
  | addOp (arg0 arg1 : ℕ)
  | addCnt (arg0 arg1 : ℕ)
  | mulOp (arg0 arg1 : ℕ)
  | mulCnt (arg0 arg1 : ℕ)
deriving DecidableEq

/-- The two commands that write `approx.log`. -/
inductive LogKind where
  | marker | del
deriving DecidableEq

/-- The hooks around the region of interest. -/
inductive RoiHook where
  | roiBegin | roiEnd
deriving DecidableEq

/-- The server, with the static variables of its commands. -/
structure MagicState where
  server : MagicServer
  m_performance_enabled : Bool
  approx_adds : ℕ
  approx_muls : ℕ
  log_file_opened : LogKind → Bool
  /-- The text of `approx.log`, once there is one. -/
  approx_log : Option (List Char)
  /-- The hooks called so far. -/
  hooks : List RoiHook

def markerHeader : List Char :=
  ("ADDR  \t\tL1_READS(0) \t\tL1_WRITES(0) \t\tL1_READS(1) \t\tL1_WRITES(1) \t\tL1_READS(2) " ++
    "\t\tL1_WRITES(2) \t\tL1_READS(3) \t\tL1_WRITES(3) \t\tL2_READS \t\tL2_WRITES \t\tLIFETIME").toList

/-- The file the `SIM_CMD_MARKER` dump writes. -/
def MagicServer.markerDump (m : MagicServer) (mem_footprint : Bool) : List Char :=
  fileText (if mem_footprint then
      markerHeader :: m.upsaveAll.approx_vars.entries.map fun e => e.2.print e.1
    else ["mem footprint disabled!".toList])

def LogKind.text (k : LogKind) (m : MagicServer) (mem_footprint : Bool) : List Char :=
  match k with
  | .marker => m.markerDump mem_footprint
  | .del => m.delDump mem_footprint

namespace MagicServer

variable (m : MagicServer) (arg0 arg1 : ℕ)

/-- What the loop of `SIM_CMD_ADD_APPROX_ADDRS` leaves. -/
def addRange : MagicServer :=
  (List.range arg1).foldl (fun m i => (m.addApprox ((arg0 + i) % 2 ^ 64) 0).1) m

def delRange : MagicServer :=
  (List.range arg1).foldl (fun m i => (m.delApprox ((arg0 + i) % 2 ^ 64)).1) m

variable {m arg0 arg1} {m' : MagicServer}

theorem addEnds_iff : m.AddEnds arg0 arg1 m' ↔ arg1 < 2 ^ 32 ∧ m' = m.addRange arg0 arg1 := by
  have hbelow : arg1 < 2 ^ 32 → m.AddEnds arg0 arg1 (m.addRange arg0 arg1) :=
    fun h => ends_below h _ m
  constructor
  · intro h
    have hlt : arg1 < 2 ^ 32 := by
      by_contra hlong
      exact not_ends_above (by omega) _ m h
    exact ⟨hlt, Except.ok.inj (Ends.unique h (hbelow hlt))⟩
  · intro h
    rw [h.2]
    exact hbelow h.1

theorem delEnds_iff : m.DelEnds arg0 arg1 m' ↔ arg1 < 2 ^ 32 ∧ m' = m.delRange arg0 arg1 := by
  have hbelow : arg1 < 2 ^ 32 → m.DelEnds arg0 arg1 (m.delRange arg0 arg1) :=
    fun h => ends_below h _ m
  constructor
  · intro h
    have hlt : arg1 < 2 ^ 32 := by
      by_contra hlong
      exact not_ends_above (by omega) _ m h
    exact ⟨hlt, Except.ok.inj (Ends.unique h (hbelow hlt))⟩
  · intro h
    rw [h.2]
    exact hbelow h.1

end MagicServer

namespace MagicState

variable (cfg : MagicConfig) (S : MagicState)

/-- `setPerformance`, with what it returns. -/
def setPerformance (enabled : Bool) : MagicState × ℕ :=
  if S.m_performance_enabled = enabled then (S, 1)
  else
    ({ S with
       m_performance_enabled := enabled
       hooks := S.hooks ++ [if enabled then .roiBegin else .roiEnd] }, 0)

/-- The dump at the start of a command, when it is the first of its kind. Only the one for a marker
saves the counters, and without a footprint no command counts as the first. -/
def dump (k : LogKind) : MagicState :=
  if S.log_file_opened k = false ∧ cfg.injector = .none then
    { S with
      server := if cfg.mem_footprint ∧ k = .marker then S.server.upsaveAll else S.server
      log_file_opened :=
        if cfg.mem_footprint then Function.update S.log_file_opened k true else S.log_file_opened
      approx_log := some (k.text S.server cfg.mem_footprint) }
  else S

/-- `Magic_unlocked`, with what it returns. -/
def magic : MagicCommand → MagicState × Option ℕ
  | .roiToggle =>
    if cfg.roi_magic then
      let (S, r) := S.setPerformance (!S.m_performance_enabled)
      (S, some r)
    else (S, some 0)
  | .roiStart =>
    if cfg.roi_magic then
      let (S, r) := S.setPerformance true
      (S, some r)
    else (S, some 0)
  | .roiEnd =>
    if cfg.roi_magic then
      let (S, r) := S.setPerformance false
      (S, some r)
    else (S, some 0)
  | .marker arg0 arg1 =>
    let S := if arg0 % 100 = 7 then
        { S with server := (S.server.addApprox arg1 (arg0 / 100)).1 }
      else S
    let S := if arg0 % 100 = 6 then
        let S := S.dump cfg .marker
        { S with server := (S.server.delApprox arg1).1 }
      else S
    (S, some 0)
  | .addApproxAddrs arg0 arg1 => ({ S with server := S.server.addRange arg0 arg1 }, some 0)
  | .delApproxAddrs arg0 arg1 =>
    let S := S.dump cfg .del
    ({ S with server := S.server.delRange arg0 arg1 }, some 0)
  | .addOp arg0 arg1 =>
    ({ S with approx_adds := (S.approx_adds + 1) % 2 ^ 64 },
      some (addOp (cfg.injector = .random) arg0 arg1))
  | .addCnt arg0 arg1 =>
    let (server, r) := S.server.addCnt arg0 arg1
    ({ S with server := server }, some r)
  | .mulOp arg0 arg1 =>
    ({ S with approx_muls := (S.approx_muls + 1) % 2 ^ 64 },
      mulOp cfg.mul16x16 (cfg.injector = .random) arg0 arg1)
  | .mulCnt arg0 arg1 =>
    let (server, r) := S.server.mulCnt arg0 arg1
    ({ S with server := server }, some r)

end MagicState

/-- What the memory system tells the server between the commands. -/
inductive MemoryEvent where
  | access (access_type : AccessType) (address cid : ℕ) (cachelvl : CacheName) (block_size : UInt32)
  | core (mem_component : MemComponent) (mem_op_type : MemOp) (address offset data_length : ℕ)
  | dram (address now lpacc : ℕ) (RW : Bool) (block_size : ℕ)

/-- A simulation, as the server sees it. -/
inductive SimEvent where
  | magic (c : MagicCommand)
  | memory (e : MemoryEvent)

def MagicServer.memory (cfg : MagicConfig) (m : MagicServer) : MemoryEvent → MagicServer
  | .access access_type address cid cachelvl block_size =>
    m.count (.access access_type address cid cachelvl block_size)
  | .core mem_component mem_op_type address offset data_length =>
    if cfg.mem_footprint then m.count (.core mem_component mem_op_type address offset data_length)
    else m
  | .dram address now lpacc RW block_size => (m.updateLiftime address now lpacc RW block_size).1

namespace SimEvent

/-- The loop of a command over a range has to come to an end. -/
def Ends : SimEvent → Prop
  | .magic (.addApproxAddrs _ arg1) | .magic (.delApproxAddrs _ arg1) => arg1 < 2 ^ 32
  | _ => True

/-- The log that a command writes if it is the first to do so. -/
def log : SimEvent → Option LogKind
  | .magic (.marker arg0 _) => if arg0 % 100 = 6 then some .marker else none
  | .magic (.delApproxAddrs _ _) => some .del
  | _ => none

end SimEvent

def MagicState.step (cfg : MagicConfig) (S : MagicState) : SimEvent → MagicState
  | .magic c => (S.magic cfg c).1
  | .memory e => { S with server := S.server.memory cfg e }

/-- The state before the first command; nothing sets the two counters of operations. -/
def MagicState.init (approx_adds approx_muls : ℕ) : MagicState where
  server := .init
  m_performance_enabled := false
  approx_adds := approx_adds
  approx_muls := approx_muls
  log_file_opened _ := false
  approx_log := none
  hooks := []

def magicMachine (cfg : MagicConfig) : Machine MagicState SimEvent Empty where
  enabled _ e := e.Ends
  exec S e := .ok (S.step cfg e)

/-- The text is the dump of one command of the run. With a footprint it is the first of its kind,
and all dumping commands behind it are of kinds that have been there; without one it is the last of
all. -/
structure LogWritten (cfg : MagicConfig) (S₀ : MagicState) (events : List SimEvent)
    (text : List Char) (before : List SimEvent) (e : SimEvent) (after : List SimEvent) (k : LogKind)
    (S₁ : MagicState) : Prop where
  split : events = before ++ e :: after
  run : (magicMachine cfg).Run S₀ before S₁
  kind : e.log = some k
  dumped : text = k.text S₁.server cfg.mem_footprint
  first : cfg.mem_footprint = true → ∀ x ∈ before, x.log ≠ some k
  later : ∀ x ∈ after, ∀ k', x.log = some k' →
    cfg.mem_footprint = true ∧ ∃ y ∈ before ++ [e], y.log = some k'

namespace LogWritten

variable {cfg : MagicConfig} {S₀ S₁ : MagicState} {events before after : List SimEvent}
  {text : List Char} {e : SimEvent} {k : LogKind}

/-- An event behind the dump that leaves the file as it is. -/
theorem append (h : LogWritten cfg S₀ events text before e after k S₁) {x : SimEvent}
    (hx : ∀ k', x.log = some k' → cfg.mem_footprint = true ∧ ∃ y ∈ events, y.log = some k') :
    LogWritten cfg S₀ (events ++ [x]) text before e (after ++ [x]) k S₁ where
  split := by rw [h.split, List.append_assoc, List.cons_append]
  run := h.run
  kind := h.kind
  dumped := h.dumped
  first := h.first
  later := by
    intro x' hx' k' hk'
    rcases List.mem_append.mp hx' with hafter | hlast
    · exact h.later x' hafter k' hk'
    · rw [List.mem_singleton.mp hlast] at hk'
      obtain ⟨hfootprint, y, hy, hyk⟩ := hx k' hk'
      rw [h.split, List.append_cons] at hy
      rcases List.mem_append.mp hy with hy | hy
      · exact ⟨hfootprint, y, hy, hyk⟩
      · exact h.later y hy k' hyk

/-- A command that writes the file. -/
theorem now (hrun : (magicMachine cfg).Run S₀ events S₁) (hk : e.log = some k)
    (hfirst : cfg.mem_footprint = true → ∀ x ∈ events, x.log ≠ some k) :
    LogWritten cfg S₀ (events ++ [e]) (k.text S₁.server cfg.mem_footprint) events e [] k S₁ where
  split := rfl
  run := hrun
  kind := hk
  dumped := rfl
  first := hfirst
  later := List.forall_mem_nil _

end LogWritten

namespace MagicState

variable {cfg : MagicConfig} {S : MagicState} {e : SimEvent} {k : LogKind}

theorem setPerformance_log (b : Bool) : (S.setPerformance b).1.approx_log = S.approx_log ∧
    (S.setPerformance b).1.log_file_opened = S.log_file_opened := by
  unfold setPerformance
  split <;> exact ⟨rfl, rfl⟩

theorem step_log (h : e.log = some k) : (S.step cfg e).approx_log = (S.dump cfg k).approx_log ∧
    (S.step cfg e).log_file_opened = (S.dump cfg k).log_file_opened := by
  cases e with
  | memory e => cases h
  | magic c =>
    cases c with
    | marker arg0 arg1 =>
      simp only [SimEvent.log] at h
      split at h
      · rename_i hdump
        obtain rfl : k = .marker := (Option.some.inj h).symm
        have hadd : ¬arg0 % 100 = 7 := by omega
        simp only [step, magic, if_pos hdump, if_neg hadd, and_self]
      · cases h
    | delApproxAddrs arg0 arg1 =>
      obtain rfl : k = .del := (Option.some.inj h).symm
      exact ⟨rfl, rfl⟩
    | _ => cases h

theorem step_silent (h : e.log = none) : (S.step cfg e).approx_log = S.approx_log ∧
    (S.step cfg e).log_file_opened = S.log_file_opened := by
  cases e with
  | memory e => exact ⟨rfl, rfl⟩
  | magic c =>
    cases c with
    | roiToggle | roiStart | roiEnd =>
      simp only [step, magic]
      split
      · exact setPerformance_log _
      · exact ⟨rfl, rfl⟩
    | marker arg0 arg1 =>
      simp only [SimEvent.log] at h
      split at h
      · cases h
      · rename_i hdump
        simp only [step, magic, if_neg hdump]
        split <;> exact ⟨rfl, rfl⟩
    | delApproxAddrs arg0 arg1 => cases h
    | _ => exact ⟨rfl, rfl⟩

/-- The flags and the file after a run. -/
structure Logged (cfg : MagicConfig) (S₀ : MagicState) (events : List SimEvent) (S : MagicState) :
    Prop where
  opened : ∀ k, S.log_file_opened k = true ↔
    (cfg.injector = .none ∧ cfg.mem_footprint = true) ∧ ∃ e ∈ events, e.log = some k
  missing : S.approx_log = none ↔ cfg.injector ≠ .none ∨ ∀ e ∈ events, e.log = none
  written : ∀ text, S.approx_log = some text →
    ∃ before e after k S₁, LogWritten cfg S₀ events text before e after k S₁

theorem Logged.init (adds muls : ℕ) : Logged cfg (.init adds muls) [] (.init adds muls) where
  opened k := by
    constructor
    · exact fun h => by cases h
    · intro h
      obtain ⟨e, he, -⟩ := h.2
      cases he
  missing := ⟨fun _ => .inr (List.forall_mem_nil _), fun _ => rfl⟩
  written text h := by cases h

theorem Logged.silent {S₀ : MagicState} {events : List SimEvent} (h : Logged cfg S₀ events S)
    (he : e.log = none) : Logged cfg S₀ (events ++ [e]) (S.step cfg e) where
  opened k := by
    rw [(step_silent he).2, h.opened k]
    simp only [List.mem_append, List.mem_singleton, or_and_right, exists_or, exists_eq_left, he,
      reduceCtorEq, or_false]
  missing := by
    rw [(step_silent he).1, h.missing]
    simp only [List.mem_append, List.mem_singleton, or_imp, forall_and, forall_eq, he, and_true]
  written text htext := by
    rw [(step_silent he).1] at htext
    obtain ⟨before, e', after, k, S₁, hwritten⟩ := h.written text htext
    exact ⟨before, e', after ++ [e], k, S₁, hwritten.append fun k' hk' => by
      rw [he] at hk'
      cases hk'⟩

/-- The dump of a command leaves the file as it is, or writes it. -/
theorem dump_cases (cfg : MagicConfig) (S : MagicState) (k : LogKind) :
    ((cfg.injector ≠ .none ∨ S.log_file_opened k = true) ∧ S.dump cfg k = S) ∨
    (cfg.injector = .none ∧ S.log_file_opened k = false ∧
      (S.dump cfg k).approx_log = some (k.text S.server cfg.mem_footprint) ∧
      (S.dump cfg k).log_file_opened =
        if cfg.mem_footprint then Function.update S.log_file_opened k true
        else S.log_file_opened) := by
  unfold dump
  by_cases h : S.log_file_opened k = false ∧ cfg.injector = .none
  · rw [if_pos h]
    exact .inr ⟨h.2, h.1, rfl, rfl⟩
  · rw [if_neg h]
    refine .inl ⟨?_, rfl⟩
    by_cases hinjector : cfg.injector = .none
    · exact .inr (by simpa [hinjector] using h)
    · exact .inl hinjector

theorem Logged.dumps {S₀ : MagicState} {events : List SimEvent} (h : Logged cfg S₀ events S)
    (hrun : (magicMachine cfg).Run S₀ events S) (hk : e.log = some k) :
    Logged cfg S₀ (events ++ [e]) (S.step cfg e) := by
  obtain ⟨hlog, hopened⟩ := @step_log cfg S e k hk
  have hexists : ∀ k', (∃ x ∈ events ++ [e], x.log = some k') ↔
      (∃ x ∈ events, x.log = some k') ∨ k = k' := by
    intro k'
    simp only [List.mem_append, List.mem_singleton, or_and_right, exists_or, exists_eq_left, hk,
      Option.some.injEq]
  have hsome : ¬∀ x ∈ events ++ [e], x.log = none := fun hall => by
    have hnone := hall e (List.mem_append_right _ (List.mem_singleton_self e))
    rw [hk] at hnone
    cases hnone
  rcases dump_cases cfg S k with ⟨hkeeps, hdump⟩ | ⟨hinjector, hclosed, hwrites, hflags⟩
  · have hopen : cfg.injector = .none → S.log_file_opened k = true := fun hnone =>
      hkeeps.resolve_left fun hne => hne hnone
    rw [hdump] at hlog hopened
    refine ⟨fun k' => ?_, ?_, fun text htext => ?_⟩
    · rw [hopened, hexists, h.opened k']
      constructor
      · exact fun h' => ⟨h'.1, .inl h'.2⟩
      · intro h'
        obtain ⟨hcfg, hbefore | rfl⟩ := h'
        · exact ⟨hcfg, hbefore⟩
        · exact (h.opened k).mp (hopen hcfg.1)
    · rw [hlog, h.missing]
      constructor
      · intro h'
        refine .inl fun hnone => ?_
        obtain ⟨-, x, hx, hxk⟩ := (h.opened k).mp (hopen hnone)
        have hxnone := (h'.resolve_left fun hne => hne hnone) x hx
        rw [hxk] at hxnone
        cases hxnone
      · exact fun h' => .inl (h'.resolve_right hsome)
    · rw [hlog] at htext
      have hinjector : cfg.injector = .none := by
        by_contra hne
        rw [h.missing.mpr (.inl hne)] at htext
        cases htext
      obtain ⟨⟨-, hfootprint⟩, hbefore⟩ := (h.opened k).mp (hopen hinjector)
      obtain ⟨before, e', after, k₀, S₁, hwritten⟩ := h.written text htext
      refine ⟨before, e', after ++ [e], k₀, S₁, hwritten.append fun k' hk' => ?_⟩
      rw [hk] at hk'
      cases hk'
      exact ⟨hfootprint, hbefore⟩
  · rw [hwrites] at hlog
    rw [hflags] at hopened
    refine ⟨fun k' => ?_, ?_, fun text htext => ?_⟩
    · rw [hopened, hexists]
      by_cases hfootprint : cfg.mem_footprint = true
      · rw [if_pos hfootprint]
        by_cases hkk : k = k'
        · subst hkk
          simp only [Function.update_self, hinjector, hfootprint, and_self, or_true]
        · rw [Function.update_of_ne (Ne.symm hkk), h.opened k', or_iff_left hkk]
      · rw [if_neg hfootprint, h.opened k']
        simp only [hfootprint, Bool.false_eq_true, and_false, false_and]
    · rw [hlog]
      simp only [reduceCtorEq, hinjector, ne_eq, not_true_eq_false, false_or, false_iff]
      exact hsome
    · rw [hlog] at htext
      cases htext
      refine ⟨events, e, [], k, S, LogWritten.now hrun hk fun hfootprint x hx hxk => ?_⟩
      have hopen := (h.opened k).mpr ⟨⟨hinjector, hfootprint⟩, x, hx, hxk⟩
      rw [hclosed] at hopen
      cases hopen

/-- The flags and the file after every run. -/
theorem Logged.of_run {S₀ : MagicState} {adds muls : ℕ} {events : List SimEvent}
    (hS₀ : S₀ = .init adds muls) (h : (magicMachine cfg).Run S₀ events S) :
    Logged cfg S₀ events S := by
  induction h with
  | nil =>
    rw [hS₀]
    exact Logged.init adds muls
  | @snoc S' S'' events e hrun _ hx ih =>
    obtain rfl : S'' = S'.step cfg e := (Except.ok.inj hx).symm
    cases hk : e.log with
    | none => exact ih.silent hk
    | some k => exact ih.dumps hrun hk

/-- Commands that come to an end lead to a state. -/
theorem run_foldl (cfg : MagicConfig) {events : List SimEvent} (h : ∀ e ∈ events, e.Ends) :
    ∀ S, (magicMachine cfg).Run S events (events.foldl (step cfg) S) := by
  induction events using List.reverseRecOn with
  | nil => exact fun S => .nil S
  | append_singleton events e ih =>
    intro S
    rw [List.foldl_append]
    refine .snoc (ih (fun x hx => h x (List.mem_append_left _ hx)) S) (h e ?_) rfl
    exact List.mem_append_right _ (List.mem_singleton_self e)

/-! The region of interest -/

def alternating (n : ℕ) : List RoiHook :=
  (List.range n).map fun i => if i % 2 = 0 then .roiBegin else .roiEnd

/-- The region of interest has been entered and left in turns, `n` times in all. -/
structure InTurns (cfg : MagicConfig) (S : MagicState) (n : ℕ) : Prop where
  hooks : S.hooks = alternating n
  enabled : S.m_performance_enabled = decide (n % 2 = 1)
  magic : cfg.roi_magic = false → n = 0

theorem InTurns.setPerformance {n : ℕ} (h : InTurns cfg S n)
    (hroi : cfg.roi_magic = true) (b : Bool) :
    ∃ n', InTurns cfg (S.setPerformance b).1 n' := by
  unfold MagicState.setPerformance
  split
  · exact ⟨n, h⟩
  · rename_i hne
    rw [h.enabled] at hne
    refine ⟨n + 1, ?_, ?_, fun hno => ?_⟩
    · rw [h.hooks, alternating, alternating, List.range_succ, List.map_append, List.map_singleton]
      cases b with
      | true =>
        have heven : n % 2 = 0 := by
          simp only [decide_eq_true_eq] at hne
          omega
        rw [if_pos rfl, if_pos heven]
      | false =>
        have hodd : ¬n % 2 = 0 := by
          simp only [decide_eq_false_iff_not, not_not] at hne
          omega
        rw [if_neg Bool.false_ne_true, if_neg hodd]
    · cases b with
      | true =>
        simp only [decide_eq_true_eq] at hne
        exact (decide_eq_true (by omega)).symm
      | false =>
        simp only [decide_eq_false_iff_not, not_not] at hne
        exact (decide_eq_false (by omega)).symm
    · rw [hroi] at hno
      cases hno

theorem dump_roi (S : MagicState) (k : LogKind) : (S.dump cfg k).hooks = S.hooks ∧
    (S.dump cfg k).m_performance_enabled = S.m_performance_enabled := by
  unfold dump
  split <;> exact ⟨rfl, rfl⟩

theorem InTurns.of_same {n : ℕ} (h : InTurns cfg S n) {S' : MagicState}
    (hsame : S'.hooks = S.hooks ∧ S'.m_performance_enabled = S.m_performance_enabled) :
    InTurns cfg S' n where
  hooks := hsame.1.trans h.hooks
  enabled := hsame.2.trans h.enabled
  magic := h.magic

theorem InTurns.step {n : ℕ} (h : InTurns cfg S n) (e : SimEvent) :
    ∃ n', InTurns cfg (S.step cfg e) n' := by
  cases e with
  | memory e => exact ⟨n, h.of_same ⟨rfl, rfl⟩⟩
  | magic c =>
    cases c with
    | roiToggle | roiStart | roiEnd =>
      simp only [MagicState.step, MagicState.magic]
      split
      · rename_i hroi
        exact h.setPerformance hroi _
      · exact ⟨n, h⟩
    | marker arg0 arg1 =>
      refine ⟨n, h.of_same ?_⟩
      simp only [MagicState.step, MagicState.magic]
      split <;> split <;> first | exact ⟨rfl, rfl⟩ | exact dump_roi _ _
    | delApproxAddrs arg0 arg1 => exact ⟨n, h.of_same (dump_roi S .del)⟩
    | _ => exact ⟨n, h.of_same ⟨rfl, rfl⟩⟩

/-- The hooks for the begin and the end of the region alternate, whatever the commands are. -/
theorem roi_hooks_alternate {adds muls : ℕ} {events : List SimEvent}
    (h : (magicMachine cfg).Run (.init adds muls) events S) : ∃ n, InTurns cfg S n := by
  apply h.inv (I := fun S => ∃ n, InTurns cfg S n) (E := fun _ => False)
  · intro S e hS _
    obtain ⟨n, hn⟩ := hS
    exact hn.step e
  · exact ⟨0, rfl, rfl, fun _ => rfl⟩

end MagicState

/-- Which dump `approx.log` holds after any run of commands and accesses: there is none with an
injector, or before the first dumping command. -/
theorem approx_log_of_run (cfg : MagicConfig) (adds muls : ℕ) (events : List SimEvent)
    (S : MagicState) (h : (magicMachine cfg).Run (.init adds muls) events S) :
    (S.approx_log = none ↔ cfg.injector ≠ .none ∨ ∀ e ∈ events, e.log = none) ∧
      ∀ text, S.approx_log = some text → ∃ before e after k S₁,
        LogWritten cfg (.init adds muls) events text before e after k S₁ := by
  have hlogged := MagicState.Logged.of_run rfl h
  exact ⟨hlogged.missing, hlogged.written⟩

/-- Two bytes that are removed one after the other: the first command dumps both. -/
def removedInTurn : List SimEvent :=
  [.magic (.addApproxAddrs 64 2), .magic (.delApproxAddrs 64 1), .magic (.delApproxAddrs 65 1)]

def footprintConfig : MagicConfig := ⟨true, .none, true, fun _ x y => x * y⟩

theorem approx_log_of_run_removedInTurn :
    (removedInTurn.foldl (MagicState.step footprintConfig) (.init 0 0)).approx_log =
        some ((MagicServer.init.addRange 64 2).delDump true) ∧
      ∃ before e after k S₁, LogWritten footprintConfig (.init 0 0) removedInTurn
        ((MagicServer.init.addRange 64 2).delDump true) before e after k S₁ := by
  have hends : ∀ e ∈ removedInTurn, e.Ends := by
    simp [removedInTurn, SimEvent.Ends]
  have hlog : (removedInTurn.foldl (MagicState.step footprintConfig) (.init 0 0)).approx_log =
      some ((MagicServer.init.addRange 64 2).delDump true) := rfl
  exact ⟨hlog, (approx_log_of_run footprintConfig 0 0 removedInTurn _
    (MagicState.run_foldl footprintConfig hends (.init 0 0))).2 _ hlog⟩

end Sniper
