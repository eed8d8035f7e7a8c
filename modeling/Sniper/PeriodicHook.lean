import Sniper.Library.FamilySum
import Sniper.Library.Machine

namespace Sniper
open FamilySum Outcome

/-- What a core counts. -/
structure CoreCounts where
  m_instructions : ℕ
  m_instructions_hpi_callback : ℕ
  m_instructions_hpi_last : ℕ

/-- Where a core is in `countInstructions`. -/
inductive HpiPoint where
  /-- in no call -/
  | outside
  /-- before `hookPeriodicInsCheck` -/
  | check
  /-- before the unlocked test -/
  | test
  /-- before the lock of the thread manager -/
  | call
  /-- in `callHooks(HOOK_PERIODIC_INS)`, with the lock -/
  | hook
deriving DecidableEq

/-- The cores, with what they share. `hooks` is history: the number of calls of the hook. -/
structure Hpi (ι : Type) where
  core : ι → CoreCounts
  point : ι → HpiPoint
  g_instructions_hpi_global : ℕ
  g_instructions_hpi_global_callback : ℕ
  lock : Option ι
  hooks : ℕ

/-- The steps of `countInstructions`, from one point to the next. -/
inductive HpiOp (ι : Type) where
  | count (i : ι) (count : ℕ)
  | check (i : ι)
  | test (i : ι)
  | call (i : ι)
  | return (i : ι)

/-- `getHPIInstructionsPerCore` and `getHPIInstructionsGlobal`. -/
structure HpiConfig where
  perCore : ℕ
  global : ℕ

namespace Hpi

section

variable {ι : Type} [DecidableEq ι] (K : HpiConfig) (s : Hpi ι)

/-- Core `i` goes to another point, with these counts. -/
def move (i : ι) (c : CoreCounts) (p : HpiPoint) : Hpi ι :=
  { s with core := Function.update s.core i c, point := Function.update s.point i p }

/-- `countInstructions`, up to `hookPeriodicInsCheck`. -/
def countInstructions (i : ι) (count : ℕ) : Hpi ι :=
  s.move i { s.core i with m_instructions := (s.core i).m_instructions + count } .check

/-- `hookPeriodicInsCheck`, up to the unlocked test. -/
def hookPeriodicInsCheck (i : ι) : Hpi ι :=
  let c := s.core i
  if c.m_instructions_hpi_callback < c.m_instructions then
    { s with
      g_instructions_hpi_global :=
        s.g_instructions_hpi_global + (c.m_instructions - c.m_instructions_hpi_last) }.move i
      { c with
        m_instructions_hpi_callback := c.m_instructions_hpi_callback + K.perCore
        m_instructions_hpi_last := c.m_instructions } .test
  else s.move i c .outside

/-- The unlocked test. -/
def quickTest (i : ι) : Hpi ι :=
  s.move i (s.core i)
    (if s.g_instructions_hpi_global_callback < s.g_instructions_hpi_global then .call else .outside)

/-- `hookPeriodicInsCall`, up to the call of the hook. -/
def hookPeriodicInsCall (i : ι) : Hpi ι :=
  if s.g_instructions_hpi_global_callback < s.g_instructions_hpi_global then
    { s with lock := some i, hooks := s.hooks + 1 }.move i (s.core i) .hook
  else s.move i (s.core i) .outside

/-- The rest of `hookPeriodicInsCall`. -/
def hookReturn (i : ι) : Hpi ι :=
  { s with
    g_instructions_hpi_global_callback := s.g_instructions_hpi_global_callback + K.global
    lock := none }.move i (s.core i) .outside

def exec : HpiOp ι → Hpi ι
  | .count i count => s.countInstructions i count
  | .check i => s.hookPeriodicInsCheck K i
  | .test i => s.quickTest i
  | .call i => s.hookPeriodicInsCall i
  | .return i => s.hookReturn K i

def Enabled : HpiOp ι → Prop
  | .count i _ => s.point i = .outside
  | .check i => s.point i = .check
  | .test i => s.point i = .test
  | .call i => s.point i = .call ∧ s.lock = none
  | .return i => s.point i = .hook

/-- The cores in any order of their steps. -/
def machine : Machine (Hpi ι) (HpiOp ι) Empty where
  enabled := Enabled
  exec s op := .ok (exec K s op)

end

def init (ι : Type) : Hpi ι where
  core _ := ⟨0, 0, 0⟩
  point _ := .outside
  g_instructions_hpi_global := 0
  g_instructions_hpi_global_callback := 0
  lock := none
  hooks := 0

/-- What holds of a core at a point: its callback is at most one period ahead of its last report, so
that past the check no more than a period is unreported. -/
structure CoreOk (K : HpiConfig) (c : CoreCounts) (p : HpiPoint) : Prop where
  last_le : c.m_instructions_hpi_last ≤ c.m_instructions
  callback_le : c.m_instructions_hpi_callback ≤ c.m_instructions_hpi_last + K.perCore
  unreported : p ≠ .check → c.m_instructions ≤ c.m_instructions_hpi_last + K.perCore

/-- What every step keeps. From its test to the advance of the threshold the hook has the lock. -/
structure Accounted {ι : Type} [Fintype ι] (K : HpiConfig) (s : Hpi ι) : Prop where
  global : s.g_instructions_hpi_global = ∑ i, (s.core i).m_instructions_hpi_last
  core : ∀ i, CoreOk K (s.core i) (s.point i)
  locked : ∀ i, s.point i = .hook → s.lock = some i
  callback : s.hooks * K.global =
    s.g_instructions_hpi_global_callback + if s.lock = none then 0 else K.global
  ahead : 1 ≤ s.hooks → (s.hooks - 1) * K.global < s.g_instructions_hpi_global

section

variable {ι : Type} [Fintype ι] {K : HpiConfig} {s : Hpi ι} {c : CoreCounts} {p : HpiPoint}

theorem init_accounted : Accounted K (init ι) := by
  constructor
  · exact (Finset.sum_eq_zero fun _ _ => rfl).symm
  · exact fun _ => ⟨le_rfl, Nat.zero_le _, fun _ => Nat.zero_le _⟩
  · intro i h
    cases h
  · exact Nat.zero_mul K.global
  · exact fun h => absurd h (Nat.not_succ_le_zero 0)

theorem CoreOk.goto {q : HpiPoint} (h : CoreOk K c p) (hp : p ≠ .check) : CoreOk K c q :=
  ⟨h.last_le, h.callback_le, fun _ => h.unreported hp⟩

theorem CoreOk.count (h : CoreOk K c p) (count : ℕ) :
    CoreOk K { c with m_instructions := c.m_instructions + count } .check :=
  ⟨h.last_le.trans (Nat.le_add_right _ count), h.callback_le, fun hn => absurd rfl hn⟩

/-- The threshold that is passed is below the count, which becomes the last report. -/
theorem CoreOk.report (hfire : c.m_instructions_hpi_callback < c.m_instructions) :
    CoreOk K { c with
      m_instructions_hpi_callback := c.m_instructions_hpi_callback + K.perCore
      m_instructions_hpi_last := c.m_instructions } .test :=
  ⟨le_rfl, Nat.add_le_add_right hfire.le _, fun _ => Nat.le_add_right _ _⟩

/-- No report is due: the count is not above the threshold. -/
theorem CoreOk.keep (h : CoreOk K c p) (hkeep : ¬c.m_instructions_hpi_callback < c.m_instructions) :
    CoreOk K c .outside :=
  ⟨h.last_le, h.callback_le, fun _ => (not_lt.mp hkeep).trans h.callback_le⟩

variable [DecidableEq ι] {i : ι}

theorem Accounted.core_move (h : Accounted K s) (hc : CoreOk K c p) :
    ∀ j, CoreOk K ((s.move i c p).core j) ((s.move i c p).point j) := by
  intro j
  by_cases hji : j = i
  · subst hji
    simpa [move] using hc
  · simpa [move, hji] using h.core j

omit [Fintype ι] in
theorem locked_move (hp : p ≠ .hook) (h : ∀ j, j ≠ i → s.point j = .hook → s.lock = some j) :
    ∀ j, (s.move i c p).point j = .hook → s.lock = some j := by
  intro j hj
  by_cases hji : j = i
  · subst hji
    exact absurd (by simpa [move] using hj) hp
  · exact h j hji (by simpa [move, hji] using hj)

theorem sum_move : (∑ j, ((s.move i c p).core j).m_instructions_hpi_last) +
      (s.core i).m_instructions_hpi_last =
    (∑ j, (s.core j).m_instructions_hpi_last) + c.m_instructions_hpi_last :=
  sum_update CoreCounts.m_instructions_hpi_last s.core i c

/-- A step that reports nothing and does not touch the lock. -/
theorem Accounted.move (h : Accounted K s) (hc : CoreOk K c p) (hp : p ≠ .hook)
    (hlast : c.m_instructions_hpi_last = (s.core i).m_instructions_hpi_last) :
    Accounted K (s.move i c p) := by
  have hsum := sum_move (s := s) (i := i) (c := c) (p := p)
  have hglobal := h.global
  refine ⟨?_, h.core_move hc, locked_move hp fun j _ => h.locked j, h.callback, h.ahead⟩
  change s.g_instructions_hpi_global = _
  omega

theorem Accounted.check (h : Accounted K s) : Accounted K (s.hookPeriodicInsCheck K i) := by
  unfold hookPeriodicInsCheck
  by_cases hfire : (s.core i).m_instructions_hpi_callback < (s.core i).m_instructions
  · simp only [if_pos hfire]
    have hsum := sum_move (s := s) (i := i) (p := .test) (c := { s.core i with
      m_instructions_hpi_callback := (s.core i).m_instructions_hpi_callback + K.perCore
      m_instructions_hpi_last := (s.core i).m_instructions })
    have hglobal := h.global
    have hle := (h.core i).last_le
    refine ⟨?_, h.core_move (CoreOk.report hfire), locked_move (by decide) fun j _ => h.locked j,
      h.callback, fun hhooks => (h.ahead hhooks).trans_le (Nat.le_add_right _ _)⟩
    change s.g_instructions_hpi_global + _ = ∑ j,
      ((s.move i _ .test).core j).m_instructions_hpi_last
    simp only at hsum
    omega
  · simp only [if_neg hfire]
    exact h.move ((h.core i).keep hfire) (by decide) rfl

theorem Accounted.test (h : Accounted K s) (hi : s.point i = .test) :
    Accounted K (s.quickTest i) := by
  have hc := h.core i
  unfold quickTest
  split
  · exact h.move (hc.goto (by rw [hi]; decide)) (by decide) rfl
  · exact h.move (hc.goto (by rw [hi]; decide)) (by decide) rfl

/-- The hook is called when more has been reported than the threshold, which has advanced by one
period for each call before. -/
theorem Accounted.call (h : Accounted K s) (hi : s.point i = .call) (hlock : s.lock = none) :
    Accounted K (s.hookPeriodicInsCall i) := by
  have hc : ∀ q, CoreOk K (s.core i) q := fun q => (h.core i).goto (by rw [hi]; decide)
  have hcallback := h.callback
  rw [if_pos hlock, Nat.add_zero] at hcallback
  unfold hookPeriodicInsCall
  by_cases htest : s.g_instructions_hpi_global_callback < s.g_instructions_hpi_global
  · rw [if_pos htest]
    have hmoved := h.move (hc .outside) (by decide) rfl
    refine ⟨hmoved.global, h.core_move (hc .hook), ?_, ?_, ?_⟩
    · intro j hj
      by_cases hji : j = i
      · rw [hji]
        rfl
      · have hnone := h.locked j (by simpa [Hpi.move, hji] using hj)
        rw [hlock] at hnone
        cases hnone
    · change (s.hooks + 1) * K.global = s.g_instructions_hpi_global_callback + K.global
      rw [Nat.add_mul, Nat.one_mul, hcallback]
    · intro _
      change (s.hooks + 1 - 1) * K.global < s.g_instructions_hpi_global
      rwa [Nat.add_sub_cancel, hcallback]
  · rw [if_neg htest]
    exact h.move (hc .outside) (by decide) rfl

theorem Accounted.return (h : Accounted K s) (hi : s.point i = .hook) :
    Accounted K (s.hookReturn K i) := by
  have hlock := h.locked i hi
  have hcallback := h.callback
  rw [hlock, if_neg (Option.some_ne_none i)] at hcallback
  have hc : CoreOk K (s.core i) .outside := (h.core i).goto (by rw [hi]; decide)
  have hmoved := h.move hc (by decide) rfl
  refine ⟨hmoved.global, hmoved.core, locked_move (by decide) ?_, hcallback, h.ahead⟩
  intro j hji hj
  have hj' := h.locked j hj
  rw [hlock] at hj'
  exact absurd (Option.some.inj hj').symm hji

theorem Accounted.exec (h : Accounted K s) (op : HpiOp ι) (he : s.Enabled op) :
    Accounted K (s.exec K op) := by
  cases op with
  | count i count => exact h.move ((h.core i).count count) (by decide) rfl
  | check i => exact h.check
  | test i => exact h.test he
  | call i => exact h.call he.1 he.2
  | «return» i => exact h.return he

end

end Hpi

/-- In every state that any number of cores can come to: what has been added up is what the cores
have reported, a core that is past its check holds back at most one period, and the hook has been
called less often than the instructions reported allow. -/
theorem hpi_accounted {ι : Type} [Fintype ι] [DecidableEq ι] (K : HpiConfig) {ops : List (HpiOp ι)}
    {s : Hpi ι} (h : (Hpi.machine K).Run (Hpi.init ι) ops s) :
    s.g_instructions_hpi_global = ∑ i, (s.core i).m_instructions_hpi_last ∧
      (∀ i, s.point i ≠ .check →
        (s.core i).m_instructions - (s.core i).m_instructions_hpi_last ≤ K.perCore) ∧
      (1 ≤ s.hooks → (s.hooks - 1) * K.global < s.g_instructions_hpi_global) := by
  have hacc : s.Accounted K := h.inv (E := fun _ => True)
    (fun s op hs he => hs.exec op he) Hpi.init_accounted
  refine ⟨hacc.global, ?_, hacc.ahead⟩
  intro i hi
  have := (hacc.core i).unreported hi
  omega

/-- Five instructions of the first core, which call the hook. -/
theorem hpi_accounted_oneHook : ∃ s : Hpi (Fin 2), (Hpi.machine ⟨10000, 1000000⟩).Run
    (Hpi.init (Fin 2))
    [.count 0 5, .check 0, .test 0, .call 0] s ∧ s.hooks = 1 ∧
      s.g_instructions_hpi_global = ∑ i, (s.core i).m_instructions_hpi_last ∧
        (s.hooks - 1) * 1000000 < s.g_instructions_hpi_global := by
  have hrun : (Hpi.machine ⟨10000, 1000000⟩).Run (Hpi.init (Fin 2))
      [.count 0 5, .check 0, .test 0, .call 0] _ :=
    .cons rfl rfl (.cons rfl rfl (.cons rfl rfl (.cons ⟨rfl, rfl⟩ rfl (.nil _))))
  obtain ⟨hglobal, -, hahead⟩ := hpi_accounted ⟨10000, 1000000⟩ hrun
  exact ⟨_, hrun, rfl, hglobal, hahead le_rfl⟩

end Sniper
