import Sniper.Library.Machine
import Sniper.MagicServer

namespace Sniper

/-- Byte `a` is one of the `arg1` bytes from `arg0` on. -/
def InRange (arg0 arg1 a : ℕ) : Prop := ∃ i < arg1, (arg0 + i) % 2 ^ 64 = a

instance (arg0 arg1 a : ℕ) : Decidable (InRange arg0 arg1 a) :=
  inferInstanceAs (Decidable (∃ i < arg1, (arg0 + i) % 2 ^ 64 = a))

/-- A range that does not wrap. -/
theorem inRange_iff {arg0 arg1 a : ℕ} (h : arg0 + arg1 ≤ 2 ^ 64) :
    InRange arg0 arg1 a ↔ arg0 ≤ a ∧ a < arg0 + arg1 := by
  constructor
  · intro h'
    obtain ⟨i, hi, hia⟩ := h'
    rw [Nat.mod_eq_of_lt (by omega)] at hia
    omega
  · intro h'
    exact ⟨a - arg0, by omega, by rw [Nat.mod_eq_of_lt (by omega)]; omega⟩

namespace MagicServer

variable {m : MagicServer} {address a b n : ℕ}

theorem isApprox_iff : m.isApprox a = true ↔ a ∈ m.approx_vars.keys := m.approx_vars.find_isSome

theorem isApprox_eq_false : m.isApprox a = false ↔ a ∉ m.approx_vars.keys := by
  rw [← isApprox_iff, Bool.not_eq_true]

theorem isBlockApprox_iff :
    m.isBlockApprox address n = true ↔ ∃ i < n, (address + i) % 2 ^ 64 ∈ m.approx_vars.keys := by
  simp only [isBlockApprox, List.any_eq_true, List.mem_range, isApprox_iff]

theorem mem_bytesFrom : a ∈ bytesFrom address n ↔ InRange address n a := by
  simp only [bytesFrom, List.mem_map, List.mem_range, InRange]

theorem addApprox_of_mem (h : a ∈ m.approx_vars.keys) (s : ℕ) :
    m.addApprox a s = (m, false) := dif_pos h

theorem addApprox_ret (s : ℕ) : (m.addApprox a s).2 = true ↔ a ∉ m.approx_vars.keys := by
  unfold addApprox
  split <;> simp [*]

theorem addApprox_vars (h : a ∉ m.approx_vars.keys) (s : ℕ) :
    (m.addApprox a s).1.approx_vars = m.approx_vars.insertNew a .create := by
  unfold addApprox
  rw [dif_neg h]

theorem mem_addApprox (s : ℕ) :
    b ∈ (m.addApprox a s).1.approx_vars.keys ↔ b = a ∨ b ∈ m.approx_vars.keys := by
  by_cases h : a ∈ m.approx_vars.keys
  · rw [addApprox_of_mem h]
    exact ⟨.inr, fun hb => hb.elim (fun hb => hb ▸ h) id⟩
  · rw [addApprox_vars h, SortedMap.mem_insertNew]

theorem find_addApprox_self (h : a ∉ m.approx_vars.keys) (s : ℕ) :
    (m.addApprox a s).1.approx_vars.find a = some .create := by
  rw [addApprox_vars h, SortedMap.find_insertNew_self _ h]

theorem find_addApprox_of_ne (h : b ≠ a) (s : ℕ) :
    (m.addApprox a s).1.approx_vars.find b = m.approx_vars.find b := by
  by_cases ha : a ∈ m.approx_vars.keys
  · rw [addApprox_of_mem ha]
  · rw [addApprox_vars ha, SortedMap.find_insertNew_of_ne _ h]

theorem delApprox_ret : (m.delApprox a).2 = true ↔ a ∈ m.approx_vars.keys := by
  unfold delApprox
  split <;> simp [*]

theorem mem_delApprox :
    b ∈ (m.delApprox a).1.approx_vars.keys ↔ b ≠ a ∧ b ∈ m.approx_vars.keys := by
  unfold delApprox
  split
  · exact SortedMap.mem_erase _
  · rename_i h
    exact ⟨fun hb => ⟨fun hba => h (hba ▸ hb), hb⟩, And.right⟩

theorem find_delApprox_of_ne (h : b ≠ a) :
    (m.delApprox a).1.approx_vars.find b = m.approx_vars.find b := by
  unfold delApprox
  split
  · exact SortedMap.find_erase_of_ne _ h
  · rfl

end MagicServer

/-- A call that changes which addresses are registered. -/
inductive RegistryOp where
  | add (address set_number : ℕ)
  | del (address : ℕ)

/-- The set numbers the registered addresses were given. -/
abbrev Bindings := ℕ → Option ℕ

namespace Bindings

def apply (b : Bindings) : RegistryOp → Bindings
  | .add a s => if b a = none then Function.update b a (some s) else b
  | .del a => Function.update b a none

/-- What a call returns. -/
def ret (b : Bindings) : RegistryOp → Bool
  | .add a _ => (b a).isNone
  | .del a => (b a).isSome

def setnum (b : Bindings) (address : ℕ) : ℤ :=
  match b address with
  | some s => s
  | none => -1

/-- The set number of the first bound address among `n` from `address` on. -/
def blockSetnum (b : Bindings) (address n : ℕ) : ℤ :=
  match ((List.range n).filterMap fun i => b ((address + i) % 2 ^ 64)).head? with
  | some s => s
  | none => -1

end Bindings

/-- The server after a call, and what the call returns. -/
def MagicServer.register (m : MagicServer) : RegistryOp → MagicServer × Bool
  | .add a s => m.addApprox a s
  | .del a => m.delApprox a

/-- The registry next to the bindings it should have. -/
def registryMachine : Machine (MagicServer × Bindings) RegistryOp Empty where
  enabled _ _ := True
  exec S op := .ok ((S.1.register op).1, S.2.apply op)

/-- The queries of a registry answer as its bindings say. -/
structure Answered (m : MagicServer) (b : Bindings) : Prop where
  isApprox : ∀ a, m.isApprox a = (b a).isSome
  setnum : ∀ a, m.approxAddrSetnum a = b.setnum a
  blockSetnum : ∀ a n, m.approxBlockSetnum a n = b.blockSetnum a n
  isBlockApprox : ∀ a n, m.approxBlockSetnum a n = -1 ↔ m.isBlockApprox a n = false

/-- A call returns as the bindings say and touches the entry of its address only, and not even that
one when the address is registered again. -/
structure Registers (m : MagicServer) (b : Bindings) (op : RegistryOp) : Prop where
  ret : (m.register op).2 = b.ret op
  other : ∀ a, (∀ s, op ≠ .add a s) → op ≠ .del a →
    (m.register op).1.approx_vars.find a = m.approx_vars.find a
  again : ∀ a s, op = .add a s → b a ≠ none → (m.register op).1 = m

/-- The set numbers are those `add_approx` stores. -/
structure Registered (m : MagicServer) (b : Bindings) : Prop where
  mem : ∀ a, a ∈ m.approx_vars.keys ↔ b a ≠ none
  stored : ∀ a v, m.approx_vars.find a = some v → v.set_num = 0

namespace Registered

variable {m : MagicServer} {b : Bindings}

theorem init : Registered .init fun _ => none where
  mem a := by simp [MagicServer.init]
  stored a v h := by simp [MagicServer.init, SortedMap.find] at h

theorem registers (h : Registered m b) (op : RegistryOp) : Registers m b op := by
  cases op with
  | add a s =>
    refine ⟨?_, fun c hc _ => ?_, ?_⟩
    · rw [Bool.eq_iff_iff]
      refine MagicServer.addApprox_ret s |>.trans ?_
      rw [h.mem, not_not]
      exact Option.isNone_iff_eq_none.symm
    · exact MagicServer.find_addApprox_of_ne (fun hca => hc s (by rw [hca])) s
    · intro _ _ h' hb
      obtain ⟨⟩ := h'
      exact congrArg Prod.fst (MagicServer.addApprox_of_mem ((h.mem a).mpr hb) s)
  | del a =>
    refine ⟨?_, fun c _ hc => ?_, fun _ _ hc => by cases hc⟩
    · rw [Bool.eq_iff_iff]
      refine MagicServer.delApprox_ret.trans ?_
      rw [h.mem]
      exact Option.isSome_iff_ne_none.symm
    · exact MagicServer.find_delApprox_of_ne fun hca => hc (by rw [hca])

theorem step (h : Registered m b) (op : RegistryOp) :
    Registered (m.register op).1 (b.apply op) := by
  cases op with
  | add a s =>
    refine ⟨fun c => ?_, fun c v hv => ?_⟩
    · refine (MagicServer.mem_addApprox s).trans ?_
      rw [h.mem, Bindings.apply]
      by_cases hca : c = a
      · subst hca
        split <;> simp [*]
      · split <;> simp [hca]
    · by_cases hca : c = a
      · subst hca
        by_cases hc : c ∈ m.approx_vars.keys
        · refine h.stored c v ?_
          rw [← hv]
          exact congrArg (fun r : MagicServer × Bool => r.1.approx_vars.find c)
            (MagicServer.addApprox_of_mem hc s).symm
        · have hnew := (MagicServer.find_addApprox_self hc s).symm.trans hv
          rw [← Option.some.inj hnew]
          rfl
      · exact h.stored c v ((MagicServer.find_addApprox_of_ne hca s).symm.trans hv)
  | del a =>
    refine ⟨fun c => ?_, fun c v hv => ?_⟩
    · refine MagicServer.mem_delApprox.trans ?_
      rw [h.mem, Bindings.apply]
      by_cases hca : c = a <;> simp [hca]
    · have hca : c ≠ a := by
        rintro rfl
        have := (SortedMap.find_isSome _).mp (Option.isSome_iff_exists.mpr ⟨v, hv⟩)
        exact (MagicServer.mem_delApprox.mp this).1 rfl
      exact h.stored c v ((MagicServer.find_delApprox_of_ne hca).symm.trans hv)

theorem setnum_eq (h : Registered m b) (a : ℕ) :
    m.approxAddrSetnum a = if b a = none then -1 else 0 := by
  unfold MagicServer.approxAddrSetnum
  cases hv : m.approx_vars.find a with
  | none =>
    rw [SortedMap.find_eq_none, h.mem, not_not] at hv
    rw [if_pos hv]
  | some v =>
    have hmem := (SortedMap.find_isSome _).mp (Option.isSome_iff_exists.mpr ⟨v, hv⟩)
    rw [if_neg ((h.mem a).mp hmem)]
    simp only [h.stored a v hv]
    rfl

/-- A search for a set number stops at the first registered address. -/
theorem blockSetnum_eq (h : Registered m b) (n : ℕ) : ∀ a, m.approxBlockSetnum a n =
    if ((List.range n).filterMap fun i => b ((a + i) % 2 ^ 64)).head? = none then -1 else 0 := by
  induction n with
  | zero => exact fun _ => rfl
  | succ n ih =>
    intro a
    unfold MagicServer.approxBlockSetnum
    rw [h.setnum_eq, ih (a + 1), List.range_succ_eq_map, List.filterMap_cons]
    have hshift :
        List.filterMap (fun i => b ((a + i) % 2 ^ 64)) (List.map Nat.succ (List.range n)) =
          (List.range n).filterMap fun i => b ((a + 1 + i) % 2 ^ 64) := by
      rw [List.filterMap_map]
      congr 1
      funext i
      exact congrArg (fun c => b (c % 2 ^ 64)) (by omega)
    rw [hshift, Nat.add_zero]
    cases b (a % 2 ^ 64) with
    | none => simp
    | some s => simp

/-- The queries answer as the bindings say when every set number is 0. -/
theorem answered_iff (h : Registered m b) :
    Answered m b ↔ ∀ a s, b a = some s → s = 0 := by
  constructor
  · intro hans a s hs
    have := hans.setnum a
    rw [h.setnum_eq, Bindings.setnum, hs] at this
    simpa using this.symm
  · intro hzero
    have hb : ∀ a, b a = none ∨ b a = some 0 := by
      intro a
      cases hs : b a with
      | none => exact .inl rfl
      | some s => exact .inr (by rw [hzero a s hs])
    refine ⟨fun a => ?_, fun a => ?_, fun a n => ?_, fun a n => ?_⟩
    · rw [Bool.eq_iff_iff, MagicServer.isApprox_iff, h.mem, Option.isSome_iff_ne_none]
    · rw [h.setnum_eq, Bindings.setnum]
      rcases hb a with ha | ha <;> simp [ha]
    · rw [h.blockSetnum_eq, Bindings.blockSetnum]
      cases hs : ((List.range n).filterMap fun i => b ((a + i) % 2 ^ 64)).head? with
      | none => rfl
      | some s =>
        obtain ⟨i, -, hi⟩ := List.mem_filterMap.mp (List.mem_of_mem_head? hs)
        simp [hzero _ _ hi]
    · rw [h.blockSetnum_eq, ← Bool.not_eq_true, MagicServer.isBlockApprox_iff]
      simp only [h.mem, ite_eq_left_iff, List.head?_eq_none_iff, List.filterMap_eq_nil_iff,
        List.mem_range]
      constructor
      · intro hn
        by_contra hc
        obtain ⟨i, hi, hne⟩ := hc
        exact absurd (hn fun hall => hne (hall i hi)) (by decide)
      · intro hn hc
        exact absurd (fun i hi => by_contra fun hne => hn ⟨i, hi, hne⟩) hc

end Registered

/-- A sequence of calls keeps a registry that is the map of its bindings. -/
def RegistryIsMap (ops : List RegistryOp) : Prop :=
  (∀ done S, done <+: ops → registryMachine.Run (.init, fun _ => none) done S →
    Answered S.1 S.2) ∧
  ∀ done op S, done ++ [op] <+: ops → registryMachine.Run (.init, fun _ => none) done S →
    Registers S.1 S.2 op

/-- A call that binds an address to a set number other than 0, which is not stored. -/
def Forgets (S : MagicServer × Bindings) (op : RegistryOp) : Prop :=
  ∃ a s, op = .add a s ∧ S.2 a = none ∧ s ≠ 0

theorem registryMachine_run (ops : List RegistryOp) : ∀ S,
    ∃ S', registryMachine.Run S ops S' := by
  induction ops using List.reverseRecOn with
  | nil => exact fun S => ⟨S, .nil S⟩
  | append_singleton ops op ih =>
    intro S
    obtain ⟨S', h⟩ := ih S
    exact ⟨_, .snoc h trivial rfl⟩

theorem registryMachine_inv {S : MagicServer × Bindings} {ops : List RegistryOp}
    (h : registryMachine.Run (.init, fun _ => none) ops S) : Registered S.1 S.2 := by
  refine h.inv (I := fun S => Registered S.1 S.2) (E := fun _ => True) ?_ Registered.init
  intro S op hS _
  exact hS.step op

/-- The registry is the map of the set numbers it was given exactly when they are all 0: for every
sequence of calls, and after each of them. -/
theorem registryIsMap_iff (ops : List RegistryOp) :
    RegistryIsMap ops ↔ ∀ done op S, done ++ [op] <+: ops →
      registryMachine.Run (.init, fun _ => none) done S → ¬Forgets S op := by
  obtain ⟨S', hrun⟩ := registryMachine_run ops (.init, fun _ => none)
  have halways := Machine.Run.always_iff (J := fun S => Registered S.1 S.2)
    (P := fun S => Answered S.1 S.2) (B := Forgets) (M := registryMachine) ?_ hrun
    Registered.init (Registered.init.answered_iff.mpr fun _ _ h => by cases h)
  · rw [← halways]
    refine ⟨And.left, fun h => ⟨h, fun done op S _ hdone => ?_⟩⟩
    exact (registryMachine_inv hdone).registers op
  · rintro ⟨m, b⟩ op S hm - hx
    cases hx
    refine ⟨hm.step op, fun hans => ?_⟩
    rw [(hm.step op).answered_iff]
    rw [hm.answered_iff] at hans
    cases op with
    | add a s =>
      simp only [Bindings.apply, Forgets, RegistryOp.add.injEq]
      split
      · rename_i hb
        constructor
        · rintro h ⟨_, _, ⟨rfl, rfl⟩, -, hs⟩
          exact hs (h a s (Function.update_self ..))
        -- the new entry has to answer with its own set number; the others answer as before
        · intro h c s' hc
          by_cases hca : c = a
          · subst hca
            rw [Function.update_self] at hc
            cases hc
            exact by_contra fun hs => h ⟨c, _, ⟨rfl, rfl⟩, hb, hs⟩
          · rw [Function.update_of_ne hca] at hc
            exact hans c s' hc
      · rename_i hb
        refine ⟨?_, fun _ => hans⟩
        rintro - ⟨_, _, ⟨rfl, rfl⟩, hn, -⟩
        exact hb hn
    | del a =>
      refine ⟨?_, fun _ c s hc => ?_⟩
      · rintro - ⟨_, _, h, -⟩
        cases h
      · by_cases hca : c = a
        · subst hca
          simp [Bindings.apply] at hc
        · simp only [Bindings.apply, Function.update_of_ne hca] at hc
          exact hans c s hc

/-- An address registered with set number 1 is found with set number 0. -/
theorem registry_forgets_setnum : ¬RegistryIsMap [.add 64 1] := by
  intro h
  have hans := h.1 [.add 64 1] _ List.prefix_rfl (.snoc (.nil _) trivial rfl)
  have hset : (MagicServer.init.addApprox 64 1).1.approxAddrSetnum 64 = 1 := hans.setnum 64
  revert hset
  decide

end Sniper
