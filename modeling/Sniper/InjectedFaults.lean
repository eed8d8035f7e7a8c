import Sniper.FaultInjection

namespace Sniper

/-- Bit `j` of a byte. -/
def bitOf (b : Byte) (j : ℕ) : Bool := b.toBitVec.getLsbD j

def flipBit (b : Byte) (j : ℕ) : Byte := b ^^^ (1 <<< UInt8.ofNat j)

theorem bitOf_mask {i j : ℕ} (hi : i < 8) (hj : j < 8) :
    bitOf (1 <<< UInt8.ofNat j) i = decide (i = j) := by
  have hall : ∀ i < 8, ∀ j < 8, bitOf (1 <<< UInt8.ofNat j) i = decide (i = j) := by decide
  exact hall i hi j hj

theorem bitOf_flipBit (b : Byte) {i j : ℕ} (hi : i < 8) (hj : j < 8) :
    bitOf (flipBit b j) i = (bitOf b i ^^ decide (i = j)) := by
  rw [← bitOf_mask hi hj]
  unfold bitOf flipBit
  rw [UInt8.toBitVec_xor, BitVec.getLsbD_xor]

/-- No bit of the byte that the type does not allow to change has changed. -/
def Fault.Honours (f : Fault) : FaultType → Prop
  | .toggle => True
  | .set0 => ∀ j < 8, bitOf f.after j = true → bitOf f.before j = true
  | .set1 => ∀ j < 8, bitOf f.before j = true → bitOf f.after j = true

/-- `k` flips of one bit honour the type: at most one, and of a bit with the value it clears or
sets. -/
def BitOk (k : ℕ) (bit : Bool) : FaultType → Prop
  | .toggle => True
  | .set0 => k = 0 ∨ k = 1 ∧ bit = true
  | .set1 => k = 0 ∨ k = 1 ∧ bit = false

theorem flip_honours_iff (type : FaultType) (addr : ℕ) (b : Byte) {j : ℕ} (hj : j < 8) :
    (⟨addr, b, flipBit b j⟩ : Fault).Honours type ↔ BitOk 1 (bitOf b j) type := by
  have hother : ∀ i < 8, i ≠ j → bitOf (flipBit b j) i = bitOf b i := by
    intro i hi hij
    simp [bitOf_flipBit b hi hj, hij]
  have hself : bitOf (flipBit b j) j = !bitOf b j := by simp [bitOf_flipBit b hj hj]
  cases type with
  | toggle => exact Iff.rfl
  | set0 =>
    simp only [Fault.Honours, BitOk, one_ne_zero, false_or, true_and]
    constructor
    · intro h
      have := h j hj
      rw [hself] at this
      cases hb : bitOf b j with
      | false => exact hb ▸ this (by simp [hb])
      | true => rfl
    · intro h i hi hbit
      by_cases hij : i = j
      · rwa [hij]
      · rwa [← hother i hi hij]
  | set1 =>
    simp only [Fault.Honours, BitOk, one_ne_zero, false_or, true_and]
    constructor
    · intro h
      have := h j hj
      rw [hself] at this
      cases hb : bitOf b j with
      | false => rfl
      | true => simpa [hb] using this hb
    · intro h i hi hbit
      by_cases hij : i = j
      · rw [hij, h] at hbit
        cases hbit
      · rwa [hother i hi hij]

theorem bitOk_zero (bit : Bool) (type : FaultType) : BitOk 0 bit type := by
  cases type <;> simp [BitOk]

/-- The second flip of a bit finds it the other way round. -/
theorem bitOk_succ (k : ℕ) (bit : Bool) (type : FaultType) :
    BitOk (k + 1) bit type ↔ BitOk 1 bit type ∧ BitOk k (!bit) type := by
  cases type <;> cases bit <;> simp [BitOk]

namespace RandomState

variable (r : RandomState) {type : FaultType}

/-- One bit, once for each generator. -/
def flips (gens : List Generator) (addr j : ℕ) (b : Byte) : Byte × RandomState :=
  gens.foldl (fun x g => x.2.tryFlip g addr j x.1) (b, r)

/-- The first `n` bits of a byte. -/
def bits (gens : List Generator) (addr : ℕ) (b : Byte) : ℕ → Byte × RandomState
  | 0 => (b, r)
  | n + 1 => (bits gens addr b n).2.flips gens addr n (bits gens addr b n).1

theorem readBits_eq (gR gH : Generator) (addr : ℕ) (b : Byte) (n : ℕ) :
    r.readBits gR gH addr b n = r.bits [gR, gH] addr b n := by
  induction n with
  | zero => rfl
  | succ n ih =>
    unfold readBits bits
    rw [ih]
    rfl

theorem writeBits_eq (gW : Generator) (addr : ℕ) (b : Byte) (n : ℕ) :
    r.writeBits gW addr b n = r.bits [gW] addr b n := by
  induction n with
  | zero => rfl
  | succ n ih =>
    unfold writeBits bits
    rw [ih]
    rfl

/-- How many of the generators flip at their draws number `q` from now. -/
def fired (gens : List Generator) (q : Generator → ℕ) : ℕ :=
  gens.countP fun g => r.outcome g (r.used g + q g)

/-- What a part of an injector's work does to its state: the generators have made `d` draws, and
the faults injected honour the type exactly when `ok` holds. -/
structure Draws (r r' : RandomState) (d : Generator → ℕ) (type : FaultType) (ok : Prop) :
    Prop where
  outcome : r'.outcome = r.outcome
  used : ∀ g, r'.used g = r.used g + d g
  injected : ∃ new, r'.injected = r.injected ++ new ∧ ((∀ f ∈ new, f.Honours type) ↔ ok)

/-- The state after a draw of `g`. -/
def drawn (g : Generator) : RandomState :=
  { r with used := Function.update r.used g (r.used g + 1) }

theorem tryFlip_hit {g : Generator} (h : r.outcome g (r.used g) = true) (addr j : ℕ) (b : Byte) :
    r.tryFlip g addr j b =
      (flipBit b j, { r.drawn g with injected := r.injected ++ [⟨addr, b, flipBit b j⟩] }) := by
  unfold tryFlip draw
  exact if_pos h

theorem tryFlip_miss {g : Generator} (h : ¬r.outcome g (r.used g) = true) (addr j : ℕ) (b : Byte) :
    r.tryFlip g addr j b = (b, r.drawn g) := by
  unfold tryFlip draw
  exact if_neg h

theorem tryFlip_bits (g : Generator) (addr : ℕ) (b : Byte) {i j : ℕ} (hi : i < 8) (hj : j < 8)
    (hij : i ≠ j) : bitOf (r.tryFlip g addr j b).1 i = bitOf b i := by
  by_cases h : r.outcome g (r.used g) = true
  · simp [r.tryFlip_hit h, bitOf_flipBit b hi hj, hij]
  · rw [r.tryFlip_miss h]

theorem tryFlip_rest (g : Generator) (addr j : ℕ) (b : Byte) :
    (r.tryFlip g addr j b).2.outcome = r.outcome ∧
      (r.tryFlip g addr j b).2.used = Function.update r.used g (r.used g + 1) := by
  by_cases h : r.outcome g (r.used g) = true
  · rw [r.tryFlip_hit h]
    exact ⟨rfl, rfl⟩
  · rw [r.tryFlip_miss h]
    exact ⟨rfl, rfl⟩

/-- The generators that come after `g` in the list have not drawn yet. -/
theorem fired_tryFlip {g : Generator} {gens : List Generator} (hg : g ∉ gens) (addr j : ℕ)
    (b : Byte) (q : Generator → ℕ) : (r.tryFlip g addr j b).2.fired gens q = r.fired gens q := by
  obtain ⟨houtcome, hused⟩ := r.tryFlip_rest g addr j b
  unfold fired
  apply List.countP_congr
  intro g' hg'
  rw [houtcome, hused, Function.update_of_ne (ne_of_mem_of_not_mem hg' hg)]

theorem flips_draws (type : FaultType) {gens : List Generator} (hgens : gens.Nodup) (addr : ℕ)
    {j : ℕ} (hj : j < 8) :
    ∀ (r : RandomState) (b : Byte),
      Draws r (r.flips gens addr j b).2 (fun g => if g ∈ gens then 1 else 0) type
          (BitOk (r.fired gens fun _ => 0) (bitOf b j) type) ∧
        ∀ i < 8, i ≠ j → bitOf (r.flips gens addr j b).1 i = bitOf b i := by
  induction gens with
  | nil =>
    intro r b
    refine ⟨⟨rfl, fun g => by simp [flips], [], by simp [flips], ?_⟩, fun _ _ _ => rfl⟩
    simp [fired, bitOk_zero]
  | cons g gens ih =>
    intro r b
    obtain ⟨hg, hgens⟩ := List.nodup_cons.mp hgens
    obtain ⟨houtcome, hused⟩ := r.tryFlip_rest g addr j b
    obtain ⟨hdraws, hbits⟩ := ih hgens (r.tryFlip g addr j b).2 (r.tryFlip g addr j b).1
    rw [r.fired_tryFlip hg] at hdraws
    refine ⟨⟨hdraws.outcome.trans houtcome, ?_, ?_⟩, ?_⟩
    · intro g'
      apply (hdraws.used g').trans
      rw [hused]
      by_cases hg' : g' = g
      · subst hg'
        simp [hg]
      · simp [hg', List.mem_cons]
    · obtain ⟨new, hnew, hok⟩ := hdraws.injected
      have hflips : r.flips (g :: gens) addr j b =
          (r.tryFlip g addr j b).2.flips gens addr j (r.tryFlip g addr j b).1 := rfl
      have hfired : r.fired (g :: gens) (fun _ => 0) =
          r.fired gens (fun _ => 0) + if r.outcome g (r.used g) = true then 1 else 0 :=
            List.countP_cons
      rw [hflips, hnew, hfired]
      by_cases hhit : r.outcome g (r.used g) = true
      · -- the first flip is of the bit as it was, those after it of its negation
        rw [r.tryFlip_hit hhit] at hok ⊢
        rw [bitOf_flipBit b hj hj, decide_eq_true rfl, Bool.xor_true] at hok
        refine ⟨⟨addr, b, flipBit b j⟩ :: new, by simp, ?_⟩
        rw [if_pos hhit, List.forall_mem_cons, hok, bitOk_succ]
        exact and_congr_left fun _ => flip_honours_iff type addr b hj
      · rw [r.tryFlip_miss hhit] at hok ⊢
        rw [if_neg hhit]
        exact ⟨new, rfl, hok⟩
    · intro i hi hij
      apply (hbits i hi hij).trans
      exact r.tryFlip_bits g addr b hi hj hij

theorem Draws.trans {r r' r'' : RandomState} {d d' : Generator → ℕ} {ok ok' : Prop}
    (h : Draws r r' d type ok) (h' : Draws r' r'' d' type ok') :
    Draws r r'' (fun g => d g + d' g) type (ok ∧ ok') := by
  refine ⟨h'.outcome.trans h.outcome, ?_, ?_⟩
  · intro g
    rw [h'.used, h.used, Nat.add_assoc]
  · obtain ⟨new, hnew, hok⟩ := h.injected
    obtain ⟨new', hnew', hok'⟩ := h'.injected
    refine ⟨new ++ new', by rw [hnew', hnew, List.append_assoc], ?_⟩
    rw [List.forall_mem_append, hok, hok']

theorem Draws.congr {r r' : RandomState} {d d' : Generator → ℕ} {ok ok' : Prop}
    (h : Draws r r' d type ok) (hd : ∀ g, d g = d' g) (hok : ok ↔ ok') :
    Draws r r' d' type ok' :=
  ⟨h.outcome, fun g => hd g ▸ h.used g, h.injected.imp fun _ hnew => ⟨hnew.1, hnew.2.trans hok⟩⟩

theorem Draws.refl (r : RandomState) (type : FaultType) : Draws r r (fun _ => 0) type True :=
  ⟨rfl, fun _ => rfl, [], by simp, by simp⟩

/-- Draws counted from a later state are draws counted from an earlier one. -/
theorem Draws.fired {r r' : RandomState} {d : Generator → ℕ} {ok : Prop}
    (h : Draws r r' d type ok) (gens : List Generator) (q : Generator → ℕ) :
    r'.fired gens q = r.fired gens fun g => d g + q g := by
  unfold RandomState.fired
  apply List.countP_congr
  intro g _
  rw [h.outcome, h.used, Nat.add_assoc]

theorem fired_congr {gens : List Generator} {q q' : Generator → ℕ}
    (h : ∀ g ∈ gens, q g = q' g) : r.fired gens q = r.fired gens q' := by
  unfold fired
  apply List.countP_congr
  intro g hg
  rw [h g hg]

theorem bits_draws (type : FaultType) {gens : List Generator} (hgens : gens.Nodup) (addr : ℕ)
    (b : Byte) {n : ℕ}
    (hn : n ≤ 8) :
    Draws r (r.bits gens addr b n).2 (fun g => if g ∈ gens then n else 0) type
        (∀ j < n, BitOk (r.fired gens fun _ => j) (bitOf b j) type) ∧
      ∀ i < 8, n ≤ i → bitOf (r.bits gens addr b n).1 i = bitOf b i := by
  induction n with
  | zero => exact ⟨(Draws.refl r type).congr (by simp) (by simp), fun _ _ _ => rfl⟩
  | succ n ih =>
    obtain ⟨hdraws, hbits⟩ := ih (by omega)
    obtain ⟨hflip, hother⟩ := flips_draws type hgens addr (j := n) (by omega)
      (r.bits gens addr b n).2 (r.bits gens addr b n).1
    refine ⟨(hdraws.trans hflip).congr ?_ ?_, ?_⟩
    · intro g
      split <;> rfl
    · have hq : r.fired gens (fun g => (if g ∈ gens then n else 0) + 0) =
          r.fired gens fun _ => n := r.fired_congr (by simp +contextual)
      rw [hdraws.fired, hbits n (by omega) le_rfl, Nat.forall_lt_succ_right, hq]
    · intro i hi hni
      exact (hother i hi (by omega)).trans (hbits i hi (by omega))

end RandomState
namespace FaultInjectorRandom

variable {type : FaultType}

/-- The generators that a read or a write draws from at each bit of a byte with this set number. -/
def generators (read : Bool) (setnum : ℤ) : List Generator :=
  if setnum = 0 then if read then [.R, .H] else [.W]
  else if setnum = 1 then if read then [.R_2, .H_2] else [.W_2]
  else []

theorem generators_nodup (read : Bool) (setnum : ℤ) : (generators read setnum).Nodup := by
  unfold generators
  split
  · cases read <;> decide
  · split
    · cases read <;> decide
    · exact List.nodup_nil

theorem bits_nil (r : RandomState) (addr : ℕ) (b : Byte) (n : ℕ) : r.bits [] addr b n = (b, r) := by
  induction n with
  | zero => rfl
  | succ n ih =>
    unfold RandomState.bits
    rw [ih]
    rfl

/-- What `preRead` or `postWrite` does to one byte. -/
def byteFaults (read : Bool) (e : Env) (addr : ℕ) (b : Byte) : Byte × RandomState :=
  e.rng.bits (generators read (e.magic.approxAddrSetnum addr)) addr b 8

theorem readByte_eq : readByte = byteFaults true := by
  funext e addr b
  unfold readByte byteFaults generators
  simp only [RandomState.readBits_eq, if_true]
  split
  · rfl
  · split
    · rfl
    · rw [bits_nil]

theorem writeByte_eq : writeByte = byteFaults false := by
  funext e addr b
  unfold writeByte byteFaults generators
  simp only [RandomState.writeBits_eq, Bool.false_eq_true, if_false]
  split
  · rfl
  · split
    · rfl
    · rw [bits_nil]

/-- How often a generator has been drawn from when byte `i` of a call is reached. -/
def drawsBefore (m : MagicServer) (read : Bool) (addr i : ℕ) (g : Generator) : ℕ :=
  8 * Nat.count (fun k => g ∈ generators read (m.approxAddrSetnum (addr + k))) i

/-- The draws for bit `j` of byte `i` honour the type. -/
def DrawOk (type : FaultType) (e : Env) (read : Bool) (addr : ℕ) (fault : ℕ → Byte) (i j : ℕ) :
    Prop :=
  BitOk (e.rng.fired (generators read (e.magic.approxAddrSetnum (addr + i))) fun g =>
    drawsBefore e.magic read addr i g + j) (bitOf (fault i) j) type

theorem overBytes_draws (type : FaultType) (read : Bool) (e : Env) (addr : ℕ) (fault : ℕ → Byte)
    (n : ℕ) :
    RandomState.Draws e.rng (overBytes (byteFaults read) e addr fault n).2.rng
      (drawsBefore e.magic read addr n) type
      (∀ i < n, ∀ j < 8, DrawOk type e read addr fault i j) := by
  induction n with
  | zero => exact (RandomState.Draws.refl e.rng type).congr (by simp [drawsBefore]) (by simp)
  | succ n ih =>
    have hbyte := (RandomState.bits_draws
      (overBytes (byteFaults read) e addr fault n).2.rng type
      (generators_nodup read (e.magic.approxAddrSetnum (addr + n))) (addr + n) (fault n) le_rfl).1
    have hsucc : (overBytes (byteFaults read) e addr fault (n + 1)).2.rng =
        ((overBytes (byteFaults read) e addr fault n).2.rng.bits
          (generators read (e.magic.approxAddrSetnum (addr + n))) (addr + n) (fault n) 8).2 := by
      change (byteFaults read _ _ _).2 = _
      unfold byteFaults
      rw [overBytes_magic, overBytes_later e addr fault le_rfl]
    rw [hsucc]
    refine (ih.trans hbyte).congr ?_ ?_
    · intro g
      unfold drawsBefore
      rw [Nat.count_succ, Nat.mul_add]
      split <;> rfl
    · simp only [ih.fired, Nat.forall_lt_succ_right]
      exact Iff.rfl

end FaultInjectorRandom
end Sniper
