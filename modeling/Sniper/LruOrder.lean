import Sniper.Library.Machine
import Sniper.CacheSetLRU2

namespace Sniper
open Recency

namespace CacheSetLRU2

variable {associativity : ℕ} {approx : Bool} {bits : LruBits} {info : ℕ → CacheBlockInfo}
  {history : List ℕ}

/-- The ways of a partition. -/
def part (associativity : ℕ) (approx : Bool) : Finset ℕ :=
  Finset.Ico (first associativity approx) (last associativity approx)

/-- When a way was touched last. Of the ways never touched the one with the highest index is the
oldest. -/
def lastTouch (history : List ℕ) (i : ℕ) : ℤ := lastUse (fun i : ℕ => -(i : ℤ)) history i

/-- In both partitions the bits number the ways from the one touched last on. -/
def Ordered (associativity : ℕ) (bits : LruBits) (history : List ℕ) : Prop :=
  ∀ approx, Ranked (part associativity approx) (fun i => (bits i).toNat) (lastTouch history)

theorem mem_part {i : ℕ} : i ∈ part associativity approx ↔ i ∈ ways associativity approx := by
  rw [part, Finset.mem_Ico, mem_ways]

theorem card_part : (part associativity approx).card =
    last associativity approx - first associativity approx := Nat.card_Ico ..

theorem first_mem (h : 2 ≤ associativity) :
    first associativity approx ∈ ways associativity approx :=
  mem_ways.mpr ⟨le_rfl, first_lt_last h approx⟩

/-- Every way is in one of the partitions. -/
theorem mem_ways_of_lt {a : ℕ} (ha : a < associativity) :
    a ∈ ways associativity (!decide (a < approx_margin associativity)) := by
  rw [mem_ways]
  by_cases h : a < approx_margin associativity
  · simp [h]
  · simp [h, ha]
    omega

/-- A way is in one partition only. -/
theorem mem_ways_unique {a i : ℕ} {approx' : Bool} (ha : a ∈ ways associativity approx')
    (hi : i ∈ ways associativity approx') (hi' : i ∈ ways associativity approx) :
    a ∈ ways associativity approx := by
  rwa [← ways_of_mem hi', ways_of_mem hi]

theorem create_ordered (h256 : associativity ≤ 256) (h : 2 ≤ associativity) :
    Ordered associativity (create associativity) [] := by
  intro approx
  have hrank : ∀ i ∈ part associativity approx,
      (create associativity i).toNat = i - first associativity approx := by
    intro i hi
    obtain ⟨h1, h2⟩ := mem_ways.mp (mem_part.mp hi)
    have hpos := first_lt_last h false
    have hlt := first_lt_last h true
    unfold create
    cases approx
    · simp only [first_exact, last_exact, first_approx, last_approx] at *
      rw [if_pos h2, UInt8.toNat_ofNat', Nat.mod_eq_of_lt (by omega), Nat.sub_zero]
    · simp only [first_exact, last_exact, first_approx, last_approx] at *
      rw [if_neg (by omega), UInt8.toNat_ofNat', Nat.mod_eq_of_lt (by omega)]
  refine ⟨?_, ?_, ?_⟩
  · intro i hi
    have := hrank i hi
    have := mem_ways.mp (mem_part.mp hi)
    rw [card_part]
    omega
  · intro i hi j hj hij
    have hi' := mem_ways.mp (mem_part.mp hi)
    have hj' := mem_ways.mp (mem_part.mp hj)
    simp only [hrank i hi, hrank j hj] at hij
    omega
  · intro i hi j hj
    have hi' := mem_ways.mp (mem_part.mp hi)
    have hj' := mem_ways.mp (mem_part.mp hj)
    simp only [hrank i hi, hrank j hj, lastTouch, lastUse]
    omega

/-- An access keeps the order, with the accessed way as the latest. -/
theorem Ordered.touch (h : Ordered associativity bits history) {a : ℕ} (ha : a < associativity) :
    Ordered associativity (updateReplacementIndex associativity bits a) (a :: history) := by
  intro approx
  have hnonpos : ∀ i : ℕ, -(i : ℤ) ≤ 0 := fun i => by omega
  by_cases hmem : a ∈ ways associativity approx
  · have hranks := updateReplacementIndex_ranks hmem bits
    apply ((h approx).touch (mem_part.mpr hmem) _ _).congr
    · intro i hi
      rw [hranks, if_pos (mem_part.mp hi)]
    · exact fun i _ => rfl
    · exact fun i _ hia => lastUse_lt hnonpos history hia
    · exact fun i _ hia => lastUse_of_ne history hia
  · have hranks := updateReplacementIndex_ranks (mem_ways_of_lt ha) bits
    apply (h approx).congr
    · intro i hi
      rw [hranks, if_neg]
      intro hother
      exact hmem (mem_ways_unique (mem_ways_of_lt ha) hother (mem_part.mp hi))
    · intro i hi
      apply lastUse_of_ne
      intro he
      exact hmem (he ▸ mem_part.mp hi)

variable (bits info) in
/-- What the loop for the maximum finds among the ways that may be replaced: a way with the highest
rank, or nothing if no rank is above the one it started from. -/
theorem findMax_spec (l : List ℕ) : ∀ found : ℕ × UInt8,
    found.2 ≤ (l.foldl (findMax bits info) found).2 ∧
    (∀ i ∈ l, isValidReplacement info i = true → bits i ≤ (l.foldl (findMax bits info) found).2) ∧
    (l.foldl (findMax bits info) found = found ∨
      (l.foldl (findMax bits info) found).1 ∈ l ∧
        isValidReplacement info (l.foldl (findMax bits info) found).1 = true ∧
        (l.foldl (findMax bits info) found).2 = bits (l.foldl (findMax bits info) found).1 ∧
        found.2 < (l.foldl (findMax bits info) found).2) := by
  induction l with
  | nil => exact fun found => ⟨UInt8.le_refl _, by simp, .inl rfl⟩
  | cons i l ih =>
    intro found
    obtain ⟨hle, hall, hfound⟩ := ih (findMax bits info found i)
    rw [List.foldl_cons]
    by_cases h : found.2 < bits i ∧ isValidReplacement info i = true
    · have hstep : findMax bits info found i = (i, bits i) := if_pos h
      rw [hstep] at hle hall hfound ⊢
      refine ⟨UInt8.le_trans (UInt8.le_of_lt h.1) hle, ?_, ?_⟩
      · intro k hk hvalid
        rcases List.mem_cons.mp hk with rfl | hk
        · exact hle
        · exact hall k hk hvalid
      · right
        rcases hfound with he | ⟨h1, h2, h3, h4⟩
        · rw [he]
          exact ⟨List.mem_cons_self, h.2, rfl, h.1⟩
        · exact ⟨List.mem_cons_of_mem i h1, h2, h3, UInt8.lt_trans h.1 h4⟩
    · have hstep : findMax bits info found i = found := if_neg h
      rw [hstep] at hle hall hfound ⊢
      refine ⟨hle, ?_, ?_⟩
      · intro k hk hvalid
        rcases List.mem_cons.mp hk with rfl | hk
        · exact UInt8.le_trans (UInt8.not_lt.mp fun hlt => h ⟨hlt, hvalid⟩) hle
        · exact hall k hk hvalid
      · exact hfound.imp id fun h => ⟨List.mem_cons_of_mem i h.1, h.2⟩

variable (bits) in
/-- With all ways valid the victim is the replaceable way of the highest rank, or the first way of
the partition when no replaceable way has a rank above 0. -/
theorem victim_of_valid (hvalid : ∀ i ∈ ways associativity approx, (info i).isValid = true) :
    let index := victim associativity bits info approx
    (index = first associativity approx ∧
      ∀ i ∈ ways associativity approx, isValidReplacement info i = true → bits i = 0) ∨
    (isValidReplacement info index = true ∧ 0 < bits index ∧
      ∀ i ∈ ways associativity approx, isValidReplacement info i = true → bits i ≤ bits index) := by
  have hnone : (ways associativity approx).find? (fun i => !(info i).isValid) = none := by
    rw [List.find?_eq_none]
    intro i hi
    simp [hvalid i hi]
  unfold victim
  rw [hnone]
  obtain ⟨-, hall, hfound⟩ := findMax_spec bits info
    (ways associativity approx) (first associativity approx, 0)
  rcases hfound with he | ⟨-, hrepl, hbits, hpos⟩
  · left
    refine ⟨congrArg Prod.fst he, ?_⟩
    intro i hi hv
    have := hall i hi hv
    rw [he] at this
    exact UInt8.le_antisymm this (UInt8.le_iff_toNat_le.mpr (Nat.zero_le _))
  · right
    exact ⟨hrepl, hbits ▸ hpos, fun i hi hv => hbits ▸ hall i hi hv⟩

/-- A way that is not valid is chosen when there is one. -/
theorem victim_of_invalid (h : ¬∀ i ∈ ways associativity approx, (info i).isValid = true) :
    (info (victim associativity bits info approx)).isValid = false := by
  have hsome : ((ways associativity approx).find? fun i => !(info i).isValid).isSome = true := by
    rw [List.find?_isSome]
    push Not at h
    obtain ⟨i, hi, hinvalid⟩ := h
    exact ⟨i, hi, by simpa using hinvalid⟩
  unfold victim
  split
  · rename_i i hfind
    simpa using List.find?_some hfind
  · rename_i hfind
    rw [hfind] at hsome
    cases hsome

/-- The victim among ways that are all valid and none in an upgrade. -/
theorem victim_oldest (h : 2 ≤ associativity) (hord : Ordered associativity bits history)
    (hvalid : ∀ i ∈ part associativity approx, (info i).isValid = true)
    (hstate : ∀ i ∈ part associativity approx, (info i).cstate ≠ .sharedUpgrading) {j : ℕ}
    (hj : j ∈ part associativity approx)
    (hne : j ≠ victim associativity bits info approx) :
    lastTouch history (victim associativity bits info approx) < lastTouch history j := by
  have hrepl : ∀ i ∈ ways associativity approx, isValidReplacement info i = true := by
    intro i hi
    simpa [isValidReplacement] using hstate i (mem_part.mpr hi)
  refine (hord approx).oldest (mem_part.mpr (victim_mem h)) ?_ hj hne
  intro i hi
  rw [mem_part] at hi
  rcases victim_of_valid bits fun i hi => hvalid i (mem_part.mpr hi) with
    ⟨hfirst, hzero⟩ | ⟨-, -, hmax⟩
  · rw [hzero i hi (hrepl i hi)]
    exact Nat.zero_le _
  · exact UInt8.le_iff_toNat_le.mp (hmax i hi (hrepl i hi))

end CacheSetLRU2

/-- A call that reads or changes the recency bits of a `CacheSetLRU2`, or a change of its blocks. -/
inductive Lru2Op where
  | updateReplacementIndex (index : ℕ)
  | getReplacementIndex (approx : Bool)
  | invalidate (tag : ℕ)
  | setInfo (index : ℕ) (info : CacheBlockInfo)

/-- A set, and the ways touched so far, the latest first. -/
structure Lru2State where
  set : CacheSet LruBits
  history : List ℕ

namespace Lru2State

def init (associativity : ℕ) : Lru2State where
  set := ⟨fun _ => .create, fun _ => 0, CacheSetLRU2.create associativity⟩
  history := []

def exec (k : CacheParams LruBits) (S : Lru2State) : Lru2Op → Lru2State
  | .updateReplacementIndex index => ⟨S.set.touch k index true, index :: S.history⟩
  | .getReplacementIndex approx =>
    let (index, policy) := k.policy.getReplacementIndex S.set.m_policy
      S.set.m_cache_block_info_array approx
    ⟨{ S.set with m_policy := policy }, index.val :: S.history⟩
  | .invalidate tag => { S with set := S.set.invalidate k tag }
  | .setInfo index info => { S with set := S.set.setInfo index info }

def machine (g : Geometry) (h : 2 ≤ g.associativity) : Machine Lru2State Lru2Op Abort where
  enabled _ op := ∀ index, op = .updateReplacementIndex index → index < g.associativity
  exec S op := .ok (S.exec (lru2 g h) op)

variable {g : Geometry} {h : 2 ≤ g.associativity} {S : Lru2State}

/-- Every operation keeps the bits in the order of the touches. -/
theorem exec_ordered (op : Lru2Op) (hop : (machine g h).enabled S op)
    (hord : CacheSetLRU2.Ordered g.associativity S.set.m_policy S.history) :
    CacheSetLRU2.Ordered g.associativity (S.exec (lru2 g h) op).set.m_policy
      (S.exec (lru2 g h) op).history := by
  cases op with
  | updateReplacementIndex index => exact hord.touch (hop index rfl)
  | getReplacementIndex approx =>
    apply hord.touch
    exact (CacheSetLRU2.mem_ways.mp (CacheSetLRU2.victim_mem h)).2.trans_le
      (CacheSetLRU2.last_le h approx)
  | invalidate tag =>
    change CacheSetLRU2.Ordered _ (S.set.invalidate (lru2 g h) tag).m_policy S.history
    unfold CacheSet.invalidate
    split
    · exact hord
    · exact hord
  | setInfo index info => exact hord

theorem run_ordered (h256 : g.associativity ≤ 256) {ops : List Lru2Op}
    (hrun : (machine g h).Run (init g.associativity) ops S) :
    CacheSetLRU2.Ordered g.associativity S.set.m_policy S.history := by
  apply Machine.Run.inv (E := fun _ => True)
    (I := fun S => CacheSetLRU2.Ordered g.associativity S.set.m_policy S.history) _ hrun
  · exact CacheSetLRU2.create_ordered h256 h
  · exact fun S op hord hop => exec_ordered op hop hord

end Lru2State

open CacheSetLRU2 in
/-- In every reachable state the bits of either partition are a permutation that orders its ways by
their last touch, and the victim is the way touched longest ago. -/
theorem lru2_true_lru (g : Geometry) (h : 2 ≤ g.associativity) (h256 : g.associativity ≤ 256)
    (ops : List Lru2Op) (S : Lru2State)
    (hrun : (Lru2State.machine g h).Run (.init g.associativity) ops S) (approx : Bool) :
    Set.BijOn (fun i => (S.set.m_policy i).toNat) (part g.associativity approx)
        (Finset.range (part g.associativity approx).card) ∧
    (∀ i ∈ part g.associativity approx, ∀ j ∈ part g.associativity approx,
      S.set.m_policy i < S.set.m_policy j ↔ lastTouch S.history j < lastTouch S.history i) ∧
    ((∀ i ∈ part g.associativity approx, (S.set.m_cache_block_info_array i).isValid = true ∧
        (S.set.m_cache_block_info_array i).cstate ≠ .sharedUpgrading) →
      ∀ index policy, (lru2 g h).policy.getReplacementIndex S.set.m_policy
          S.set.m_cache_block_info_array approx = (index, policy) →
        index.val ∈ part g.associativity approx ∧ ∀ j ∈ part g.associativity approx, j ≠ index.val →
          lastTouch S.history index < lastTouch S.history j) := by
  have hord := Lru2State.run_ordered h256 hrun
  refine ⟨(hord approx).bijOn, ?_, ?_⟩
  · intro i hi j hj
    rw [UInt8.lt_iff_toNat_lt]
    exact (hord approx).order i hi j hj
  · intro hinfo index policy hget
    cases hget
    refine ⟨mem_part.mpr (victim_mem h), ?_⟩
    intro j hj hne
    exact victim_oldest h hord (fun i hi => (hinfo i hi).1) (fun i hi => (hinfo i hi).2) hj hne

namespace CacheSetLRU2

/-- Four ways, the first two of them exact. -/
def fourWays : Geometry where
  associativity := 4
  blocksize := 4
  blocksize_pos := by decide
  setIndex _ := 0
  stores := true

/-- The exact ways hold valid lines, and way 1 is touched. -/
def touchWay1 : List Lru2Op :=
  [.setInfo 0 ⟨some 0, .shared⟩, .setInfo 1 ⟨some 1, .shared⟩, .updateReplacementIndex 1]

theorem fourWays_two : 2 ≤ fourWays.associativity := by decide

def afterTouch : Lru2State := touchWay1.foldl
    (Lru2State.exec (lru2 fourWays fourWays_two)) (.init 4)

theorem touchWay1_run :
    (Lru2State.machine fourWays fourWays_two).Run (.init 4) touchWay1 afterTouch := by
  refine .of_foldlM touchWay1 ?_ _ rfl
  intro done op rest S hops _ index hop
  subst hop
  have hmem : Lru2Op.updateReplacementIndex index ∈ touchWay1 := by
    rw [hops]
    simp
  simp only [touchWay1, List.mem_cons, Lru2Op.updateReplacementIndex.injEq, reduceCtorEq, false_or,
    List.not_mem_nil, or_false] at hmem
  rw [hmem]
  decide

end CacheSetLRU2

open CacheSetLRU2 in
theorem lru2_true_lru_touchWay1 :
    let index := ((lru2 fourWays fourWays_two).policy.getReplacementIndex afterTouch.set.m_policy
      afterTouch.set.m_cache_block_info_array false).1
    index.val = 0 ∧ index.val ∈ part 4 false ∧ ∀ j ∈ part 4 false, j ≠ index.val →
      lastTouch afterTouch.history index < lastTouch afterTouch.history j :=
  ⟨by decide, (lru2_true_lru fourWays fourWays_two (by decide) touchWay1 afterTouch touchWay1_run
    false).2.2 (by decide) _ _ rfl⟩

open CacheSetLRU2

/-- A valid way in the middle of an upgrade. -/
def Upgrading (info : ℕ → CacheBlockInfo) (index : ℕ) : Prop :=
  (info index).isValid = true ∧ (info index).cstate = .sharedUpgrading

/-- All ways of the partition are valid, and the one touched last, which is not the first, is the
only one that is not in an upgrade. -/
def OnlyLatestFree (associativity : ℕ) (bits : LruBits) (info : ℕ → CacheBlockInfo)
    (approx : Bool) : Prop :=
  (∀ i ∈ part associativity approx, (info i).isValid = true) ∧
  ∃ w ∈ part associativity approx, w ≠ first associativity approx ∧ bits w = 0 ∧
    (info w).cstate ≠ .sharedUpgrading ∧
      ∀ i ∈ part associativity approx, i ≠ w → (info i).cstate = .sharedUpgrading

/-- A way in an upgrade is chosen in spite of another choice exactly when that choice is the way
touched last. -/
theorem lru2_spares_upgrading_iff (g : Geometry) (h : 2 ≤ g.associativity)
    (h256 : g.associativity ≤ 256) (ops : List Lru2Op) (S : Lru2State)
    (hrun : (Lru2State.machine g h).Run (.init g.associativity) ops S)
    (info : ℕ → CacheBlockInfo) (approx : Bool) (index : Fin g.associativity) (policy : LruBits)
    (hget : (lru2 g h).policy.getReplacementIndex S.set.m_policy info approx = (index, policy)) :
    ((∃ i ∈ part g.associativity approx, ¬Upgrading info i) → ¬Upgrading info index) ↔
      ¬OnlyLatestFree g.associativity S.set.m_policy info approx := by
  have hord := Lru2State.run_ordered h256 hrun approx
  cases hget
  change (_ → ¬Upgrading info (victim g.associativity S.set.m_policy info approx)) ↔ _
  by_cases hvalid : ∀ i ∈ ways g.associativity approx, (info i).isValid = true
  · have hrepl : ∀ i, isValidReplacement info i = true ↔ (info i).cstate ≠ .sharedUpgrading :=
      fun i => by simp [isValidReplacement]
    have hfree : ∀ i ∈ ways g.associativity approx,
        (¬Upgrading info i ↔ (info i).cstate ≠ .sharedUpgrading) :=
      fun i hi => by simp [Upgrading, hvalid i hi]
    -- the free ways have rank 0 and the first way is taken, or a free one of nonzero rank is
    rcases victim_of_valid S.set.m_policy hvalid with ⟨hfirst, hzero⟩ | ⟨hv, hpos, -⟩
    · rw [hfirst, hfree _ (first_mem h)]
      constructor
      · intro himp h'
        obtain ⟨-, w, hw, hne, -, hstate, hothers⟩ := h'
        rw [mem_part] at hw
        refine himp ⟨w, mem_part.mpr hw, (hfree w hw).mpr hstate⟩ ?_
        exact hothers _ (mem_part.mpr (first_mem h)) hne.symm
      · intro hnot h' hupgrading
        obtain ⟨w, hw, hstate⟩ := h'
        rw [mem_part] at hw
        rw [hfree w hw] at hstate
        refine hnot ⟨fun i hi => hvalid i (mem_part.mp hi), w, mem_part.mpr hw, ?_,
          hzero w hw ((hrepl w).mpr hstate), hstate, ?_⟩
        · intro he
          exact hstate (he ▸ hupgrading)
        · intro i hi hne
          -- two ways that may be replaced would both have rank 0
          by_contra hi'
          refine hne (hord.inj i hi w (mem_part.mpr hw) ?_)
          simp only [hzero w hw ((hrepl w).mpr hstate),
            hzero i (mem_part.mp hi) ((hrepl i).mpr hi')]
    · refine iff_of_true (fun _ hup => (hrepl _).mp hv hup.2) ?_
      intro h'
      obtain ⟨-, w, -, -, hzero, -, hothers⟩ := h'
      by_cases hw : victim g.associativity S.set.m_policy info approx = w
      · rw [hw, hzero] at hpos
        exact UInt8.lt_irrefl _ hpos
      · exact (hrepl _).mp hv (hothers _ (mem_part.mpr (victim_mem h)) hw)
  · refine iff_of_true (fun _ hup => ?_) fun hlatest =>
      hvalid fun i hi => hlatest.1 i (mem_part.mpr hi)
    have := hup.1
    rw [victim_of_invalid hvalid] at this
    cases this

/-- Way 0 is in an upgrade, way 1 is not. -/
def way0Upgrading : ℕ → CacheBlockInfo
  | 0 => ⟨some 0, .sharedUpgrading⟩
  | index => ⟨some index, .shared⟩

theorem lru2_spares_upgrading_iff_touchWay1 :
    ((∃ i ∈ part 4 true, ¬Upgrading way0Upgrading i) →
      ¬Upgrading way0Upgrading ((lru2 fourWays fourWays_two).policy.getReplacementIndex
        afterTouch.set.m_policy way0Upgrading true).1) ↔
    ¬OnlyLatestFree 4 afterTouch.set.m_policy way0Upgrading true :=
  lru2_spares_upgrading_iff fourWays fourWays_two (by decide) touchWay1 afterTouch touchWay1_run
    way0Upgrading true _ _ rfl

/-- After a touch of way 1 the way in the upgrade is chosen, although way 1 could be replaced. -/
theorem lru2_evicts_upgrading :
    (Lru2State.machine fourWays fourWays_two).Run (.init 4) touchWay1 afterTouch ∧
    (∃ i ∈ part 4 false, ¬Upgrading way0Upgrading i) ∧
    Upgrading way0Upgrading ((lru2 fourWays fourWays_two).policy.getReplacementIndex
      afterTouch.set.m_policy way0Upgrading false).1 :=
  ⟨touchWay1_run, ⟨1, by decide, fun h => by cases h.2⟩, by decide, by decide⟩

end Sniper
