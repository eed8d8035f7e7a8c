import Sniper.BlockWalk
import Sniper.DramCntlr
import Sniper.Library.FamilySum
import Sniper.Library.Rounding

namespace Sniper
open FamilySum Outcome

/-- DRAM controllers, with the page sets and the magic server that they share. -/
structure DramSystem (κ : Type) where
  m_dram : κ → DramCntlr
  sets : PageSets
  magic : MagicServer
  rng : κ → RandomState

inductive DramCall (κ : Type) where
  | getDataFromDram (d : κ) (address : ℕ) (data_buf : ℕ → Byte) (now : ℕ)
  | putDataToDram (d : κ) (address : ℕ) (data_buf : ℕ → Byte) (now : ℕ)
  | addApprox (address set_number : ℕ)
  | delApprox (address : ℕ)

namespace DramCall

variable {κ : Type}

/-- The block that an operation accesses. -/
def block : DramCall κ → Option ℕ
  | getDataFromDram _ address _ _ | putDataToDram _ address _ _ => some address
  | addApprox .. | delApprox .. => none

def register (R : Set ℕ) : DramCall κ → Set ℕ
  | addApprox address _ => insert address R
  | delApprox address => R \ {address}
  | _ => R

/-- The bytes that are registered after some operations. -/
def registered (ops : List (DramCall κ)) : Set ℕ := ops.foldl register ∅

/-- The pages of 4 KiB that have been accessed. -/
def accessedPages (ops : List (DramCall κ)) : Set ℕ :=
  {page | ∃ op ∈ ops, ∃ address, op.block = some address ∧ address / 4096 = page}

/-- The pages of which a block with a byte registered at the time has been accessed. -/
def approxPages (blocksize : ℕ) (ops : List (DramCall κ)) : Set ℕ :=
  {page | ∃ before op after address, ops = before ++ op :: after ∧ op.block = some address ∧
    address / 4096 = page ∧ ∃ i < blocksize, (address + i) % 2 ^ 64 ∈ registered before}

variable {ops : List (DramCall κ)} {op : DramCall κ} {address blocksize : ℕ}

theorem exists_block (h : op.block = some address) {Q : ℕ → Prop} :
    (∃ a, op.block = some a ∧ Q a) ↔ Q address := by
  simp only [h, Option.some.injEq, exists_eq_left']

theorem registered_append : registered (ops ++ [op]) = op.register (registered ops) := by
  unfold registered
  rw [List.foldl_append]
  rfl

theorem mem_accessedPages_append {page : ℕ} : page ∈ accessedPages (ops ++ [op]) ↔
    page ∈ accessedPages ops ∨ ∃ address, op.block = some address ∧ address / 4096 = page := by
  unfold accessedPages
  simp only [Set.mem_ofPred_eq, List.mem_append, List.mem_singleton, or_and_right, exists_or,
    exists_eq_left]

theorem mem_approxPages_append {page : ℕ} : page ∈ approxPages blocksize (ops ++ [op]) ↔
    page ∈ approxPages blocksize ops ∨ ∃ address, op.block = some address ∧
      address / 4096 = page ∧ ∃ i < blocksize, (address + i) % 2 ^ 64 ∈ registered ops := by
  constructor
  · intro h
    obtain ⟨before, op', after, address, hops, hrest⟩ := h
    rcases List.eq_nil_or_concat after with hnil | ⟨after', op'', hafter⟩
    · subst hnil
      obtain ⟨rfl, hop⟩ := List.append_inj' hops rfl
      rw [← List.singleton_inj.mp hop] at hrest
      exact .inr ⟨address, hrest⟩
    · rw [hafter, List.concat_eq_append, ← List.cons_append, ← List.append_assoc] at hops
      exact .inl ⟨before, op', after', address, (List.append_inj' hops rfl).1, hrest⟩
  · intro h
    rcases h with ⟨before, op', after, address, hops, hrest⟩ | ⟨address, hrest⟩
    · exact ⟨before, op', after ++ [op], address, by rw [hops]; simp, hrest⟩
    · exact ⟨ops, op, [], address, rfl, hrest⟩

theorem approxPages_subset : approxPages blocksize ops ⊆ accessedPages ops := by
  intro page h
  obtain ⟨before, op, after, address, hops, hblock, hpage, -⟩ := h
  exact ⟨op, by rw [hops]; simp, address, hblock, hpage⟩

end DramCall

namespace DramSystem

section

variable {κ : Type} [DecidableEq κ] (k : DramParams) (S : DramSystem κ)

def dramState (d : κ) : DramState := ⟨S.m_dram d, S.sets, ⟨S.magic, S.rng d⟩⟩

/-- The system after a call of controller `d`. -/
def putDram (d : κ) (D : DramState) : DramSystem κ where
  m_dram := Function.update S.m_dram d D.cntlr
  sets := D.sets
  magic := D.env.magic
  rng := Function.update S.rng d D.env.rng

def exec : DramCall κ → Except Abort (DramSystem κ)
  | .getDataFromDram d address data_buf now =>
    .ok (S.putDram d (DramCntlr.getDataFromDram k (S.dramState d) address data_buf now).1)
  | .putDataToDram d address data_buf now => do
    let D ← DramCntlr.putDataToDram k (S.dramState d) address data_buf now
    return S.putDram d D
  | .addApprox address set_number =>
    .ok { S with magic := (S.magic.addApprox address set_number).1 }
  | .delApprox address => .ok { S with magic := (S.magic.delApprox address).1 }

/-- Calls of the controllers, registrations and deregistrations in any order. -/
def machine : Machine (DramSystem κ) (DramCall κ) Abort where
  enabled _ _ := True
  exec := exec k

def init (rng : κ → RandomState) : DramSystem κ where
  m_dram _ := .init
  sets := ⟨∅, ∅⟩
  magic := .init
  rng := rng

end

end DramSystem

/-- The counts, the page sets and the registry are as before. -/
structure SameCounts (D D' : DramState) : Prop where
  overall : D'.cntlr.overall_addr_cnter = D.cntlr.overall_addr_cnter
  approx : D'.cntlr.approx_addr_cnter = D.cntlr.approx_addr_cnter
  sets : D'.sets = D.sets
  keys : ∀ a, a ∈ D'.env.magic.approx_vars.keys ↔ a ∈ D.env.magic.approx_vars.keys

/-- An access of block `address` counts its page, unless it is in the sets already. -/
structure CountsPage (k : DramParams) (D : DramState) (address : ℕ) (D' : DramState) : Prop where
  overall : D'.cntlr.overall_addr_cnter = D.cntlr.overall_addr_cnter +
    if address / 4096 ∈ D.sets.total_addrs then 0 else 1
  total : D'.sets.total_addrs = insert (address / 4096) D.sets.total_addrs
  approx : D'.cntlr.approx_addr_cnter = D.cntlr.approx_addr_cnter +
    if D.env.magic.isBlockApprox address k.blocksize = true then
      if address / 4096 ∈ D.sets.approx_addrs then 0 else 1
    else 0
  approx_addrs : D'.sets.approx_addrs =
    if D.env.magic.isBlockApprox address k.blocksize = true then
      insert (address / 4096) D.sets.approx_addrs else D.sets.approx_addrs
  keys : ∀ a, a ∈ D'.env.magic.approx_vars.keys ↔ a ∈ D.env.magic.approx_vars.keys

namespace DramCntlr

variable {k : DramParams} {D D' : DramState} {address now : ℕ} {data_buf : ℕ → Byte}

theorem SameCounts.accessPage (RW : Bool) : SameCounts D (accessPage k D address now RW) := by
  refine ⟨rfl, rfl, rfl, ?_⟩
  intro a
  rw [accessPage_magic, MagicServer.mem_updateLiftime]

theorem SameCounts.countPage (h : SameCounts D D') :
    CountsPage k D address (countPage k D' address) := by
  have happrox : D'.env.magic.isBlockApprox address k.blocksize =
      D.env.magic.isBlockApprox address k.blocksize := by
    rw [Bool.eq_iff_iff, MagicServer.isBlockApprox_iff, MagicServer.isBlockApprox_iff]
    simp only [h.keys]
  constructor
  · change D'.cntlr.overall_addr_cnter + (if _ ∈ D'.sets.total_addrs then 0 else 1) = _
    rw [h.overall, h.sets]
    rfl
  · change insert _ D'.sets.total_addrs = _
    rw [h.sets]
    rfl
  · change D'.cntlr.approx_addr_cnter + (if D'.env.magic.isBlockApprox address k.blocksize = true ∧
      _ ∉ D'.sets.approx_addrs then 1 else 0) = _
    rw [h.approx, h.sets, happrox]
    by_cases hblock : D.env.magic.isBlockApprox address k.blocksize = true
    · rw [if_pos hblock, ite_and, if_pos hblock, ite_not]
      rfl
    · rw [if_neg hblock, if_neg fun hc => hblock hc.1]
  · change (if D'.env.magic.isBlockApprox address k.blocksize = true then
      insert _ D'.sets.approx_addrs else D'.sets.approx_addrs) = _
    rw [h.sets, happrox]
    rfl
  · exact h.keys

theorem getDataFromDram_counts :
    CountsPage k D address (getDataFromDram k D address data_buf now).1 := by
  have hpage : SameCounts D (accessPage k D address now true) := SameCounts.accessPage true
  unfold getDataFromDram
  apply SameCounts.countPage
  cases k.manager with
  | none => exact ⟨hpage.overall, hpage.approx, hpage.sets, hpage.keys⟩
  | some manager =>
    refine ⟨hpage.overall, hpage.approx, hpage.sets, ?_⟩
    intro a
    rw [← hpage.keys a]
    simp only [storeBlock_magic manager.preRead_confined]

theorem putDataToDram_counts (h : putDataToDram k D address data_buf now = .ok D') :
    CountsPage k D address D' := by
  have hpage : SameCounts D (accessPage k D address now false) := SameCounts.accessPage false
  obtain ⟨D₁, hwrite, h⟩ := bind_eq_ok.mp h
  cases h
  apply SameCounts.countPage
  unfold writeBlock at hwrite
  cases hk : k.manager with
  | none =>
    rw [hk] at hwrite
    cases hwrite
    exact ⟨hpage.overall, hpage.approx, hpage.sets, hpage.keys⟩
  | some manager =>
    rw [hk] at hwrite
    simp only at hwrite
    split at hwrite
    · cases hwrite
      refine ⟨hpage.overall, hpage.approx, hpage.sets, ?_⟩
      intro a
      rw [← hpage.keys a]
      simp only [storeBlock_magic manager.postWrite_confined]
    · cases hwrite

end DramCntlr

namespace DramSystem

variable {κ : Type} [Fintype κ] {k : DramParams} {S S' : DramSystem κ} {ops : List (DramCall κ)}

/-- The counters of all controllers together are the numbers of pages in the shared sets, and the
sets are what the operations so far say. -/
structure Counted (k : DramParams) (S : DramSystem κ) (ops : List (DramCall κ)) : Prop where
  overall : ∑ d, (S.m_dram d).overall_addr_cnter = S.sets.total_addrs.card
  approx : ∑ d, (S.m_dram d).approx_addr_cnter = S.sets.approx_addrs.card
  total : ∀ page, page ∈ S.sets.total_addrs ↔ page ∈ DramCall.accessedPages ops
  approx_addrs : ∀ page, page ∈ S.sets.approx_addrs ↔ page ∈ DramCall.approxPages k.blocksize ops
  keys : ∀ a, a ∈ S.magic.approx_vars.keys ↔ a ∈ DramCall.registered ops

theorem init_counted (rng : κ → RandomState) : Counted k (init rng) [] := by
  constructor
  · exact Finset.sum_eq_zero fun _ _ => rfl
  · exact Finset.sum_eq_zero fun _ _ => rfl
  · intro page
    simp [init, DramCall.accessedPages]
  · intro page
    simp [init, DramCall.approxPages]
  · intro a
    simp [init, MagicServer.init, DramCall.registered]

variable [DecidableEq κ] {op : DramCall κ}

/-- An access by one of the controllers. -/
theorem Counted.access (h : Counted k S ops) {d : κ} {D : DramState} {address : ℕ}
    (hop : op.block = some address) (hreg : ∀ R, op.register R = R)
    (hD : CountsPage k (S.dramState d) address D) : Counted k (S.putDram d D) (ops ++ [op]) := by
  have happrox : S.magic.isBlockApprox address k.blocksize = true ↔
      ∃ i < k.blocksize, (address + i) % 2 ^ 64 ∈ DramCall.registered ops := by
    rw [MagicServer.isBlockApprox_iff]
    simp only [h.keys]
  have hcount : D.cntlr.approx_addr_cnter = (S.m_dram d).approx_addr_cnter +
      if S.magic.isBlockApprox address k.blocksize = true then
        if address / 4096 ∈ S.sets.approx_addrs then 0 else 1
      else 0 := hD.approx
  have haddrs : D.sets.approx_addrs =
      if S.magic.isBlockApprox address k.blocksize = true then
        insert (address / 4096) S.sets.approx_addrs
      else S.sets.approx_addrs := hD.approx_addrs
  constructor
  · change ∑ j, (Function.update S.m_dram d D.cntlr j).overall_addr_cnter = D.sets.total_addrs.card
    rw [hD.total]
    exact sum_count h.overall hD.overall
  · change ∑ j, (Function.update S.m_dram d D.cntlr j).approx_addr_cnter = D.sets.approx_addrs.card
    rw [haddrs]
    by_cases hblock : S.magic.isBlockApprox address k.blocksize = true
    · rw [if_pos hblock] at hcount ⊢
      exact sum_count h.approx hcount
    · rw [if_neg hblock] at hcount ⊢
      exact (sum_keep hcount).trans h.approx
  · intro page
    change page ∈ D.sets.total_addrs ↔ _
    rw [hD.total, Finset.mem_insert, DramCall.mem_accessedPages_append, DramCall.exists_block hop,
      or_comm]
    exact or_congr (h.total page) eq_comm
  · intro page
    change page ∈ D.sets.approx_addrs ↔ _
    rw [haddrs, DramCall.mem_approxPages_append, DramCall.exists_block hop, ← happrox,
      ← h.approx_addrs page]
    by_cases hblock : S.magic.isBlockApprox address k.blocksize = true
    · rw [if_pos hblock, Finset.mem_insert, or_comm]
      exact or_congr Iff.rfl (eq_comm.trans (and_iff_left hblock).symm)
    · rw [if_neg hblock]
      exact (or_iff_left fun hpage => hblock hpage.2).symm
  · intro a
    rw [DramCall.registered_append, hreg, ← h.keys]
    exact hD.keys a

omit [DecidableEq κ] in
/-- A call that changes the registry. -/
theorem Counted.register (h : Counted k S ops) {m : MagicServer} (hop : op.block = none)
    (hm : ∀ a, a ∈ m.approx_vars.keys ↔ a ∈ op.register (DramCall.registered ops)) :
    Counted k { S with magic := m } (ops ++ [op]) := by
  refine ⟨h.overall, h.approx, ?_, ?_, ?_⟩
  · intro page
    rw [DramCall.mem_accessedPages_append, hop]
    simpa using h.total page
  · intro page
    rw [DramCall.mem_approxPages_append, hop]
    simpa using h.approx_addrs page
  · intro a
    rw [DramCall.registered_append]
    exact hm a

theorem Counted.exec (h : Counted k S ops) (hx : S.exec k op = .ok S') :
    Counted k S' (ops ++ [op]) := by
  cases op with
  | getDataFromDram d address data_buf now =>
    cases hx
    exact h.access rfl (fun _ => rfl) DramCntlr.getDataFromDram_counts
  | putDataToDram d address data_buf now =>
    obtain ⟨D, hD, hx⟩ := bind_eq_ok.mp hx
    cases hx
    exact h.access rfl (fun _ => rfl) (DramCntlr.putDataToDram_counts hD)
  | addApprox address set_number =>
    cases hx
    apply h.register rfl
    intro a
    rw [MagicServer.mem_addApprox, h.keys]
    exact Set.mem_insert_iff.symm
  | delApprox address =>
    cases hx
    apply h.register rfl
    intro a
    rw [MagicServer.mem_delApprox, h.keys]
    exact and_comm

theorem run_counted {rng : κ → RandomState} (h : (machine k).Run (init rng) ops S) :
    Counted k S ops := by
  induction ops using List.reverseRecOn generalizing S with
  | nil =>
    rw [Machine.run_nil h]
    exact init_counted rng
  | append_singleton ops op ih =>
    obtain ⟨S₁, hrun, -, hx⟩ := Machine.run_append h
    exact (ih hrun).exec hx

end DramSystem

/-- `exact_ratio` of `compute_Flikker_power`; `none` for a division by zero. -/
def exactRatio (R : Rounding) (total_page_cnt approx_page_cnt : ℕ) : Option ℚ :=
  if total_page_cnt = 0 then none
  else
    some (R.round (R.round ((total_page_cnt - approx_page_cnt : ℤ) : ℚ) / R.round total_page_cnt))

theorem exactRatio_mem {R : Rounding} {total_page_cnt approx_page_cnt : ℕ}
    (htotal : 0 < total_page_cnt)
    (happrox : approx_page_cnt ≤ total_page_cnt) : ∃ exact_ratio,
      exactRatio R total_page_cnt approx_page_cnt = some exact_ratio ∧
        0 ≤ exact_ratio ∧ exact_ratio ≤ 1 := by
  refine ⟨_, if_neg htotal.ne', ?_⟩
  apply Rounding.round_div_mem
  · exact_mod_cast (by omega : (0 : ℤ) ≤ total_page_cnt - approx_page_cnt)
  · exact_mod_cast (by omega : (total_page_cnt - approx_page_cnt : ℤ) ≤ total_page_cnt)
  · exact_mod_cast htotal

/-- The counters of all controllers add up to the pages accessed and to those accessed with
approximate data, over any order of accesses and registrations, and their ratio is a ratio. -/
theorem pageCounters_exact {κ : Type} [Fintype κ] [DecidableEq κ] (k : DramParams)
    (rng : κ → RandomState) {ops : List (DramCall κ)} {S : DramSystem κ}
    (h : (DramSystem.machine k).Run (.init rng) ops S) :
    ∑ d, (S.m_dram d).overall_addr_cnter = (DramCall.accessedPages ops).ncard ∧
      ∑ d, (S.m_dram d).approx_addr_cnter = (DramCall.approxPages k.blocksize ops).ncard ∧
      ((∃ op ∈ ops, op.block ≠ none) → ∀ R, ∃ exact_ratio,
        exactRatio R (∑ d, (S.m_dram d).overall_addr_cnter) (∑ d, (S.m_dram d).approx_addr_cnter) =
          some exact_ratio ∧ 0 ≤ exact_ratio ∧ exact_ratio ≤ 1) := by
  have hcounted := DramSystem.run_counted h
  have htotal : DramCall.accessedPages ops = S.sets.total_addrs := by
    ext page
    exact (hcounted.total page).symm
  have happrox : DramCall.approxPages k.blocksize ops = S.sets.approx_addrs := by
    ext page
    exact (hcounted.approx_addrs page).symm
  rw [hcounted.overall, hcounted.approx, htotal, happrox, Set.ncard_coe_finset,
    Set.ncard_coe_finset]
  refine ⟨rfl, rfl, ?_⟩
  intro hacc R
  obtain ⟨op, hop, hblock⟩ := hacc
  obtain ⟨address, haddress⟩ := Option.ne_none_iff_exists'.mp hblock
  apply exactRatio_mem
  · apply Finset.card_pos.mpr
    exact ⟨address / 4096, (hcounted.total _).mpr ⟨op, hop, address, haddress, rfl⟩⟩
  · apply Finset.card_le_card
    intro page hpage
    rw [hcounted.total]
    exact DramCall.approxPages_subset ((hcounted.approx_addrs page).mp hpage)

/-- Two controllers, blocks of 64 bytes and no faults. -/
def DramParams.plain : DramParams := ⟨64, none⟩

/-- A page read by one controller before a byte of it is registered and written by the other after.
-/
def DramCall.twoControllers : List (DramCall (Fin 2)) :=
  [.getDataFromDram 0 64 (fun _ => 0) 1, .addApprox 64 0, .putDataToDram 1 64 (fun _ => 0) 2]

theorem pageCounters_exact_twoControllers : ∃ S : DramSystem (Fin 2),
    (DramSystem.machine .plain).Run (.init fun _ => ⟨fun _ _ => false, fun _ => 0, []⟩)
      DramCall.twoControllers S ∧
    ∑ d, (S.m_dram d).overall_addr_cnter = (DramCall.accessedPages DramCall.twoControllers).ncard ∧
      ∑ d, (S.m_dram d).approx_addr_cnter =
        (DramCall.approxPages 64 DramCall.twoControllers).ncard := by
  have hrun : (DramSystem.machine .plain).Run (.init fun _ => ⟨fun _ _ => false, fun _ => 0, []⟩)
      DramCall.twoControllers _ :=
    .cons trivial rfl (.cons trivial rfl (.cons trivial rfl (.nil _)))
  obtain ⟨hoverall, happrox, -⟩ := pageCounters_exact .plain _ hrun
  exact ⟨_, hrun, hoverall, happrox⟩

end Sniper
