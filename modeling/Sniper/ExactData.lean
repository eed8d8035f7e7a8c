import Sniper.CacheAgree
import Sniper.BlockWalk

namespace Sniper
open Outcome

/-- Two controllers that differ at most in stored bytes of addresses outside `N`. -/
structure DramCntlr.Agree (bs : ℕ) (N : Set ℕ) (D D' : DramCntlr) : Prop where
  rest : { D with m_data_map := D'.m_data_map } = D'
  present : ∀ a, (D.m_data_map a).isSome = (D'.m_data_map a).isSome
  bytes : ∀ a, AgreeOn N a bs (D.m_data_map.block a) (D'.m_data_map.block a)

structure DramState.Agree (bs : ℕ) (N : Set ℕ) (D D' : DramState) : Prop where
  cntlr : D.cntlr.Agree bs N D'.cntlr
  sets : D.sets = D'.sets
  magic : D.env.magic = D'.env.magic

namespace DramCntlr

variable {k : DramParams} {N : Set ℕ} {D D' : DramState} {address now : ℕ}

theorem accessPage_agree (h : D.Agree k.blocksize N D') (RW : Bool) :
    (accessPage k D address now RW).Agree k.blocksize N (accessPage k D' address now RW) := by
  obtain ⟨⟨map, pages, reads, writes, overall, approx⟩, sets, magic, rng⟩ := D
  obtain ⟨⟨map', pages', reads', writes', overall', approx'⟩, sets', magic', rng'⟩ := D'
  obtain ⟨⟨hrest, hpresent, hbytes⟩, rfl, rfl⟩ := h
  cases hrest
  exact ⟨⟨rfl, hpresent, hbytes⟩, rfl, rfl⟩

theorem countPage_agree (h : D.Agree k.blocksize N D') :
    (countPage k D address).Agree k.blocksize N (countPage k D' address) := by
  obtain ⟨⟨map, pages, reads, writes, overall, approx⟩, sets, magic, rng⟩ := D
  obtain ⟨⟨map', pages', reads', writes', overall', approx'⟩, sets', magic', rng'⟩ := D'
  obtain ⟨⟨hrest, hpresent, hbytes⟩, rfl, rfl⟩ := h
  cases hrest
  exact ⟨⟨rfl, hpresent, hbytes⟩, rfl, rfl⟩

/-- The injector and the copy into the map leave the exact bytes of a block. -/
theorem storeBlock_agree {f : Env → ℕ → ℕ → (ℕ → Byte) → (ℕ → Byte) × Env} (hf : Confined f)
    (h : D.Agree k.blocksize N D') (hN : Unregistered N D.env.magic) {block block' : ℕ → Byte}
    (hb : AgreeOn N address k.blocksize block block') :
    (storeBlock k D f address block).Agree k.blocksize N (storeBlock k D' f address block') := by
  obtain ⟨⟨map, pages, reads, writes, overall, approx⟩, sets, magic, rng⟩ := D
  obtain ⟨⟨map', pages', reads', writes', overall', approx'⟩, sets', magic', rng'⟩ := D'
  obtain ⟨⟨hrest, hpresent, hbytes⟩, rfl, rfl⟩ := h
  cases hrest
  have hexact : ∀ (e : Env) (b : ℕ → Byte), e.magic = magic → ∀ i < k.blocksize,
      address + i ∈ N → Buffer.copy b 0 (f e address k.blocksize b).1 0 k.blocksize i = b i := by
    intro e b he i hi hx
    rw [Buffer.copy_in (Nat.zero_le i) (by omega), Nat.zero_add, Nat.sub_zero]
    apply hf.bytes
    rw [he]
    exact MagicServer.isApprox_eq_false.mpr (hN _ hx)
  refine ⟨⟨rfl, ?_, ?_⟩, rfl, ?_⟩
  · intro a
    by_cases ha : a = address
    · subst ha
      simp [storeBlock]
    · simpa [storeBlock, ha] using hpresent a
  · intro a i hi hx
    by_cases ha : a = address
    · subst ha
      simp only [storeBlock, DataMap.block, Function.update_self, Option.getD_some]
      rw [hexact _ _ rfl i hi hx, hexact _ _ rfl i hi hx]
      exact hb i hi hx
    · simp only [storeBlock, DataMap.block, Function.update_of_ne ha]
      exact hbytes a i hi hx
  · rw [storeBlock_magic hf, storeBlock_magic hf]

theorem unregistered_accessPage (hN : Unregistered N D.env.magic) (RW : Bool) :
    Unregistered N (accessPage k D address now RW).env.magic := by
  intro x hx
  rw [accessPage_magic, MagicServer.mem_updateLiftime]
  exact hN x hx

theorem countRead_agree (h : D.Agree k.blocksize N D') : DramState.Agree k.blocksize N
    { D with cntlr := { D.cntlr with m_reads := D.cntlr.m_reads + 1 } }
    { D' with cntlr := { D'.cntlr with m_reads := D'.cntlr.m_reads + 1 } } := by
  refine ⟨⟨?_, h.cntlr.present, h.cntlr.bytes⟩, h.sets, h.magic⟩
  rw [← h.cntlr.rest]

theorem countWrite_agree (h : D.Agree k.blocksize N D') : DramState.Agree k.blocksize N
    { D with cntlr := { D.cntlr with m_writes := D.cntlr.m_writes + 1 } }
    { D' with cntlr := { D'.cntlr with m_writes := D'.cntlr.m_writes + 1 } } := by
  refine ⟨⟨?_, h.cntlr.present, h.cntlr.bytes⟩, h.sets, h.magic⟩
  rw [← h.cntlr.rest]

theorem writeBlock_agree (h : D.Agree k.blocksize N D') (hN : Unregistered N D.env.magic)
    {buf buf' : ℕ → Byte} (hb : AgreeOn N address k.blocksize buf buf') {T T' : DramState}
    (hT : writeBlock k D address buf = .ok T) (hT' : writeBlock k D' address buf' = .ok T') :
    T.Agree k.blocksize N T' := by
  unfold writeBlock at hT hT'
  cases hk : k.manager with
  | none =>
    rw [hk] at hT hT'
    cases hT
    cases hT'
    exact h
  | some manager =>
    rw [hk] at hT hT'
    have hpresent := h.cntlr.present address
    cases hm : D.cntlr.m_data_map address with
    | none =>
      simp only [hm] at hT
      cases hT
    | some block =>
      cases hm' : D'.cntlr.m_data_map address with
      | none =>
        simp only [hm'] at hT'
        cases hT'
      | some block' =>
        simp only [hm] at hT
        simp only [hm'] at hT'
        cases hT
        cases hT'
        apply storeBlock_agree manager.postWrite_confined h hN
        intro i hi hx
        rw [Buffer.copy_in (Nat.zero_le i) (by omega), Buffer.copy_in (Nat.zero_le i) (by omega)]
        rw [Nat.zero_add, Nat.sub_zero]
        exact hb i hi hx

theorem getDataFromDram_agree (h : D.Agree k.blocksize N D') (hN : Unregistered N D.env.magic)
    {manager : FaultinjectionManager} (hk : k.manager = some manager) (buf buf' : ℕ → Byte) :
    (getDataFromDram k D address buf now).1.Agree k.blocksize N
        (getDataFromDram k D' address buf' now).1 ∧
      AgreeOn N address k.blocksize (getDataFromDram k D address buf now).2
        (getDataFromDram k D' address buf' now).2 := by
  have hpage : (accessPage k D address now true).Agree k.blocksize N
    (accessPage k D' address now true) := accessPage_agree h true
  have hstore := storeBlock_agree manager.preRead_confined hpage (unregistered_accessPage hN true)
    (hpage.cntlr.bytes address)
  unfold getDataFromDram
  rw [hk]
  refine ⟨countPage_agree (countRead_agree hstore), ?_⟩
  intro i hi hx
  simp only
  rw [Buffer.copy_in (Nat.zero_le i) (by omega), Buffer.copy_in (Nat.zero_le i) (by omega),
    Nat.zero_add, Nat.sub_zero]
  exact hstore.cntlr.bytes address i hi hx

theorem putDataToDram_agree (h : D.Agree k.blocksize N D') (hN : Unregistered N D.env.magic)
    {buf buf' : ℕ → Byte} (hb : AgreeOn N address k.blocksize buf buf') {T T' : DramState}
    (hT : putDataToDram k D address buf now = .ok T)
    (hT' : putDataToDram k D' address buf' now = .ok T') : T.Agree k.blocksize N T' := by
  obtain ⟨T₁, hw, hT⟩ := bind_eq_ok.mp hT
  obtain ⟨T₁', hw', hT'⟩ := bind_eq_ok.mp hT'
  cases hT
  cases hT'
  apply countPage_agree
  apply countWrite_agree
  exact writeBlock_agree (accessPage_agree h false) (unregistered_accessPage hN false) hb hw hw'

end DramCntlr

section

variable {ι κ σ : Type} [DecidableEq ι] [DecidableEq κ] (P : MemoryParams ι σ) (N : Set ℕ)

/-- The addresses that are not registered and that no operation registers. -/
def NeverRegistered (m : MagicServer) (ops : List (MemoryOp ι κ)) : Set ℕ :=
  {x | x ∉ m.approx_vars.keys ∧ ∀ set_number, .addApprox x set_number ∉ ops}

/-- The same operation, with input buffers that agree. An `insertSingleLine` is line-aligned; what
the buffers for evicted and read data have before the call is of no account. -/
inductive SameCall : MemoryOp ι κ → MemoryOp ι κ → Prop where
  | insertSingleLine (i : ι) {addr : ℕ} (haligned : addr % (P.cache i).blocksize = 0)
      {fill fill' : Option (ℕ → Byte)} (hfill : BuffAgree N addr (P.cache i).blocksize fill fill')
      (evict evict' : ℕ → Byte) :
      SameCall (.insertSingleLine i addr fill evict) (.insertSingleLine i addr fill' evict')
  | accessSingleLine (i : ι) (addr : ℕ) (type : AccessType) {buff buff' : Option (ℕ → Byte)}
      (bytes : ℕ) (update : Bool) (hnull : buff.isSome = buff'.isSome)
      (hbuff : type = .store → BuffAgree N addr bytes buff buff') :
      SameCall (.accessSingleLine i addr type buff bytes update)
        (.accessSingleLine i addr type buff' bytes update)
  | getDataFromDram (d : κ) (address : ℕ) (buf buf' : ℕ → Byte) (now : ℕ) :
      SameCall (.getDataFromDram d address buf now) (.getDataFromDram d address buf' now)
  | putDataToDram (d : κ) (address : ℕ) {buf buf' : ℕ → Byte}
      (hbuf : AgreeOn N address P.dram_blocksize buf buf') (now : ℕ) :
      SameCall (.putDataToDram d address buf now) (.putDataToDram d address buf' now)
  | addApprox (address set_number : ℕ) :
      SameCall (.addApprox address set_number) (.addApprox address set_number)
  | delApprox (address : ℕ) : SameCall (.delApprox address) (.delApprox address)

/-- The same results, but for bytes of addresses outside `N`. An access that misses returns NULL,
and no buffer. -/
inductive OutAgree : MemoryOut ι → MemoryOut ι → Prop where
  | inserted (i : ι) {v v' : Option (ℕ × CacheSet.Evicted)}
      (h : CacheSet.EvictedAgree N (P.cache i).blocksize v v') :
      OutAgree (.inserted i v) (.inserted i v')
  | accessed (addr bytes : ℕ) (info : Option CacheBlockInfo) {buff buff' : Option (ℕ → Byte)}
      (h : info.isSome = true → BuffAgree N addr bytes buff buff') :
      OutAgree (.accessed addr bytes info buff) (.accessed addr bytes info buff')
  | data (address : ℕ) {buf buf' : ℕ → Byte} (h : AgreeOn N address P.dram_blocksize buf buf') :
      OutAgree (.data address buf) (.data address buf')
  | done : OutAgree .done .done

/-- The same tags, states and recency in all caches, the same registry, and the same stored bytes
but for addresses outside `N`. -/
structure Memory.Agree (M M' : Memory ι κ σ) : Prop where
  cache : ∀ i, (M.m_cache i).Agree (P.cache i) N (M'.m_cache i)
  dram : ∀ d, (M.m_dram d).Agree P.dram_blocksize N (M'.m_dram d)
  sets : M.sets = M'.sets
  magic : M.magic = M'.magic

/-- An insertion is given the block to fill the way with. -/
def MemoryOp.Filled : MemoryOp ι κ → Prop
  | .insertSingleLine _ _ fill_buff _ => fill_buff.isSome = true
  | _ => True

end

namespace Memory

variable {ι κ σ : Type} [DecidableEq ι] [DecidableEq κ] {P : MemoryParams ι σ} {N : Set ℕ}
  {M M' T T' : Memory ι κ σ} {op op' : MemoryOp ι κ} {out out' : MemoryOut ι}

theorem Agree.putCache (h : M.Agree P N M') (i : ι) {C C' : Cache σ} {e e' : Env}
    (hC : C.Agree (P.cache i) N C') (he : e.magic = e'.magic) :
    (M.putCache i C e).Agree P N (M'.putCache i C' e') := by
  refine ⟨?_, h.dram, h.sets, he⟩
  intro j
  by_cases hj : j = i
  · subst hj
    simpa [Memory.putCache] using hC
  · simpa [Memory.putCache, hj] using h.cache j

theorem Agree.putDram (h : M.Agree P N M') (d : κ) {D D' : DramState}
    (hD : D.Agree P.dram_blocksize N D') : (M.putDram d D).Agree P N (M'.putDram d D') := by
  refine ⟨h.cache, ?_, hD.sets, hD.magic⟩
  intro j
  by_cases hj : j = d
  · subst hj
    simpa [Memory.putDram] using hD.cntlr
  · simpa [Memory.putDram, hj] using h.dram j

omit [DecidableEq ι] [DecidableEq κ] in
theorem Agree.dramState (h : M.Agree P N M') (d : κ) :
    (M.dramState d).Agree P.dram_blocksize N (M'.dramState d) :=
  ⟨h.dram d, h.sets, h.magic⟩

/-- One operation keeps two memories in agreement. -/
theorem exec_agree (h : M.Agree P N M') (hN : Unregistered N M.magic) (hop : SameCall P N op op')
    (hfilled : op.Filled) (hx : M.exec P op = .ok (T, out)) (hx' : M'.exec P op' = .ok (T', out')) :
    T.Agree P N T' ∧ OutAgree P N out out' := by
  cases hop with
  | @insertSingleLine i addr haligned fill fill' hfill evict evict' =>
    cases fill with
    | none => cases hfilled
    | some fill =>
      cases fill' with
      | none => exact hfill.elim
      | some fill' =>
        have he : (M.cacheEnv i).magic = (M'.cacheEnv i).magic := h.magic
        obtain ⟨hC, hmagic, hev⟩ :=
          Cache.insertSingleLine_agree (h.cache i) he hN haligned hfill evict evict' rfl rfl
        cases hx
        cases hx'
        exact ⟨h.putCache i hC hmagic, .inserted i hev⟩
  | accessSingleLine i addr type bytes update hnull hbuff =>
    obtain ⟨r, hr, hx⟩ := bind_eq_ok.mp hx
    obtain ⟨r', hr', hx'⟩ := bind_eq_ok.mp hx'
    obtain ⟨hC, hmagic, hinfo, hout⟩ :=
      Cache.accessSingleLine_agree (h.cache i) h.magic hN hnull hbuff hr hr'
    cases hx
    cases hx'
    rw [← hinfo]
    exact ⟨h.putCache i hC hmagic, .accessed addr bytes r.info hout⟩
  | getDataFromDram d address buf buf' now =>
    obtain ⟨hD, hout⟩ := DramCntlr.getDataFromDram_agree (k := P.dram)
      (h.dramState d) hN rfl buf buf'
    cases hx
    cases hx'
    exact ⟨h.putDram d hD, .data address hout⟩
  | putDataToDram d address hbuf now =>
    obtain ⟨D, hD, hx⟩ := bind_eq_ok.mp hx
    obtain ⟨D', hD', hx'⟩ := bind_eq_ok.mp hx'
    cases hx
    cases hx'
    exact ⟨h.putDram d (DramCntlr.putDataToDram_agree (h.dramState d) hN hbuf hD hD'), .done⟩
  | addApprox address set_number =>
    cases hx
    cases hx'
    exact ⟨⟨h.cache, h.dram, h.sets,
      congrArg (fun m => (m.addApprox address set_number).1) h.magic⟩, .done⟩
  | delApprox address =>
    cases hx
    cases hx'
    exact ⟨⟨h.cache, h.dram, h.sets, congrArg (fun m => (m.delApprox address).1) h.magic⟩, .done⟩

/-- Only `addApprox` registers an address. -/
theorem exec_registers (hx : M.exec P op = .ok (T, out)) {x : ℕ}
    (hT : x ∈ T.magic.approx_vars.keys) :
    x ∈ M.magic.approx_vars.keys ∨ ∃ set_number, op = .addApprox x set_number := by
  cases op with
  | insertSingleLine i addr fill evict =>
    cases hx
    left
    change x ∈ ((M.m_cache i).insertSingleLine (P.probe i) (P.cache i) (M.cacheEnv i) addr fill
      evict).env.magic.approx_vars.keys at hT
    rwa [Cache.insertSingleLine_magic] at hT
  | accessSingleLine i addr type buff bytes update =>
    obtain ⟨r, hr, hx⟩ := bind_eq_ok.mp hx
    cases hx
    left
    exact Cache.accessSingleLine_keys hr ▸ hT
  | getDataFromDram d address buf now =>
    cases hx
    left
    change x ∈ (DramCntlr.getDataFromDram P.dram (M.dramState d) address buf
      now).1.env.magic.approx_vars.keys at hT
    rwa [DramCntlr.getDataFromDram_accessPage.1, DramCntlr.accessPage_magic,
      MagicServer.mem_updateLiftime] at hT
  | putDataToDram d address buf now =>
    obtain ⟨D, hD, hx⟩ := bind_eq_ok.mp hx
    cases hx
    left
    change x ∈ D.env.magic.approx_vars.keys at hT
    rwa [(DramCntlr.putDataToDram_accessPage hD).1, DramCntlr.accessPage_magic,
      MagicServer.mem_updateLiftime] at hT
  | addApprox address set_number =>
    cases hx
    rcases (MagicServer.mem_addApprox set_number).mp hT with rfl | hT
    · exact .inr ⟨set_number, rfl⟩
    · exact .inl hT
  | delApprox address =>
    cases hx
    exact .inl (MagicServer.mem_delApprox.mp hT).2

end Memory

/-- Two runs of the same operations, with any two outcomes of all the draws, have the same tags,
victims and results but for bytes of addresses that were registered at some time. -/
theorem exact_data_agrees {ι κ σ : Type} [DecidableEq ι] [DecidableEq κ] (P : MemoryParams ι σ)
    {M M' : Memory ι κ σ} {ops ops' : List (MemoryOp ι κ)}
    {S S' : Memory ι κ σ × List (MemoryOut ι)}
    (hM : M.Agree P (NeverRegistered M.magic ops) M')
    (hops : List.Forall₂ (SameCall P (NeverRegistered M.magic ops)) ops ops')
    (hfilled : ∀ op ∈ ops, op.Filled)
    (hrun : (Memory.machine P).Run (M, []) ops S)
    (hrun' : (Memory.machine P).Run (M', []) ops' S') :
    S.1.Agree P (NeverRegistered M.magic ops) S'.1 ∧
      List.Forall₂ (OutAgree P (NeverRegistered M.magic ops)) S.2 S'.2 := by
  let N := NeverRegistered M.magic ops
  have hrelate := Machine.Run.relate (R := fun S S' : Memory ι κ σ × List (MemoryOut ι) =>
    S.1.Agree P N S'.1 ∧ Unregistered N S.1.magic ∧ List.Forall₂ (OutAgree P N) S.2 S'.2)
    hrun ?_ ⟨hM, fun x hx => hx.1, .nil⟩ hrun' hops
  · exact ⟨hrelate.1, hrelate.2.2⟩
  · intro u u' v v' op op' hmem hop ⟨hagree, hN, hout⟩ hx hx'
    obtain ⟨⟨T, out⟩, hexec, hv⟩ := bind_eq_ok.mp hx
    obtain ⟨⟨T', out'⟩, hexec', hv'⟩ := bind_eq_ok.mp hx'
    cases hv
    cases hv'
    obtain ⟨hT, ho⟩ := Memory.exec_agree hagree hN hop (hfilled op hmem) hexec hexec'
    refine ⟨hT, ?_, List.rel_append hout (.cons ho .nil)⟩
    intro x hxN hreg
    rcases Memory.exec_registers hexec hreg with hreg | ⟨set_number, rfl⟩
    · exact hN x hxN hreg
    · exact hxN.2 set_number hmem

namespace Memory

theorem start_agree (P : MemoryParams Unit Unit) (N : Set ℕ)
    (outcome outcome' : Generator → ℕ → Bool) : (start outcome).Agree P N (start outcome') :=
  ⟨fun _ _ => .refl _, fun _ => ⟨rfl, fun _ => rfl, fun _ _ _ _ => rfl⟩, rfl, rfl⟩

/-- The line of the registered address 0 is filled, and read. -/
def fillRead : List (MemoryOp Unit Unit) :=
  [.addApprox 0 0, .insertSingleLine () 0 (some fun _ => 0) fun _ => 0,
    .accessSingleLine () 0 .load (some fun _ => 0) 4 true]

/-- The line of the registered address 0 is filled, and replaced by a line that is given no data. -/
def fillNull : List (MemoryOp Unit Unit) :=
  [.addApprox 0 0, .insertSingleLine () 0 (some fun _ => 0) fun _ => 0,
    .insertSingleLine () 4 none fun _ => 0]

/-- The tag of the way and its first byte, after the fill without data. -/
def firstByte (outcome : Generator → ℕ → Bool) : Option (Option ℕ × Byte) :=
  (fillNull.foldlM (machine oneWay).exec (start outcome, [])).toOption.map fun S =>
    ((((S.1.m_cache ()).m_sets 0).m_cache_block_info_array 0).tag,
      ((S.1.m_cache ()).m_sets 0).m_blocks 0)

theorem firstByte_of_foldlM {outcome : Generator → ℕ → Bool}
    {S : Memory Unit Unit Unit × List (MemoryOut Unit)}
    (h : fillNull.foldlM (machine oneWay).exec (start outcome, []) = .ok S) :
    firstByte outcome = some ((((S.1.m_cache ()).m_sets 0).m_cache_block_info_array 0).tag,
      ((S.1.m_cache ()).m_sets 0).m_blocks 0) := by
  unfold firstByte
  rw [h]
  rfl

end Memory

open Memory in
theorem exact_data_agrees_fillRead : ∃ S S',
    (machine oneWay).Run (start noFault, []) fillRead S ∧
    (machine oneWay).Run (start firstWrite, []) fillRead S' ∧
    S.1.Agree oneWay (NeverRegistered MagicServer.init fillRead) S'.1 ∧
    List.Forall₂ (OutAgree oneWay (NeverRegistered MagicServer.init fillRead)) S.2 S'.2 := by
  obtain ⟨S, hS⟩ : ∃ S, fillRead.foldlM (machine oneWay).exec (start noFault, []) = .ok S :=
    ⟨_, rfl⟩
  obtain ⟨S', hS'⟩ : ∃ S, fillRead.foldlM (machine oneWay).exec (start firstWrite, []) = .ok S :=
    ⟨_, rfl⟩
  refine ⟨S, S', run_of_foldlM hS, run_of_foldlM hS', ?_⟩
  refine exact_data_agrees oneWay (start_agree ..) ?_ ?_ (run_of_foldlM hS) (run_of_foldlM hS')
  · exact .cons (.addApprox 0 0) (.cons (.insertSingleLine () rfl (.refl ..) _ _)
      (.cons (.accessSingleLine () 0 .load 4 true rfl fun h => by cases h) .nil))
  · intro op hop
    simp only [fillRead, List.mem_cons, List.not_mem_nil, or_false] at hop
    rcases hop with rfl | rfl | rfl
    · trivial
    · rfl
    · trivial

open Memory in
/-- A fill without data leaves in the line of address 4 what the faults made of the line before. -/
theorem null_fill_leaks : ∃ S S' : Memory Unit Unit Unit × List (MemoryOut Unit),
    (machine oneWay).Run (start noFault, []) fillNull S ∧
    (machine oneWay).Run (start firstWrite, []) fillNull S' ∧
    List.Forall₂ (SameCall oneWay (NeverRegistered MagicServer.init fillNull)) fillNull fillNull ∧
    ¬S.1.Agree oneWay (NeverRegistered MagicServer.init fillNull) S'.1 := by
  obtain ⟨S, hS⟩ : ∃ S, fillNull.foldlM (machine oneWay).exec (start noFault, []) = .ok S :=
    ⟨_, rfl⟩
  obtain ⟨S', hS'⟩ : ∃ S, fillNull.foldlM (machine oneWay).exec (start firstWrite, []) = .ok S :=
    ⟨_, rfl⟩
  refine ⟨S, S', run_of_foldlM hS, run_of_foldlM hS', ?_, ?_⟩
  · exact .cons (.addApprox 0 0) (.cons (.insertSingleLine () rfl (.refl ..) _ _)
      (.cons (.insertSingleLine () rfl (.refl ..) _ _) .nil))
  · intro h
    have hstored := firstByte_of_foldlM hS
    have hstored' := firstByte_of_foldlM hS'
    rw [show firstByte noFault = some (some 1, 0) by decide +kernel] at hstored
    rw [show firstByte firstWrite = some (some 1, 1) by decide +kernel] at hstored'
    obtain ⟨htag, hbyte⟩ := Prod.mk.inj (Option.some.inj hstored)
    obtain ⟨-, hbyte'⟩ := Prod.mk.inj (Option.some.inj hstored')
    have hnever : 1 * 4 + 0 ∈ NeverRegistered MagicServer.init fillNull :=
      ⟨by decide, fun _ hmem => by simp [fillNull] at hmem⟩
    have := (h.cache () 0).bytes 0 1 0 htag.symm (by decide) hnever
    rw [show (0 : ℕ) * (oneWay.cache ()).blocksize + 0 = 0 from rfl, ← hbyte, ← hbyte'] at this
    cases this

end Sniper
