import Sniper.CacheData
import Sniper.MemorySystem
import Sniper.Registry

namespace Sniper
open Outcome

/-- Two buffers with the same bytes for the addresses of `N` among the `n` from `addr` on. -/
def AgreeOn (N : Set ℕ) (addr n : ℕ) (b b' : ℕ → Byte) : Prop :=
  ∀ i < n, addr + i ∈ N → b i = b' i

/-- The same for two pointers: both are NULL, or neither is. -/
def BuffAgree (N : Set ℕ) (addr n : ℕ) : Option (ℕ → Byte) → Option (ℕ → Byte) → Prop
  | some b, some b' => AgreeOn N addr n b b'
  | none, none => True
  | _, _ => False

theorem BuffAgree.refl (N : Set ℕ) (addr n : ℕ) (b : Option (ℕ → Byte)) :
    BuffAgree N addr n b b := by
  cases b with
  | none => trivial
  | some b => exact fun _ _ _ => rfl

/-- No address of `N` is registered. -/
def Unregistered (N : Set ℕ) (m : MagicServer) : Prop := ∀ x ∈ N, x ∉ m.approx_vars.keys

/-- Two sets that differ at most in stored bytes of addresses outside `N`. -/
structure CacheSet.Agree {σ : Type} (k : CacheParams σ) (N : Set ℕ) (S S' : CacheSet σ) :
    Prop where
  info : S.m_cache_block_info_array = S'.m_cache_block_info_array
  policy : S.m_policy = S'.m_policy
  bytes : ∀ w t off, (S.m_cache_block_info_array w).tag = some t → off < k.blocksize →
    t * k.blocksize + off ∈ N →
      S.m_blocks (w * k.blocksize + off) = S'.m_blocks (w * k.blocksize + off)

namespace CacheSet

variable {σ : Type} {k : CacheParams σ} {N : Set ℕ} {S S' S'' : CacheSet σ} {e e' : Env}
  {w t off n : ℕ}

theorem Agree.refl (S : CacheSet σ) : Agree k N S S := ⟨rfl, rfl, fun _ _ _ _ _ _ => rfl⟩

theorem Agree.symm (h : Agree k N S S') : Agree k N S' S := by
  refine ⟨h.info.symm, h.policy.symm, ?_⟩
  intro w t off ht hoff hN
  exact (h.bytes w t off (h.info ▸ ht) hoff hN).symm

theorem Agree.trans (h : Agree k N S S') (h' : Agree k N S' S'') : Agree k N S S'' := by
  refine ⟨h.info.trans h'.info, h.policy.trans h'.policy, ?_⟩
  intro w t off ht hoff hN
  rw [h.bytes w t off ht hoff hN]
  exact h'.bytes w t off (h.info ▸ ht) hoff hN

/-- An injector run on the bytes of the block of a way leaves the exact bytes of the set. -/
theorem inject_exact {f : Env → ℕ → ℕ → (ℕ → Byte) → (ℕ → Byte) × Env} (hf : Confined f)
    (htag : (S.m_cache_block_info_array w).tag = some t) (hn : off + n ≤ k.blocksize)
    (hN : Unregistered N e.magic) :
    Agree k N (Cache.inject k f S e (t * k.blocksize + off) n (getDataPtr k w off)).1 S ∧
      (Cache.inject k f S e (t * k.blocksize + off) n (getDataPtr k w off)).2.magic = e.magic := by
  unfold Cache.inject
  split
  · refine ⟨⟨rfl, rfl, ?_⟩, hf.magic ..⟩
    intro v t' o ht' ho hx
    by_cases hin : v = w ∧ off ≤ o ∧ o < off + n
    · obtain ⟨rfl, hlo, hhi⟩ := hin
      -- the byte is the one of its own address, so that it is not registered
      obtain rfl : t' = t := Option.some.inj (ht'.symm.trans htag)
      have haddr : t' * k.blocksize + off + (o - off) = t' * k.blocksize + o := by omega
      have hptr : v * k.blocksize + o = getDataPtr k v off + (o - off) := by
        unfold getDataPtr
        omega
      rw [hptr]
      apply (Buffer.copy_add (by omega)).trans
      rw [Nat.zero_add]
      apply hf.bytes
      rw [haddr]
      exact MagicServer.isApprox_eq_false.mpr (hN _ hx)
    · apply Buffer.copy_out
      have := (Cache.mem_dataPtr hn ho).not.mpr hin
      unfold getDataPtr
      omega
  · exact ⟨.refl S, rfl⟩

/-- The same injector run on two sets that agree. -/
theorem inject_agree {f : Env → ℕ → ℕ → (ℕ → Byte) → (ℕ → Byte) × Env} (hf : Confined f)
    (h : Agree k N S S') (htag : (S.m_cache_block_info_array w).tag = some t)
    (hn : off + n ≤ k.blocksize) (he : e.magic = e'.magic) (hN : Unregistered N e.magic) :
    Agree k N (Cache.inject k f S e (t * k.blocksize + off) n (getDataPtr k w off)).1
        (Cache.inject k f S' e' (t * k.blocksize + off) n (getDataPtr k w off)).1 ∧
      (Cache.inject k f S e (t * k.blocksize + off) n (getDataPtr k w off)).2.magic =
        (Cache.inject k f S' e' (t * k.blocksize + off) n (getDataPtr k w off)).2.magic := by
  obtain ⟨h₁, hm₁⟩ := inject_exact hf htag hn hN
  obtain ⟨h₂, hm₂⟩ := inject_exact hf (h.info ▸ htag) hn (he ▸ hN)
  exact ⟨(h₁.trans h).trans h₂.symm, by rw [hm₁, hm₂, he]⟩

theorem touch_agree (h : Agree k N S S') (u : Bool) : Agree k N (S.touch k w u)
    (S'.touch k w u) := by
  unfold touch
  split
  · exact ⟨h.info, congrArg (k.policy.updateReplacementIndex · w) h.policy, h.bytes⟩
  · exact h

theorem readLine_fits {buff : Option (ℕ → Byte)} {u : Bool} {x : CacheSet σ × Option (ℕ → Byte)}
    (h : S.readLine k w off buff n u = .ok x) : off + n ≤ k.blocksize := by
  obtain ⟨_, hn, -⟩ := bind_eq_ok.mp h
  exact require_eq_ok.mp hn

/-- Two calls of `read_line`: the buffers are filled with exact bytes that agree. -/
theorem readLine_agree (hstores : k.stores = true) (h : Agree k N S S')
    (htag : (S.m_cache_block_info_array w).tag = some t) {buff buff' : Option (ℕ → Byte)}
    (hnull : buff.isSome = buff'.isSome) {u : Bool} {T T' : CacheSet σ}
    {out out' : Option (ℕ → Byte)} (hT : S.readLine k w off buff n u = .ok (T, out))
    (hT' : S'.readLine k w off buff' n u = .ok (T', out')) :
    Agree k N T T' ∧ BuffAgree N (t * k.blocksize + off) n out out' := by
  have hn := readLine_fits hT
  obtain ⟨_, -, hT⟩ := bind_eq_ok.mp hT
  obtain ⟨_, -, hT'⟩ := bind_eq_ok.mp hT'
  cases hT
  cases hT'
  refine ⟨touch_agree h u, ?_⟩
  simp only [hstores, if_true]
  cases buff with
  | none =>
    cases buff' with
    | none => trivial
    | some b' => cases hnull
  | some b =>
    cases buff' with
    | none => cases hnull
    | some b' =>
      intro i hi hx
      simp only
      rw [Buffer.copy_in (Nat.zero_le i) (by omega), Buffer.copy_in (Nat.zero_le i) (by omega)]
      have hptr : getDataPtr k w off + (i - 0) = w * k.blocksize + (off + i) := by
        unfold getDataPtr
        omega
      rw [hptr]
      rw [Nat.add_assoc] at hx
      exact h.bytes w t (off + i) htag (by omega) hx

/-- Copies of buffers that agree into one way leave sets in agreement. -/
theorem copy_agree {info : ℕ → CacheBlockInfo} {policy : σ} {blocks blocks' buf buf' : ℕ → Byte}
    (hn : off + n ≤ k.blocksize)
    (hbuf : ∀ t, (info w).tag = some t → AgreeOn N (t * k.blocksize + off) n buf buf')
    (hrest : ∀ v t o, ¬(v = w ∧ off ≤ o ∧ o < off + n) → (info v).tag = some t →
      o < k.blocksize → t * k.blocksize + o ∈ N →
        blocks (v * k.blocksize + o) = blocks' (v * k.blocksize + o)) :
    Agree k N ⟨info, Buffer.copy blocks (getDataPtr k w off) buf 0 n, policy⟩
      ⟨info, Buffer.copy blocks' (getDataPtr k w off) buf' 0 n, policy⟩ := by
  refine ⟨rfl, rfl, ?_⟩
  intro v t o ht ho hx
  by_cases hin : v = w ∧ off ≤ o ∧ o < off + n
  · obtain ⟨rfl, hlo, hhi⟩ := hin
    have hptr : v * k.blocksize + o = getDataPtr k v off + (o - off) := by
      unfold getDataPtr
      omega
    have haddr : t * k.blocksize + off + (o - off) = t * k.blocksize + o := by omega
    simp only [hptr]
    rw [Buffer.copy_add (by omega), Buffer.copy_add (by omega), Nat.zero_add]
    apply hbuf t ht _ (by omega)
    rwa [haddr]
  · have hout : v * k.blocksize + o < getDataPtr k w off ∨
        getDataPtr k w off + n ≤ v * k.blocksize + o := by
      have := (Cache.mem_dataPtr hn ho).not.mpr hin
      unfold getDataPtr
      omega
    simp only
    rw [Buffer.copy_out hout, Buffer.copy_out hout]
    exact hrest v t o hin ht ho hx

/-- Two calls of `write_line` with buffers that agree. -/
theorem writeLine_agree (h : Agree k N S S') (htag : (S.m_cache_block_info_array w).tag = some t)
    {buff buff' : Option (ℕ → Byte)} (hbuff : BuffAgree N (t * k.blocksize + off) n buff buff')
    {u : Bool} {T T' : CacheSet σ} (hT : S.writeLine k w off buff n u = .ok T)
    (hT' : S'.writeLine k w off buff' n u = .ok T') :
    off + n ≤ k.blocksize ∧ T.m_cache_block_info_array = S.m_cache_block_info_array ∧
      Agree k N T T' := by
  obtain ⟨_, hn, hT⟩ := bind_eq_ok.mp hT
  obtain ⟨_, -, hT'⟩ := bind_eq_ok.mp hT'
  rw [require_eq_ok] at hn
  cases hT
  cases hT'
  refine ⟨hn, Cache.CacheSet.touch_info _ _ _, touch_agree ?_ u⟩
  obtain ⟨info, blocks, policy⟩ := S
  obtain ⟨info', blocks', policy'⟩ := S'
  obtain ⟨rfl, rfl, hbytes⟩ := h
  cases buff with
  | none =>
    cases buff' with
    | none => exact ⟨rfl, rfl, hbytes⟩
    | some buf' => exact hbuff.elim
  | some buf =>
    cases buff' with
    | none => exact hbuff.elim
    | some buf' =>
      simp only
      split
      · apply copy_agree hn
        · intro t' ht'
          obtain rfl : t' = t := Option.some.inj (ht'.symm.trans htag)
          exact hbuff
        · exact fun v t' o _ => hbytes v t' o
      · exact ⟨rfl, rfl, hbytes⟩

/-- Blocks evicted, with their addresses: the same tag and state, and exact bytes that agree. -/
def EvictedAgree (N : Set ℕ) (bs : ℕ) : Option (ℕ × Evicted) → Option (ℕ × Evicted) → Prop
  | some (addr, v), some (addr', v') => addr = addr' ∧ v.info = v'.info ∧
      AgreeOn N addr bs v.buf v'.buf
  | none, none => True
  | _, _ => False

/-- Two calls of `insert` with fill buffers that agree replace the same way. -/
theorem insert_agree (hstores : k.stores = true) (h : Agree k N S S') {b : CacheBlockInfo}
    (hb : b.tag = some t) {buf buf' : ℕ → Byte}
    (hbuf : AgreeOn N (t * k.blocksize) k.blocksize buf buf') (evict evict' : ℕ → Byte)
    (approx : Bool) :
    Agree k N (S.insert k b (some buf) evict approx).1 (S'.insert k b (some buf') evict' approx).1 ∧
      EvictedAgree N k.blocksize
        ((S.insert k b (some buf) evict approx).2.map fun v =>
          (Cache.tagToAddress k (v.info.tag.getD 0), v))
        ((S'.insert k b (some buf') evict' approx).2.map fun v =>
          (Cache.tagToAddress k (v.info.tag.getD 0), v)) := by
  obtain ⟨info, blocks, policy⟩ := S
  obtain ⟨info', blocks', policy'⟩ := S'
  obtain ⟨rfl, rfl, hbytes⟩ := h
  unfold insert
  obtain ⟨w, policy⟩ := k.policy.getReplacementIndex policy info approx
  simp only [hstores, if_true]
  constructor
  · apply copy_agree (by omega)
    · intro t' ht'
      change (Function.update info w b w).tag = some t' at ht'
      rw [Function.update_self, hb] at ht'
      cases ht'
      exact hbuf
    · intro v t' o hin ht' ho hx
      have hv : v ≠ w := fun hv => hin ⟨hv, by omega, by omega⟩
      change (Function.update info w b v).tag = some t' at ht'
      rw [Function.update_of_ne hv] at ht'
      exact hbytes v t' o ht' ho hx
  · cases hv : (info w).tag with
    | none => simp [CacheBlockInfo.isValid, hv, EvictedAgree]
    | some t₀ =>
      simp only [CacheBlockInfo.isValid, hv, Option.isSome_some, if_true, Option.map_some,
        EvictedAgree, Option.getD_some, true_and]
      intro i hi hx
      rw [Buffer.copy_in (Nat.zero_le i) (by omega), Buffer.copy_in (Nat.zero_le i) (by omega)]
      exact hbytes w t₀ i hv hi hx

end CacheSet

namespace Cache

variable {ι σ : Type} {P : MemoryParams ι σ} {i : ι} {N : Set ℕ} {C C' : Cache σ} {e e' : Env}
  {addr n : ℕ}

/-- Two caches whose sets agree. -/
def Agree (k : CacheParams σ) (N : Set ℕ) (C C' : Cache σ) : Prop :=
  ∀ j, (C.m_sets j).Agree k N (C'.m_sets j)

theorem Agree.putSet {k : CacheParams σ} (h : C.Agree k N C') {S S' : CacheSet σ}
    (hS : S.Agree k N S') (addr : ℕ) : (C.putSet k addr S).Agree k N (C'.putSet k addr S') := by
  intro j
  by_cases hj : j = k.setIndex (tagOf k addr)
  · subst hj
    simpa [Cache.putSet] using hS
  · simpa [Cache.putSet, hj] using h j

theorem Agree.way {k : CacheParams σ} (h : C.Agree k N C') (addr : ℕ) :
    C.way k addr = C'.way k addr := by
  unfold Cache.way setOf CacheSet.find
  rw [(h _).info]

/-- The counting of an access leaves the addresses that are registered. -/
theorem keys_addAcc (inc : AppVar → AppVar) (m : MagicServer) (block_size : ℕ) :
    (m.addAcc inc addr block_size).approx_vars.keys = m.approx_vars.keys := by
  unfold MagicServer.addAcc
  split
  · rfl
  · exact MagicServer.keys_countBytes ..

/-- The caches count the accesses, but register nothing. -/
theorem probe_addReadAcc (P : MemoryParams ι σ) (i : ι) (addr : ℕ) (he : e.magic = e'.magic) :
    ((P.probe i).addReadAcc e addr).magic = ((P.probe i).addReadAcc e' addr).magic ∧
      ∀ N, Unregistered N e.magic → Unregistered N ((P.probe i).addReadAcc e addr).magic := by
  refine ⟨congrArg (MagicServer.addReadAcc · _ _ _ _) he, ?_⟩
  intro N hN x hx
  unfold MemoryParams.probe MagicServer.addReadAcc
  rw [keys_addAcc]
  exact hN x hx

theorem probe_addWriteAcc (P : MemoryParams ι σ) (i : ι) (addr : ℕ) (he : e.magic = e'.magic) :
    ((P.probe i).addWriteAcc e addr).magic = ((P.probe i).addWriteAcc e' addr).magic ∧
      ∀ N, Unregistered N e.magic → Unregistered N ((P.probe i).addWriteAcc e addr).magic := by
  refine ⟨congrArg (MagicServer.addWriteAcc · _ _ _ _) he, ?_⟩
  intro N hN x hx
  unfold MemoryParams.probe MagicServer.addWriteAcc
  rw [keys_addAcc]
  exact hN x hx

theorem inject_magic {k : CacheParams σ} {f : Env → ℕ → ℕ → (ℕ → Byte) → (ℕ → Byte) × Env}
    (hf : Confined f) (S : CacheSet σ) (ptr : ℕ) :
    (inject k f S e addr n ptr).2.magic = e.magic := by
  unfold inject
  split
  · exact hf.magic ..
  · rfl

theorem accessSingleLine_keys {type : AccessType} {buff : Option (ℕ → Byte)} {u : Bool}
    {r : Accessed σ Env}
    (hx : C.accessSingleLine (P.probe i) (P.cache i) e addr type buff n u = .ok r) :
    r.env.magic.approx_vars.keys = e.magic.approx_vars.keys := by
  unfold accessSingleLine at hx
  cases hw : C.way (P.cache i) addr with
  | none =>
    rw [hw] at hx
    cases hx
    rfl
  | some w =>
    simp only [hw] at hx
    cases type with
    | load =>
      obtain ⟨x, -, hx⟩ := bind_eq_ok.mp hx
      cases hx
      exact (congrArg (·.approx_vars.keys) (inject_magic (e := (P.probe i).addReadAcc e addr)
        P.manager.preRead_confined _ _)).trans (keys_addAcc ..)
    | store =>
      obtain ⟨x, -, hx⟩ := bind_eq_ok.mp hx
      cases hx
      exact (congrArg (·.approx_vars.keys) (inject_magic (e := (P.probe i).addWriteAcc e addr)
        P.manager.postWrite_confined _ _)).trans (keys_addAcc ..)

theorem insertSingleLine_magic (fill : Option (ℕ → Byte)) (evict : ℕ → Byte) :
    (C.insertSingleLine (P.probe i) (P.cache i) e addr fill evict).env.magic = e.magic := by
  unfold insertSingleLine
  simp only
  split
  · exact inject_magic P.manager.postWrite_confined _ _
  · rfl

/-- Two accesses with buffers that agree. A load fills its buffer, so that what it had is of no
account. -/
theorem accessSingleLine_agree (hC : C.Agree (P.cache i) N C') (he : e.magic = e'.magic)
    (hN : Unregistered N e.magic) {type : AccessType} {buff buff' : Option (ℕ → Byte)}
    (hnull : buff.isSome = buff'.isSome) (hbuff : type = .store → BuffAgree N addr n buff buff')
    {u : Bool} {r r' : Accessed σ Env}
    (hx : C.accessSingleLine (P.probe i) (P.cache i) e addr type buff n u = .ok r)
    (hx' : C'.accessSingleLine (P.probe i) (P.cache i) e' addr type buff' n u = .ok r') :
    r.cache.Agree (P.cache i) N r'.cache ∧ r.env.magic = r'.env.magic ∧ r.info = r'.info ∧
      (r.info.isSome = true → BuffAgree N addr n r.buff r'.buff) := by
  have hS := hC ((P.cache i).setIndex (tagOf (P.cache i) addr))
  have hway := hC.way addr
  unfold accessSingleLine at hx hx'
  simp only [← hway] at hx'
  cases hw : C.way (P.cache i) addr with
  | none =>
    rw [hw] at hx hx'
    cases hx
    cases hx'
    exact ⟨hC, he, rfl, fun h => by cases h⟩
  | some w =>
    simp only [hw] at hx hx'
    have htag := CacheSet.find_tag hw
    have htag' : ((C'.setOf (P.cache i) addr).m_cache_block_info_array w).tag = _ :=
      hS.info ▸ htag
    have haddr : tagOf (P.cache i) addr * (P.cache i).blocksize + blockOffset (P.cache i) addr =
        addr := Nat.div_add_mod' addr _
    -- a load injects before it reads the line, a store after it has written it
    cases type with
    | load =>
      obtain ⟨⟨S₁, out⟩, hread, hx⟩ := bind_eq_ok.mp hx
      obtain ⟨⟨S₁', out'⟩, hread', hx'⟩ := bind_eq_ok.mp hx'
      have hm := probe_addReadAcc P i addr he
      obtain ⟨hinj, hmagic⟩ := CacheSet.inject_agree P.manager.preRead_confined hS htag
        (CacheSet.readLine_fits hread) hm.1 (hm.2 N hN)
      have htag₁ : (_ : CacheBlockInfo).tag = _ := (congrArg CacheBlockInfo.tag
        (congrFun (CacheSet.inject_exact P.manager.preRead_confined htag
          (CacheSet.readLine_fits hread) (hm.2 N hN)).1.info w)).trans htag
      rw [haddr] at hinj hmagic htag₁
      obtain ⟨hS₁, hout⟩ := CacheSet.readLine_agree (P.stores i) hinj htag₁ hnull hread hread'
      cases hx
      cases hx'
      rw [haddr] at hout
      exact ⟨hC.putSet hS₁ addr, hmagic, by simp only [setOf, hS.info], fun _ => hout⟩
    | store =>
      obtain ⟨S₁, hwrite, hx⟩ := bind_eq_ok.mp hx
      obtain ⟨S₁', hwrite', hx'⟩ := bind_eq_ok.mp hx'
      have hm := probe_addWriteAcc P i addr he
      have hb := hbuff rfl
      rw [← haddr] at hb
      obtain ⟨hn, hinfo, hS₁⟩ := CacheSet.writeLine_agree hS htag hb hwrite hwrite'
      have htag₁ : (S₁.m_cache_block_info_array w).tag = _ := hinfo ▸ htag
      obtain ⟨hinj, hmagic⟩ := CacheSet.inject_agree P.manager.postWrite_confined hS₁ htag₁ hn hm.1
        (hm.2 N hN)
      rw [haddr] at hinj hmagic hb
      cases hx
      cases hx'
      exact ⟨hC.putSet hinj addr, hmagic, by simp only [setOf, hS.info], fun _ => hb⟩

/-- The injector run on the block that `find` returns for a line just inserted. -/
theorem injectFound_agree {k : CacheParams σ} {S S' : CacheSet σ} (hS : S.Agree k N S')
    {f : Env → ℕ → ℕ → (ℕ → Byte) → (ℕ → Byte) × Env} (hf : Confined f) (he : e.magic = e'.magic)
    (hN : Unregistered N e.magic) {t : ℕ} {x x' : CacheSet σ × Env}
    (hx : (match S.find k t with
      | some w => inject k f S e (t * k.blocksize) k.blocksize (CacheSet.getDataPtr k w 0)
      | none => (S, e)) = x)
    (hx' : (match S'.find k t with
      | some w => inject k f S' e' (t * k.blocksize) k.blocksize (CacheSet.getDataPtr k w 0)
      | none => (S', e')) = x') :
    x.1.Agree k N x'.1 ∧ x.2.magic = x'.2.magic := by
  have hfind : S'.find k t = S.find k t := by
    unfold CacheSet.find
    rw [hS.info]
  rw [hfind] at hx'
  cases hw : S.find k t with
  | none =>
    rw [hw] at hx hx'
    subst hx
    subst hx'
    exact ⟨hS, he⟩
  | some w =>
    rw [hw] at hx hx'
    subst hx
    subst hx'
    exact CacheSet.inject_agree hf hS (CacheSet.find_tag hw) (by omega) he hN

/-- Two fills of a line with blocks that agree. -/
theorem insertSingleLine_agree (hC : C.Agree (P.cache i) N C') (he : e.magic = e'.magic)
    (hN : Unregistered N e.magic) (haligned : addr % (P.cache i).blocksize = 0)
    {fill fill' : ℕ → Byte} (hfill : AgreeOn N addr (P.cache i).blocksize fill fill')
    (evict evict' : ℕ → Byte) {r r' : Inserted σ Env}
    (hr : C.insertSingleLine (P.probe i) (P.cache i) e addr (some fill) evict = r)
    (hr' : C'.insertSingleLine (P.probe i) (P.cache i) e' addr (some fill') evict' = r') :
    r.cache.Agree (P.cache i) N r'.cache ∧ r.env.magic = r'.env.magic ∧
      CacheSet.EvictedAgree N (P.cache i).blocksize r.evicted r'.evicted := by
  obtain ⟨t, rfl⟩ : ∃ t, addr = t * (P.cache i).blocksize :=
    ⟨_, (Nat.div_mul_cancel (Nat.dvd_of_mod_eq_zero haligned)).symm⟩
  have htag : tagOf (P.cache i) (t * (P.cache i).blocksize) = t :=
    Nat.mul_div_cancel t (P.cache i).blocksize_pos
  have happrox : (P.probe i).isBlockApprox e' = (P.probe i).isBlockApprox e := by
    unfold MemoryParams.probe
    simp only [he]
  subst hr
  subst hr'
  unfold insertSingleLine setOf
  simp only [htag, happrox]
  have hb : (⟨some t, .invalid⟩ : CacheBlockInfo).tag = some t := rfl
  obtain ⟨hS, hev⟩ := CacheSet.insert_agree (P.stores i) (hC ((P.cache i).setIndex t)) hb hfill
    evict evict' ((P.probe i).isBlockApprox e (tagToAddress (P.cache i) t))
  obtain ⟨hS', hmagic⟩ := injectFound_agree hS P.manager.postWrite_confined he hN rfl rfl
  exact ⟨hC.putSet hS' _, hmagic, hev⟩

end Cache

end Sniper
