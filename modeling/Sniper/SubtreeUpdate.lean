import Sniper.Contents

namespace Sniper
open Outcome

namespace Contents

variable {n : ℕ} (X : Contents n)

/-- The coherence state of a line in a cache, INVALID when the cache does not hold it. -/
def state (c : CntlrId) (t : ℕ) : CState :=
  match X.block c t with
  | some b => b.state
  | none => .invalid

def Dirty (t : ℕ) (c : CntlrId) : Prop := X.state c t = .modified

/-- The eviction buffer of the cache is not set for the address. -/
def NotEvicting (c : CntlrId) (address : ℕ) : Prop := ∀ e, X.evicting c = some e → e.1 ≠ address

variable {X} {c d : CntlrId} {t t' : ℕ} {b : Block n}

theorem state_of_block (h : X.block c t = some b) : X.state c t = b.state := by
  unfold state
  rw [h]

theorem block_of_state {st : CState} (h : X.state c t = st) (hst : st ≠ .invalid) :
    ∃ b, X.block c t = some b ∧ b.state = st := by
  unfold state at h
  split at h
  · rename_i b hb
    exact ⟨b, hb, h⟩
  · exact absurd h.symm hst

theorem block_of_dirty (h : X.Dirty t c) : ∃ b, X.block c t = some b ∧ b.state = .modified :=
  block_of_state h (by decide)

theorem holding_state {st : CntlrId → ℕ → CState} {byte : CntlrId → Byte} :
    (holding st byte n).state c t = st c t := by
  unfold state holding
  by_cases h : st c t = .invalid <;> simp [h]

theorem state_congr {Y : Contents n} (h : Y.block c t = X.block c t) :
    Y.state c t = X.state c t := by
  unfold state
  rw [h]

end Contents

/-- An access that writes to a block, whether data is stored or not. -/
theorem Cache.block_store_any {σ : Type} {k : CacheParams σ} {C : Cache σ} {t : ℕ}
    (hC : C.WellFormed k) {b : Block k.blocksize} (hb : C.block k t = some b) {off n : ℕ}
    (ho : off < k.blocksize) (hn : off + n ≤ k.blocksize) (buff : Option (ℕ → Byte)) (u : Bool) :
    ∃ r data, C.accessSingleLine .quiet k () (t * k.blocksize + off) .store buff n u = .ok r ∧
      r.cache.WellFormed k ∧ r.info.map CacheBlockInfo.cstate = some b.state ∧
      (k.stores = true → data = Block.write b.data off n buff) ∧
      ∀ t', r.cache.block k t' = if t' = t then some ⟨b.state, data⟩ else C.block k t' := by
  by_cases hst : k.stores = true
  · obtain ⟨r, hr, hwf, -, hinfo, hblock⟩ := block_store hC hst hb ho hn buff u
    exact ⟨r, _, hr, hwf, hinfo, fun _ => rfl, hblock⟩
  · obtain ⟨w, hw⟩ := lineWay_of_block hC hb
    have hline := lineNumber k t ho
    obtain ⟨r, hr, hinfo, -, hcs, hbytes⟩ := access_store (C := C) (k := k) (n := n)
      (by rw [hline]; exact hw) (by rw [lineOffset k t ho]; exact hn) buff u
    rw [hline, lineState_of_block hb] at hcs
    have hsame : ∀ t', r.cache.block k t' = C.block k t' := by
      intro t'
      apply block_congr (hinfo.lineState t')
      intro i _
      rw [hbytes]
      cases buff with
      | none => rfl
      | some buf => exact if_neg fun h => hst h.1
    refine ⟨r, b.data, hr, hinfo.wellFormed hC, hcs, fun h => absurd h hst, ?_⟩
    intro t'
    rw [hsame]
    split
    · rename_i ht
      rw [ht, hb]
    · rfl

namespace CacheCntlr

variable {σ : Type} {K : Config σ} {s : State σ} {X : Contents K.blocksize} {c : CntlrId} {t : ℕ}
  {b : Block K.blocksize}

theorem state_eq (h : s.Holds K X) (c : CntlrId) (t : ℕ) : s.line K c t = X.state c t := by
  rw [h.line_eq]
  unfold Contents.state
  cases X.block c t <;> rfl

theorem retrieveCacheBlock_total (h : s.Holds K X) (hb : X.block c t = some b)
    (data_buf : ℕ → Byte) (u : Bool) :
    Total (retrieveCacheBlock K s c (t * K.blocksize) data_buf u) fun r =>
      r.1.Holds K X ∧ (K.stores = true → ∀ i : Fin K.blocksize, r.2 i = b.data i) := by
  by_cases hst : K.stores = true
  · exact (retrieveCacheBlock_holds hst h hb data_buf u).mono (fun _ => id)
      fun r hr => ⟨hr.1, fun _ => hr.2⟩
  · have hb' : (s.m_cache c).block (K.params c) t = some b := (h.block c t).trans hb
    obtain ⟨w, hw⟩ := Cache.lineWay_of_block (h.wellFormed c) hb'
    have hmod : t * K.blocksize % (K.params c).blocksize + K.blocksize ≤
      (K.params c).blocksize := by
      change t * K.blocksize % K.blocksize + K.blocksize ≤ K.blocksize
      rw [Nat.mul_mod_left]
      omega
    have hline : t * K.blocksize / (K.params c).blocksize = t :=
      Nat.mul_div_cancel t K.blocksize_pos
    obtain ⟨r, hr, hsame, hinfo, -⟩ := Cache.access_load (C := s.m_cache c) (k := K.params c)
      (by rw [hline]; exact hw) hmod (some data_buf) u
    have hsome : r.info.isSome = true := by
      rw [← Option.isSome_map (f := CacheBlockInfo.cstate), hinfo]
      rfl
    simp only [retrieveCacheBlock, accessSingleLine, hr, ok_bind]
    change Total (require (r.info.isSome = true) _ >>= _) _
    rw [require_true _ hsome]
    refine ⟨?_, fun h' => absurd h' hst⟩
    apply h.putCache (hsame.info.wellFormed (h.wellFormed c)) _ rfl rfl
    intro d t'
    split
    · rename_i hd
      rw [hd, ← h.block]
      exact (hsame.block t').symm
    · rfl

/-- A write to a line that is MODIFIED and not being evicted. -/
theorem writeOwnBlock_total (h : s.Holds K X) (he : X.NotEvicting c (t * K.blocksize))
    (hb : X.block c t = some b) (hm : b.state = .modified) (buf : ℕ → Byte) :
    Total (writeOwnBlock K s c (t * K.blocksize) 0 (some buf) K.blocksize) fun s' =>
      ∃ data : Fin K.blocksize → Byte, (K.stores = true → data = fun i : Fin K.blocksize => buf i) ∧
        s'.Holds K (X.put c t (some ⟨.modified, data⟩)) := by
  have store : Total
      (writeOwnBlock.store K s c (t * K.blocksize) 0 (some buf) K.blocksize) fun s' =>
      ∃ data : Fin K.blocksize → Byte, (K.stores = true → data = fun i : Fin K.blocksize => buf i) ∧
        s'.Holds K (X.put c t (some ⟨.modified, data⟩)) := by
    have hb' : (s.m_cache c).block (K.params c) t = some b := (h.block c t).trans hb
    obtain ⟨r, data, hr, hwf, hinfo, hdata, hblock⟩ := Cache.block_store_any (k := K.params c)
      (n := K.blocksize) (h.wellFormed c) hb' K.blocksize_pos (Nat.zero_add K.blocksize).le
      (some buf) false
    change (s.m_cache c).accessSingleLine .quiet (K.params c) () (t * K.blocksize + 0) .store
      (some buf) K.blocksize false = .ok r at hr
    rw [hm] at hinfo hblock
    have hsome : r.info.isSome = true := by
      rw [← Option.isSome_map (f := CacheBlockInfo.cstate), hinfo]
      rfl
    simp only [writeOwnBlock.store, accessSingleLine, hr, ok_bind]
    change Total (require (r.info.isSome = true) _ >>= _) _
    rw [require_true _ hsome, require_true _ hinfo]
    refine ⟨data, ?_, h.put hwf hblock⟩
    intro hst
    rw [hdata hst]
    exact Block.write_all b.data buf
  unfold writeOwnBlock
  rw [h.evicting]
  split
  · rename_i a evicting_buf hx
    rw [if_neg fun ha => he _ hx ha.symm]
    exact store
  · exact store

theorem writeNext_total (hwb : K.m_cache_writethrough (K.below c) = false) (h : s.Holds K X)
    (he : X.NotEvicting (K.below c) (t * K.blocksize)) (hb : X.Dirty t (K.below c))
    (buf : ℕ → Byte) :
    Total (writeNext K s c (t * K.blocksize) 0 (some buf) K.blocksize) fun s' =>
      ∃ data : Fin K.blocksize → Byte, (K.stores = true → data = fun i : Fin K.blocksize => buf i) ∧
        s'.Holds K (X.put (K.below c) t (some ⟨.modified, data⟩)) := by
  obtain ⟨b, hb, hm⟩ := Contents.block_of_dirty hb
  have hwb' : K.m_cache_writethrough (K.node (K.nextCntlr c)) = false := hwb
  unfold writeNext
  generalize K.last - (c.level + 1) = r
  cases r with
  | zero =>
    apply (writeOwnBlock_total h he hb hm buf).bind
    intro s' hs'
    rw [require_true _ hwb']
    exact hs'
  | succ r =>
    apply (writeOwnBlock_total h he hb hm buf).bind
    intro s' hs'
    rw [if_neg (by simp [hwb'])]
    exact hs'

/-- A buffer that holds a block's data, when data is stored. -/
def Filled (K : Config σ) (data : Fin K.blocksize → Byte) (buf : Option (ℕ → Byte)) : Prop :=
  ∃ out, buf = some out ∧ (K.stores = true → ∀ i : Fin K.blocksize, out i = data i)

theorem retrieveInto_total (h : s.Holds K X) (hb : X.block c t = some b)
    (out_buf : Option (ℕ → Byte)) (buf_written : Bool) :
    Total (retrieveInto K s c (t * K.blocksize) out_buf buf_written) fun r =>
      r.1.Holds K X ∧ (out_buf = none → r.2 = (none, buf_written)) ∧
        (out_buf.isSome = true → Filled K b.data r.2.1 ∧ r.2.2 = true) := by
  cases out_buf with
  | none => exact ⟨h, fun _ => rfl, fun hn => by cases hn⟩
  | some buf =>
    apply (retrieveCacheBlock_total h hb buf false).bind
    intro r hr
    refine (sat_pure _).mpr ⟨hr.1, ?_, fun _ => ⟨⟨r.2, rfl, hr.2⟩, rfl⟩⟩
    intro hn
    cases hn

/-- The data of a MODIFIED block have a place: the next level holds the line MODIFIED, or somebody
waits for them at the last one. -/
structure HasPlace (K : Config σ) (X : Contents K.blocksize) (c : CntlrId) (t : ℕ)
    (out_buf : Option (ℕ → Byte)) : Prop where
  writeback : K.m_cache_writethrough c = false
  next : c.level < K.last → X.Dirty t (K.below c) ∧ K.m_cache_writethrough (K.below c) = false ∧
    X.NotEvicting (K.below c) (t * K.blocksize)
  last : ¬c.level < K.last → out_buf.isSome = true

/-- The contents once the data of the block `b` of `c` have been saved, if they had to be: those of
a MODIFIED block go to the next level, where there is one. -/
inductive Saved (K : Config σ) (X : Contents K.blocksize) (c : CntlrId) (t : ℕ)
    (b : Block K.blocksize) : Contents K.blocksize → Prop where
  | here (h : ¬(c.level < K.last ∧ b.state = .modified)) : Saved K X c t b X
  | below (hl : c.level < K.last) (hm : b.state = .modified) (data : Fin K.blocksize → Byte)
      (hdata : K.stores = true → data = b.data) :
      Saved K X c t b (X.put (K.below c) t (some ⟨.modified, data⟩))

theorem writeBackBlock_total (h : s.Holds K X) (hb : X.block c t = some b)
    (hm : b.state = .modified) {out_buf : Option (ℕ → Byte)}
    (hp : HasPlace K X c t out_buf) :
    Total (writeBackBlock K s c (t * K.blocksize) out_buf) fun r =>
      ∃ X', Saved K X c t b X' ∧
        r.1.Holds K (X'.put c t (some ⟨.shared, b.data⟩)) ∧ r.2.1.isSome = out_buf.isSome := by
  have hne : K.below c ≠ c := by
    intro he
    have hlevel : c.level + 1 = c.level := congrArg CntlrId.level he
    omega
  unfold writeBackBlock
  rw [if_neg (by simp [hp.writeback])]
  by_cases hl : c.level < K.last
  · obtain ⟨hdirty, hwb, hev⟩ := hp.next hl
    rw [if_pos hl]
    apply (retrieveCacheBlock_total h hb K.garbage false).bind
    intro r hr
    apply (writeNext_total hwb hr.1 hev hdirty r.2).bind
    rintro s' ⟨data', hdata, hs'⟩
    have hb' : (X.put (K.below c) t (some ⟨.modified, data'⟩)).block c t = some b := by
      rw [Contents.put_block_of_ne hne.symm, hb]
    refine ⟨_, .below hl hm data' ?_, setCacheState_holds hs' hb' (by decide), rfl⟩
    intro hst
    rw [hdata hst]
    funext i
    exact hr.2 hst i
  · rw [if_neg hl]
    cases out_buf with
    | none => exact absurd (hp.last hl) (by simp)
    | some buf =>
      apply (retrieveCacheBlock_total h hb buf false).bind
      intro r hr
      exact ⟨X, .here fun h' => hl h'.1, setCacheState_holds hr.1 hb (by decide), rfl⟩

/-- A new state that `updateCacheBlock` can be asked for, and what it leaves of a block. -/
def Allowed (new : CState) (out_buf : Option (ℕ → Byte)) : Prop :=
  new = .invalid ∨ new = .shared ∨ new = .modified ∧ out_buf = none

def leftOf {n : ℕ} (new : CState) (b : Block n) : Option (Block n) :=
  if new = .invalid then none else some ⟨new, b.data⟩

theorem saveBlock_total (h : s.Holds K X) (hb : X.block c t = some b)
    {out_buf : Option (ℕ → Byte)}
    (hp : b.state = .modified → HasPlace K X c t out_buf) :
    Total (saveBlock K s c (t * K.blocksize) b.state out_buf) fun r =>
      ∃ X' b', Saved K X c t b X' ∧ b'.data = b.data ∧ b'.state ≠ .modified ∧
        r.1.Holds K (X'.put c t (some b')) ∧ r.2.1.isSome = out_buf.isSome := by
  unfold saveBlock
  split
  · rename_i hm
    apply (writeBackBlock_total h hb hm (hp hm)).mono (fun _ => id)
    rintro r ⟨X', hX', hr, hout⟩
    refine ⟨X', ⟨.shared, b.data⟩, hX', rfl, ?_, hr, hout⟩
    intro hn
    cases hn
  · rename_i hm
    refine ⟨X, b, .here fun h' => hm h'.2, rfl, hm, ?_, rfl⟩
    rw [Contents.put_eq hb]
    exact h

theorem changeBlock_total {new : CState} (hco : new = .invalid → K.m_coherent c = true)
    (h : s.Holds K X) (hb : X.block c t = some b) {out_buf : Option (ℕ → Byte)}
    (hnew : Allowed new out_buf)
    (hp : b.state = .modified → HasPlace K X c t out_buf) :
    Total (changeBlock K s c (t * K.blocksize) b.state new out_buf) fun r =>
      ∃ X', Saved K X c t b X' ∧ r.1.Holds K (X'.put c t (leftOf new b)) ∧
        (out_buf.isSome = true → Filled K b.data r.2.1 ∧ r.2.2 = true) ∧
        (out_buf = none → r.2.1 = none) := by
  unfold changeBlock
  split
  · rename_i hsame
    -- the block has the new state already, so nothing has to be saved
    have hm : b.state ≠ .modified := by
      rw [← hsame.1]
      rintro rfl
      rcases hnew with hn | hn | ⟨-, hn⟩
      · cases hn
      · cases hn
      · rw [hn] at hsame
        cases hsame.2
    have hleft : leftOf new b = some b := by
      rw [leftOf, hsame.1, if_neg (state_ne_invalid h hb)]
    apply (retrieveInto_total h hb out_buf false).mono (fun _ => id)
    intro r hr
    refine ⟨X, .here fun h' => hm h'.2, ?_, hr.2.2, fun hn => by rw [hr.2.1 hn]⟩
    rw [hleft, Contents.put_eq hb]
    exact hr.1
  · apply (saveBlock_total h hb hp).bind
    rintro ⟨s', out, written⟩ ⟨X', b', hX', hdata, hm, hs', hout⟩
    have hb' := Contents.put_block_self (X := X') (c := c) (t := t) (b := some b')
    have hnone : out_buf = none → out = none := by
      intro hn
      rw [hn] at hout
      exact Option.not_isSome_iff_eq_none.mp (by simp [hout])
    -- INVALID and SHARED give the data out first; MODIFIED comes without a buffer
    rcases hnew with rfl | rfl | ⟨rfl, hn⟩
    · apply (retrieveInto_total hs' hb' out written).bind
      rintro ⟨s₁, out₁, written₁⟩ ⟨hs₁, hn₁, hf₁⟩
      simp only
      rw [if_pos (hco rfl)]
      apply (invalidateCacheBlock_holds hs₁ hb' hm).bind
      intro s₂ hs₂
      rw [Contents.put_put] at hs₂
      refine ⟨X', hX', hs₂, ?_, ?_⟩
      · intro hsome
        rw [← hdata]
        exact hf₁ (hout.trans hsome)
      · intro hn
        exact congrArg Prod.fst (hn₁ (hnone hn))
    · apply (retrieveInto_total hs' hb' out written).bind
      rintro ⟨s₁, out₁, written₁⟩ ⟨hs₁, hn₁, hf₁⟩
      have hs₂ := setCacheState_holds hs₁ hb' (show CState.shared ≠ .invalid by decide)
      rw [Contents.put_put, hdata] at hs₂
      refine ⟨X', hX', hs₂, ?_, ?_⟩
      · intro hsome
        rw [← hdata]
        exact hf₁ (hout.trans hsome)
      · intro hn
        exact congrArg Prod.fst (hn₁ (hnone hn))
    · have hs₂ := setCacheState_holds hs' hb' (show CState.modified ≠ .invalid by decide)
      rw [Contents.put_put, hdata] at hs₂
      refine ⟨X', hX', hs₂, ?_, hnone⟩
      intro hsome
      rw [hn] at hsome
      cases hsome

/-- What `updateCacheBlock` does to the contents, when the states of the caches in `S` change and
`o` is the cache whose data go to the next level. -/
structure Updated (K : Config σ) (X : Contents K.blocksize) (S : Set CntlrId) (c : CntlrId) (t : ℕ)
    (new : CState) (o : CntlrId → Prop) (X' : Contents K.blocksize) : Prop where
  inside : ∀ d ∈ S, X'.state d t = new.restate (X.state d t)
  next : c.level < K.last → X.Dirty t c → ∃ data, X'.block (K.below c) t = some ⟨.modified, data⟩ ∧
    (K.stores = true → ∀ d b, o d → X.block d t = some b → data = b.data)
  own : ∀ b', X'.block c t = some b' → X.block c t ≠ none ∧
    (K.stores = true → ∀ d b, o d → X.block d t = some b → b'.data = b.data)
  rest : ∀ d t', ¬(t' = t ∧ d ∈ S) → ¬(t' = t ∧ d = K.below c ∧ c.level < K.last ∧ X.Dirty t c) →
    X'.block d t' = X.block d t'
  evicting : X'.evicting = X.evicting
  data_map : X'.data_map = X.data_map

theorem state_leftOf {new : CState} {X' : Contents K.blocksize} (hb : X.block c t = some b)
    (hX' : X'.block c t = leftOf new b) (hi : b.state ≠ .invalid) :
    X'.state c t = new.restate (X.state c t) := by
  rw [Contents.state_of_block hb]
  unfold Contents.state CState.restate leftOf at *
  rw [hX', if_neg hi]
  by_cases hn : new = .invalid
  · rw [if_pos hn, hn]
  · rw [if_neg hn]

theorem changeIfPresent_total {new : CState} (hco : new = .invalid → K.m_coherent c = true)
    (h : s.Holds K X) {out_buf : Option (ℕ → Byte)} (hnew : Allowed new out_buf)
    (hp : X.Dirty t c → HasPlace K X c t out_buf) :
    Total (changeIfPresent K s c (t * K.blocksize) new out_buf) fun r =>
      ∃ X', r.1.Holds K X' ∧ Updated K X {c} c t new (· = c) X' ∧
        (out_buf.isSome = true → ∀ b, X.block c t = some b →
          Filled K b.data r.2.1 ∧ r.2.2 = true) ∧ (out_buf = none → r.2.1 = none) := by
  unfold changeIfPresent
  cases hb : X.block c t with
  | none =>
    rw [info_of_absent h hb]
    refine ⟨X, h, ⟨?_, ?_, ?_, fun _ _ _ _ => rfl, rfl, rfl⟩, ?_, id⟩
    rotate_right
    · intro _ b hb'
      cases hb'
    · intro d hd
      rw [Set.mem_singleton_iff.mp hd]
      unfold Contents.state
      rw [hb, CState.restate_invalid]
    · intro _ hdirty
      obtain ⟨b, hb', -⟩ := Contents.block_of_dirty hdirty
      rw [hb] at hb'
      cases hb'
    · intro b' hb'
      rw [hb] at hb'
      cases hb'
  | some b =>
    obtain ⟨i, hi, hcs⟩ := info_of_block h hb
    have hne : K.below c ≠ c := by
      intro he
      have hlevel : c.level + 1 = c.level := congrArg CntlrId.level he
      omega
    have hdirty : X.Dirty t c ↔ b.state = .modified := by
      rw [Contents.Dirty, Contents.state_of_block hb]
    rw [hi]
    simp only
    rw [hcs]
    apply (changeBlock_total hco h hb hnew fun hm => hp (hdirty.mpr hm)).mono (fun _ => id)
    rintro r ⟨X', hX', hr, hf, hn⟩
    refine ⟨_, hr, ⟨?_, ?_, ?_, ?_, ?_, ?_⟩, ?_, hn⟩
    · intro d hd
      rw [Set.mem_singleton_iff.mp hd]
      exact state_leftOf hb Contents.put_block_self (state_ne_invalid h hb)
    -- a MODIFIED block was written to the next level before it changed
    · intro hl hm
      cases hX' with
      | here hno => exact absurd ⟨hl, hdirty.mp hm⟩ hno
      | below _ _ data hdata =>
        refine ⟨data, ?_, ?_⟩
        · rw [Contents.put_block_of_ne hne, Contents.put_block_self]
        · intro hst d b' hd hb'
          rw [hd, hb] at hb'
          rw [hdata hst, Option.some.inj hb']
    · intro b' hb'
      rw [Contents.put_block_self, leftOf] at hb'
      split at hb'
      · cases hb'
      · refine ⟨by simp [hb], ?_⟩
        intro _ d b₀ hd hb₀
        rw [hd, hb] at hb₀
        rw [← Option.some.inj hb', Option.some.inj hb₀]
    · intro d t' hd hbelow
      have hput : (X'.put c t (leftOf new b)).block d t' = X'.block d t' := by
        apply if_neg
        exact fun h' => hd ⟨h'.2, h'.1⟩
      rw [hput]
      cases hX' with
      | here => rfl
      | below hl hm data _ =>
        apply if_neg
        exact fun h' => hbelow ⟨h'.2, h'.1, hl, hdirty.mpr hm⟩
    · cases hX' <;> rfl
    · cases hX' <;> rfl
    · intro hsome b' hb'
      rw [← Option.some.inj hb']
      exact hf hsome

/-- What is left in `out_buf`. -/
structure OutBuf (K : Config σ) (X : Contents K.blocksize) (t : ℕ) (o : CntlrId → Prop)
    (out_buf out : Option (ℕ → Byte)) : Prop where
  filled : out_buf.isSome = true → ∀ d b, o d → X.block d t = some b → Filled K b.data out
  none : out_buf = none → out = none

theorem updateOwnBlock_total {new : CState} (hco : new = .invalid → K.m_coherent c = true)
    (h : s.Holds K X) {out_buf : Option (ℕ → Byte)} (hnew : Allowed new out_buf)
    (hp : X.Dirty t c → HasPlace K X c t out_buf)
    (hout : out_buf.isSome = true → X.block c t ≠ none) :
    Total (updateOwnBlock K s c (t * K.blocksize) new out_buf) fun r =>
      ∃ X', r.1.Holds K X' ∧ Updated K X {c} c t new (· = c) X' ∧
        OutBuf K X t (· = c) out_buf r.2 := by
  apply (changeIfPresent_total hco h hnew hp).bind
  rintro ⟨s', out, written⟩ ⟨X', hs', hup, hf, hn⟩
  simp only at hs' hf hn
  have hstate : getCacheState K s' c (t * K.blocksize) = .invalid ∨
      getCacheState K s' c (t * K.blocksize) = new ∨ K.m_coherent c = false := by
    rw [getCacheState_eq, Nat.mul_div_cancel _ K.blocksize_pos, state_eq hs',
      hup.inside c (Set.mem_singleton c)]
    unfold CState.restate
    split
    · exact .inl rfl
    · exact .inr (.inl rfl)
  have hwritten : out.isSome = true → written = true := by
    intro hsome
    cases hb : X.block c t with
    | none =>
      have hnone : out_buf = none := by
        by_contra hne
        exact hout (Option.isSome_iff_ne_none.mpr hne) hb
      rw [hn hnone] at hsome
      cases hsome
    | some b =>
      have hbuf : out_buf.isSome = true := by
        by_contra hne
        rw [hn (Option.not_isSome_iff_eq_none.mp hne)] at hsome
        cases hsome
      exact (hf hbuf b hb).2
  simp only
  rw [require_true _ hstate, ok_bind, require_true _ hwritten, ok_bind]
  refine ⟨X', hs', hup, ?_, hn⟩
  intro hsome d b hd hb
  rw [hd] at hb
  exact (hf hsome b hb).1

/-- What `updateCacheBlock` of the cache `c` needs: the MODIFIED copies of its subtree form a path
of write-back caches, none of which is evicting the line, and the data of `c` itself have a place.
-/
structure UpdateReady (K : Config σ) (X : Contents K.blocksize) (c : CntlrId) (t : ℕ)
    (out_buf : Option (ℕ → Byte)) : Prop where
  level : c.level ≤ K.last
  path : K.forest.Path (X.Dirty t) c
  writeback : ∀ d ∈ K.forest.subtree c, X.Dirty t d → K.m_cache_writethrough d = false
  evicting : ∀ d ∈ K.forest.subtree c, X.Dirty t d → X.NotEvicting d (t * K.blocksize)
  place : X.Dirty t c → HasPlace K X c t out_buf
  present : out_buf.isSome = true → X.block c t ≠ none

/-- Without MODIFIED copies it is always ready. -/
theorem UpdateReady.of_clean (hl : c.level ≤ K.last)
    (hclean : ∀ d ∈ K.forest.subtree c, ¬X.Dirty t d) {out_buf : Option (ℕ → Byte)}
    (hp : out_buf.isSome = true → X.block c t ≠ none) : UpdateReady K X c t out_buf := by
  refine ⟨hl, ⟨?_, ?_⟩, ?_, ?_, ?_, hp⟩
  · intro d hd b hb hbd
    exact absurd hbd (hclean b (K.forest.closed_subtree c d hd b hb))
  · exact fun d hd _ _ _ hdd => absurd hdd (hclean d hd)
  · exact fun d hd hdd => absurd hdd (hclean d hd)
  · exact fun d hd hdd => absurd hdd (hclean d hd)
  · exact fun hcd => absurd hcd (hclean c (.self c))

/-- The contents after the subtrees of some of the previous-level caches of `c` have been updated.
-/
structure PrevUpdated (K : Config σ) (X : Contents K.blocksize) (c : CntlrId) (t : ℕ) (new : CState)
    (done : List CntlrId) (X' : Contents K.blocksize) : Prop where
  inside : ∀ d ∈ K.forest.subtrees done, X'.state d t = new.restate (X.state d t)
  clean : (∀ j ∈ done, ¬X.Dirty t j) → X'.block c t = X.block c t
  latest : X.Dirty t c → ∃ data, X'.block c t = some ⟨.modified, data⟩ ∧
    (K.stores = true → ∀ j ∈ done, X.Dirty t j → ∀ d b, K.forest.Deepest (X.Dirty t) j d →
      X.block d t = some b → data = b.data)
  rest : ∀ d t', ¬(t' = t ∧ d ∈ K.forest.subtrees done) → ¬(t' = t ∧ d = c ∧ X.Dirty t c) →
    X'.block d t' = X.block d t'
  evicting : X'.evicting = X.evicting
  data_map : X'.data_map = X.data_map

theorem PrevUpdated.nil (c : CntlrId) (new : CState) : PrevUpdated K X c t new [] X where
  inside d hd := by
    rw [Forest.subtrees_nil] at hd
    exact hd.elim
  clean _ := rfl
  latest hdirty := by
    obtain ⟨b, hb, hm⟩ := Contents.block_of_dirty hdirty
    refine ⟨b.data, ?_, fun _ j hj => by cases hj⟩
    rw [hb, ← hm]
  rest _ _ _ _ := rfl
  evicting := rfl
  data_map := rfl

/-- What a cache has of the subtree of a child that has not been updated yet is as it was. -/
theorem PrevUpdated.block_child {new : CState} {done : List CntlrId} {X' : Contents K.blocksize}
    (h : PrevUpdated K X c t new done X') {j : CntlrId} (hj : j ∈ K.prevCntlrs c)
    (hdone : ∀ i ∈ done, i ∈ K.prevCntlrs c) (hnew : j ∉ done) {d : CntlrId}
    (hd : d ∈ K.forest.subtree j) (t' : ℕ) : X'.block d t' = X.block d t' := by
  apply h.rest
  · intro h'
    obtain ⟨-, i, hi, hid⟩ := h'
    have h1 := (K.mem_prevCntlrs.mp (hdone i hi)).1
    have h2 := (K.mem_prevCntlrs.mp hj).1
    have hij : i = j := hid.unique hd (by change i.level = j.level; omega)
    exact hnew (hij ▸ hi)
  · intro h'
    obtain ⟨-, rfl, -⟩ := h'
    exact Forest.not_covers_of_child (F := K.forest) hj hd

theorem PrevUpdated.snoc {new : CState} {done : List CntlrId} {X₁ X₂ : Contents K.blocksize}
    (h : PrevUpdated K X c t new done X₁) (hpath : K.forest.Path (X.Dirty t) c) {j : CntlrId}
    (hj : j ∈ K.prevCntlrs c) (hdone : ∀ i ∈ done, i ∈ K.prevCntlrs c) (hnew : j ∉ done)
    (hl : j.level < K.last)
    (hup : Updated K X₁ (K.forest.subtree j) j t new (K.forest.Deepest (X₁.Dirty t) j) X₂) :
    PrevUpdated K X c t new (done ++ [j]) X₂ := by
  have hbelow : K.below j = c := (K.mem_prevCntlrs.mp hj).2.2.2
  have hblock := fun {d} hd t' => h.block_child hj hdone hnew (d := d) hd t'
  have hdirty : ∀ d ∈ K.forest.subtree j, X₁.Dirty t d ↔ X.Dirty t d := by
    intro d hd
    unfold Contents.Dirty
    rw [Contents.state_congr (hblock hd t)]
  have hself : j ∈ K.forest.subtree j := .self j
  have hcj : c ∉ K.forest.subtree j := fun hc => Forest.not_covers_of_child (F := K.forest) hj hc
  -- nothing of the subtrees handled before is in the subtree of `j`
  have hapart : ∀ d ∈ K.forest.subtrees done, d ∉ K.forest.subtree j ∧ d ≠ c := by
    rintro d ⟨i, hi, hid⟩
    refine ⟨?_, ?_⟩
    · intro hd
      have h1 := (K.mem_prevCntlrs.mp (hdone i hi)).1
      have h2 := (K.mem_prevCntlrs.mp hj).1
      have hij : i = j := hid.unique hd (by change i.level = j.level; omega)
      exact hnew (hij ▸ hi)
    · rintro rfl
      exact Forest.not_covers_of_child (F := K.forest) (hdone i hi) hid
  refine ⟨?_, ?_, ?_, ?_, hup.evicting.trans h.evicting, hup.data_map.trans h.data_map⟩
  · intro d hd
    rcases Forest.mem_subtrees_append.mp hd with hd | hd
    · obtain ⟨h1, h2⟩ := hapart d hd
      rw [Contents.state_congr (hup.rest d t (fun h' => h1 h'.2)
        fun h' => h2 (h'.2.1.trans hbelow))]
      exact h.inside d hd
    · rw [hup.inside d hd, Contents.state_congr (hblock hd t)]
  · intro hclean
    rw [hup.rest c t (fun h' => hcj h'.2), h.clean fun i hi => hclean i (by simp [hi])]
    rintro ⟨-, -, -, hd⟩
    exact hclean j (by simp) ((hdirty j hself).mp hd)
  · intro hc
    -- the latest data comes from `j` when the dirty path goes through it, else from before
    by_cases hjd : X.Dirty t j
    · obtain ⟨data, hdata, heq⟩ := hup.next hl ((hdirty j hself).mpr hjd)
      rw [hbelow] at hdata
      refine ⟨data, hdata, ?_⟩
      intro hst i hi hid d b hdeep hb
      have hij : i = j := by
        have hi' : i ∈ K.prevCntlrs c := by
          rcases List.mem_append.mp hi with hi | hi
          · exact hdone i hi
          · rwa [List.mem_singleton.mp hi]
        apply hpath.unique i (.child hi' (.self i)) j (.child hj (.self j)) _ hid hjd
        have h1 := (K.mem_prevCntlrs.mp hi').1
        have h2 := (K.mem_prevCntlrs.mp hj).1
        change i.level = j.level
        omega
      rw [hij] at hdeep
      apply heq hst d b ((Forest.Deepest.congr hdirty).mpr hdeep)
      rw [hblock hdeep.1, hb]
    · obtain ⟨data, hdata, heq⟩ := h.latest hc
      refine ⟨data, ?_, ?_⟩
      · rw [hup.rest c t (fun h' => hcj h'.2), hdata]
        rintro ⟨-, -, -, hd⟩
        exact hjd ((hdirty j hself).mp hd)
      · intro hst i hi hid
        rcases List.mem_append.mp hi with hi | hi
        · exact heq hst i hi hid
        · rw [List.mem_singleton.mp hi] at hid
          exact absurd hid hjd
  · intro d t' hd hdc
    rw [hup.rest d t', h.rest d t' _ hdc]
    · exact fun h' => hd ⟨h'.1, Forest.mem_subtrees_append.mpr (.inl h'.2)⟩
    · exact fun h' => hd ⟨h'.1, Forest.mem_subtrees_append.mpr (.inr h'.2)⟩
    · rintro ⟨ht, hdb, -, hjd⟩
      apply hdc ⟨ht, hdb.trans hbelow, _⟩
      exact hpath.parent c (.self c) j hj ((hdirty j hself).mp hjd)

/-- A child that has not been updated yet is ready when its parent was. -/
theorem UpdateReady.child {out_buf : Option (ℕ → Byte)} (hr : UpdateReady K X c t out_buf)
    {new : CState} {done : List CntlrId} {X₁ : Contents K.blocksize}
    (h : PrevUpdated K X c t new done X₁) {j : CntlrId} (hj : j ∈ K.prevCntlrs c)
    (hdone : ∀ i ∈ done, i ∈ K.prevCntlrs c) (hnew : j ∉ done) : UpdateReady K X₁ j t none := by
  have hbelow : K.below j = c := (K.mem_prevCntlrs.mp hj).2.2.2
  have hlevel := (K.mem_prevCntlrs.mp hj).1
  have hl := hr.level
  have hdirty : ∀ d ∈ K.forest.subtree j, X₁.Dirty t d ↔ X.Dirty t d := by
    intro d hd
    unfold Contents.Dirty
    rw [Contents.state_congr (h.block_child hj hdone hnew hd t)]
  have hwb : ∀ d ∈ K.forest.subtree j, X₁.Dirty t d → K.m_cache_writethrough d = false := by
    intro d hd hdd
    exact hr.writeback d (.child hj hd) ((hdirty d hd).mp hdd)
  refine ⟨by omega, (hr.path.child hj).congr hdirty, hwb, ?_, ?_, fun hn => by cases hn⟩
  · intro d hd hdd e he
    rw [h.evicting] at he
    exact hr.evicting d (.child hj hd) ((hdirty d hd).mp hdd) e he
  · intro hjd
    have hcd := hr.path.parent c (.self c) j hj ((hdirty j (.self j)).mp hjd)
    refine ⟨hwb j (.self j) hjd, ?_, fun hn => by omega⟩
    intro _
    rw [hbelow]
    refine ⟨?_, hr.writeback c (.self c) hcd, ?_⟩
    · obtain ⟨data, hdata, -⟩ := h.latest hcd
      exact Contents.state_of_block hdata
    · intro e he
      rw [h.evicting] at he
      exact hr.evicting c (.self c) hcd e he

section node

variable {new : CState} {X₁ X₂ : Contents K.blocksize}
  (h : PrevUpdated K X c t new (K.prevCntlrs c) X₁) (hpath : K.forest.Path (X.Dirty t) c)
include h hpath

omit hpath in
/-- Nothing is written to a cache that does not hold the line MODIFIED. -/
theorem PrevUpdated.block_of_clean (hc : ¬X.Dirty t c) : X₁.block c t = X.block c t := by
  apply h.rest
  · rintro ⟨-, j, hj, hcov⟩
    exact Forest.not_covers_of_child (F := K.forest) hj hcov
  · exact fun h' => hc h'.2.2

omit hpath in
/-- The cache itself has its state still. -/
theorem PrevUpdated.state : X₁.state c t = X.state c t := by
  by_cases hc : X.Dirty t c
  · obtain ⟨data, hdata, -⟩ := h.latest hc
    rw [Contents.state_of_block hdata]
    exact hc.symm
  · exact Contents.state_congr (h.block_of_clean hc)

omit hpath in
theorem PrevUpdated.present : X₁.block c t = none ↔ X.block c t = none := by
  by_cases hc : X.Dirty t c
  · obtain ⟨data, hdata, -⟩ := h.latest hc
    obtain ⟨b, hb, -⟩ := Contents.block_of_dirty hc
    rw [hdata, hb]
    exact iff_of_false (by simp) (by simp)
  · rw [h.block_of_clean hc]

/-- It has the latest data of its subtree. -/
theorem PrevUpdated.data {d : CntlrId} {b b₁ : Block K.blocksize}
    (hd : K.forest.Deepest (X.Dirty t) c d) (hb : X.block d t = some b)
    (hb₁ : X₁.block c t = some b₁) (hst : K.stores = true) : b₁.data = b.data := by
  by_cases hclean : ∀ j ∈ K.prevCntlrs c, ¬X.Dirty t j
  · rw [h.clean hclean, ← hd.eq_root hpath hclean, hb] at hb₁
    rw [Option.some.inj hb₁]
  · push Not at hclean
    obtain ⟨j, hj, hjd⟩ := hclean
    obtain ⟨data, hdata, heq⟩ := h.latest (hpath.parent c (.self c) j hj hjd)
    rw [hdata] at hb₁
    rw [← Option.some.inj hb₁]
    exact heq hst j hj hjd d b (hd.child hpath hj hjd) hb

theorem PrevUpdated.updated (hup : Updated K X₁ {c} c t new (· = c) X₂) :
    Updated K X (K.forest.subtree c) c t new (K.forest.Deepest (X.Dirty t) c) X₂ := by
  have hstate := h.state
  have hdirty : X₁.Dirty t c ↔ X.Dirty t c := by
    unfold Contents.Dirty
    rw [hstate]
  have hnode : ∀ d, d ∈ K.forest.subtree c ↔ d ∈ K.forest.subtrees (K.prevCntlrs c) ∨ d = c := by
    intro d
    rw [Forest.subtree_eq]
    exact Iff.rfl
  have hbelow : ∀ d ∈ K.forest.subtree c, d ≠ K.below c := by
    rintro d hd rfl
    have hrank := Forest.Covers.rank_le hd
    change c.level + 1 ≤ c.level at hrank
    omega
  refine ⟨?_, ?_, ?_, ?_, hup.evicting.trans h.evicting, hup.data_map.trans h.data_map⟩
  · intro d hd
    by_cases hc : d = c
    · rw [hc, hup.inside c (Set.mem_singleton c), hstate]
    · have hd' := ((hnode d).mp hd).resolve_right hc
      rw [Contents.state_congr (hup.rest d t (fun h' => hc h'.2) fun h' => hbelow d hd h'.2.1)]
      exact h.inside d hd'
  · intro hl hc
    obtain ⟨data, hdata, heq⟩ := hup.next hl (hdirty.mpr hc)
    refine ⟨data, hdata, ?_⟩
    intro hst d b hd hb
    obtain ⟨b₁, hb₁, -⟩ := Contents.block_of_dirty (hdirty.mpr hc)
    rw [heq hst c b₁ rfl hb₁]
    exact h.data hpath hd hb hb₁ hst
  · intro b' hb'
    obtain ⟨hne, heq⟩ := hup.own b' hb'
    obtain ⟨b₁, hb₁⟩ := Option.ne_none_iff_exists'.mp hne
    refine ⟨fun hn => hne (h.present.mpr hn), ?_⟩
    intro hst d b hd hb
    rw [heq hst c b₁ rfl hb₁]
    exact h.data hpath hd hb hb₁ hst
  · intro d t' hd hnext
    rw [hup.rest d t', h.rest d t']
    · exact fun h' => hd ⟨h'.1, (hnode d).mpr (.inl h'.2)⟩
    · exact fun h' => hd ⟨h'.1, (hnode d).mpr (.inr h'.2.1)⟩
    · exact fun h' => hd ⟨h'.1, (hnode d).mpr (.inr h'.2)⟩
    · exact fun h' => hnext ⟨h'.1, h'.2.1, h'.2.2.1, hdirty.mp h'.2.2.2⟩

theorem PrevUpdated.outBuf {out_buf out : Option (ℕ → Byte)}
    (hout : OutBuf K X₁ t (· = c) out_buf out) (hp : out_buf.isSome = true → X.block c t ≠ none) :
    OutBuf K X t (K.forest.Deepest (X.Dirty t) c) out_buf out := by
  refine ⟨?_, hout.none⟩
  intro hsome d b hd hb
  have hb₁ : X₁.block c t ≠ none := fun hn => hp hsome (h.present.mp hn)
  obtain ⟨b₁, hb₁⟩ := Option.ne_none_iff_exists'.mp hb₁
  obtain ⟨buf, hbuf, hi⟩ := hout.filled hsome c b₁ rfl hb₁
  refine ⟨buf, hbuf, ?_⟩
  intro hst i
  rw [hi hst i, h.data hpath hd hb hb₁ hst]

end node

/-- The cache itself is as ready as it was once its children have been updated. -/
theorem UpdateReady.own {out_buf : Option (ℕ → Byte)} (hr : UpdateReady K X c t out_buf)
    {new : CState} {X₁ : Contents K.blocksize} (h : PrevUpdated K X c t new (K.prevCntlrs c) X₁) :
    (X₁.Dirty t c → HasPlace K X₁ c t out_buf) ∧
      (out_buf.isSome = true → X₁.block c t ≠ none) := by
  have hstate := h.state
  constructor
  · intro hc
    have hplace := hr.place (hstate.symm.trans hc)
    refine ⟨hplace.writeback, ?_, hplace.last⟩
    intro hl
    obtain ⟨hdirty, hwb, hev⟩ := hplace.next hl
    refine ⟨?_, hwb, ?_⟩
    · have hblock : X₁.block (K.below c) t = X.block (K.below c) t := by
        apply h.rest
        · intro h'
          obtain ⟨-, j, hj, hcov⟩ := h'
          have h1 := hcov.rank_le
          have h2 := (K.mem_prevCntlrs.mp hj).1
          change c.level + 1 ≤ j.level at h1
          omega
        · intro h'
          obtain ⟨-, he, -⟩ := h'
          have hlevel : c.level + 1 = c.level := congrArg CntlrId.level he
          omega
      unfold Contents.Dirty
      rw [Contents.state_congr hblock]
      exact hdirty
    · intro e he
      rw [h.evicting] at he
      exact hev e he
  · intro hsome hnone
    exact hr.present hsome (h.present.mp hnone)

/-- The loop over the previous-level caches, from what `updateCacheBlock` does to each of them. -/
theorem updateLoop_total {new : CState} {l : ℕ}
    (ih : ∀ (m : ℕ) (s : State σ) (X : Contents K.blocksize), s.Holds K X → Allowed new none →
      UpdateReady K X ⟨l, m⟩ t none →
      Total (updateCacheBlock K l m s (t * K.blocksize) new none) fun r => ∃ X', r.1.Holds K X' ∧
        Updated K X (K.forest.subtree ⟨l, m⟩) ⟨l, m⟩ t new (K.forest.Deepest (X.Dirty t) ⟨l, m⟩) X')
    {m : ℕ} {out_buf : Option (ℕ → Byte)} (h : s.Holds K X) (hnew : Allowed new none)
    (hr : UpdateReady K X ⟨l + 1, m⟩ t out_buf) :
    Total ((K.prev l m).foldlM (fun s j => do
      let (s, _) ← updateCacheBlock K l j s (t * K.blocksize) new none
      return s) s) fun s' => ∃ X', s'.Holds K X' ∧
        PrevUpdated K X ⟨l + 1, m⟩ t new (K.prevCntlrs ⟨l + 1, m⟩) X' := by
  have hlist : (K.prev l m).map (⟨l, ·⟩) = K.prevCntlrs ⟨l + 1, m⟩ := rfl
  have hlevel : ∀ j ∈ K.prevCntlrs ⟨l + 1, m⟩, j = ⟨l, j.core⟩ := by
    intro j hj
    have h1 := (K.mem_prevCntlrs.mp hj).1
    rw [← show j.level = l by simpa using h1]
  -- the invariant of the loop: the previous-level controllers done so far are updated
  have hfold := sat_foldlM (E := fun _ => False) (f := fun s (j : CntlrId) => do
      let (s, _) ← updateCacheBlock K l j.core s (t * K.blocksize) new none
      return s)
    (fun done s' => ∃ X', s'.Holds K X' ∧ PrevUpdated K X ⟨l + 1, m⟩ t new done X')
    (K.prevCntlrs ⟨l + 1, m⟩) s ⟨X, h, .nil _ new⟩ ?_
  · rw [← hlist, List.foldlM_map] at hfold
    exact hfold
  · intro done j rest s' hsplit h'
    obtain ⟨X₁, hs', hprev⟩ := h'
    have hj : j ∈ K.prevCntlrs ⟨l + 1, m⟩ := by
      rw [hsplit]
      simp
    have hdone : ∀ i ∈ done, i ∈ K.prevCntlrs ⟨l + 1, m⟩ := by
      intro i hi
      rw [hsplit]
      simp [hi]
    have hnodup := prevCntlrs_nodup K.toHierarchy ⟨l + 1, m⟩
    rw [hsplit] at hnodup
    have hjd : j ∉ done := fun hmem => (List.nodup_append.mp hnodup).2.2 j hmem j (by simp) rfl
    have hready := hr.child hprev hj hdone hjd
    rw [hlevel j hj] at hready
    apply Sat.bind (ih j.core s' X₁ hs' hnew hready)
    intro r h'
    obtain ⟨X₂, hX₂, hup⟩ := h'
    rw [← hlevel j hj] at hup
    refine ⟨X₂, hX₂, hprev.snoc hr.path hj hdone hjd ?_ hup⟩
    have h1 := (K.mem_prevCntlrs.mp hj).1
    have h2 := hr.level
    simp only at h1 h2
    omega

/-- `updateCacheBlock` takes the copies of the line in the subtree to the new state. The data of the
MODIFIED copy farthest from the cache go to the next level, or to `out_buf`. -/
theorem updateCacheBlock_total {new : CState} (hco : new = .invalid → ∀ c, K.m_coherent c = true)
    (l : ℕ) :
    ∀ (m : ℕ) (s : State σ) (X : Contents K.blocksize) (out_buf : Option (ℕ → Byte)),
      s.Holds K X → Allowed new out_buf → UpdateReady K X ⟨l, m⟩ t out_buf →
      Total (updateCacheBlock K l m s (t * K.blocksize) new out_buf) fun r =>
        ∃ X', r.1.Holds K X' ∧ Updated K X (K.forest.subtree ⟨l, m⟩) ⟨l, m⟩ t new
            (K.forest.Deepest (X.Dirty t) ⟨l, m⟩) X' ∧
          OutBuf K X t (K.forest.Deepest (X.Dirty t) ⟨l, m⟩) out_buf r.2 := by
  induction l with
  | zero =>
    intro m s X out_buf h hnew hr
    have hprev : PrevUpdated K X ⟨0, m⟩ t new (K.prevCntlrs ⟨0, m⟩) X := .nil _ new
    apply (updateOwnBlock_total (fun hn => hco hn _) h hnew hr.place hr.present).mono (fun _ => id)
    rintro r ⟨X', hX', hup, hout⟩
    exact ⟨X', hX', hprev.updated hr.path hup, hprev.outBuf hr.path hout hr.present⟩
  | succ l ih =>
    intro m s X out_buf h hnew hr
    have hnone : Allowed new none := hnew.imp id (Or.imp id fun h' => ⟨h'.1, rfl⟩)
    have hchild : ∀ (j : ℕ) (s : State σ) (X : Contents K.blocksize), s.Holds K X →
        Allowed new none → UpdateReady K X ⟨l, j⟩ t none →
        Total (updateCacheBlock K l j s (t * K.blocksize) new none) fun r => ∃ X', r.1.Holds K X' ∧
          Updated K X (K.forest.subtree ⟨l, j⟩) ⟨l, j⟩ t new
            (K.forest.Deepest (X.Dirty t) ⟨l, j⟩) X' := by
      intro j s X h hnew hr
      apply (ih j s X none h hnew hr).mono (fun _ => id)
      rintro r ⟨X', hX', hup, -⟩
      exact ⟨X', hX', hup⟩
    apply (updateLoop_total hchild h hnone hr).bind
    rintro s' ⟨X₁, hs', hprev⟩
    have hready := hr.own hprev
    apply (updateOwnBlock_total (fun hn => hco hn _) hs' hnew hready.1 hready.2).mono (fun _ => id)
    rintro r ⟨X', hX', hup, hout⟩
    exact ⟨X', hX', hprev.updated hr.path hup, hprev.outBuf hr.path hout hr.present⟩

/-- Without the line in the cache itself a buffer that waits for data is never written to. -/
theorem updateCacheBlock_lost {new : CState} (hco : new = .invalid → ∀ c, K.m_coherent c = true)
    (hnew : Allowed new none) (h : s.Holds K X) (hr : UpdateReady K X c t none)
    (hc : X.block c t = none) (buf : ℕ → Byte) :
    updateCacheBlock K c.level c.core s (t * K.blocksize) new (some buf) =
      .error .outBufNotWritten := by
  have own : ∀ (s : State σ) (X : Contents K.blocksize), s.Holds K X → X.block c t = none →
      updateOwnBlock K s c (t * K.blocksize) new (some buf) = .error .outBufNotWritten := by
    intro s X h hc
    unfold updateOwnBlock changeIfPresent
    rw [info_of_absent h hc]
    simp only [pure_bind]
    rw [require_true _ (.inl (getCacheState_of_absent h hc))]
    rfl
  obtain ⟨l, m⟩ := c
  cases l with
  | zero => exact own s X h hc
  | succ l =>
    have hloop := updateLoop_total (fun j s X h hnew hr =>
      (updateCacheBlock_total hco l j s X none h hnew hr).mono (fun _ => id) fun r hr => by
        obtain ⟨X', hX', hup, -⟩ := hr
        exact ⟨X', hX', hup⟩) h hnew hr
    obtain ⟨s', hs', X₁, hX₁, hprev⟩ := hloop.exists
    change (_ >>= _) = _
    rw [hs']
    exact own s' X₁ hX₁ (hprev.present.mpr hc)

end CacheCntlr
end Sniper
