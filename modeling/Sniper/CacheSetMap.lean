import Sniper.Library.BoundedMap
import Sniper.Library.Machine
import Sniper.CacheBlocks
import Sniper.LruOrder

namespace Sniper
open Outcome

/-- The block at the start of a buffer. -/
def Block.ofBuffer (blocksize : ℕ) (buf : ℕ → Byte) : Fin blocksize → Byte := fun i => buf i

namespace CacheSet

variable {σ : Type} {k : CacheParams σ} {S : CacheSet σ}

/-- The block of a way. -/
def block (k : CacheParams σ) (S : CacheSet σ) (w : ℕ) : Fin k.blocksize → Byte :=
  fun i => S.m_blocks (getDataPtr k w i)

/-- A copy into the block of one way leaves the blocks of the others. -/
theorem copy_block (blocks : ℕ → Byte) (buf : ℕ → Byte) (v : ℕ) {w offset n : ℕ}
    (hn : offset + n ≤ k.blocksize) (i : Fin k.blocksize) :
    Buffer.copy blocks (getDataPtr k w offset) buf 0 n (getDataPtr k v i) =
      if v = w then Block.patch (fun j : Fin k.blocksize => blocks (getDataPtr k w j))
        offset n buf i
      else blocks (getDataPtr k v i) := by
  have hmem := Cache.mem_dataPtr (v := v) (w := w) hn i.isLt
  unfold Block.patch
  by_cases hi : v = w ∧ offset ≤ i ∧ i < offset + n
  · have hptr := hmem.mpr hi
    rw [if_pos hi.1, if_pos hi.2]
    refine (Buffer.copy_in hptr.1 hptr.2).trans ?_
    rw [hi.1]
    exact congrArg buf (by omega)
  · have hout : getDataPtr k v i < getDataPtr k w offset ∨
        getDataPtr k w offset + n ≤ getDataPtr k v i := by
      by_contra hcon
      exact hi (hmem.mp (by unfold getDataPtr at hcon; omega))
    rw [Buffer.copy_out hout]
    by_cases hv : v = w
    · rw [if_pos hv, if_neg fun h => hi ⟨hv, h⟩, hv]
    · rw [if_neg hv]

theorem patch_all (buf : ℕ → Byte) (data : Fin k.blocksize → Byte) :
    Block.patch data 0 k.blocksize buf = Block.ofBuffer k.blocksize buf := by
  funext i
  unfold Block.patch
  rw [if_pos ⟨Nat.zero_le _, by omega⟩]
  rfl

/-- What `insert` does: one way, that of the replacement policy, gets the new block, and the valid
block it held is handed out. -/
structure Replaced (k : CacheParams σ) (S : CacheSet σ) (way : ℕ) (policy : σ) (b : CacheBlockInfo)
    (r : CacheSet σ × Option Evicted) : Prop where
  info : r.1.m_cache_block_info_array = Function.update S.m_cache_block_info_array way b
  other : ∀ v, v ≠ way → r.1.block k v = S.block k v
  policy : r.1.m_policy = policy
  evicted : r.2.isSome = (S.m_cache_block_info_array way).isValid
  old : ∀ v, r.2 = some v → v.info = S.m_cache_block_info_array way

/-- What `insert` does with the data, when it is stored. -/
structure Refilled (k : CacheParams σ) (S : CacheSet σ) (way : ℕ) (fill_buff : ℕ → Byte)
    (r : CacheSet σ × Option Evicted) : Prop where
  block : r.1.block k way = Block.ofBuffer k.blocksize fill_buff
  old : ∀ v, r.2 = some v → Block.ofBuffer k.blocksize v.buf = S.block k way

section insert

variable {approx : Bool} {way : Fin k.associativity} {policy : σ}
  (hget : k.policy.getReplacementIndex S.m_policy S.m_cache_block_info_array approx = (way, policy))
include hget

theorem insert_replaced (b : CacheBlockInfo) (fill_buff : Option (ℕ → Byte))
    (evict_buff : ℕ → Byte) :
    Replaced k S way policy b (S.insert k b fill_buff evict_buff approx) := by
  simp only [insert, hget]
  refine ⟨rfl, ?_, rfl, ?_, ?_⟩
  · intro v hv
    funext i
    cases fill_buff with
    | none => rfl
    | some buf =>
      by_cases hstores : k.stores = true
      · simp only [hstores, if_true]
        refine (copy_block _ _ v (by omega) i).trans ?_
        rw [if_neg hv]
        rfl
      · simp only [hstores]
        rfl
  · cases (S.m_cache_block_info_array way).isValid <;> rfl
  · intro v hv
    simp only at hv
    split at hv
    · rw [← Option.some.inj hv]
    · cases hv

theorem insert_refilled (hstores : k.stores = true) (b : CacheBlockInfo)
    (fill_buff evict_buff : ℕ → Byte) :
    Refilled k S way fill_buff (S.insert k b (some fill_buff) evict_buff approx) := by
  simp only [insert, hget, hstores, if_true]
  constructor
  · funext i
    refine (copy_block _ _ way (by omega) i).trans ?_
    rw [if_pos rfl, patch_all]
  · intro v hv
    simp only at hv
    split at hv
    · rw [← Option.some.inj hv]
      funext i
      refine (Buffer.copy_in (Nat.zero_le _) (by omega)).trans ?_
      exact congrArg S.m_blocks (by unfold getDataPtr; omega)
    · cases hv

end insert

theorem writeLine_eq (w offset : ℕ) (in_buff : Option (ℕ → Byte)) (bytes : ℕ) (u : Bool)
    (hstores : k.stores = true) :
    Sat (fun e => e = .lineOverrun ∧ ¬offset + bytes ≤ k.blocksize)
      (S.writeLine k w offset in_buff bytes u) fun S' =>
        offset + bytes ≤ k.blocksize ∧
        S'.m_cache_block_info_array = S.m_cache_block_info_array ∧
        ∀ v, S'.block k v = if v = w then
          Block.write (S.block k w) offset bytes in_buff
        else S.block k v := by
  unfold writeLine
  apply (sat_require (Q := fun _ => offset + bytes ≤ k.blocksize) id fun h => ⟨rfl, h⟩).bind
  intro _ hn
  rw [sat_pure]
  refine ⟨hn, Cache.CacheSet.touch_info _ _ _, ?_⟩
  intro v
  funext i
  unfold block
  rw [Cache.CacheSet.touch_blocks]
  cases in_buff with
  | none =>
    by_cases hv : v = w
    · rw [if_pos hv, hv]
      rfl
    · rw [if_neg hv]
  | some buf =>
    simp only [hstores, if_true]
    rw [copy_block _ _ v hn]
    split <;> rfl

theorem readLine_eq (w offset : ℕ) (out_buff : Option (ℕ → Byte)) (bytes : ℕ) (u : Bool)
    (hstores : k.stores = true) :
    Sat (fun e => e = .lineOverrun ∧ ¬offset + bytes ≤ k.blocksize)
      (S.readLine k w offset out_buff bytes u) fun r =>
        r.1.m_cache_block_info_array = S.m_cache_block_info_array ∧
        (∀ v, r.1.block k v = S.block k v) ∧
        ∀ out, out_buff = some out → ∃ buf, r.2 = some buf ∧
          ∀ i (hi : offset + i < k.blocksize), i < bytes →
            buf i = S.block k w ⟨offset + i, hi⟩ := by
  unfold readLine
  apply (sat_require (Q := fun _ => offset + bytes ≤ k.blocksize) id fun h => ⟨rfl, h⟩).bind
  intro _ hn
  rw [sat_pure]
  refine ⟨Cache.CacheSet.touch_info _ _ _, ?_, ?_⟩
  · intro v
    unfold block
    rw [Cache.CacheSet.touch_blocks]
  · intro out hout
    subst hout
    refine ⟨_, if_pos hstores, ?_⟩
    intro i hi hbytes
    refine (Buffer.copy_in (Nat.zero_le i) (by omega)).trans ?_
    exact congrArg S.m_blocks (by unfold getDataPtr; simp only [Nat.sub_zero]; omega)

theorem find_eq_some_iff (hu : UniqueTags k S.m_cache_block_info_array) {t w : ℕ} :
    S.find k t = some w ↔ w < k.associativity ∧ (S.m_cache_block_info_array w).tag = some t :=
  ⟨fun h => ⟨find_lt h, find_tag h⟩, fun h => find_eq_some hu h.1 h.2⟩

section update

variable {S' : CacheSet σ} {w : ℕ} {b : CacheBlockInfo}
  (hinfo : S'.m_cache_block_info_array = Function.update S.m_cache_block_info_array w b)
include hinfo

/-- A block whose tag no way holds may go into any way. -/
theorem UniqueTags.update (hu : UniqueTags k S.m_cache_block_info_array)
    (hb : ∀ t, b.tag = some t → S.find k t = none) : UniqueTags k S'.m_cache_block_info_array := by
  intro v hv v' hv' t ht ht'
  rw [hinfo] at ht ht'
  by_cases h : v = w <;> by_cases h' : v' = w
  · exact h.trans h'.symm
  · rw [h, Function.update_self] at ht
    rw [Function.update_of_ne h'] at ht'
    exact absurd ht' (find_eq_none.mp (hb t ht) v' hv')
  · rw [h', Function.update_self] at ht'
    rw [Function.update_of_ne h] at ht
    exact absurd ht (find_eq_none.mp (hb t ht') v hv)
  · rw [Function.update_of_ne h] at ht
    rw [Function.update_of_ne h'] at ht'
    exact hu v hv v' hv' t ht ht'

/-- Where the tags are once a way has a new block. -/
theorem find_update (hu : UniqueTags k S.m_cache_block_info_array) (hw : w < k.associativity)
    (hb : ∀ t, b.tag = some t → S.find k t = none) (t : ℕ) :
    S'.find k t = if b.tag = some t then some w
      else if (S.m_cache_block_info_array w).tag = some t then none else S.find k t := by
  have hu' := UniqueTags.update hinfo hu hb
  split
  · rename_i ht
    rw [find_eq_some_iff hu', hinfo, Function.update_self]
    exact ⟨hw, ht⟩
  · rename_i ht
    split
    · rename_i hold
      rw [find_eq_none]
      intro v hv htag
      rw [hinfo] at htag
      by_cases h : v = w
      · rw [h, Function.update_self] at htag
        exact ht htag
      · rw [Function.update_of_ne h] at htag
        exact h (hu v hv w hw t htag hold)
    · rename_i hold
      ext v
      rw [find_eq_some_iff hu', find_eq_some_iff hu, hinfo]
      by_cases h : v = w
      · rw [h, Function.update_self]
        exact ⟨fun hv => absurd hv.2 ht, fun hv => absurd hv.2 hold⟩
      · rw [Function.update_of_ne h]

end update

/-- A set has no more tags than ways. -/
theorem card_le (S : CacheSet σ) (tags : Finset ℕ)
    (htags : ∀ t ∈ tags, (S.find k t).isSome = true) : tags.card ≤ k.associativity := by
  rw [← Finset.card_range k.associativity]
  apply Finset.card_le_card_of_injOn fun t => (S.find k t).getD 0
  · intro t ht
    obtain ⟨w, hw⟩ := Option.isSome_iff_exists.mp (htags t ht)
    simp only [hw, Option.getD_some, Finset.coe_range, Set.mem_Iio]
    exact find_lt hw
  · intro t ht t' ht' he
    obtain ⟨w, hw⟩ := Option.isSome_iff_exists.mp (htags t ht)
    obtain ⟨w', hw'⟩ := Option.isSome_iff_exists.mp (htags t' ht')
    simp only [hw, hw', Option.getD_some] at he
    have htag := find_tag hw
    rw [he, find_tag hw'] at htag
    exact (Option.some.inj htag).symm

/-- The block of a tag, when a way holds it. -/
def resident (k : CacheParams σ) (S : CacheSet σ) (tag : ℕ) : Option (Fin k.blocksize → Byte) :=
  (S.find k tag).map (S.block k)

theorem resident_insert (hu : UniqueTags k S.m_cache_block_info_array) {tag : ℕ}
    (habs : S.find k tag = none) {way : ℕ} (hw : way < k.associativity) {policy : σ}
    {cstate : CState} {fill_buff : ℕ → Byte} {r : CacheSet σ × Option Evicted}
    (hr : Replaced k S way policy ⟨some tag, cstate⟩ r)
    (hd : Refilled k S way fill_buff r) (t : ℕ) :
    r.1.resident k t = if t = tag then some (Block.ofBuffer k.blocksize fill_buff)
      else if r.2.bind (fun v => v.info.tag) = some t then none else S.resident k t := by
  have hb : ∀ t, some tag = some t → S.find k t = none := by
    intro t ht
    rwa [← Option.some.inj ht]
  have hev : r.2.bind (fun v => v.info.tag) = (S.m_cache_block_info_array way).tag := by
    cases h : r.2 with
    | none =>
      have := hr.evicted
      rw [h] at this
      exact (Option.isSome_eq_false_iff.mp this.symm |> Option.isNone_iff_eq_none.mp).symm
    | some v => exact congrArg CacheBlockInfo.tag (hr.old v h)
  unfold resident
  rw [find_update hr.info hu hw hb t, hev]
  simp only [Option.some.injEq, eq_comm (a := tag)]
  by_cases ht : t = tag
  · rw [if_pos ht, if_pos ht, Option.map_some, hd.block]
  · rw [if_neg ht, if_neg ht]
    by_cases hold : (S.m_cache_block_info_array way).tag = some t
    · rw [if_pos hold, if_pos hold]
      rfl
    · rw [if_neg hold, if_neg hold]
      cases hf : S.find k t with
      | none => rfl
      | some v =>
        have hv : v ≠ way := by
          intro he
          exact hold (he ▸ find_tag hf)
        rw [Option.map_some, Option.map_some, hr.other v hv]

theorem resident_invalidate (hu : UniqueTags k S.m_cache_block_info_array) (tag t : ℕ) :
    (S.invalidate k tag).resident k t = if t = tag then none else S.resident k t := by
  unfold invalidate
  cases hf : S.find k tag with
  | none =>
    by_cases ht : t = tag
    · rw [if_pos ht, ht, resident, hf]
      rfl
    · rw [if_neg ht]
  | some w =>
    have hb : ∀ t, CacheBlockInfo.create.tag = some t → S.find k t = none := by
      intro t ht
      cases ht
    unfold resident
    rw [find_update (S := S) (w := w) (b := .create) rfl hu (find_lt hf) hb t, find_tag hf]
    simp only [CacheBlockInfo.create, reduceCtorEq, if_false, Option.some.injEq, eq_comm (a := tag)]
    split <;> rfl

end CacheSet

/-- A call on a set. Blocks are read and written in the way that `find` returns. -/
inductive SetOp where
  | insert (tag : ℕ) (cstate : CState) (fill_buff evict_buff : ℕ → Byte) (approx : Bool)
  | readLine (tag offset : ℕ) (out_buff : Option (ℕ → Byte)) (bytes : ℕ) (update_replacement : Bool)
  | writeLine (tag offset : ℕ) (in_buff : Option (ℕ → Byte)) (bytes : ℕ)
      (update_replacement : Bool)
  | invalidate (tag : ℕ)

/-- A set, and what it has been told to keep and has reported as evicted. -/
structure SetState {σ : Type} (k : CacheParams σ) where
  set : CacheSet σ
  log : List (MapEvent ℕ (Fin k.blocksize → Byte))

namespace SetState

variable {σ : Type} {k : CacheParams σ} {S : SetState k}

def init (k : CacheParams σ) (policy : σ) : SetState k where
  set := ⟨fun _ => .create, fun _ => 0, policy⟩
  log := []

def exec (S : SetState k) : SetOp → Except Abort (SetState k)
  | .insert tag cstate fill_buff evict_buff approx =>
    let (set, evicted) := S.set.insert k ⟨some tag, cstate⟩ (some fill_buff) evict_buff approx
    .ok ⟨set, S.log ++
      [.insert tag (Block.ofBuffer k.blocksize fill_buff) (evicted.bind fun v => v.info.tag)]⟩
  | .readLine tag offset out_buff bytes update_replacement =>
    match S.set.find k tag with
    | none => .ok S
    | some w => do
      let (set, _) ← S.set.readLine k w offset out_buff bytes update_replacement
      return { S with set := set }
  | .writeLine tag offset in_buff bytes update_replacement =>
    match S.set.find k tag with
    | none => .ok S
    | some w => do
      let set ← S.set.writeLine k w offset in_buff bytes update_replacement
      return ⟨set, S.log ++ [.modify tag fun data => Block.write data offset bytes in_buff]⟩
  | .invalidate tag => .ok ⟨S.set.invalidate k tag, S.log ++ [.remove tag]⟩

/-- A block is inserted when no way holds its tag. -/
def machine (k : CacheParams σ) : Machine (SetState k) SetOp Abort where
  enabled S
    | .insert tag .. => S.set.find k tag = none
    | _ => True
  exec := exec

/-- The set holds what the log says. -/
structure Holds (S : SetState k) : Prop where
  unique : CacheSet.UniqueTags k S.set.m_cache_block_info_array
  content : ∀ t, S.set.resident k t = MapEvent.content S.log t

theorem init_holds (policy : σ) : (init k policy).Holds where
  unique := by
    intro w _ w' _ t ht
    cases ht
  content t := by
    have hfind : (init k policy).set.find k t = none := by
      rw [CacheSet.find_eq_none]
      intro w _ ht
      cases ht
    unfold CacheSet.resident
    rw [hfind]
    rfl

/-- A call that leaves the tags where they are. -/
theorem Holds.of_info {set : CacheSet σ} (h : S.Holds)
    (hinfo : set.m_cache_block_info_array = S.set.m_cache_block_info_array)
    {log : List (MapEvent ℕ (Fin k.blocksize → Byte))}
    (hblock : ∀ t, (S.set.find k t).map (set.block k) = MapEvent.content log t) :
    Holds ⟨set, log⟩ where
  unique := by
    rw [hinfo]
    exact h.unique
  content t := by
    rw [← hblock, CacheSet.resident, CacheSet.find_congr (S := S.set) fun w => by rw [hinfo]]

theorem exec_holds (hstores : k.stores = true) (op : SetOp) (h : S.Holds)
    (hop : (machine k).enabled S op) : Sat (· = .lineOverrun) (S.exec op) Holds := by
  cases op with
  | insert tag cstate fill_buff evict_buff approx =>
    rcases hget : k.policy.getReplacementIndex S.set.m_policy S.set.m_cache_block_info_array approx
      with ⟨way, policy⟩
    have hr := CacheSet.insert_replaced hget ⟨some tag, cstate⟩ (some fill_buff) evict_buff
    have hd := CacheSet.insert_refilled hget hstores ⟨some tag, cstate⟩ fill_buff evict_buff
    refine Holds.mk ?_ ?_
    · apply CacheSet.UniqueTags.update hr.info h.unique
      intro t ht
      rw [← Option.some.inj ht]
      exact hop
    · intro t
      rw [MapEvent.content_append]
      refine (CacheSet.resident_insert h.unique hop way.isLt hr hd t).trans ?_
      rw [h.content]
      rfl
  | readLine tag offset out_buff bytes u =>
    cases hw : S.set.find k tag with
    | none =>
      simp only [exec, hw]
      exact h
    | some w =>
      simp only [exec, hw]
      apply ((CacheSet.readLine_eq w offset out_buff bytes u hstores).mono (fun _ => And.left)
        fun _ => id).bind
      intro r hr
      apply h.of_info hr.1
      intro t
      rw [← h.content, CacheSet.resident, funext hr.2.1]
  | writeLine tag offset in_buff bytes u =>
    cases hw : S.set.find k tag with
    | none =>
      simp only [exec, hw]
      exact h
    | some w =>
      simp only [exec, hw]
      apply ((CacheSet.writeLine_eq w offset in_buff bytes u hstores).mono (fun _ => And.left)
        fun _ => id).bind
      intro set hset
      apply h.of_info hset.2.1
      intro t
      rw [MapEvent.content_append]
      simp only [MapEvent.apply, ← h.content, CacheSet.resident]
      -- only the way of the tag is written, and no other tag is in it
      by_cases ht : t = tag
      · rw [if_pos ht, ht, hw, Option.map_some, Option.map_some, Option.map_some, hset.2.2,
          if_pos rfl]
      · rw [if_neg ht]
        cases hf : S.set.find k t with
        | none => rfl
        | some v =>
          have hv : v ≠ w := by
            intro he
            have htag := CacheSet.find_tag hf
            rw [he, CacheSet.find_tag hw] at htag
            exact ht (Option.some.inj htag).symm
          rw [Option.map_some, Option.map_some, hset.2.2, if_neg hv]
  | invalidate tag =>
    refine Holds.mk ?_ ?_
    · change CacheSet.UniqueTags k (S.set.invalidate k tag).m_cache_block_info_array
      unfold CacheSet.invalidate
      split
      · rename_i w _
        apply CacheSet.UniqueTags.update (S := S.set) (w := w) (b := .create) rfl h.unique
        intro t ht
        cases ht
      · exact h.unique
    · intro t
      rw [MapEvent.content_append]
      refine (CacheSet.resident_invalidate h.unique tag t).trans ?_
      rw [h.content]
      rfl

theorem run_holds (hstores : k.stores = true) {policy : σ} {ops : List SetOp}
    (hrun : (machine k).Run (init k policy) ops S) : S.Holds := by
  apply Machine.Run.inv (I := Holds) (E := (· = .lineOverrun)) _ hrun (init_holds policy)
  exact fun S op h hop => exec_holds hstores op h hop

theorem Holds.find_isSome_iff (h : S.Holds) (t : ℕ) : (S.set.find k t).isSome = true ↔
    ∃ value after, MapEvent.InsertedWith S.log t value after := by
  rw [← MapEvent.content_isSome, ← h.content, CacheSet.resident, Option.isSome_map]

/-- What a tag that is found was inserted with, and its block now. -/
theorem Holds.block_eq (h : S.Holds) {t w : ℕ} (hw : S.set.find k t = some w) :
    ∃ value after, MapEvent.InsertedWith S.log t value after ∧
      S.set.block k w = after.foldl (MapEvent.change t) value := by
  apply MapEvent.content_eq_some.mp
  rw [← h.content, CacheSet.resident, hw]
  rfl

theorem Holds.readLine_resident (h : S.Holds) (hstores : k.stores = true) {t w : ℕ}
    (hw : S.set.find k t = some w) {offset bytes : ℕ} (hn : offset + bytes ≤ k.blocksize)
    (out : ℕ → Byte) (u : Bool) :
    ∃ value after set buf, MapEvent.InsertedWith S.log t value after ∧
      S.set.readLine k w offset (some out) bytes u = .ok (set, some buf) ∧
      ∀ i (hi : offset + i < k.blocksize), i < bytes →
        buf i = after.foldl (MapEvent.change t) value ⟨offset + i, hi⟩ := by
  obtain ⟨value, after, hins, hblock⟩ := h.block_eq hw
  have hread := CacheSet.readLine_eq (S := S.set) w offset (some out) bytes u hstores
  cases hr : S.set.readLine k w offset (some out) bytes u with
  | error e =>
    rw [hr] at hread
    exact absurd hn hread.2
  | ok r =>
    rw [hr] at hread
    obtain ⟨buf, hbuf, hbytes⟩ := hread.2.2 out rfl
    refine ⟨value, after, r.1, buf, hins, ?_, ?_⟩
    · rw [← hbuf]
    · intro i hi hlt
      rw [hbytes i hi hlt, hblock]

end SetState

/-- What an insertion does to the map: the tag comes in, and the tag of the valid way it replaces,
if it does, is handed out with its block. -/
structure InsertsTag {σ : Type} (k : CacheParams σ) (S : CacheSet σ) (tag way : ℕ)
    (fill_buff : ℕ → Byte) (S' : CacheSet σ) (evicted : Option CacheSet.Evicted) : Prop where
  found : S'.find k tag = some way
  block : S'.resident k tag = some (Block.ofBuffer k.blocksize fill_buff)
  evicts : evicted.isSome = (S.m_cache_block_info_array way).isValid
  handed_out : ∀ v, evicted = some v → ∃ t, v.info.tag = some t ∧ t ≠ tag ∧
    S.find k t = some way ∧ S.resident k t = some (Block.ofBuffer k.blocksize v.buf) ∧
    S'.find k t = none
  others : ∀ t, t ≠ tag → S.find k t ≠ some way → S'.resident k t = S.resident k t

theorem CacheSet.insertsTag {σ : Type} {k : CacheParams σ} {S : CacheSet σ}
    (hstores : k.stores = true) (hu : UniqueTags k S.m_cache_block_info_array) {tag : ℕ}
    (habs : S.find k tag = none) (cstate : CState) (fill_buff evict_buff : ℕ → Byte)
    (approx : Bool) :
    ∃ way < k.associativity, InsertsTag k S tag way fill_buff
      (S.insert k ⟨some tag, cstate⟩ (some fill_buff) evict_buff approx).1
      (S.insert k ⟨some tag, cstate⟩ (some fill_buff) evict_buff approx).2 := by
  rcases hget : k.policy.getReplacementIndex S.m_policy S.m_cache_block_info_array approx
    with ⟨way, policy⟩
  have hr := insert_replaced hget ⟨some tag, cstate⟩ (some fill_buff) evict_buff
  have hd := insert_refilled hget hstores ⟨some tag, cstate⟩ fill_buff evict_buff
  generalize S.insert k ⟨some tag, cstate⟩ (some fill_buff) evict_buff approx = r at hr hd
  have hb : ∀ t, some tag = some t → S.find k t = none := by
    intro t ht
    rwa [← Option.some.inj ht]
  have hfind := find_update hr.info hu way.isLt hb
  have hres := resident_insert hu habs way.isLt hr hd
  refine ⟨way, way.isLt, ?_, ?_, hr.evicted, ?_, ?_⟩
  · rw [hfind, if_pos rfl]
  · rw [hres, if_pos rfl]
  · intro v hv
    have hinfo := hr.old v hv
    have hvalid : (S.m_cache_block_info_array way).tag.isSome = true := by
      change (S.m_cache_block_info_array way).isValid = true
      rw [← hr.evicted, hv]
      rfl
    obtain ⟨t, ht⟩ := Option.isSome_iff_exists.mp hvalid
    have hft : S.find k t = some way := find_eq_some hu way.isLt ht
    have hne : t ≠ tag := by
      intro he
      rw [he, habs] at hft
      cases hft
    refine ⟨t, by rw [hinfo, ht], hne, hft, ?_, ?_⟩
    · rw [resident, hft, hd.old v hv]
      rfl
    · rw [hfind, if_neg fun he => hne (Option.some.inj he).symm, if_pos ht]
  · intro t hne hnot
    rw [hres, if_neg hne]
    split
    · rename_i hev
      obtain ⟨v, hv, htag⟩ := Option.bind_eq_some_iff.mp hev
      rw [hr.old v hv] at htag
      exact absurd (find_eq_some hu way.isLt htag) hnot
    · rfl

open SetState in
/-- In every reachable state a set is a map from tags to blocks, with no more entries than ways: it
holds the tags inserted and neither evicted nor invalidated since, each with its fill data and the
writes since. -/
theorem cacheSet_bounded_map {σ : Type} (k : CacheParams σ) (hstores : k.stores = true) (policy : σ)
    (ops : List SetOp) (S : SetState k) (hrun : (machine k).Run (init k policy) ops S) :
    CacheSet.UniqueTags k S.set.m_cache_block_info_array ∧
    (∀ tags : Finset ℕ, (∀ t ∈ tags, (S.set.find k t).isSome = true) →
      tags.card ≤ k.associativity) ∧
    (∀ t, (S.set.find k t).isSome = true ↔
      ∃ value after, MapEvent.InsertedWith S.log t value after) ∧
    (∀ t w offset bytes out u, S.set.find k t = some w → offset + bytes ≤ k.blocksize →
      ∃ value after set buf, MapEvent.InsertedWith S.log t value after ∧
        S.set.readLine k w offset (some out) bytes u = .ok (set, some buf) ∧
        ∀ i (hi : offset + i < k.blocksize), i < bytes →
          buf i = after.foldl (MapEvent.change t) value ⟨offset + i, hi⟩) ∧
    ∀ tag cstate fill_buff evict_buff approx, S.set.find k tag = none →
      ∃ way < k.associativity, InsertsTag k S.set tag way fill_buff
        (S.set.insert k ⟨some tag, cstate⟩ (some fill_buff) evict_buff approx).1
        (S.set.insert k ⟨some tag, cstate⟩ (some fill_buff) evict_buff approx).2 := by
  have h := run_holds hstores hrun
  refine ⟨h.unique, S.set.card_le, h.find_isSome_iff, ?_, ?_⟩
  · intro t w offset bytes out u hw hn
    exact h.readLine_resident hstores hw hn out u
  · intro tag cstate fill_buff evict_buff approx habs
    exact CacheSet.insertsTag hstores h.unique habs cstate fill_buff evict_buff approx

namespace SetState
open CacheSetLRU2

/-- Two exact ways get three lines, the first of which is written and read in between. -/
def threeLines : List SetOp :=
  [.insert 5 .invalid (fun _ => 1) (fun _ => 0) false, .writeLine 5 1 (some fun _ => 2) 2 true,
    .insert 6 .invalid (fun _ => 3) (fun _ => 0) false, .readLine 5 0 (some fun _ => 0) 4 true,
    .insert 7 .invalid (fun _ => 4) (fun _ => 0) false]

theorem threeLines_run : ∃ S, (machine (lru2 fourWays fourWays_two)).Run
    (init _ (CacheSetLRU2.create 4)) threeLines S ∧
    S.set.find (lru2 fourWays fourWays_two) 5 = some 0 :=
  ⟨_, .cons rfl rfl (.cons trivial rfl (.cons rfl rfl (.cons trivial rfl
    (.cons rfl rfl (.nil _))))), rfl⟩

end SetState

open SetState CacheSetLRU2 in
theorem cacheSet_bounded_map_threeLines : ∃ S, (machine (lru2 fourWays fourWays_two)).Run
    (init _ (CacheSetLRU2.create 4)) threeLines S ∧
    ∃ value after set buf, MapEvent.InsertedWith S.log 5 value after ∧
      S.set.readLine (lru2 fourWays fourWays_two) 0 1 (some fun _ => 0) 3 false =
        .ok (set, some buf) ∧
      ∀ i (hi : 1 + i < fourWays.blocksize), i < 3 →
        buf i = after.foldl (MapEvent.change 5) value ⟨1 + i, hi⟩ := by
  obtain ⟨S, hrun, hfind⟩ := threeLines_run
  refine ⟨S, hrun, ?_⟩
  exact (cacheSet_bounded_map _ rfl _ threeLines S hrun).2.2.2.1 5 0 1 3 _ false hfind (by decide)

end Sniper
