import Sniper.Library.RecencyList
import Sniper.WayPartition

namespace Sniper
open Outcome CacheSetLRU2 RecencyList

/-- What a cache does with a line: an access, which inserts the line when the set does not have it,
or an invalidation; and the changes of the registered addresses in between. -/
inductive LineOp where
  | read (tag offset : ℕ) (out_buff : Option (ℕ → Byte)) (bytes : ℕ) (fill : CState)
  | write (tag offset : ℕ) (in_buff : Option (ℕ → Byte)) (bytes : ℕ) (fill : CState)
  | invalidate (tag : ℕ)
  | addApprox (address set_number : ℕ)
  | delApprox (address : ℕ)

namespace LineOp

/-- A call on the way of a line, or the insertion of the line. -/
def onWay (tag : ℕ) (fill : CState) (hit : ℕ → WayOp) : Option ℕ → WayOp
  | some w => hit w
  | none => .insert tag fill none fun _ => 0

/-- The call on the set that the operation ends in. -/
def call (g : Geometry) (h : 2 ≤ g.associativity) (S : WayState) : LineOp → WayOp
  | read tag offset out_buff bytes fill =>
    onWay tag fill (.readLine · offset out_buff bytes) (S.set.find (lru2 g h) tag)
  | write tag offset in_buff bytes fill =>
    onWay tag fill (.writeLine · offset in_buff bytes) (S.set.find (lru2 g h) tag)
  | invalidate tag => .invalidate tag
  | addApprox address set_number => .addApprox address set_number
  | delApprox address => .delApprox address

/-- No line comes in that is in the middle of an upgrade. -/
def Settled : LineOp → Prop
  | read _ _ _ _ fill | write _ _ _ _ fill => fill ≠ .sharedUpgrading
  | _ => True

/-- The tag an access is for. -/
def accessed : LineOp → Option ℕ
  | read tag .. | write tag .. => some tag
  | _ => none

def machine (g : Geometry) (h : 2 ≤ g.associativity) : Machine WayState LineOp Abort where
  enabled _ := Settled
  exec S op := S.exec g h (op.call g h S)

end LineOp

/-- The ways of a partition from the one used last on, as their recency bits have them, and the tags
of those that hold a line. -/
def CacheSet.recencyOrder (S : CacheSet LruBits) (associativity : ℕ) (approx : Bool) : List ℕ :=
  ((ways associativity approx).insertionSort fun v w =>
    (S.m_policy v).toNat ≤ (S.m_policy w).toNat).filterMap fun w =>
      (S.m_cache_block_info_array w).tag

/-- The number of ways of a partition. -/
def room (associativity : ℕ) (approx : Bool) : ℕ :=
  last associativity approx - first associativity approx

/-- What the set is for: two lists of lines, those used last first, with limited room for each. -/
structure RecencySet where
  lists : Bool → List ℕ
  magic : MagicServer

namespace RecencySet

def init (magic : MagicServer) : RecencySet := ⟨fun _ => [], magic⟩

variable (g : Geometry) (R : RecencySet)

/-- A new line goes to the side of its address, one that is there stays on its side. -/
def side (tag : ℕ) : Bool :=
  if tag ∈ R.lists false then false
  else if tag ∈ R.lists true then true
  else R.magic.isBlockApprox (WayState.lineAddress g.blocksize tag) g.blocksize

def access (tag : ℕ) : RecencySet :=
  let approx := R.side g tag
  { R with
    lists :=
      Function.update R.lists approx (use (room g.associativity approx) (R.lists approx) tag) }

def step : LineOp → RecencySet
  | .read tag .. | .write tag .. => R.access g tag
  | .invalidate tag => { R with lists := fun approx => (R.lists approx).erase tag }
  | .addApprox address set_number => { R with magic := (R.magic.addApprox address set_number).1 }
  | .delApprox address => { R with magic := (R.magic.delApprox address).1 }

end RecencySet

namespace CacheSetLRU2

variable {associativity w t : ℕ} {approx : Bool} {σ l : List ℕ} {S S' : CacheSet LruBits}

/-- The tag of the line in a way. -/
abbrev wayTag (S : CacheSet LruBits) (w : ℕ) : Option ℕ := (S.m_cache_block_info_array w).tag

/-- `σ` is the ways of the partition in the order of their recency bits, `l` the tags in them. -/
structure Listed (associativity : ℕ) (S : CacheSet LruBits) (approx : Bool) (σ l : List ℕ) :
    Prop where
  mem : ∀ w, w ∈ σ ↔ w ∈ ways associativity approx
  ascending : Ascending σ fun w => (S.m_policy w).toNat
  tags : σ.filterMap (wayTag S) = l

theorem Listed.length (h : Listed associativity S approx σ l) :
    σ.length = room associativity approx := by
  have hperm : σ.Perm (ways associativity approx) :=
    (List.perm_ext_iff_of_nodup h.ascending.nodup ways_nodup).mpr h.mem
  rw [hperm.length_eq, ways, List.length_range', room]

theorem Listed.length_le (h : Listed associativity S approx σ l) :
    l.length ≤ room associativity approx := by
  rw [← h.tags, ← h.length]
  exact List.length_filterMap_le _ _

theorem Listed.mem_tags (h : Listed associativity S approx σ l) :
    t ∈ l ↔ ∃ w ∈ ways associativity approx, wayTag S w = some t := by
  rw [← h.tags, List.mem_filterMap]
  simp only [h.mem]

/-- The lists are determined by the set. -/
theorem Listed.recencyOrder (h : Listed associativity S approx σ l) :
    S.recencyOrder associativity approx = l := by
  have hsorted : ((ways associativity approx).insertionSort fun v w =>
      (S.m_policy v).toNat ≤ (S.m_policy w).toNat) = σ := by
    have : Std.Total fun v w => (S.m_policy v).toNat ≤ (S.m_policy w).toNat :=
      ⟨fun v w => Nat.le_total _ _⟩
    have : IsTrans ℕ fun v w => (S.m_policy v).toNat ≤ (S.m_policy w).toNat :=
      ⟨fun _ _ _ => Nat.le_trans⟩
    have hperm := (List.perm_ext_iff_of_nodup ways_nodup h.ascending.nodup).mpr fun w =>
      (h.mem w).symm
    refine ((List.perm_insertionSort _ _).trans hperm).eq_of_pairwise ?_
      (List.pairwise_insertionSort _ _) (h.ascending.imp fun hlt => hlt.le)
    intro v w hv hw hvw hwv
    by_contra hne
    have hv' : v ∈ σ := (h.mem v).mpr ((List.mem_insertionSort _).mp hv)
    exact h.ascending.ne hv' hw hne (Nat.le_antisymm hvw hwv)
  rw [CacheSet.recencyOrder, hsorted]
  exact h.tags

/-- An access of a way of the partition, which may get another line. -/
theorem Listed.touch (h : Listed associativity S approx σ l) (hw : w ∈ ways associativity approx)
    (hpolicy : S'.m_policy = updateReplacementIndex associativity S.m_policy w) :
    Listed associativity S' approx (front w σ) ((front w σ).filterMap (wayTag S')) := by
  refine ⟨?_, ?_, rfl⟩
  · intro v
    rw [mem_front, h.mem]
    constructor
    · intro hv
      rcases hv with hv | hv
      · exact hv ▸ hw
      · exact hv
    · exact .inr
  · apply (h.ascending.touch ((h.mem w).mpr hw)).imp_of_mem
    intro i j hi hj hlt
    have hmem : ∀ v ∈ front w σ, v ∈ ways associativity approx := by
      intro v hv
      rcases mem_front.mp hv with hv | hv
      · exact hv ▸ hw
      · exact (h.mem v).mp hv
    dsimp only
    rw [hpolicy, updateReplacementIndex_ranks hw, updateReplacementIndex_ranks hw,
      if_pos (hmem i hi), if_pos (hmem j hj)]
    exact hlt

/-- An access of a way on the other side. -/
theorem Listed.touch_other {approx' : Bool} (h : Listed associativity S approx σ l)
    (hw : w ∈ ways associativity approx') (hne : approx ≠ approx')
    (hpolicy : S'.m_policy = updateReplacementIndex associativity S.m_policy w)
    (hinfo : ∀ v, v ≠ w → wayTag S' v = wayTag S v) : Listed associativity S' approx σ l := by
  have hnot : ∀ v ∈ σ, v ∉ ways associativity approx' := by
    intro v hv hv'
    have h1 := ways_of_mem ((h.mem v).mp hv)
    rw [ways_of_mem hv'] at h1
    exact hne h1.symm
  refine ⟨h.mem, ?_, ?_⟩
  · apply h.ascending.imp_of_mem
    intro i j hi hj hlt
    dsimp only
    rwa [hpolicy, updateReplacementIndex_ranks hw, updateReplacementIndex_ranks hw,
      if_neg (hnot i hi), if_neg (hnot j hj)]
  · rw [← h.tags]
    apply List.filterMap_congr
    intro v hv
    apply hinfo
    intro he
    exact hnot v hv (he ▸ hw)

/-- No replaceable way of a partition without free ways has a higher rank than the victim. -/
theorem victim_max {bits : LruBits} {info : ℕ → CacheBlockInfo}
    (hvalid : ∀ i ∈ ways associativity approx, (info i).isValid = true)
    (hstate : ∀ i ∈ ways associativity approx, (info i).cstate ≠ .sharedUpgrading) {i : ℕ}
    (hi : i ∈ ways associativity approx) :
    (bits i).toNat ≤ (bits (victim associativity bits info approx)).toNat := by
  have hrepl : ∀ j ∈ ways associativity approx, isValidReplacement info j = true := by
    intro j hj
    simpa [isValidReplacement] using hstate j hj
  rcases victim_of_valid bits hvalid with ⟨-, hzero⟩ | ⟨-, -, hmax⟩
  · rw [hzero i hi (hrepl i hi)]
    exact Nat.zero_le _
  · exact UInt8.le_iff_toNat_le.mp (hmax i hi (hrepl i hi))

/-- The line that comes in takes a free way, or the place of the one used longest ago. -/
theorem Listed.fill (h : Listed associativity S approx σ l) (h2 : 2 ≤ associativity)
    (hstate : ∀ i ∈ ways associativity approx,
      (S.m_cache_block_info_array i).cstate ≠ .sharedUpgrading) (ht : t ∉ l)
    (hw : w = victim associativity S.m_policy S.m_cache_block_info_array approx)
    (htag : wayTag S' = Function.update (wayTag S) w (some t)) :
    (front w σ).filterMap (wayTag S') = use (room associativity approx) l t := by
  have hmem : w ∈ ways associativity approx := hw ▸ victim_mem h2
  have hlen := h.length
  rw [htag, filterMap_front h.ascending.nodup, use_of_notMem ht, ← h.tags]
  by_cases hvalid : ∀ i ∈ ways associativity approx,
      (S.m_cache_block_info_array i).isValid = true
  -- all ways hold lines: the last of the list makes room
  · have hmax : ∀ i ∈ σ, (S.m_policy i).toNat ≤ (S.m_policy w).toNat := by
      intro i hi
      rw [hw]
      exact victim_max hvalid hstate ((h.mem i).mp hi)
    have hσ := h.ascending.eq_concat ((h.mem w).mpr hmem) hmax
    obtain ⟨u, hu⟩ : ∃ u, wayTag S w = some u := Option.isSome_iff_exists.mp (hvalid w hmem)
    have hsome : ∀ i ∈ σ.erase w, (wayTag S i).isSome = true :=
      fun i hi => hvalid i ((h.mem i).mp (List.mem_of_mem_erase hi))
    have hroom : room associativity approx = ((σ.erase w).filterMap (wayTag S)).length + 1 := by
      rw [length_filterMap_eq hsome, ← hlen, ← List.length_erase_add_one ((h.mem w).mpr hmem)]
    have hl : σ.filterMap (wayTag S) = (σ.erase w).filterMap (wayTag S) ++ [u] := by
      conv_lhs => rw [hσ]
      rw [List.filterMap_append, List.filterMap_cons_some (f := wayTag S) hu, List.filterMap_nil]
    rw [hl, hroom, List.take_succ_cons, List.take_left']
    rfl
  · have hnone : wayTag S w = none := by
      have hfree : (wayTag S w).isSome = false := hw ▸ victim_of_invalid hvalid
      simpa using hfree
    have hlt := length_filterMap_lt ((h.mem w).mpr hmem) hnone
    rw [filterMap_erase_of_none hnone, List.take_of_length_le]
    rw [List.length_cons]
    omega

end CacheSetLRU2

namespace WayState

/-- The lists are what the set holds, and the registry is that of the set. -/
structure Follows (g : Geometry) (h : 2 ≤ g.associativity) (S : WayState)
    (R : RecencySet) : Prop where
  unique : CacheSet.UniqueTags (lru2 g h) S.set.m_cache_block_info_array
  settled : ∀ w < g.associativity, (S.set.m_cache_block_info_array w).cstate ≠ .sharedUpgrading
  listed : ∀ approx, ∃ σ, Listed g.associativity S.set approx σ (R.lists approx)
  magic : S.magic = R.magic

variable {g : Geometry} {h : 2 ≤ g.associativity} {S : WayState} {R : RecencySet} {tag w : ℕ}

theorem Follows.mem_lists (hF : S.Follows g h R) {approx : Bool} : tag ∈ R.lists approx ↔
    ∃ w ∈ ways g.associativity approx, S.set.find (lru2 g h) tag = some w := by
  obtain ⟨σ, hσ⟩ := hF.listed approx
  rw [hσ.mem_tags]
  apply exists_congr
  intro w
  apply and_congr_right
  intro hw
  have hlt : w < g.associativity := (mem_ways.mp hw).2.trans_le (last_le h approx)
  rw [CacheSet.find_eq_some_iff hF.unique]
  exact ⟨fun ht => ⟨hlt, ht⟩, fun ht => ht.2⟩

theorem Follows.find_isSome_iff (hF : S.Follows g h R) :
    (S.set.find (lru2 g h) tag).isSome = true ↔ ∃ approx, tag ∈ R.lists approx := by
  constructor
  · intro hsome
    obtain ⟨w, hw⟩ := Option.isSome_iff_exists.mp hsome
    exact ⟨_, hF.mem_lists.mpr ⟨w, mem_ways_of_lt (CacheSet.find_lt hw), hw⟩⟩
  · intro hmem
    obtain ⟨approx, hmem⟩ := hmem
    obtain ⟨w, -, hw⟩ := hF.mem_lists.mp hmem
    rw [hw]
    rfl

/-- A tag is in the list of the side that its way is on, and in no other. -/
theorem Follows.mem_of_find (hF : S.Follows g h R) (hw : S.set.find (lru2 g h) tag = some w)
    {approx : Bool} : tag ∈ R.lists approx ↔ w ∈ ways g.associativity approx := by
  rw [hF.mem_lists]
  constructor
  · intro h'
    obtain ⟨v, hv, hfind⟩ := h'
    rw [hw] at hfind
    rwa [Option.some.inj hfind]
  · exact fun hmem => ⟨w, hmem, hw⟩

theorem Follows.mem_side (hF : S.Follows g h R) (hw : S.set.find (lru2 g h) tag = some w) :
    w ∈ ways g.associativity (R.side g tag) := by
  have hside := mem_ways_of_lt (CacheSet.find_lt hw)
  have hin : tag ∈ R.lists (!decide (w < approx_margin g.associativity)) :=
    (hF.mem_of_find hw).mpr hside
  unfold RecencySet.side
  split
  · rename_i hexact
    exact (hF.mem_of_find hw).mp hexact
  · split
    · rename_i happrox
      exact (hF.mem_of_find hw).mp happrox
    · rename_i hexact happrox
      cases hb : !decide (w < approx_margin g.associativity)
      · exact absurd (hb ▸ hin) hexact
      · exact absurd (hb ▸ hin) happrox

theorem Follows.notMem (hF : S.Follows g h R) (hw : S.set.find (lru2 g h) tag = none)
    (approx : Bool) : tag ∉ R.lists approx := by
  intro hmem
  have hsome := hF.find_isSome_iff.mpr ⟨approx, hmem⟩
  rw [hw] at hsome
  cases hsome

theorem Follows.side_of_none (hF : S.Follows g h R) (hw : S.set.find (lru2 g h) tag = none) :
    R.side g tag = S.approxFlag g tag := by
  unfold RecencySet.side approxFlag
  rw [if_neg (hF.notMem hw false), if_neg (hF.notMem hw true), hF.magic]

/-- A change on one side: the other list stays as it is. -/
theorem Follows.access (hF : S.Follows g h R) {set : CacheSet LruBits} {origin : ℕ → Bool}
    (hw : w ∈ ways g.associativity (R.side g tag))
    (hpolicy : set.m_policy = updateReplacementIndex g.associativity S.set.m_policy w)
    (hunique : CacheSet.UniqueTags (lru2 g h) set.m_cache_block_info_array)
    (hsettled : ∀ v < g.associativity, (set.m_cache_block_info_array v).cstate ≠ .sharedUpgrading)
    (hinfo : ∀ v, v ≠ w → wayTag set v = wayTag S.set v)
    (hlist : ∀ σ, Listed g.associativity S.set (R.side g tag) σ (R.lists (R.side g tag)) →
      (front w σ).filterMap (wayTag set) =
        use (room g.associativity (R.side g tag)) (R.lists (R.side g tag)) tag) :
    Follows g h ⟨set, S.magic, origin⟩ (R.access g tag) := by
  refine ⟨hunique, hsettled, ?_, hF.magic⟩
  intro approx
  obtain ⟨σ, hσ⟩ := hF.listed approx
  unfold RecencySet.access
  dsimp only
  by_cases hside : approx = R.side g tag
  · subst hside
    rw [Function.update_self, ← hlist σ hσ]
    exact ⟨_, hσ.touch hw hpolicy⟩
  · rw [Function.update_of_ne hside]
    exact ⟨σ, hσ.touch_other hw hside hpolicy hinfo⟩

/-- An access of a line that is there. -/
theorem Follows.hit (hF : S.Follows g h R) (hw : S.set.find (lru2 g h) tag = some w)
    {set : CacheSet LruBits}
    (hpolicy : set.m_policy = updateReplacementIndex g.associativity S.set.m_policy w)
    (hinfo : set.m_cache_block_info_array = S.set.m_cache_block_info_array) :
    Follows g h { S with set := set } (R.access g tag) := by
  have htag : wayTag set = wayTag S.set := by
    unfold wayTag
    rw [hinfo]
  refine hF.access (hF.mem_side hw) hpolicy (hinfo ▸ hF.unique) (hinfo ▸ hF.settled)
    (fun v _ => congrFun htag v) ?_
  intro σ hσ
  have hmem := (hσ.mem w).mpr (hF.mem_side hw)
  have hwtag : wayTag S.set w = some tag := CacheSet.find_tag hw
  have hunique : Unique σ (wayTag S.set) := by
    intro i hi j hj
    have hlt : ∀ v ∈ σ, v < g.associativity := fun v hv =>
      (mem_ways.mp ((hσ.mem v).mp hv)).2.trans_le (last_le h _)
    exact hF.unique i (hlt i hi) j (hlt j hj)
  rw [htag, front, List.filterMap_cons_some hwtag, filterMap_erase hunique hmem hwtag, hσ.tags]
  exact (use_of_mem ((hF.mem_of_find hw).mpr (hF.mem_side hw)) hσ.length_le).symm

/-- An access of a line that has to be brought in. -/
theorem Follows.miss (hF : S.Follows g h R) (hw : S.set.find (lru2 g h) tag = none) {fill : CState}
    (hfill : fill ≠ .sharedUpgrading) :
    Sat (fun _ => True) (S.exec g h (.insert tag fill none fun _ => 0))
      (Follows g h · (R.access g tag)) := by
  have hr := insert_replaced (S := S) (h := h) tag fill none fun _ => 0
  have hside := hF.side_of_none hw
  have hnew : ∀ t, (⟨some tag, fill⟩ : CacheBlockInfo).tag = some t →
      S.set.find (lru2 g h) t = none := by
    intro t ht
    rwa [← Option.some.inj ht]
  have hwtag : wayTag (S.insert g h tag fill none fun _ => 0).1 =
      Function.update (wayTag S.set) (S.wayFor g h tag) (some tag) := by
    funext v
    unfold wayTag
    rw [hr.info]
    by_cases hv : v = S.wayFor g h tag
    · rw [hv, Function.update_self, Function.update_self]
    · rw [Function.update_of_ne hv, Function.update_of_ne hv]
  refine hF.access (w := S.wayFor g h tag) (hside ▸ wayFor_mem tag) hr.policy
    (CacheSet.UniqueTags.update hr.info hF.unique hnew) ?_ ?_ ?_
  · intro v hv
    rw [hr.info]
    by_cases hvw : v = S.wayFor g h tag
    · rw [hvw, Function.update_self]
      exact hfill
    · rw [Function.update_of_ne hvw]
      exact hF.settled v hv
  · intro v hv
    rw [hwtag, Function.update_of_ne hv]
  · intro σ hσ
    refine hσ.fill h ?_ (hF.notMem hw _) ?_ hwtag
    · intro i hi
      exact hF.settled i ((mem_ways.mp hi).2.trans_le (last_le h _))
    · rw [hside]
      rfl

/-- A line that leaves the set. -/
theorem Follows.invalidate (hF : S.Follows g h R) (tag : ℕ) :
    Follows g h { S with set := S.set.invalidate (lru2 g h) tag }
      { R with lists := fun approx => (R.lists approx).erase tag } := by
  cases hw : S.set.find (lru2 g h) tag with
  | none =>
    have hset : S.set.invalidate (lru2 g h) tag = S.set := by
      unfold CacheSet.invalidate
      rw [hw]
    have hlists : (fun approx => (R.lists approx).erase tag) = R.lists :=
      funext fun approx => List.erase_of_not_mem (hF.notMem hw approx)
    rw [hset, hlists]
    exact hF
  | some w =>
    have hset : S.set.invalidate (lru2 g h) tag = S.set.setInfo w .create := by
      unfold CacheSet.invalidate
      rw [hw]
    have hwtag : wayTag (S.set.setInfo w .create) = Function.update (wayTag S.set) w none := by
      funext v
      change (Function.update S.set.m_cache_block_info_array w .create v).tag = _
      by_cases hv : v = w
      · rw [hv, Function.update_self, Function.update_self]
        rfl
      · rw [Function.update_of_ne hv, Function.update_of_ne hv]
    have htag : wayTag S.set w = some tag := CacheSet.find_tag hw
    rw [hset]
    refine ⟨CacheSet.UniqueTags.update (S := S.set) (w := w) (b := .create) rfl hF.unique ?_,
      ?_, ?_, hF.magic⟩
    · intro t ht
      cases ht
    · intro v hv
      change (Function.update S.set.m_cache_block_info_array w .create v).cstate ≠ _
      by_cases hvw : v = w
      · rw [hvw, Function.update_self]
        decide
      · rw [Function.update_of_ne hvw]
        exact hF.settled v hv
    · intro approx
      obtain ⟨σ, hσ⟩ := hF.listed approx
      refine ⟨σ, hσ.mem, hσ.ascending, ?_⟩
      dsimp only
      rw [hwtag, filterMap_update_none hσ.ascending.nodup, ← hσ.tags]
      by_cases hmem : w ∈ σ
      · apply filterMap_erase _ hmem htag
        intro i hi j hj
        have hlt : ∀ v ∈ σ, v < g.associativity := fun v hv =>
          (mem_ways.mp ((hσ.mem v).mp hv)).2.trans_le (last_le h _)
        exact hF.unique i (hlt i hi) j (hlt j hj)
      · have hnot : tag ∉ R.lists approx := fun ht =>
          hmem ((hσ.mem w).mpr ((hF.mem_of_find hw).mp ht))
        rw [List.erase_of_not_mem hmem, List.erase_of_not_mem]
        rwa [hσ.tags]

theorem readLine_touch (w offset : ℕ) (out_buff : Option (ℕ → Byte)) (bytes : ℕ) :
    Sat (fun _ => True) (S.set.readLine (lru2 g h) w offset out_buff bytes true) fun r =>
      r.1.m_policy = updateReplacementIndex g.associativity S.set.m_policy w ∧
        r.1.m_cache_block_info_array = S.set.m_cache_block_info_array := by
  unfold CacheSet.readLine
  apply (sat_require (Q := fun _ => True) (fun _ => trivial) fun _ => trivial).bind
  intro _ _
  exact ⟨rfl, Cache.CacheSet.touch_info _ _ _⟩

theorem writeLine_touch (w offset : ℕ) (in_buff : Option (ℕ → Byte)) (bytes : ℕ) :
    Sat (fun _ => True) (S.set.writeLine (lru2 g h) w offset in_buff bytes true) fun set =>
      set.m_policy = updateReplacementIndex g.associativity S.set.m_policy w ∧
        set.m_cache_block_info_array = S.set.m_cache_block_info_array := by
  unfold CacheSet.writeLine
  apply (sat_require (Q := fun _ => True) (fun _ => trivial) fun _ => trivial).bind
  intro _ _
  exact ⟨rfl, Cache.CacheSet.touch_info _ _ _⟩

/-- Every operation does to the lists what it does to the set. -/
theorem exec_follows (op : LineOp) (hop : op.Settled) (hF : S.Follows g h R) :
    Sat (fun _ => True) (S.exec g h (op.call g h S)) (Follows g h · (R.step g op)) := by
  cases op with
  | read tag offset out_buff bytes fill =>
    cases hw : S.set.find (lru2 g h) tag with
    | none =>
      rw [LineOp.call, hw]
      exact hF.miss hw hop
    | some w =>
      rw [LineOp.call, hw]
      apply (readLine_touch w offset out_buff bytes).bind
      intro r hr
      exact hF.hit hw hr.1 hr.2
  | write tag offset in_buff bytes fill =>
    cases hw : S.set.find (lru2 g h) tag with
    | none =>
      rw [LineOp.call, hw]
      exact hF.miss hw hop
    | some w =>
      rw [LineOp.call, hw]
      apply (writeLine_touch w offset in_buff bytes).bind
      intro set hset
      exact hF.hit hw hset.1 hset.2
  | invalidate tag => exact hF.invalidate tag
  | addApprox address set_number =>
    refine ⟨hF.unique, hF.settled, hF.listed, ?_⟩
    rw [hF.magic]
    rfl
  | delApprox address =>
    refine ⟨hF.unique, hF.settled, hF.listed, ?_⟩
    rw [hF.magic]
    rfl

/-- An empty set, with any registered addresses. -/
def empty (associativity : ℕ) (magic : MagicServer) : WayState :=
  { WayState.init associativity with magic := magic }

theorem empty_follows (h256 : g.associativity ≤ 256) (magic : MagicServer) :
    (empty g.associativity magic).Follows g h (.init magic) := by
  refine ⟨?_, ?_, ?_, rfl⟩
  · intro w _ w' _ t ht
    cases ht
  · intro w _
    exact CState.noConfusion
  · intro approx
    refine ⟨ways g.associativity approx, fun w => Iff.rfl, ?_, ?_⟩
    · have hways : (ways g.associativity approx).Pairwise (· < ·) := List.pairwise_lt_range'
      apply hways.imp_of_mem
      intro i j hi hj hlt
      apply ((create_ordered h256 h approx).order i (mem_part.mpr hi) j (mem_part.mpr hj)).mpr
      change -(j : ℤ) < -(i : ℤ)
      omega
    · exact List.filterMap_eq_nil_iff.mpr fun w _ => rfl

theorem run_follows (h256 : g.associativity ≤ 256) {magic : MagicServer} {ops : List LineOp}
    (hrun : (LineOp.machine g h).Run (empty g.associativity magic) ops S) :
    S.Follows g h (ops.foldl (RecencySet.step g) (.init magic)) := by
  apply hrun.simulate (R := Follows g h) (RecencySet.step g) _ (empty_follows h256 magic)
  intro S R op S' hF hop hx
  exact (exec_follows op hop hF).of_ok hx

end WayState

open WayState in
/-- A set with the LRU2 policy is two bounded lists of lines, whatever is read, written,
invalidated, registered and taken off the registry: its recency bits have each side in the order of
the last uses, and a line is found exactly when it is in one of the lists. -/
theorem lru2_refines_recency_lists (g : Geometry) (h : 2 ≤ g.associativity)
    (h256 : g.associativity ≤ 256) (magic : MagicServer) (ops : List LineOp) (S : WayState)
    (hrun : (LineOp.machine g h).Run (empty g.associativity magic) ops S) :
    (∀ approx, S.set.recencyOrder g.associativity approx =
      (ops.foldl (RecencySet.step g) (.init magic)).lists approx) ∧
    ∀ tag, (S.set.find (lru2 g h) tag).isSome = true ↔
      ∃ approx, tag ∈ (ops.foldl (RecencySet.step g) (.init magic)).lists approx := by
  have hF := run_follows h256 hrun
  constructor
  · intro approx
    obtain ⟨σ, hσ⟩ := hF.listed approx
    exact hσ.recencyOrder
  · exact fun tag => hF.find_isSome_iff

namespace LineOp

/-- Three lines for the two exact ways, the first of which is used again in between. -/
def threeLines : List LineOp :=
  [.read 1 0 none 4 .shared, .write 2 0 none 4 .modified, .read 1 0 none 4 .shared,
    .read 3 0 none 4 .shared]

theorem threeLines_accessed : ∀ op ∈ threeLines, op.accessed.isSome = true := by decide

theorem threeLines_settled : ∀ op ∈ threeLines, op.Settled := by
  intro op hop
  simp only [threeLines, List.mem_cons, List.not_mem_nil, or_false] at hop
  rcases hop with rfl | rfl | rfl | rfl
  all_goals exact CState.noConfusion

theorem threeLines_run {g : Geometry} {h : 2 ≤ g.associativity} (hrun : (threeLines.foldlM
    (machine g h).exec (WayState.empty g.associativity .init)).toOption.isSome = true) :
    ∃ S, (machine g h).Run (WayState.empty g.associativity .init) threeLines S := by
  obtain ⟨S, hS⟩ := Option.isSome_iff_exists.mp hrun
  refine ⟨S, .of_foldlM threeLines ?_ _ (toOption_eq_some.mp hS)⟩
  intro done op rest _ hops _
  exact threeLines_settled op (by simp [hops])

end LineOp

open LineOp in
theorem lru2_refines_recency_lists_threeLines : ∃ S,
    (LineOp.machine fourWays fourWays_two).Run (WayState.empty 4 .init) threeLines S ∧
      S.set.recencyOrder 4 false = [3, 1] := by
  obtain ⟨S, hrun⟩ := threeLines_run (g := fourWays) (h := fourWays_two) rfl
  exact ⟨S, hrun, (lru2_refines_recency_lists fourWays fourWays_two (by decide) .init threeLines S
    hrun).1 false⟩

namespace RecencySet

variable {g : Geometry} {magic : MagicServer} {ops : List LineOp}

/-- The side that the registry puts a line on. -/
def flag (g : Geometry) (magic : MagicServer) (tag : ℕ) : Bool :=
  magic.isBlockApprox (WayState.lineAddress g.blocksize tag) g.blocksize

/-- The accesses of the lines on one side. -/
def uses (g : Geometry) (magic : MagicServer) (ops : List LineOp) (approx : Bool) : List ℕ :=
  (ops.filterMap LineOp.accessed).filter fun tag => flag g magic tag = approx

theorem uses_concat (op : LineOp) (approx : Bool) : uses g magic (ops ++ [op]) approx =
    uses g magic ops approx ++ (op.accessed.toList.filter fun tag =>
      flag g magic tag = approx) := by
  unfold uses
  rw [List.filterMap_append, List.filter_append]
  cases hop : op.accessed with
  | none => rw [List.filterMap_cons_none hop, List.filterMap_nil, Option.toList_none]
  | some tag => rw [List.filterMap_cons_some hop, List.filterMap_nil, Option.toList_some]

/-- With a registry that stays as it is, each side is the list of the last uses of its own lines. -/
theorem foldl_access : (∀ op ∈ ops, op.accessed.isSome = true) →
    ops.foldl (step g) (init magic) =
      ⟨fun approx => after (room g.associativity approx) (uses g magic ops approx), magic⟩ := by
  induction ops using List.reverseRecOn with
  | nil => exact fun _ => rfl
  | append_singleton ops op ih =>
    intro hops
    rw [List.foldl_concat, ih fun op' h => hops op' (List.mem_append_left _ h)]
    obtain ⟨tag, htag⟩ := Option.isSome_iff_exists.mp (hops op (by simp))
    have hstep : ∀ R : RecencySet, R.step g op = R.access g tag := by
      intro R
      cases op with
      | read _ | write _ =>
        cases htag
        rfl
      | invalidate _ | addApprox _ _ | delApprox _ => cases htag
    rw [hstep]
    generalize hR : (⟨fun approx => after (room g.associativity approx) (uses g magic ops approx),
      magic⟩ : RecencySet) = R
    have hlists : ∀ approx, R.lists approx =
        after (room g.associativity approx) (uses g magic ops approx) := fun _ => hR ▸ rfl
    have hmem : ∀ approx, tag ∈ R.lists approx → flag g magic tag = approx := by
      intro approx ht
      rw [hlists] at ht
      simpa using (List.mem_filter.mp (mem_of_mem_after ht)).2
    have hside : R.side g tag = flag g magic tag := by
      unfold side
      split
      · rename_i ht
        exact (hmem false ht).symm
      · split
        · rename_i ht
          exact (hmem true ht).symm
        · rw [← hR]
          rfl
    unfold access
    dsimp only
    rw [hside, ← hR]
    congr 1
    funext approx
    rw [uses_concat, htag, Option.toList_some]
    by_cases hflag : approx = flag g magic tag
    · rw [hflag, Function.update_self, List.filter_cons_of_pos (by simp), List.filter_nil,
        after_concat]
    · rw [Function.update_of_ne hflag, List.filter_cons_of_neg (by simpa using Ne.symm hflag),
        List.filter_nil, List.append_nil]

/-- Both sides of a larger set are at least as large. -/
theorem room_mono {a b : ℕ} (h : a ≤ b) (approx : Bool) : room a approx ≤ room b approx := by
  have hlog : ∀ n, Nat.log 2 (n + 1) ≤ Nat.log 2 n + 1 := by
    intro n
    have hn : n < 2 ^ (Nat.log 2 n + 1) := Nat.lt_pow_succ_log_self one_lt_two n
    apply Nat.lt_succ_iff.mp
    apply Nat.log_lt_of_lt_pow (Nat.succ_ne_zero n)
    rw [pow_succ]
    omega
  induction b, h using Nat.le_induction with
  | base => exact le_rfl
  | succ b _ ih =>
    apply ih.trans
    have hmono : Nat.log 2 b ≤ Nat.log 2 (b + 1) := Nat.log_mono_right b.le_succ
    have hstep := hlog b
    unfold room first last approx_margin
    rw [Nat.log2_eq_log_two, Nat.log2_eq_log_two]
    cases approx
    · simpa using hmono
    · simp only [if_true]
      omega

end RecencySet

open WayState RecencySet in
/-- While the registry stays as it is, a line is found exactly when fewer other lines of its side
were used since its last use than the side has ways. -/
theorem lru2_hit_iff_reused (g : Geometry) (h : 2 ≤ g.associativity) (h256 : g.associativity ≤ 256)
    (magic : MagicServer) (ops : List LineOp) (hops : ∀ op ∈ ops, op.accessed.isSome = true)
    (S : WayState) (hrun : (LineOp.machine g h).Run (empty g.associativity magic) ops S) (tag : ℕ) :
    (S.set.find (lru2 g h) tag).isSome = true ↔
      ReusedWithin (room g.associativity (flag g magic tag)) (uses g magic ops (flag g magic tag))
        tag := by
  have hF := run_follows h256 hrun
  rw [hF.find_isSome_iff, foldl_access hops, ← mem_after]
  constructor
  · intro hmem
    obtain ⟨approx, hmem⟩ := hmem
    have hflag : flag g magic tag = approx := by
      simpa using (List.mem_filter.mp (mem_of_mem_after hmem)).2
    rwa [hflag]
  · exact fun hmem => ⟨_, hmem⟩

/-- Line 1 is found, since one other line was used after it. -/
theorem lru2_hit_iff_reused_threeLines : ∃ S,
    (LineOp.machine fourWays fourWays_two).Run (WayState.empty 4 .init) LineOp.threeLines S ∧
      (S.set.find (lru2 fourWays fourWays_two) 1).isSome = true := by
  obtain ⟨S, hrun⟩ := LineOp.threeLines_run (g := fourWays) (h := fourWays_two) rfl
  refine ⟨S, hrun, (lru2_hit_iff_reused fourWays fourWays_two (by decide) .init _
    LineOp.threeLines_accessed S hrun 1).mpr ?_⟩
  exact ⟨[1, 2], [3], rfl, by decide, by decide⟩

open WayState RecencySet in
/-- More ways never cost a hit: what a set finds, a larger set finds after the same accesses. -/
theorem lru2_hits_grow (g g' : Geometry) (h : 2 ≤ g.associativity)
    (hle : g.associativity ≤ g'.associativity) (h256 : g'.associativity ≤ 256)
    (hblock : g'.blocksize = g.blocksize) (magic : MagicServer) (ops : List LineOp)
    (hops : ∀ op ∈ ops, op.accessed.isSome = true) (S S' : WayState)
    (hrun : (LineOp.machine g h).Run (empty g.associativity magic) ops S)
    (hrun' : (LineOp.machine g' (h.trans hle)).Run (empty g'.associativity magic) ops S') (tag : ℕ)
    (hfound : (S.set.find (lru2 g h) tag).isSome = true) :
    (S'.set.find (lru2 g' (h.trans hle)) tag).isSome = true := by
  have hflag : ∀ tag, flag g' magic tag = flag g magic tag := by
    intro tag
    unfold flag
    rw [hblock]
  have huses : ∀ approx, uses g' magic ops approx = uses g magic ops approx := by
    intro approx
    unfold uses
    simp only [hflag]
  have hF := run_follows (hle.trans h256) hrun
  have hF' := run_follows h256 hrun'
  rw [hF.find_isSome_iff, foldl_access hops] at hfound
  rw [hF'.find_isSome_iff, foldl_access hops]
  obtain ⟨approx, hmem⟩ := hfound
  refine ⟨approx, ?_⟩
  dsimp only
  rw [huses]
  exact mem_after_mono (room_mono hle approx) hmem

/-- Eight ways, the first three of them exact. -/
def CacheSetLRU2.eightWays : Geometry := { fourWays with associativity := 8 }

theorem lru2_hits_grow_threeLines : ∃ S,
    (LineOp.machine eightWays (by decide)).Run (WayState.empty 8 .init) LineOp.threeLines S ∧
      (S.set.find (lru2 eightWays (by decide)) 1).isSome = true := by
  obtain ⟨S, hrun⟩ := LineOp.threeLines_run (g := fourWays) (h := fourWays_two) rfl
  obtain ⟨S', hrun'⟩ := LineOp.threeLines_run (g := eightWays) (h := by decide) rfl
  refine ⟨S', hrun', lru2_hits_grow fourWays eightWays fourWays_two (by decide) (by decide) rfl
    .init _ LineOp.threeLines_accessed S S' hrun hrun' 1 ?_⟩
  rw [(lru2_refines_recency_lists fourWays fourWays_two (by decide) .init _ S hrun).2]
  exact ⟨false, by decide⟩

end Sniper
