import Sniper.Library.Recency

namespace RecencyList

variable {T : Type} [DecidableEq T]

/-- `t` comes to the front of the list. -/
def front (t : T) (l : List T) : List T := t :: l.erase t

/-- A use of `t` with room for `c` elements: the one used longest ago makes room. -/
def use (c : ℕ) (l : List T) (t : T) : List T := (front t l).take c

/-- What is kept after the uses, the latest first. -/
def after (c : ℕ) (uses : List T) : List T := uses.foldl (use c) []

/-- All the elements used, in the order of their last uses, the latest first. -/
def recent (uses : List T) : List T := uses.foldl (fun l t => front t l) []

/-- `t` was used, and fewer than `c` different elements were used since. -/
def ReusedWithin (c : ℕ) (uses : List T) (t : T) : Prop :=
  ∃ before since, uses = before ++ t :: since ∧ t ∉ since ∧ since.toFinset.card < c

variable {t : T} {l : List T} {c : ℕ}

theorem mem_front {u : T} : u ∈ front t l ↔ u = t ∨ u ∈ l := by
  unfold front
  by_cases h : u = t
  · simp [h]
  · simp [h, List.mem_erase_of_ne h]

theorem nodup_front (h : l.Nodup) : (front t l).Nodup :=
  List.nodup_cons.mpr ⟨h.not_mem_erase, h.erase t⟩

/-- With room for it, or with the element there already, nothing makes room. -/
theorem use_of_length (h : (front t l).length ≤ c) : use c l t = front t l :=
    List.take_of_length_le h

theorem use_of_mem (ht : t ∈ l) (h : l.length ≤ c) : use c l t = front t l := by
  apply use_of_length
  have hpos := List.length_pos_of_mem ht
  rw [front, List.length_cons, List.length_erase_of_mem ht]
  omega

theorem use_of_notMem (ht : t ∉ l) : use c l t = (t :: l).take c := by
  rw [use, front, List.erase_of_not_mem ht]

/-- Only the elements that stay matter for what stays after a use. -/
theorem take_erase (l : List T) : ∀ c : ℕ,
    ((l.take (c + 1)).erase t).take c = (l.erase t).take c := by
  induction l with
  | nil =>
    intro c
    simp
  | cons a l ih =>
    intro c
    rw [List.take_succ_cons]
    by_cases ha : a = t
    · rw [ha, List.erase_cons_head, List.erase_cons_head, List.take_take, Nat.min_self]
    · rw [List.erase_cons_tail (by simpa using ha), List.erase_cons_tail (by simpa using ha)]
      cases c with
      | zero => rfl
      | succ c => rw [List.take_succ_cons, List.take_succ_cons, ih]

theorem use_take : use c (l.take c) t = (front t l).take c := by
  cases c with
  | zero => rfl
  | succ c => rw [use, front, front, List.take_succ_cons, List.take_succ_cons, take_erase]

theorem after_concat (uses : List T) : after c (uses ++ [t]) = use c (after c uses) t := by
  unfold after
  rw [List.foldl_concat]

/-- A list with less room is the beginning of one with more. -/
theorem after_eq (c : ℕ) (uses : List T) : after c uses = (recent uses).take c := by
  induction uses using List.reverseRecOn with
  | nil => exact List.take_nil.symm
  | append_singleton uses t ih =>
    unfold recent at *
    rw [after_concat, List.foldl_concat, ih, use_take]

/-- Whatever came before the uses is behind them, but for what they use again. -/
theorem foldl_front (uses : List T) : ∀ l : List T, l.Nodup →
    uses.foldl (fun l t => front t l) l = recent uses ++ l.filter fun t => t ∉ uses := by
  induction uses with
  | nil =>
    intro l _
    simp [recent]
  | cons t uses ih =>
    intro l hl
    have hrecent : recent (t :: uses) = recent uses ++ [t].filter fun t => t ∉ uses :=
      ih [t] (List.nodup_singleton t)
    rw [List.foldl_cons, ih _ (nodup_front hl), hrecent, List.append_assoc, front,
      ← List.singleton_append, List.filter_append, hl.erase_eq_filter, List.filter_filter]
    congr 2
    apply List.filter_congr
    intro u _
    by_cases hu : u = t
    · simp [hu]
    · simp [hu]

theorem nodup_recent (uses : List T) : (recent uses).Nodup := by
  induction uses using List.reverseRecOn with
  | nil => exact List.nodup_nil
  | append_singleton uses t ih =>
    unfold recent at *
    rw [List.foldl_concat]
    exact nodup_front ih

theorem mem_recent {uses : List T} : t ∈ recent uses ↔ t ∈ uses := by
  induction uses using List.reverseRecOn with
  | nil => exact Iff.rfl
  | append_singleton uses u ih =>
    unfold recent at *
    rw [List.foldl_concat, mem_front, ih, List.mem_append, List.mem_singleton, or_comm]

theorem length_recent (uses : List T) : (recent uses).length = uses.toFinset.card := by
  rw [← List.toFinset_card_of_nodup (nodup_recent uses)]
  congr 1
  ext t
  rw [List.mem_toFinset, List.mem_toFinset, mem_recent]

/-- What was used since the last use of `t` is before it in the list. -/
theorem recent_split (before : List T) {since : List T} (ht : t ∉ since) : ∃ older,
    recent (before ++ t :: since) = recent since ++ t :: older := by
  have hfirst : recent (before ++ t :: since) =
      since.foldl (fun l t => front t l) (front t (recent before)) := by
    unfold recent
    rw [List.foldl_append, List.foldl_cons]
  rw [hfirst, foldl_front since _ (nodup_front (nodup_recent before)), front]
  exact ⟨_, by rw [List.filter_cons_of_pos (by simpa using ht)]⟩

/-- An element is kept exactly when fewer others were used since than there is room for. -/
theorem mem_after {uses : List T} : t ∈ after c uses ↔ ReusedWithin c uses t := by
  rw [after_eq]
  have hkept : ∀ {before since : List T}, t ∉ since →
      (t ∈ (recent (before ++ t :: since)).take c ↔ since.toFinset.card < c) := by
    intro before since ht
    obtain ⟨older, holder⟩ := recent_split before ht
    have hnotMem : t ∉ recent since := fun h => ht (mem_recent.mp h)
    rw [holder, ← length_recent since, List.take_append]
    constructor
    · intro h
      rcases List.mem_append.mp h with h | h
      · exact absurd (List.mem_of_mem_take h) hnotMem
      · have hpos : c - (recent since).length ≠ 0 := by
          intro hzero
          rw [hzero] at h
          exact absurd h List.not_mem_nil
        omega
    · intro h
      obtain ⟨d, hd⟩ : ∃ d, c - (recent since).length = d + 1 :=
        ⟨c - (recent since).length - 1, by omega⟩
      rw [hd, List.take_succ_cons]
      exact List.mem_append_right _ List.mem_cons_self
  constructor
  · intro h
    -- the last use of `t` is the first in the reversed list
    have hmem : t ∈ uses.reverse := List.mem_reverse.mpr (mem_recent.mp (List.mem_of_mem_take h))
    obtain ⟨since, before, hsplit, ht⟩ := List.eq_append_cons_of_mem hmem
    have huses : uses = before.reverse ++ t :: since.reverse := by
      rw [← List.reverse_reverse uses, hsplit]
      simp
    have ht' : t ∉ since.reverse := fun h => ht (List.mem_reverse.mp h)
    rw [huses] at h
    exact ⟨_, _, huses, ht', (hkept ht').mp h⟩
  · intro h
    obtain ⟨before, since, hsplit, ht, hlt⟩ := h
    rw [hsplit]
    exact (hkept ht).mpr hlt

theorem mem_of_mem_after {uses : List T} (h : t ∈ after c uses) : t ∈ uses := by
  rw [after_eq] at h
  exact mem_recent.mp (List.mem_of_mem_take h)

/-- More room keeps what less room keeps. -/
theorem mem_after_mono {c' : ℕ} (h : c ≤ c') {uses : List T} (ht : t ∈ after c uses) :
    t ∈ after c' uses := by
  obtain ⟨before, since, hsplit, hnot, hlt⟩ := mem_after.mp ht
  exact mem_after.mpr ⟨before, since, hsplit, hnot, hlt.trans_le h⟩

section order

variable {ι : Type} [DecidableEq ι] {σ : List ι} {rank : ι → ℕ} {a : ι}

/-- The elements in the order of their ranks. -/
def Ascending (σ : List ι) (rank : ι → ℕ) : Prop := σ.Pairwise fun i j => rank i < rank j

omit [DecidableEq ι] in
theorem Ascending.nodup (h : Ascending σ rank) : σ.Nodup := h.imp fun hlt he => by
  rw [he] at hlt
  exact lt_irrefl _ hlt

omit [DecidableEq ι] in
theorem Ascending.ne (h : Ascending σ rank) {i j : ι} (hi : i ∈ σ) (hj : j ∈ σ) (hij : i ≠ j) :
    rank i ≠ rank j := by
  have hne : σ.Pairwise fun i j => rank i ≠ rank j := h.imp fun hlt => hlt.ne
  have : Std.Symm fun i j : ι => rank i ≠ rank j := ⟨fun _ _ => Ne.symm⟩
  exact hne.forall hi hj hij

/-- The ranks after a use of `a` are those of the list with `a` at its front. -/
theorem Ascending.touch (h : Ascending σ rank) (ha : a ∈ σ) :
    Ascending (front a σ) (Recency.touch rank a) := by
  have hrest : Ascending (σ.erase a) rank := h.sublist List.erase_sublist
  have hother : ∀ i ∈ σ.erase a, i ≠ a ∧ rank i ≠ rank a := by
    intro i hi
    have hia : i ≠ a := fun he => h.nodup.not_mem_erase (he ▸ hi)
    exact ⟨hia, h.ne (List.mem_of_mem_erase hi) ha hia⟩
  apply List.pairwise_cons.mpr
  constructor
  · intro i hi
    obtain ⟨hia, hne⟩ := hother i hi
    unfold Recency.touch
    rw [if_pos rfl, if_neg hia]
    split <;> omega
  · apply hrest.imp_of_mem
    intro i j hi hj hlt
    obtain ⟨hia, hne⟩ := hother i hi
    obtain ⟨hja, hne'⟩ := hother j hj
    unfold Recency.touch
    rw [if_neg hia, if_neg hja]
    split <;> split <;> omega

/-- The element of the highest rank is the last one. -/
theorem Ascending.eq_concat (h : Ascending σ rank) (ha : a ∈ σ) (hmax : ∀ i ∈ σ, rank i ≤ rank a) :
    σ = σ.erase a ++ [a] := by
  obtain ⟨before, behind, hσ, hnot⟩ := List.eq_append_cons_of_mem ha
  have hbehind : behind = [] := by
    apply List.eq_nil_iff_forall_not_mem.mpr
    intro i hi
    have hlast : Ascending (a :: behind) rank :=
      h.sublist (hσ ▸ List.sublist_append_right before _)
    have hlt := (List.pairwise_cons.mp hlast).1 i hi
    have hle := hmax i (hσ ▸ by simp [hi])
    omega
  rw [hσ, hbehind, List.erase_append_right _ hnot, List.erase_cons_head, List.append_nil]

end order

section labels

variable {ι : Type} [DecidableEq ι] {σ : List ι} {label : ι → Option T} {a : ι}

/-- A label is on one element of the list at most. -/
def Unique (σ : List ι) (label : ι → Option T) : Prop :=
  ∀ i ∈ σ, ∀ j ∈ σ, ∀ t, label i = some t → label j = some t → i = j

/-- The element of a label leaves the list together with it. -/
theorem filterMap_erase (hu : Unique σ label) (ha : a ∈ σ) (hlabel : label a = some t) :
    (σ.erase a).filterMap label = (σ.filterMap label).erase t := by
  obtain ⟨before, behind, hσ, hnot⟩ := List.eq_append_cons_of_mem ha
  have hbefore : t ∉ before.filterMap label := by
    intro ht
    obtain ⟨i, hi, hit⟩ := List.mem_filterMap.mp ht
    have hia : i = a := hu i (hσ ▸ List.mem_append_left _ hi) a ha t hit hlabel
    exact hnot (hia ▸ hi)
  rw [hσ, List.erase_append_right _ hnot, List.erase_cons_head, List.filterMap_append,
    List.filterMap_append, List.filterMap_cons_some hlabel, List.erase_append_right _ hbefore,
    List.erase_cons_head]

omit [DecidableEq T] in
theorem filterMap_erase_of_none (hlabel : label a = none) :
    (σ.erase a).filterMap label = σ.filterMap label := by
  by_cases ha : a ∈ σ
  · obtain ⟨before, behind, hσ, hnot⟩ := List.eq_append_cons_of_mem ha
    rw [hσ, List.erase_append_right _ hnot, List.erase_cons_head, List.filterMap_append,
      List.filterMap_append, List.filterMap_cons_none hlabel]
  · rw [List.erase_of_not_mem ha]

omit [DecidableEq T] in
/-- A label on an element that is not in the list. -/
theorem filterMap_update (ha : a ∉ σ) (b : Option T) :
    σ.filterMap (Function.update label a b) = σ.filterMap label := by
  apply List.filterMap_congr
  intro i hi
  have hia : i ≠ a := fun he => ha (he ▸ hi)
  exact Function.update_of_ne hia ..

omit [DecidableEq T] in
/-- The element at the front gets a new label. -/
theorem filterMap_front (h : σ.Nodup) :
    (front a σ).filterMap (Function.update label a (some t)) =
      t :: (σ.erase a).filterMap label := by
  unfold front
  rw [List.filterMap_cons_some (Function.update_self ..), filterMap_update h.not_mem_erase]

omit [DecidableEq T] in
/-- The label of an element is taken off. -/
theorem filterMap_update_none (h : σ.Nodup) :
    σ.filterMap (Function.update label a none) = (σ.erase a).filterMap label := by
  rw [← filterMap_erase_of_none (a := a) (Function.update_self ..),
    filterMap_update h.not_mem_erase]

omit [DecidableEq T] [DecidableEq ι] in
theorem length_filterMap_lt (ha : a ∈ σ) (hlabel : label a = none) :
    (σ.filterMap label).length < σ.length := by
  apply (List.length_filterMap_le label σ).lt_of_ne
  intro heq
  have hsome := List.filterMap_length_eq_length.mp heq a ha
  rw [hlabel] at hsome
  cases hsome

omit [DecidableEq T] [DecidableEq ι] in
theorem length_filterMap_eq (h : ∀ i ∈ σ, (label i).isSome = true) :
    (σ.filterMap label).length = σ.length := List.filterMap_length_eq_length.mpr h

end labels

end RecencyList
