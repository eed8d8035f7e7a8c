import Mathlib.Data.Finset.Sort
import Mathlib.Data.Finset.Max
import Mathlib.Tactic

/-- Values by keys in ascending order: a `std::set` of entries that compare by their key. -/
structure SortedMap (κ β : Type) where
  keys : Finset κ
  value : κ → β

namespace SortedMap

variable {κ β : Type} [LinearOrder κ] (m : SortedMap κ β) {a b : κ} {v : β} {f : β → β}

def find (a : κ) : Option β := if a ∈ m.keys then some (m.value a) else none

/-- `insert`, which leaves an entry that is there as it is. -/
def insertNew (a : κ) (v : β) : SortedMap κ β :=
  if a ∈ m.keys then m else ⟨insert a m.keys, Function.update m.value a v⟩

/-- Assignment through `operator[]`. -/
def set (a : κ) (v : β) : SortedMap κ β := ⟨insert a m.keys, Function.update m.value a v⟩

def erase (a : κ) : SortedMap κ β := { m with keys := m.keys.erase a }

/-- Changes the entry of a key, when there is one. -/
def modify (a : κ) (f : β → β) : SortedMap κ β :=
  if a ∈ m.keys then { m with value := Function.update m.value a (f (m.value a)) } else m

/-- `find` as an iterator: the key, or `none` for `end`. -/
def iter (a : κ) : Option κ := if a ∈ m.keys then some a else none

/-- The entry an iterator at `a` comes to next. -/
def next (a : κ) : Option κ :=
  if h : (m.keys.filter (a < ·)).Nonempty then some ((m.keys.filter (a < ·)).min' h) else none

/-- The entries from the first to the last. -/
def entries : List (κ × β) := (m.keys.sort (· ≤ ·)).map fun a => (a, m.value a)

theorem find_of_mem (h : a ∈ m.keys) : m.find a = some (m.value a) := if_pos h

theorem find_of_notMem (h : a ∉ m.keys) : m.find a = none := if_neg h

theorem find_isSome : (m.find a).isSome = true ↔ a ∈ m.keys := by
  unfold find
  split <;> simp [*]

theorem find_eq_none : m.find a = none ↔ a ∉ m.keys := by
  rw [← m.find_isSome, Option.not_isSome_iff_eq_none]

/-- A change of the entry of a key keeps it where it was. -/
theorem mem_of_find_map {m' : SortedMap κ β} (h : m'.find a = (m.find a).map f)
    (ha : a ∈ m'.keys) : a ∈ m.keys := by
  rwa [← find_isSome, h, Option.isSome_map, find_isSome] at ha

@[simp] theorem mem_insertNew : b ∈ (m.insertNew a v).keys ↔ b = a ∨ b ∈ m.keys := by
  unfold insertNew
  split
  · exact ⟨.inr, fun h => h.elim (fun h => h ▸ ‹_›) id⟩
  · exact Finset.mem_insert

theorem find_insertNew_self (h : a ∉ m.keys) : (m.insertNew a v).find a = some v := by
  simp [insertNew, h, find]

theorem find_insertNew_of_ne (h : b ≠ a) : (m.insertNew a v).find b = m.find b := by
  unfold insertNew
  split
  · rfl
  · simp [find, h]

theorem insertNew_of_mem (h : a ∈ m.keys) : m.insertNew a v = m := if_pos h

@[simp] theorem mem_erase : b ∈ (m.erase a).keys ↔ b ≠ a ∧ b ∈ m.keys := Finset.mem_erase

theorem find_erase_of_ne (h : b ≠ a) : (m.erase a).find b = m.find b := by simp [erase, find, h]

@[simp] theorem keys_modify : (m.modify a f).keys = m.keys := by
  unfold modify
  split <;> rfl

theorem find_modify_self : (m.modify a f).find a = (m.find a).map f := by
  unfold modify find
  split <;> simp [*]

theorem find_modify_of_ne (h : b ≠ a) : (m.modify a f).find b = m.find b := by
  unfold modify
  split
  · simp [find, h]
  · rfl

theorem find_modify : (m.modify a f).find b = (m.find b).map fun v => if b = a then f v else v := by
  by_cases hb : b = a
  · subst hb
    rw [find_modify_self]
    simp
  · rw [find_modify_of_ne _ hb]
    simp [hb]

/-- What a change of an entry keeps of it. -/
theorem map_find_modify {γ : Type} {g : β → γ} (hf : ∀ v, g (f v) = g v) :
    ((m.modify a f).find b).map g = (m.find b).map g := by
  rw [find_modify, Option.map_map]
  congr 1
  funext v
  rw [Function.comp_apply]
  split
  · exact hf v
  · rfl

theorem modify_of_notMem (h : a ∉ m.keys) : m.modify a f = m := if_neg h

/-- The same change of the entries of these keys, one after the other. -/
def modifyAll (l : List κ) (f : β → β) : SortedMap κ β := l.foldl (fun m a => m.modify a f) m

theorem modifyAll_append (l : List κ) (a : κ) :
    m.modifyAll (l ++ [a]) f = (m.modifyAll l f).modify a f := List.foldl_append

@[simp] theorem keys_modifyAll (l : List κ) : (m.modifyAll l f).keys = m.keys := by
  induction l using List.reverseRecOn with
  | nil => rfl
  | append_singleton l a ih => rw [modifyAll_append, keys_modify, ih]

/-- A change that does nothing the second time may come to a key again. -/
theorem find_modifyAll (hf : ∀ v, f (f v) = f v) (l : List κ) :
    (m.modifyAll l f).find b = if b ∈ l then (m.find b).map f else m.find b := by
  induction l using List.reverseRecOn with
  | nil => rfl
  | append_singleton l a ih =>
    rw [modifyAll_append, find_modify, ih]
    by_cases hb : b ∈ l
    · rw [if_pos hb, if_pos (List.mem_append_left _ hb), Option.map_map]
      congr 1
      funext v
      rw [Function.comp_apply, hf, ite_self]
    · rw [if_neg hb]
      by_cases hba : b = a
      · simp only [hba, if_true, List.mem_append, List.mem_singleton, or_true]
      · rw [if_neg (by simpa using ⟨hb, hba⟩)]
        simp only [if_neg hba]
        exact congrFun Option.map_id_fun' _

theorem next_eq_none : m.next a = none ↔ ∀ b ∈ m.keys, b ≤ a := by
  unfold next
  split
  · rename_i h
    obtain ⟨b, hb⟩ := h
    rw [Finset.mem_filter] at hb
    simp only [reduceCtorEq, false_iff, not_forall]
    exact ⟨b, hb.1, not_le.mpr hb.2⟩
  · rename_i h
    refine ⟨fun _ b hb => ?_, fun _ => rfl⟩
    by_contra hlt
    exact h ⟨b, Finset.mem_filter.mpr ⟨hb, not_le.mp hlt⟩⟩

theorem next_eq_some (h : m.next a = some b) :
    b ∈ m.keys ∧ a < b ∧ ∀ c ∈ m.keys, a < c → b ≤ c := by
  unfold next at h
  split at h
  · rename_i hne
    cases h
    have hmem := Finset.min'_mem _ hne
    rw [Finset.mem_filter] at hmem
    exact ⟨hmem.1, hmem.2, fun c hc hac => Finset.min'_le _ _ (Finset.mem_filter.mpr ⟨hc, hac⟩)⟩
  · cases h

/-- Fewer entries come after the next one. -/
theorem card_next_lt (h : m.next a = some b) :
    (m.keys.filter (b < ·)).card < (m.keys.filter (a < ·)).card := by
  obtain ⟨hb, hab, -⟩ := m.next_eq_some h
  apply Finset.card_lt_card
  rw [Finset.ssubset_iff_of_subset]
  · exact ⟨b, Finset.mem_filter.mpr ⟨hb, hab⟩, fun hc => lt_irrefl b (Finset.mem_filter.mp hc).2⟩
  · intro c hc
    rw [Finset.mem_filter] at hc ⊢
    exact ⟨hc.1, hab.trans hc.2⟩

theorem mem_entries {e : κ × β} : e ∈ m.entries ↔ e.1 ∈ m.keys ∧ e.2 = m.value e.1 := by
  unfold entries
  rw [List.mem_map]
  constructor
  · intro h
    obtain ⟨a, ha, rfl⟩ := h
    exact ⟨(Finset.mem_sort _).mp ha, rfl⟩
  · intro h
    obtain ⟨ha, hv⟩ := h
    exact ⟨e.1, (Finset.mem_sort _).mpr ha, Prod.ext rfl hv.symm⟩

/-- The same change of every entry. -/
def mapValues (f : κ → β → β) : SortedMap κ β := { m with value := fun a => f a (m.value a) }

theorem entries_mapValues (f : κ → β → β) :
    (m.mapValues f).entries = m.entries.map fun e => (e.1, f e.1 e.2) := by
  unfold entries mapValues
  rw [List.map_map]
  rfl

section range

variable (m : SortedMap ℕ β) {first len : ℕ}

/-- Changes the entries of `len` keys from `first` on, one after the other. -/
def modifyRange (first len : ℕ) (f : β → β) : SortedMap ℕ β :=
  (List.range len).foldl (fun m i => m.modify (first + i) f) m

theorem modifyRange_succ :
    m.modifyRange first (len + 1) f = (m.modifyRange first len f).modify (first + len) f := by
  simp [modifyRange, List.range_succ]

@[simp] theorem keys_modifyRange : (m.modifyRange first len f).keys = m.keys := by
  induction len with
  | zero => rfl
  | succ len ih => rw [modifyRange_succ, keys_modify, ih]

theorem map_find_modifyRange {γ : Type} {g : β → γ} (hf : ∀ v, g (f v) = g v) (b : ℕ) :
    ((m.modifyRange first len f).find b).map g = (m.find b).map g := by
  induction len with
  | zero => rfl
  | succ len ih => rw [modifyRange_succ, map_find_modify _ hf, ih]

theorem find_modifyRange (b : ℕ) : (m.modifyRange first len f).find b =
    if first ≤ b ∧ b < first + len then (m.find b).map f else m.find b := by
  induction len with
  | zero => rw [if_neg (by omega)]; rfl
  | succ len ih =>
    rw [modifyRange_succ]
    by_cases hb : b = first + len
    · subst hb
      rw [find_modify_self, ih, if_neg (by omega), if_pos (by omega)]
    · rw [find_modify_of_ne _ hb, ih]
      by_cases hin : first ≤ b ∧ b < first + len
      · rw [if_pos hin, if_pos (by omega)]
      · rw [if_neg hin, if_neg (by omega)]

/-- The entries from `first` to before `last`, by their keys. -/
def keysIn (first last : ℕ) : List ℕ := (List.range' first (last - first)).filter (· ∈ m.keys)

variable {m} {last k : ℕ}

theorem keysIn_of_mem (h : first ∈ m.keys) (hlt : first < last) :
    m.keysIn first last = first :: m.keysIn (first + 1) last := by
  have hlen : last - first = (last - (first + 1)) + 1 := by omega
  rw [keysIn, hlen, List.range'_succ, List.filter_cons, if_pos (decide_eq_true h)]
  rfl

theorem keysIn_skip (hle : first ≤ k) (hk : k ≤ last) (h : ∀ a ∈ m.keys, first ≤ a → k ≤ a) :
    m.keysIn first last = m.keysIn k last := by
  have hlen : last - first = (k - first) + (last - k) := by omega
  have hnone : (List.range' first (k - first)).filter (· ∈ m.keys) = [] := by
    rw [List.filter_eq_nil_iff]
    intro a ha hmem
    rw [List.mem_range'_1] at ha
    have := h a (of_decide_eq_true hmem) ha.1
    omega
  rw [keysIn, hlen, ← List.range'_append_1, List.filter_append, hnone, List.nil_append,
    Nat.add_sub_cancel' hle]
  rfl

theorem keysIn_eq_nil (h : ∀ a ∈ m.keys, first ≤ a → last ≤ a) : m.keysIn first last = [] := by
  rw [keysIn, List.filter_eq_nil_iff]
  intro a ha hmem
  rw [List.mem_range'_1] at ha
  have := h a (of_decide_eq_true hmem) ha.1
  omega

/-- To change a range is to change its entries. -/
theorem modifyRange_eq (len : ℕ) :
    m.modifyRange first len f = (m.keysIn first (first + len)).foldl
      (fun m a => m.modify a f) m := by
  unfold keysIn
  rw [Nat.add_sub_cancel_left]
  induction len with
  | zero => rfl
  | succ len ih =>
    rw [modifyRange_succ, List.range'_1_concat, List.filter_append, List.foldl_append, ← ih]
    by_cases h : first + len ∈ m.keys
    · rw [List.filter_cons, if_pos (decide_eq_true h)]
      rfl
    · rw [List.filter_cons, if_neg (by simpa using h), modify_of_notMem]
      · rfl
      · rwa [keys_modifyRange]

end range

end SortedMap
