import Sniper.Library.KeepLargest
import Sniper.Library.SortedMap
import Sniper.Library.WhileLoop

namespace Sniper
open KeepLargest WhileLoop

structure MshrEntry where
  t_issue : ℕ
  t_complete : ℕ
deriving DecidableEq

/-- `Mshr`. The keys are addresses; in which order its iterator comes to them is not known. -/
abbrev Mshr := SortedMap ℕ MshrEntry

/-- The order in which an iterator comes to the entries of a map, for every map. -/
structure IterationOrder where
  entries : Mshr → List (ℕ × MshrEntry)
  perm : ∀ mshr, (entries mshr).Perm mshr.entries

namespace Mshr

variable (MaxTime : ℕ) (order : IterationOrder) (mshr : Mshr)

/-- The scan for the entry with the least `t_complete`: `address_min` and `time_min`. -/
def scanMin (l : List (ℕ × MshrEntry)) : ℕ × ℕ :=
  l.foldl (fun min e => if e.2.t_complete < min.2 then (e.1, e.2.t_complete) else min) (0, MaxTime)

/-- One turn of `cleanupMshr`. -/
def eraseMin : Mshr := mshr.erase (scanMin MaxTime (order.entries mshr)).1

def cleanupMshr (fuel : ℕ) : Option Mshr :=
  whileLoop (fun mshr : Mshr => 8 < mshr.keys.card) (eraseMin MaxTime order) fuel mshr

/-- `cleanupMshr` ends, and leaves this map. -/
def CleansTo (mshr' : Mshr) : Prop := ∃ fuel, cleanupMshr MaxTime order mshr fuel = some mshr'

/-- All misses complete at some time. -/
def Completes : Prop := ∀ a ∈ mshr.keys, (mshr.value a).t_complete < MaxTime

variable {MaxTime order mshr}

variable (MaxTime) in
/-- The scan ends on an entry of the list when one is earlier than `MaxTime`, and on none later than
another. -/
theorem scanMin_spec (l : List (ℕ × MshrEntry)) :
    (∀ e ∈ l, (scanMin MaxTime l).2 ≤ e.2.t_complete) ∧
    ((scanMin MaxTime l).2 < MaxTime →
      ∃ e ∈ l, e.1 = (scanMin MaxTime l).1 ∧ e.2.t_complete = (scanMin MaxTime l).2) := by
  induction l using List.reverseRecOn with
  | nil => exact ⟨fun e he => (List.not_mem_nil he).elim, fun h => absurd h (lt_irrefl MaxTime)⟩
  | append_singleton l e ih =>
    obtain ⟨hle, hfound⟩ := ih
    have hscan : scanMin MaxTime (l ++ [e]) =
        if e.2.t_complete < (scanMin MaxTime l).2 then (e.1, e.2.t_complete)
        else scanMin MaxTime l := by
      unfold scanMin
      rw [List.foldl_append]
      rfl
    rw [hscan]
    by_cases hlt : e.2.t_complete < (scanMin MaxTime l).2
    · rw [if_pos hlt]
      refine ⟨?_, fun _ => ⟨e, by simp, rfl, rfl⟩⟩
      intro e' he'
      rcases List.mem_append.mp he' with he' | he'
      · exact hlt.le.trans (hle e' he')
      · rw [List.mem_singleton.mp he']
    · rw [if_neg hlt]
      refine ⟨?_, ?_⟩
      · intro e' he'
        rcases List.mem_append.mp he' with he' | he'
        · exact hle e' he'
        · rw [List.mem_singleton.mp he']
          exact not_lt.mp hlt
      · intro hmax
        obtain ⟨e', he', h⟩ := hfound hmax
        exact ⟨e', List.mem_append_left _ he', h⟩

variable (order) in
/-- The scan of a map that is not empty finds a key of it, whatever the order. -/
theorem scanMin_mem (h : Completes MaxTime mshr) (hne : mshr.keys.Nonempty) :
    (scanMin MaxTime (order.entries mshr)).1 ∈ mshr.keys ∧ ∀ b ∈ mshr.keys,
      (mshr.value (scanMin MaxTime (order.entries mshr)).1).t_complete ≤
        (mshr.value b).t_complete := by
  obtain ⟨hle, hfound⟩ := scanMin_spec MaxTime (order.entries mshr)
  have hentry : ∀ b ∈ mshr.keys, (b, mshr.value b) ∈ order.entries mshr := by
    intro b hb
    rw [(order.perm mshr).mem_iff, mshr.mem_entries]
    exact ⟨hb, rfl⟩
  obtain ⟨b, hb⟩ := hne
  have hmax : (scanMin MaxTime (order.entries mshr)).2 < MaxTime :=
    (hle _ (hentry b hb)).trans_lt (h b hb)
  obtain ⟨e, he, hkey, htime⟩ := hfound hmax
  rw [(order.perm mshr).mem_iff, mshr.mem_entries] at he
  obtain ⟨hmem, hvalue⟩ := he
  rw [← hkey, ← hvalue, htime]
  exact ⟨hmem, fun b hb => hle _ (hentry b hb)⟩

/-- What the loop keeps: the entries left are entries of the first map, the latest ones, and at
least 8 of them unless there never were so many. -/
structure Cleaning (first mshr : Mshr) : Prop where
  value : mshr.value = first.value
  drops : Drops (fun a => (first.value a).t_complete) first.keys mshr.keys
  card : min 8 first.keys.card ≤ mshr.keys.card

theorem Cleaning.completes {first : Mshr} (h : Cleaning first mshr)
    (hfirst : Completes MaxTime first) : Completes MaxTime mshr := by
  intro a ha
  rw [h.value]
  exact hfirst a (h.drops.subset ha)

theorem Cleaning.turn {first : Mshr} (hfirst : Completes MaxTime first) (h : Cleaning first mshr)
    (hlong : 8 < mshr.keys.card) : Cleaning first (eraseMin MaxTime order mshr) ∧
      (eraseMin MaxTime order mshr).keys.card < mshr.keys.card := by
  have hne : mshr.keys.Nonempty := Finset.card_pos.mp (by omega)
  obtain ⟨hmem, hmin⟩ := scanMin_mem order (h.completes hfirst) hne
  have hcard := Finset.card_erase_of_mem hmem
  rw [h.value] at hmin
  refine ⟨⟨h.value, h.drops.erase hmin, ?_⟩, ?_⟩
  · change min 8 first.keys.card ≤ (mshr.keys.erase _).card
    omega
  · change (mshr.keys.erase _).card < mshr.keys.card
    omega

variable (order) in
/-- The loop ends with the 8 latest entries. -/
theorem cleanupMshr_keeps (h : Completes MaxTime mshr) :
    ∃ mshr', CleansTo MaxTime order mshr mshr' ∧
    mshr'.value = mshr.value ∧
      Keeps 8 (fun a => (mshr.value a).t_complete) mshr.keys mshr'.keys := by
  have hturn : ∀ m : Mshr, Cleaning mshr m → decide (8 < m.keys.card) = true →
      Cleaning mshr (eraseMin MaxTime order m) ∧
        (eraseMin MaxTime order m).keys.card < m.keys.card := fun m hm hlong =>
    hm.turn h (of_decide_eq_true hlong)
  obtain ⟨mshr', hends, hcleaning, hstop⟩ := ends_of_measure
    (fun m : Mshr => m.keys.card) hturn mshr
    ⟨rfl, Drops.refl _, min_le_right _ _⟩
  refine ⟨mshr', hends, hcleaning.value, hcleaning.drops.keeps ?_⟩
  have hshort : ¬8 < mshr'.keys.card := of_decide_eq_false hstop
  have hsub := Finset.card_le_card hcleaning.drops.subset
  have := hcleaning.card
  omega

/-- The map after some misses, each of them recorded as `mshr[address] = make_mshr(..)` before a
`cleanupMshr`. -/
inductive Records (MaxTime : ℕ) (order : IterationOrder) : List (ℕ × MshrEntry) → Mshr → Prop where
  | nil : Records MaxTime order [] ⟨∅, fun _ => ⟨0, 0⟩⟩
  | snoc {misses : List (ℕ × MshrEntry)} {mshr mshr' : Mshr} (address : ℕ) (e : MshrEntry)
      (h : Records MaxTime order misses mshr)
      (hends : CleansTo MaxTime order (mshr.set address e) mshr') :
      Records MaxTime order (misses ++ [(address, e)]) mshr'

theorem Completes.set (h : Completes MaxTime mshr) (address : ℕ) {e : MshrEntry}
    (he : e.t_complete < MaxTime) : Completes MaxTime (mshr.set address e) := by
  intro a ha
  change (Function.update mshr.value address e a).t_complete < MaxTime
  by_cases haddr : a = address
  · rw [haddr, Function.update_self]
    exact he
  · rw [Function.update_of_ne haddr]
    exact h a ((Finset.mem_insert.mp ha).resolve_left haddr)

/-- Misses can go on being recorded, and there are never more than 8 entries. -/
theorem records_total (misses : List (ℕ × MshrEntry)) (h : ∀ e ∈ misses, e.2.t_complete < MaxTime) :
    ∃ mshr, Records MaxTime order misses mshr ∧ Completes MaxTime mshr ∧ mshr.keys.card ≤ 8 := by
  induction misses using List.reverseRecOn with
  | nil => exact ⟨_, .nil, fun a ha => absurd ha (Finset.notMem_empty a), Nat.zero_le 8⟩
  | append_singleton misses miss ih =>
    obtain ⟨mshr, hrecords, hcompletes, -⟩ := ih fun e he => h e (List.mem_append_left _ he)
    have hset := hcompletes.set miss.1 (h miss (by simp))
    obtain ⟨mshr', hends, hvalue, hkeeps⟩ := cleanupMshr_keeps order hset
    refine ⟨mshr', .snoc miss.1 miss.2 hrecords hends, ?_, ?_⟩
    · intro a ha
      rw [hvalue]
      exact hset a (hkeeps.subset ha)
    · rw [hkeeps.card]
      exact min_le_left _ _

end Mshr

/-- `cleanupMshr` ends, with the map as it was or with the 8 entries that complete last. -/
theorem cleanupMshr_latest (MaxTime : ℕ) (order : IterationOrder) (mshr : Mshr)
    (h : Mshr.Completes MaxTime mshr) : ∃ mshr', mshr.CleansTo MaxTime order mshr' ∧
      (mshr.keys.card ≤ 8 → mshr' = mshr) ∧ (8 < mshr.keys.card → mshr'.keys.card = 8) ∧
        (∀ a ∈ mshr'.keys, mshr'.find a = mshr.find a) ∧
          ∀ a ∈ mshr.keys, a ∉ mshr'.keys → ∀ b ∈ mshr'.keys,
            (mshr.value a).t_complete ≤ (mshr.value b).t_complete := by
  obtain ⟨mshr', hends, hvalue, hkeeps⟩ := Mshr.cleanupMshr_keeps order h
  refine ⟨mshr', hends, ?_, ?_, ?_, hkeeps.le⟩
  · intro hshort
    cases mshr'
    obtain rfl : _ = mshr.keys := hkeeps.eq hshort
    obtain rfl : _ = mshr.value := hvalue
    rfl
  · intro hlong
    have hcard := hkeeps.card
    omega
  · intro a ha
    rw [SortedMap.find_of_mem _ ha, SortedMap.find_of_mem _ (hkeeps.subset ha), hvalue]

/-- Nine misses, three at a time, and the scan in the order of their addresses. -/
def Mshr.nineMisses : Mshr := ⟨Finset.range 9, fun a => ⟨0, a / 3⟩⟩

def IterationOrder.ascending : IterationOrder := ⟨SortedMap.entries, fun _ => List.Perm.refl _⟩

theorem cleanupMshr_latest_nineMisses : ∃ mshr', Mshr.nineMisses.CleansTo 100 .ascending mshr' ∧
    mshr'.keys.card = 8 := by
  have hcompletes : Mshr.Completes 100 Mshr.nineMisses := by
    unfold Mshr.Completes
    decide
  obtain ⟨mshr', hends, -, hcard, -⟩ := cleanupMshr_latest 100 .ascending Mshr.nineMisses hcompletes
  exact ⟨mshr', hends, hcard (by decide)⟩

end Sniper
