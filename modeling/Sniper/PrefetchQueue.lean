import Sniper.System

namespace Sniper
open Outcome

/-- `m_prefetch_list` and `m_prefetch_next` of a master. -/
structure PrefetchQueue where
  m_prefetch_list : List ℕ
  m_prefetch_next : ℕ

/-- A hierarchy whose caches have prefetchers. -/
structure PrefetchConfig (σ : Type) extends Config σ where
  m_prefetch_on_prefetch_hit : CntlrId → Bool
  INVALID_ADDRESS : ℕ

/-- A call of `trainPrefetcher`, with what the prefetcher returns for the address and with the
caches at the time. -/
structure TrainCall (σ : Type) where
  cntlr : CntlrId
  cache_hit : Bool
  prefetch_hit : Bool
  t_issue : ℕ
  prefetchList : List ℕ
  mem : State σ

/-- The queues by their masters, and the prefetches under way. -/
structure Prefetching where
  queue : CntlrId → PrefetchQueue
  inFlight : List (CntlrId × ℕ)

inductive PrefetchOp (σ : Type) where
  | trainPrefetcher (call : TrainCall σ)
  /-- `Prefetch`, up to `doPrefetch` or the end; its call on the next level is a call of its own -/
  | prefetch (o : CntlrId) (t_now : ℕ) (mem : State σ)
  /-- the rest of `Prefetch`, after `doPrefetch` -/
  | prefetched (o : CntlrId) (address : ℕ)

namespace Prefetching

def PREFETCH_MAX_QUEUE_LENGTH : ℕ := 32

/-- One nanosecond in femtoseconds. -/
def PREFETCH_INTERVAL : ℕ := 1000000

section

variable {σ : Type} (K : PrefetchConfig σ)

/-- `operationPermissibleinCache` for a read. -/
def readable (s : State σ) (o : CntlrId) (address : ℕ) : Bool :=
  MemOp.read.permits (CacheCntlr.getCacheState K.toConfig s (K.node o) address)

/-- The loop over the prefetcher's list, with `m_prefetch_list` so far. -/
def fill (readable : ℕ → Bool) : List ℕ → List ℕ → List ℕ
  | [], m_prefetch_list => m_prefetch_list
  | address :: rest, m_prefetch_list =>
    if m_prefetch_list.length > PREFETCH_MAX_QUEUE_LENGTH then m_prefetch_list
    else if !readable address then fill readable rest (m_prefetch_list ++ [address])
    else fill readable rest m_prefetch_list

/-- The condition under which a call fills the queue anew. -/
def Fills (call : TrainCall σ) : Prop :=
  call.cache_hit = false ∨
    (K.m_prefetch_on_prefetch_hit call.cntlr = true ∧ call.prefetch_hit = true)

instance (call : TrainCall σ) : Decidable (Fills K call) :=
  inferInstanceAs (Decidable (_ ∨ _))

def trainPrefetcher (call : TrainCall σ) (q : PrefetchQueue) : PrefetchQueue :=
  if Fills K call then
    { m_prefetch_list := fill (readable K call.mem call.cntlr) call.prefetchList []
      m_prefetch_next := call.t_issue + PREFETCH_INTERVAL }
  else q

/-- The loop that takes addresses off the queue up to the first that is not readable. -/
def takeNext (readable : ℕ → Bool) : List ℕ → Option ℕ × List ℕ
  | [] => (none, [])
  | address :: rest => if !readable address then (some address, rest) else takeNext readable rest

/-- The locked part of `Prefetch`: `address_to_prefetch`, and what it leaves of the queue. -/
def prefetchLocked (o : CntlrId) (t_now : ℕ) (s : State σ) (q : PrefetchQueue) :
    ℕ × PrefetchQueue :=
  if q.m_prefetch_next ≤ t_now then
    let (address, rest) := takeNext (readable K s o) q.m_prefetch_list
    (address.getD K.INVALID_ADDRESS, { q with m_prefetch_list := rest })
  else (K.INVALID_ADDRESS, q)

variable (P : Prefetching)

def putQueue (o : CntlrId) (q : PrefetchQueue) : Prefetching :=
  { P with queue := Function.update P.queue (K.node o) q }

def exec : PrefetchOp σ → Prefetching
  | .trainPrefetcher call =>
    P.putQueue K call.cntlr (trainPrefetcher K call (P.queue (K.node call.cntlr)))
  | .prefetch o t_now mem =>
    let (address, q) := prefetchLocked K o t_now mem (P.queue (K.node o))
    let P := P.putQueue K o q
    if address ≠ K.INVALID_ADDRESS then { P with inFlight := (o, address) :: P.inFlight } else P
  | .prefetched o address =>
    let q := P.queue (K.node o)
    { P.putQueue K o { q with m_prefetch_next := q.m_prefetch_next + PREFETCH_INTERVAL } with
      inFlight := P.inFlight.erase (o, address) }

def Enabled : PrefetchOp σ → Prop
  | .prefetched o address => (o, address) ∈ P.inFlight
  | _ => True

/-- The calls in any order, each with any contents of the caches. -/
def machine : Machine Prefetching (PrefetchOp σ) Empty where
  enabled := Enabled
  exec P op := .ok (P.exec K op)

/-- The addresses of the list that the cache cannot read. -/
def missing (call : TrainCall σ) : List ℕ :=
  call.prefetchList.filter fun address => !readable K call.mem call.cntlr address

/-- The address was put into the queue of cache `c` by the last call that filled it, and was not
readable then. -/
def QueuedBy (ops : List (PrefetchOp σ)) (c : CntlrId) (address : ℕ) : Prop :=
  ∃ before call after, ops = before ++ .trainPrefetcher call :: after ∧ K.node call.cntlr = c ∧
    Fills K call ∧ address ∈ missing K call ∧
      ∀ call', .trainPrefetcher call' ∈ after → Fills K call' → K.node call'.cntlr ≠ c

/-- A call that finds more missing addresses than the queue should hold. -/
def Overfills : PrefetchOp σ → Prop
  | .trainPrefetcher call => Fills K call ∧ PREFETCH_MAX_QUEUE_LENGTH < (missing K call).length
  | _ => False

end

def init : Prefetching where
  queue _ := ⟨[], 0⟩
  inFlight := []

def WithinLimit (P : Prefetching) : Prop :=
  ∀ c, (P.queue c).m_prefetch_list.length ≤ PREFETCH_MAX_QUEUE_LENGTH

variable {σ : Type} {K : PrefetchConfig σ} {P : Prefetching} {readable : ℕ → Bool}

/-- The loop stops when there is one address more than the limit. -/
theorem fill_eq (l : List ℕ) : ∀ q : List ℕ, q.length ≤ PREFETCH_MAX_QUEUE_LENGTH + 1 →
    fill readable l q = q ++
      (l.filter fun a => !readable a).take (PREFETCH_MAX_QUEUE_LENGTH + 1 - q.length) := by
  induction l with
  | nil =>
    intro q _
    simp [fill]
  | cons a l ih =>
    intro q hq
    unfold fill
    by_cases hfull : q.length > PREFETCH_MAX_QUEUE_LENGTH
    · rw [if_pos hfull, Nat.sub_eq_zero_of_le (by omega), List.take_zero, List.append_nil]
    · rw [if_neg hfull]
      cases ha : readable a with
      | true =>
        simp only [Bool.not_true, Bool.false_eq_true, if_false]
        rw [ih q hq, List.filter_cons_of_neg (by simp [ha])]
      | false =>
        have hroom : PREFETCH_MAX_QUEUE_LENGTH + 1 - q.length =
            PREFETCH_MAX_QUEUE_LENGTH + 1 - (q ++ [a]).length + 1 := by
          rw [List.length_append, List.length_singleton]
          omega
        simp only [Bool.not_false, if_true]
        rw [ih (q ++ [a]) (by rw [List.length_append, List.length_singleton]; omega),
          List.filter_cons_of_pos (by simp [ha]), hroom, List.take_succ_cons, List.append_assoc]
        rfl

/-- A training that fills the queue leaves the first 33 missing addresses in it. -/
theorem trainPrefetcher_list {call : TrainCall σ} (h : Fills K call) (q : PrefetchQueue) :
    (trainPrefetcher K call q).m_prefetch_list =
      (missing K call).take (PREFETCH_MAX_QUEUE_LENGTH + 1) := by
  unfold trainPrefetcher
  rw [if_pos h]
  exact fill_eq call.prefetchList [] (Nat.zero_le _)

theorem takeNext_suffix (l : List ℕ) : (takeNext readable l).2 <:+ l := by
  induction l with
  | nil => exact List.suffix_refl []
  | cons a l ih =>
    unfold takeNext
    split
    · exact List.suffix_cons a l
    · exact ih.trans (List.suffix_cons a l)

theorem prefetchLocked_suffix (o : CntlrId) (t_now : ℕ) (s : State σ) (q : PrefetchQueue) :
    (prefetchLocked K o t_now s q).2.m_prefetch_list <:+ q.m_prefetch_list := by
  unfold prefetchLocked
  split
  · exact takeNext_suffix q.m_prefetch_list
  · exact List.suffix_refl _

@[simp] theorem putQueue_self (o : CntlrId) (q : PrefetchQueue) :
    (P.putQueue K o q).queue (K.node o) = q := Function.update_self ..

theorem putQueue_of_ne {o : CntlrId} {c : CntlrId} (h : c ≠ K.node o) (q : PrefetchQueue) :
    (P.putQueue K o q).queue c = P.queue c := Function.update_of_ne h ..

/-- The queue of another cache stays, and a cache's own queue becomes shorter at its front. -/
theorem putQueue_suffix {o c : CntlrId} {q : PrefetchQueue}
    (h : q.m_prefetch_list <:+ (P.queue (K.node o)).m_prefetch_list) :
    ((P.putQueue K o q).queue c).m_prefetch_list <:+ (P.queue c).m_prefetch_list := by
  by_cases hc : c = K.node o
  · rw [hc, putQueue_self]
    exact h
  · rw [putQueue_of_ne hc]

theorem exec_prefetch_queue (o : CntlrId) (t_now : ℕ) (mem : State σ) :
    (P.exec K (.prefetch o t_now mem)).queue =
      (P.putQueue K o (prefetchLocked K o t_now mem (P.queue (K.node o))).2).queue := by
  unfold exec
  simp only
  split <;> rfl

/-- What a step does to the queue of a cache: a training may fill it anew, and nothing else adds
to it. -/
theorem exec_cases (op : PrefetchOp σ) (c : CntlrId) :
    (∃ call, op = .trainPrefetcher call ∧ Fills K call ∧ K.node call.cntlr = c ∧
      ((P.exec K op).queue c).m_prefetch_list =
        (missing K call).take (PREFETCH_MAX_QUEUE_LENGTH + 1)) ∨
    (∀ call, op = .trainPrefetcher call → Fills K call → K.node call.cntlr ≠ c) ∧
      ((P.exec K op).queue c).m_prefetch_list <:+ (P.queue c).m_prefetch_list := by
  cases op with
  | trainPrefetcher call =>
    by_cases hfills : Fills K call
    · by_cases hc : c = K.node call.cntlr
      · left
        refine ⟨call, rfl, hfills, hc.symm, ?_⟩
        rw [hc, exec, putQueue_self, trainPrefetcher_list hfills]
      · right
        refine ⟨?_, ?_⟩
        · intro call' hcall _ hnode
          cases hcall
          exact hc hnode.symm
        · rw [exec, putQueue_of_ne hc]
    · right
      refine ⟨?_, ?_⟩
      · intro call' hcall hfills'
        cases hcall
        exact absurd hfills' hfills
      · rw [exec, trainPrefetcher, if_neg hfills]
        exact putQueue_suffix (List.suffix_refl _)
  | prefetch o t_now mem =>
    right
    refine ⟨?_, ?_⟩
    · intro call h
      cases h
    · rw [exec_prefetch_queue]
      exact putQueue_suffix (prefetchLocked_suffix o t_now mem _)
  | prefetched o address =>
    right
    refine ⟨?_, ?_⟩
    · intro call h
      cases h
    · exact putQueue_suffix (List.suffix_refl _)

/-- There are never more than 33 addresses, one more than the limit. -/
theorem run_length_le {ops : List (PrefetchOp σ)} (h : (machine K).Run init ops P) (c : CntlrId) :
    (P.queue c).m_prefetch_list.length ≤ PREFETCH_MAX_QUEUE_LENGTH + 1 := by
  refine h.inv (E := fun _ => True)
    (I := fun P => (P.queue c).m_prefetch_list.length ≤ PREFETCH_MAX_QUEUE_LENGTH + 1) ?_
      (Nat.zero_le _)
  intro P op hP _
  rcases exec_cases op c with ⟨call, -, -, -, hlist⟩ | ⟨-, hsuffix⟩
  · change ((P.exec K op).queue c).m_prefetch_list.length ≤ _
    rw [hlist]
    exact List.length_take_le _ _
  · exact hsuffix.length_le.trans hP

theorem step_withinLimit (op : PrefetchOp σ) (h : P.WithinLimit) :
    (P.exec K op).WithinLimit ↔ ¬Overfills K op := by
  constructor
  · intro hlimit hover
    cases op with
    | trainPrefetcher call =>
      obtain ⟨hfills, hlong⟩ := hover
      have hlen := hlimit (K.node call.cntlr)
      rw [exec, putQueue_self, trainPrefetcher_list hfills, List.length_take] at hlen
      omega
    | prefetch | prefetched => exact hover
  · intro hover c
    rcases exec_cases (P := P) (K := K) op c with ⟨call, rfl, hfills, -, hlist⟩ | ⟨-, hsuffix⟩
    · rw [hlist, List.length_take]
      have hshort : ¬PREFETCH_MAX_QUEUE_LENGTH < (missing K call).length :=
        fun hlong => hover ⟨hfills, hlong⟩
      omega
    · exact hsuffix.length_le.trans (h c)

/-- What is in a queue was put there by a training that found it missing. -/
theorem run_queuedBy {ops : List (PrefetchOp σ)} (h : (machine K).Run init ops P) :
    ∀ c address, address ∈ (P.queue c).m_prefetch_list → QueuedBy K ops c address := by
  induction ops using List.reverseRecOn generalizing P with
  | nil =>
    intro c address hmem
    rw [Machine.run_nil h] at hmem
    cases hmem
  | append_singleton ops op ih =>
    obtain ⟨P', hrun, -, hexec⟩ := Machine.run_append h
    cases hexec
    intro c address hmem
    rcases exec_cases (P := P') (K := K) op c with
      ⟨call, rfl, hfills, hnode, hlist⟩ | ⟨hother, hsuffix⟩
    · rw [hlist] at hmem
      exact ⟨ops, call, [], rfl, hnode, hfills, List.mem_of_mem_take hmem,
        fun _ hcall => absurd hcall List.not_mem_nil⟩
    · obtain ⟨before, call, after, rfl, hnode, hfills, hmissing, hlast⟩ :=
        ih hrun c address (hsuffix.subset hmem)
      refine ⟨before, call, after ++ [op], by simp, hnode, hfills, hmissing, ?_⟩
      intro call' hcall hfills'
      rcases List.mem_append.mp hcall with hcall | hcall
      · exact hlast call' hcall hfills'
      · exact hother call' (List.mem_singleton.mp hcall).symm hfills'

end Prefetching

open Prefetching in
/-- In a run the queues stay within the limit, and hold only addresses that were not readable when
they were queued, exactly when no training that fills a queue finds more than 32 missing addresses.
-/
theorem prefetchQueue_iff {σ : Type} (K : PrefetchConfig σ) {ops : List (PrefetchOp σ)}
    {P : Prefetching} (h : (machine K).Run init ops P) :
    (∀ done P', done <+: ops → (machine K).Run init done P' → P'.WithinLimit ∧
      ∀ c, ∀ address ∈ (P'.queue c).m_prefetch_list, QueuedBy K done c address) ↔
    ∀ call, .trainPrefetcher call ∈ ops → Fills K call →
      (missing K call).length ≤ PREFETCH_MAX_QUEUE_LENGTH := by
  have halways := Machine.Run.always_iff (M := machine K) (J := fun _ => True) (P := WithinLimit)
    (B := fun _ => Overfills K) ?_ h trivial fun _ => Nat.zero_le _
  · constructor
    · intro hall call hmem hfills
      obtain ⟨done, rest, rfl⟩ := List.append_of_mem hmem
      have hprefix : done ++ [.trainPrefetcher call] <+: done ++ .trainPrefetcher call :: rest :=
        ⟨rest, by simp⟩
      obtain ⟨P', hrun⟩ := h.of_prefix ((List.prefix_append done _).trans hprefix)
      have hnot := halways.mp (fun done P' hp hr => (hall done P' hp hr).1) done _ P' hprefix hrun
      exact not_lt.mp fun hlong => hnot ⟨hfills, hlong⟩
    · intro hshort done P' hp hrun
      refine ⟨halways.mpr ?_ done P' hp hrun, run_queuedBy hrun⟩
      intro done op _ hp _ hover
      cases op with
      | trainPrefetcher call =>
        have hmem : .trainPrefetcher call ∈ ops := hp.subset (by simp)
        exact absurd (hshort call hmem hover.1) (not_le.mpr hover.2)
      | prefetch | prefetched => exact hover
  · intro P op P' _ _ hexec
    cases hexec
    exact ⟨trivial, fun hP => step_withinLimit op hP⟩

/-- Caches of one block each with a prefetcher, and a training after a miss with every cache empty.
-/
def Prefetching.oneBlock : PrefetchConfig Unit :=
  { (Hierarchy.funnel 0 1).oneBlock true with
    m_prefetch_on_prefetch_hit := fun _ => false
    INVALID_ADDRESS := 2 ^ 64 - 1 }

def Prefetching.coldTraining (prefetchList : List ℕ) : TrainCall Unit where
  cntlr := ⟨0, 0⟩
  cache_hit := false
  prefetch_hit := false
  t_issue := 0
  prefetchList := prefetchList
  mem := (Sys.init fun _ _ => ()).mem

open Prefetching in
theorem Prefetching.missing_coldTraining (prefetchList : List ℕ) :
    missing oneBlock (coldTraining prefetchList) = prefetchList := by
  apply List.filter_eq_self.mpr
  intro address _
  unfold readable
  rw [CacheCntlr.getCacheState_eq]
  exact congrArg (fun st => !MemOp.read.permits st) (Sys.line_init (fun _ _ => ()) _ _)

open Prefetching in
theorem prefetchQueue_iff_three : ∃ P, (machine oneBlock).Run init
    [.trainPrefetcher (coldTraining [0, 64, 128])] P ∧ P.WithinLimit := by
  have hrun : (machine oneBlock).Run init [.trainPrefetcher (coldTraining [0, 64, 128])] _ :=
    .snoc (.nil init) trivial rfl
  refine ⟨_, hrun, ((prefetchQueue_iff oneBlock hrun).mpr ?_ _ _ List.prefix_rfl hrun).1⟩
  intro call hcall _
  cases List.mem_singleton.mp hcall
  rw [missing_coldTraining]
  decide

open Prefetching in
/-- A list of 33 missing lines is queued as a whole. -/
theorem prefetchQueue_overfull : ∃ P, (machine oneBlock).Run init
    [.trainPrefetcher (coldTraining ((List.range 33).map (64 * ·)))] P ∧
      (P.queue ⟨0, 0⟩).m_prefetch_list.length = 33 ∧ ¬P.WithinLimit := by
  have hlist : (trainPrefetcher oneBlock (coldTraining ((List.range 33).map (64 * ·)))
      ⟨[], 0⟩).m_prefetch_list.length = 33 := by
    rw [trainPrefetcher_list (.inl rfl), missing_coldTraining]
    decide
  refine ⟨_, .snoc (.nil init) trivial rfl, hlist, ?_⟩
  intro hlimit
  exact absurd (hlist.symm.trans_le (hlimit ⟨0, 0⟩)) (by decide)

end Sniper
