import Sniper.BlockWalk
import Sniper.MagicCommands

namespace Sniper

/-- A filter of `test` that is compiled with `SNIPER`: its arrays, and the operations that it
reports for each byte of a pixel. The mean filter reports no multiplications. -/
structure FilterProgram where
  WIDHEI : ℕ
  srcImageWidth : ℕ
  srcImage : ℕ
  dstImage : ℕ
  adds : ℕ
  muls : Option ℕ

namespace FilterProgram

def sobel (WIDHEI srcImageWidth srcImage dstImage : ℕ) : FilterProgram :=
  ⟨WIDHEI, srcImageWidth, srcImage, dstImage, 16, some 18⟩

def laplacian (WIDHEI srcImageWidth srcImage dstImage : ℕ) : FilterProgram :=
  ⟨WIDHEI, srcImageWidth, srcImage, dstImage, 24, some 25⟩

def sharp (WIDHEI srcImageWidth srcImage dstImage : ℕ) : FilterProgram :=
  ⟨WIDHEI, srcImageWidth, srcImage, dstImage, 8, some 9⟩

def amean (WIDHEI srcImageWidth srcImage dstImage : ℕ) : FilterProgram :=
  ⟨WIDHEI, srcImageWidth, srcImage, dstImage, 8, none⟩

variable (P : FilterProgram)

/-- `WIDHEI*WIDHEI*3`. -/
def imageBytes : ℕ := P.WIDHEI * P.WIDHEI * 3

/-- `&dstImage[x][y][channel]`. -/
def dstByte (x y channel : ℕ) : ℕ := P.dstImage + ((x * P.WIDHEI + y) * 3 + channel)

/-- The commands for the pixel in row `x` and column `y`: the multiplications go to the transposed
one. -/
def pixelCommands (x y : ℕ) : List MagicCommand :=
  (List.range 3).map (fun channel => .addCnt (P.dstByte x y channel) P.adds) ++
    match P.muls with
    | none => []
    | some muls => (List.range 3).map fun channel => .mulCnt (P.dstByte y x channel) muls

def sweepCommands : List MagicCommand :=
  (List.range P.srcImageWidth).flatMap fun x =>
    (List.range P.srcImageWidth).flatMap fun y => P.pixelCommands x y

/-- The commands of `main`, up to the first one that removes an array. -/
def startCommands : List MagicCommand :=
  [.roiStart, .addApproxAddrs P.srcImage P.imageBytes, .addApproxAddrs P.dstImage P.imageBytes] ++
    P.sweepCommands

/-- All commands of `main`. -/
def commands : List MagicCommand :=
  P.startCommands ++ .delApproxAddrs P.srcImage P.imageBytes ::
    [.delApproxAddrs P.dstImage P.imageBytes, .roiEnd]

/-- The arrays lie in the address space, one beside the other, their size is an `int`, and so are
the numbers of operations. -/
structure Fits : Prop where
  width : P.srcImageWidth ≤ P.WIDHEI
  size : P.imageBytes < 2 ^ 31
  src : P.srcImage + P.imageBytes ≤ 2 ^ 64
  dst : P.dstImage + P.imageBytes ≤ 2 ^ 64
  apart : P.srcImage + P.imageBytes ≤ P.dstImage ∨ P.dstImage + P.imageBytes ≤ P.srcImage
  adds : P.adds < 2 ^ 31
  muls : ∀ muls ∈ P.muls, muls < 2 ^ 31

/-- What the program reports for each byte. -/
def reports (c : Counter) : ℕ :=
  match c with
  | .approx_add_cnt => P.adds
  | .approx_mul_cnt => P.muls.getD 0
  | _ => 0

end FilterProgram

namespace SimEvent

def toCommand : SimEvent → Option MagicCommand
  | .magic c => some c
  | .memory _ => none

/-- The event reports operations of the byte `a`. -/
def counts (a : ℕ) (c : Counter) : SimEvent → Bool
  | .magic (.addCnt arg0 _) => arg0 = a ∧ c = .approx_add_cnt
  | .magic (.mulCnt arg0 _) => arg0 = a ∧ c = .approx_mul_cnt
  | _ => false

def amount : SimEvent → ℤ
  | .magic (.addCnt _ arg1) | .magic (.mulCnt _ arg1) => toInt arg1
  | _ => 0

/-- The core reads the byte `a` back. -/
def readsBack (a : ℕ) : SimEvent → Bool
  | .memory (.core mem_component mem_op_type address offset data_length) =>
    ((mem_op_type = .read ∨ mem_op_type = .readEx) ∧ mem_component = .l1Dcache) ∧
      InRange (address + offset) data_length a
  | _ => false

/-- A report for the byte with a read of it behind. -/
def readAfter (a : ℕ) (c : Counter) : List SimEvent → Bool
  | [] => false
  | e :: events => e.counts a c && events.any (readsBack a) || readAfter a c events

/-- The event registers nothing and removes nothing. -/
def Quiet : SimEvent → Prop
  | .memory _ | .magic .roiStart | .magic .roiEnd => True
  | .magic (.addCnt ..) | .magic (.mulCnt ..) => True
  | _ => False

variable {a : ℕ} {c : Counter} {events events' : List SimEvent} {e : SimEvent}

theorem readAfter_append : readAfter a c (events ++ events') =
    (readAfter a c events || readAfter a c events' ||
      events.any (counts a c) && events'.any (readsBack a)) := by
  induction events with
  | nil => simp [readAfter]
  | cons e events ih =>
    simp only [List.cons_append, readAfter, ih, List.any_append, List.any_cons]
    cases e.counts a c <;> cases events.any (counts a c) <;> cases readAfter a c events <;>
      cases readAfter a c events' <;> cases events.any (readsBack a) <;>
        cases events'.any (readsBack a) <;> rfl

theorem readAfter_concat : readAfter a c (events ++ [e]) =
    (readAfter a c events || events.any (counts a c) && e.readsBack a) := by
  have hsingle : readAfter a c [e] = false := by
    simp only [readAfter, List.any_nil, Bool.and_false, Bool.or_false]
  have hany : [e].any (readsBack a) = e.readsBack a := Bool.or_false _
  rw [readAfter_append, hsingle, hany, Bool.or_false]

theorem any_of_readAfter (h : readAfter a c events = true) : events.any (counts a c) = true := by
  induction events with
  | nil => cases h
  | cons e events ih =>
    rw [readAfter, Bool.or_eq_true, Bool.and_eq_true] at h
    rw [List.any_cons, Bool.or_eq_true]
    exact h.imp And.left ih

/-- Reads before the first report do not count. -/
theorem readAfter_skip (h : events.any (counts a c) = false) :
    readAfter a c (events ++ events') = readAfter a c events' := by
  have hread : readAfter a c events = false := by
    rw [Bool.eq_false_iff]
    intro hread
    rw [any_of_readAfter hread] at h
    cases h
  rw [readAfter_append, hread, h, Bool.false_and, Bool.or_false, Bool.false_or]

theorem eq_magic {cmd : MagicCommand} (h : e.toCommand = some cmd) : e = .magic cmd := by
  cases e with
  | magic cmd' => rw [Option.some.inj h]
  | memory e => cases h

theorem any_eq_false (h : events.countP (counts a c) = 0) : events.any (counts a c) = false := by
  rw [List.any_eq_false]
  exact List.countP_eq_zero.mp h

end SimEvent

namespace MagicState

variable {cfg : MagicConfig} {S : MagicState} {e : SimEvent} {a : ℕ} {c : Counter}

theorem setPerformance_server (b : Bool) : (S.setPerformance b).1.server = S.server := by
  unfold setPerformance
  split <;> rfl

/-- A counted access is not among the operations of the program. -/
theorem incCnt_op (hc : c.IsOp) (v : AppVar) (type : AccessType) (cid : ℕ) (cachelvl : CacheName) :
    (v.incCnt type cid cachelvl).poten c = v.poten c ∧
      (v.incCnt type cid cachelvl).footprint c = v.footprint c := by
  cases hcounter : type.counter cid cachelvl with
  | none =>
    rw [AppVar.incCnt_of_none hcounter]
    exact ⟨rfl, rfl⟩
  | some d =>
    have hne : c ≠ d := fun h => MagicServer.counter_not_isOp hcounter (h ▸ hc)
    rw [AppVar.incCnt_of_some hcounter]
    exact ⟨Function.update_of_ne hne _ _, rfl⟩

theorem bump_op (v : AppVar) (d : Counter) (val : ℤ) : (v.bump d val).poten c =
    (if c = d then asInt (v.poten c + val) else v.poten c) ∧
      (v.bump d val).footprint c = v.footprint c := by
  refine ⟨?_, rfl⟩
  by_cases h : c = d
  · rw [if_pos h, h]
    exact Function.update_self ..
  · rw [if_neg h]
    exact Function.update_of_ne h ..

theorem commit_op (hc : c.IsOp) (v : AppVar) : v.upsave.reset.poten c = v.poten c ∧
    v.upsave.reset.footprint c = max (v.poten c) (v.footprint c) := by
  refine ⟨?_, rfl⟩
  rcases hc with rfl | rfl <;> rfl

/-- What a quiet event does to the operations of an entry: its amount is added to the potential
count, and a read back saves that. -/
structure OpEffect (a : ℕ) (e : SimEvent) (v v' : AppVar) : Prop where
  poten : ∀ c : Counter, c.IsOp →
    v'.poten c = if e.counts a c then asInt (v.poten c + e.amount) else v.poten c
  footprint : ∀ c : Counter, c.IsOp →
    v'.footprint c = if e.readsBack a then max (v.poten c) (v.footprint c) else v.footprint c

theorem OpEffect.nothing (hcounts : ∀ c, e.counts a c = false) (hreads : e.readsBack a = false)
    {v v' : AppVar}
    (hf : ∀ c : Counter, c.IsOp → v'.poten c = v.poten c ∧ v'.footprint c = v.footprint c) :
    OpEffect a e v v' where
  poten c hc := by rw [hcounts c, if_neg Bool.false_ne_true, (hf c hc).1]
  footprint c hc := by rw [hreads, if_neg Bool.false_ne_true, (hf c hc).2]

/-- The event does to the entry of a byte what it is for the operations of the byte. -/
def Follows (cfg : MagicConfig) (S : MagicState) (a : ℕ) (e : SimEvent) : Prop :=
  Option.Rel (OpEffect a e) (S.server.approx_vars.find a)
    ((S.step cfg e).server.approx_vars.find a)

theorem Follows.of_map {f : AppVar → AppVar} (hf : ∀ v, OpEffect a e v (f v))
    (hfind : (S.step cfg e).server.approx_vars.find a = (S.server.approx_vars.find a).map f) :
    Follows cfg S a e := by
  unfold Follows
  rw [hfind]
  cases S.server.approx_vars.find a with
  | none => exact .none
  | some v => exact .some (hf v)

/-- A registered byte stays registered. -/
theorem Follows.exists_some (h : Follows cfg S a e) {v : AppVar}
    (hv : S.server.approx_vars.find a = some v) :
    ∃ v', (S.step cfg e).server.approx_vars.find a = some v' ∧ OpEffect a e v v' := by
  unfold Follows at h
  rw [hv] at h
  generalize (S.step cfg e).server.approx_vars.find a = o at h ⊢
  cases h with
  | some h => exact ⟨_, rfl, h⟩

theorem Follows.of_same (hcounts : ∀ c, e.counts a c = false) (hreads : e.readsBack a = false)
    (hsame : (S.step cfg e).server.approx_vars.find a = S.server.approx_vars.find a) :
    Follows cfg S a e :=
  .of_map (fun _ => .nothing hcounts hreads fun _ _ => ⟨rfl, rfl⟩)
    (hsame.trans (congrFun Option.map_id _).symm)

theorem follows_access (type : AccessType) (address cid : ℕ) (cachelvl : CacheName) (n : UInt32) :
    Follows cfg S a (.memory (.access type address cid cachelvl n)) := by
  have hserver : (S.step cfg (.memory (.access type address cid cachelvl n))).server =
    S.server.addAcc (fun v => v.incCnt type cid cachelvl) address n.toNat :=
    MagicServer.count_access ..
  by_cases hreach : S.server.Reached address n.toNat a
  · refine .of_map
      (fun v => .nothing (fun _ => rfl) rfl fun c hc => incCnt_op hc v type cid cachelvl) ?_
    rw [hserver]
    exact MagicServer.find_addAcc_of_reached (MagicServer.toNat_le_space n) _ hreach
  · apply Follows.of_same (fun _ => rfl) rfl
    rw [hserver]
    exact MagicServer.find_addAcc_of_not_reached (MagicServer.toNat_le_space n) _ hreach

theorem follows_core (hfootprint : cfg.mem_footprint = true) (mem_component : MemComponent)
    (mem_op_type : MemOp) (address offset n : ℕ) :
    Follows cfg S a (.memory (.core mem_component mem_op_type address offset n)) := by
  have hserver : (S.step cfg (.memory (.core mem_component mem_op_type address offset n))).server =
    S.server.coreInitiateMemoryAccess mem_component mem_op_type address offset n :=
    if_pos hfootprint
  by_cases hread : (mem_op_type = .read ∨ mem_op_type = .readEx) ∧ mem_component = .l1Dcache
  · have hcommit :
        (S.step cfg (.memory (.core mem_component mem_op_type address offset n))).server =
          S.server.commitRead (address + offset) n := hserver.trans (if_pos hread)
    apply Follows.of_map
      (f := fun v => if InRange (address + offset) n a then v.upsave.reset else v)
    · refine fun v => ⟨fun c hc => ?_, fun c hc => ?_⟩
      · have hcounts :
          SimEvent.counts a c
            (.memory (.core mem_component mem_op_type address offset n)) = false := rfl
        rw [hcounts, if_neg Bool.false_ne_true]
        split
        · exact (commit_op hc v).1
        · rfl
      · simp only [SimEvent.readsBack, hread, true_and, decide_eq_true_eq]
        split
        · exact (commit_op hc v).2
        · rfl
    · rw [hcommit]
      exact MagicServer.find_commitRead
  · have hreads :
        SimEvent.readsBack a (.memory (.core mem_component mem_op_type address offset n)) =
          false := decide_eq_false fun h => hread h.1
    apply Follows.of_same (fun _ => rfl) hreads
    rw [hserver]
    exact congrArg (fun m : MagicServer => m.approx_vars.find a) (if_neg hread)

theorem follows_dram (address now lpacc : ℕ) (RW : Bool) (n : ℕ) :
    Follows cfg S a (.memory (.dram address now lpacc RW n)) := by
  have hkept := S.server.map_find_updateLiftime address now lpacc RW n a
  have hfind : (S.step cfg (.memory (.dram address now lpacc RW n))).server.approx_vars.find a =
    (S.server.updateLiftime address now lpacc RW n).1.approx_vars.find a := rfl
  unfold Follows
  rw [hfind]
  cases hv' : (S.server.updateLiftime address now lpacc RW n).1.approx_vars.find a with
  | none =>
    rw [hv', Option.map_none] at hkept
    rw [Option.map_eq_none_iff.mp hkept.symm]
    exact .none
  | some v' =>
    rw [hv', Option.map_some] at hkept
    obtain ⟨v, hv, hcounts⟩ := Option.map_eq_some_iff.mp hkept.symm
    rw [hv]
    have hrest := congrArg Prod.snd hcounts
    refine .some (.nothing (fun _ => rfl) rfl fun c _ => ?_)
    exact ⟨(congrFun (congrArg Prod.snd hrest) c).symm, (congrFun (congrArg Prod.fst hrest) c).symm⟩

/-- A command that reports operations of the kind `d` of the byte `arg0`. -/
theorem follows_report {arg0 : ℕ} {d : Counter}
    (hcounts : ∀ c, e.counts a c = decide (arg0 = a ∧ c = d))
    (hreads : e.readsBack a = false) (hfind : (S.step cfg e).server.approx_vars.find a =
      (S.server.approx_vars.find a).map fun v => if a = arg0 then v.bump d e.amount else v) :
    Follows cfg S a e := by
  refine .of_map (fun v => ⟨fun c _ => ?_, fun c _ => ?_⟩) hfind
  · rw [hcounts c]
    by_cases ha : a = arg0
    · rw [if_pos ha, (bump_op v d e.amount).1]
      simp only [ha, true_and, decide_eq_true_eq]
    · rw [if_neg ha, if_neg]
      rw [decide_eq_true_eq]
      exact fun h => ha h.1.symm
  · rw [hreads, if_neg Bool.false_ne_true]
    split
    · exact (bump_op v d e.amount).2
    · rfl

theorem follows_quiet (hfootprint : cfg.mem_footprint = true) (he : e.Quiet) :
    Follows cfg S a e := by
  cases e with
  | memory e =>
    cases e with
    | access type address cid cachelvl n => exact follows_access ..
    | core mem_component mem_op_type address offset n => exact follows_core hfootprint ..
    | dram address now lpacc RW n => exact follows_dram ..
  | magic c =>
    cases c with
    | addCnt arg0 arg1 =>
      exact follows_report (fun _ => rfl) rfl (MagicServer.find_addCnt arg1)
    | mulCnt arg0 arg1 =>
      exact follows_report (fun _ => rfl) rfl (MagicServer.find_mulCnt arg1)
    | roiStart | roiEnd =>
      refine Follows.of_same (fun _ => rfl) rfl ?_
      simp only [step, magic]
      split
      · rw [setPerformance_server]
      · rfl
    | _ => cases he

def after (cfg : MagicConfig) (S : MagicState) (events : List SimEvent) : MagicState :=
  events.foldl (step cfg) S

theorem after_append (events events' : List SimEvent) :
    S.after cfg (events ++ events') = (S.after cfg events).after cfg events' := List.foldl_append

theorem after_cons (e : SimEvent) (events : List SimEvent) :
    S.after cfg (e :: events) = (S.step cfg e).after cfg events := rfl

section

variable {events : List SimEvent} (hfootprint : cfg.mem_footprint = true)
  (hquiet : ∀ e ∈ events, e.Quiet)
include hfootprint hquiet

theorem find_after_none (hnone : S.server.approx_vars.find a = none) :
    (S.after cfg events).server.approx_vars.find a = none := by
  induction events using List.reverseRecOn with
  | nil => exact hnone
  | append_singleton events e ih =>
    have hbefore := ih fun x hx => hquiet x (List.mem_append_left _ hx)
    have hrel := follows_quiet (S := S.after cfg events) (a := a) hfootprint
      (hquiet e (List.mem_append_right _ (List.mem_singleton_self e)))
    unfold Follows at hrel
    rw [hbefore] at hrel
    rw [after_append]
    generalize hv : (((S.after cfg events).step cfg e).server.approx_vars.find a) = o at hrel
    cases hrel
    exact hv

/-- The operations of a byte that is reported at most once: the potential count is there from the
report on, the saved one from the first read back behind it. -/
theorem find_after_some {A : ℤ} (hA : 0 ≤ A) (hint : A < 2 ^ 31) (hc : c.IsOp)
    (honce : events.countP (SimEvent.counts a c) ≤ 1)
    (hamount : ∀ e ∈ events, e.counts a c = true → e.amount = A) {v : AppVar}
    (hv : S.server.approx_vars.find a = some v) (hpoten : v.poten c = 0)
    (hsaved : v.footprint c = 0) :
    ∃ v', (S.after cfg events).server.approx_vars.find a = some v' ∧
      v'.poten c = (if events.any (SimEvent.counts a c) then A else 0) ∧
        v'.footprint c = if SimEvent.readAfter a c events then A else 0 := by
  induction events using List.reverseRecOn with
  | nil => exact ⟨v, hv, hpoten, hsaved⟩
  | append_singleton events e ih =>
    rw [List.countP_append] at honce
    obtain ⟨v₁, hv₁, hpoten₁, hsaved₁⟩ := ih (fun x hx => hquiet x (List.mem_append_left _ hx))
      (by omega) fun x hx => hamount x (List.mem_append_left _ hx)
    have hlast : e ∈ events ++ [e] := List.mem_append_right _ (List.mem_singleton_self e)
    obtain ⟨v₂, hv₂, hf⟩ :=
      (follows_quiet (S := S.after cfg events) (a := a) hfootprint (hquiet e hlast)).exists_some hv₁
    refine ⟨v₂, ?_, ?_, ?_⟩
    · rw [after_append]
      exact hv₂
    · have hsingle : [e].any (SimEvent.counts a c) = e.counts a c := Bool.or_false _
      rw [hf.poten c hc, hpoten₁, List.any_append, hsingle]
      by_cases he : e.counts a c = true
      · have hnone : events.any (SimEvent.counts a c) = false := by
          rw [List.countP_singleton, if_pos he] at honce
          exact SimEvent.any_eq_false (by omega)
        rw [hnone, he, if_neg Bool.false_ne_true, if_pos rfl, hamount e hlast he, zero_add,
          asInt_of_fits (by omega) hint]
        rfl
      · rw [if_neg he, Bool.eq_false_iff.mpr he, Bool.or_false]
    · rw [hf.footprint c hc, hpoten₁, hsaved₁, SimEvent.readAfter_concat]
      by_cases he : e.readsBack a = true
      · rw [if_pos he, he, Bool.and_true]
        by_cases hany : events.any (SimEvent.counts a c) = true
        · rw [if_pos hany, hany, Bool.or_true, if_pos rfl]
          split <;> omega
        · have hread : SimEvent.readAfter a c events = false :=
            Bool.eq_false_iff.mpr fun h => hany (SimEvent.any_of_readAfter h)
          rw [hread, Bool.eq_false_iff.mpr hany]
          rfl
      · rw [if_neg he, Bool.eq_false_iff.mpr he, Bool.and_false, Bool.or_false]

end

end MagicState

namespace FilterProgram

variable {P : FilterProgram} {a : ℕ} {c : Counter}

theorem dstByte_inj {x y channel x' y' channel' : ℕ} (hy : y < P.WIDHEI) (hy' : y' < P.WIDHEI)
    (hc : channel < 3) (hc' : channel' < 3)
    (h : P.dstByte x y channel = P.dstByte x' y' channel') :
    x = x' ∧ y = y' ∧ channel = channel' := by
  unfold dstByte at h
  have hpixel : x * P.WIDHEI + y = x' * P.WIDHEI + y' := by omega
  have hmod := congrArg (· % P.WIDHEI) hpixel
  simp only [Nat.mul_add_mod', Nat.mod_eq_of_lt hy, Nat.mod_eq_of_lt hy'] at hmod
  have hrow : x * P.WIDHEI = x' * P.WIDHEI := by omega
  exact ⟨Nat.eq_of_mul_eq_mul_right (by omega) hrow, hmod, by omega⟩

theorem mem_pixelCommands {x y : ℕ} {cmd : MagicCommand} : cmd ∈ P.pixelCommands x y ↔
    ∃ channel < 3, cmd = .addCnt (P.dstByte x y channel) P.adds ∨
      ∃ muls, P.muls = some muls ∧ cmd = .mulCnt (P.dstByte y x channel) muls := by
  unfold pixelCommands
  cases P.muls with
  | none =>
    simp only [List.append_nil, List.mem_map, List.mem_range, reduceCtorEq, false_and, exists_false,
      or_false, eq_comm]
  | some muls =>
    simp only [List.mem_append, List.mem_map, List.mem_range, Option.some.injEq, exists_eq_left',
      and_or_left, exists_or, eq_comm]

/-- A command is for one pixel. -/
theorem pixel_unique {x y x' y' : ℕ} (hx : x < P.WIDHEI) (hy : y < P.WIDHEI) (hx' : x' < P.WIDHEI)
    (hy' : y' < P.WIDHEI) {cmd : MagicCommand} (h : cmd ∈ P.pixelCommands x y)
    (h' : cmd ∈ P.pixelCommands x' y') : x = x' ∧ y = y' := by
  obtain ⟨channel, hc, hcmd⟩ := mem_pixelCommands.mp h
  obtain ⟨channel', hc', hcmd'⟩ := mem_pixelCommands.mp h'
  rcases hcmd with rfl | ⟨muls, -, rfl⟩
  · rcases hcmd' with heq | ⟨muls', -, heq⟩
    · obtain ⟨rfl, rfl, -⟩ := dstByte_inj hy hy' hc hc' (MagicCommand.addCnt.inj heq).1
      exact ⟨rfl, rfl⟩
    · cases heq
  · rcases hcmd' with heq | ⟨muls', -, heq⟩
    · cases heq
    · obtain ⟨rfl, rfl, -⟩ := dstByte_inj hx hx' hc hc' (MagicCommand.mulCnt.inj heq).1
      exact ⟨rfl, rfl⟩

theorem nodup_pixelCommands {x y : ℕ} : (P.pixelCommands x y).Nodup := by
  have hadd : ((List.range 3).map fun channel =>
      MagicCommand.addCnt (P.dstByte x y channel) P.adds).Nodup := by
    refine List.nodup_range.map fun channel channel' heq => ?_
    have hbyte := (MagicCommand.addCnt.inj heq).1
    unfold dstByte at hbyte
    omega
  unfold pixelCommands
  cases P.muls with
  | none => simpa only [List.append_nil] using hadd
  | some muls =>
    refine List.nodup_append.mpr ⟨hadd, List.nodup_range.map fun channel channel' heq => ?_, ?_⟩
    · have hbyte := (MagicCommand.mulCnt.inj heq).1
      unfold dstByte at hbyte
      omega
    · intro cmd hcmd cmd' hcmd' heq
      obtain ⟨channel, -, rfl⟩ := List.mem_map.mp hcmd
      obtain ⟨channel', -, rfl⟩ := List.mem_map.mp hcmd'
      cases heq

theorem nodup_sweep (hP : P.Fits) : P.sweepCommands.Nodup := by
  have hwidth := hP.width
  unfold sweepCommands
  rw [List.nodup_flatMap]
  constructor
  · intro x hx
    rw [List.mem_range] at hx
    rw [List.nodup_flatMap]
    constructor
    · intro y hy
      rw [List.mem_range] at hy
      exact nodup_pixelCommands
    · refine List.nodup_range.imp_of_mem fun {y y'} hy hy' hne => ?_
      rw [List.mem_range] at hy hy'
      intro cmd hcmd hcmd'
      exact hne (pixel_unique (by omega) (by omega) (by omega) (by omega) hcmd hcmd').2
  · refine List.nodup_range.imp_of_mem fun {x x'} hx hx' hne => ?_
    rw [List.mem_range] at hx hx'
    intro cmd hcmd hcmd'
    obtain ⟨y, hy, hcmd⟩ := List.mem_flatMap.mp hcmd
    obtain ⟨y', hy', hcmd'⟩ := List.mem_flatMap.mp hcmd'
    rw [List.mem_range] at hy hy'
    exact hne (pixel_unique (by omega) (by omega) (by omega) (by omega) hcmd hcmd').1

/-- A command of the sweep that reports operations of a byte is this one. -/
theorem eq_of_counts {cmd : MagicCommand} (h : cmd ∈ P.sweepCommands)
    (hcounts : SimEvent.counts a c (.magic cmd) = true) :
    c = .approx_add_cnt ∧ cmd = .addCnt a P.adds ∨
      c = .approx_mul_cnt ∧ ∃ muls, P.muls = some muls ∧ cmd = .mulCnt a muls := by
  obtain ⟨x, -, h⟩ := List.mem_flatMap.mp h
  obtain ⟨y, -, h⟩ := List.mem_flatMap.mp h
  obtain ⟨channel, -, hcmd⟩ := mem_pixelCommands.mp h
  rcases hcmd with rfl | ⟨muls, hmuls, rfl⟩
  · obtain ⟨rfl, hc⟩ := of_decide_eq_true hcounts
    exact .inl ⟨hc, rfl⟩
  · obtain ⟨rfl, hc⟩ := of_decide_eq_true hcounts
    exact .inr ⟨hc, muls, hmuls, rfl⟩

/-- No byte is reported twice. -/
theorem countP_sweep (hP : P.Fits) :
    P.sweepCommands.countP (fun cmd => SimEvent.counts a c (.magic cmd)) ≤ 1 := by
  rw [List.countP_eq_length_filter]
  have hnodup := (nodup_sweep hP).filter fun cmd => SimEvent.counts a c (.magic cmd)
  have hsame : ∀ cmd ∈ P.sweepCommands.filter fun cmd => SimEvent.counts a c (.magic cmd),
      ∀ cmd' ∈ P.sweepCommands.filter fun cmd => SimEvent.counts a c (.magic cmd), cmd = cmd' := by
    intro cmd hcmd cmd' hcmd'
    rw [List.mem_filter] at hcmd hcmd'
    rcases eq_of_counts hcmd.1 hcmd.2 with ⟨rfl, rfl⟩ | ⟨rfl, muls, hmuls, rfl⟩
    · rcases eq_of_counts hcmd'.1 hcmd'.2 with ⟨-, rfl⟩ | ⟨hc, -⟩
      · rfl
      · cases hc
    · rcases eq_of_counts hcmd'.1 hcmd'.2 with ⟨hc, -⟩ | ⟨-, muls', hmuls', rfl⟩
      · cases hc
      · rw [Option.some.inj (hmuls.symm.trans hmuls')]
  generalize (P.sweepCommands.filter fun cmd => SimEvent.counts a c (.magic cmd)) =
    l at hnodup hsame ⊢
  cases l with
  | nil => exact Nat.zero_le 1
  | cons cmd l =>
    cases l with
    | nil => exact le_rfl
    | cons cmd' l =>
      have heq := hsame cmd List.mem_cons_self cmd' (List.mem_cons_of_mem _ List.mem_cons_self)
      rw [heq, List.nodup_cons] at hnodup
      exact absurd List.mem_cons_self hnodup.1

theorem reports_lt (hP : P.Fits) : (P.reports c : ℤ) < 2 ^ 31 := by
  have hadds := hP.adds
  cases c with
  | approx_add_cnt => exact_mod_cast hadds
  | approx_mul_cnt =>
    cases hmuls : P.muls with
    | none => simp [reports, hmuls]
    | some muls =>
      have := hP.muls muls hmuls
      simp only [reports, hmuls, Option.getD_some]
      omega
  | _ => exact (by decide : (0 : ℤ) < 2 ^ 31)

/-- A byte of one of the two arrays. -/
def InArrays (P : FilterProgram) (a : ℕ) : Prop :=
  InRange P.srcImage P.imageBytes a ∨ InRange P.dstImage P.imageBytes a

theorem not_dst_of_src (hP : P.Fits) (h : InRange P.srcImage P.imageBytes a) :
    ¬InRange P.dstImage P.imageBytes a := by
  have hapart := hP.apart
  rw [inRange_iff hP.src] at h
  rw [inRange_iff hP.dst]
  omega

end FilterProgram

namespace MagicState

variable {cfg : MagicConfig} {S : MagicState} {P : FilterProgram} {a : ℕ} {c : Counter}
  {events : List SimEvent}

/-- The entry of a byte that no operations have been saved for, or counted. -/
def NoOps (S : MagicState) (a : ℕ) : Prop := ∃ v, S.server.approx_vars.find a = some v ∧
  ∀ c : Counter, c.IsOp → v.poten c = 0 ∧ v.footprint c = 0

/-- Events of the memory system only. -/
def Silent (events : List SimEvent) : Prop := ∀ e ∈ events, e.toCommand = none

theorem Silent.quiet (h : Silent events) : ∀ e ∈ events, e.Quiet := by
  intro e he
  cases e with
  | magic cmd => cases h _ he
  | memory e => trivial

theorem Silent.no_counts (h : Silent events) : events.any (SimEvent.counts a c) = false := by
  rw [List.any_eq_false]
  intro e he
  cases e with
  | magic cmd => cases h _ he
  | memory e => exact Bool.false_ne_true

theorem NoOps.silent (hfootprint : cfg.mem_footprint = true) (h : S.NoOps a)
    (hsilent : Silent events) : (S.after cfg events).NoOps a := by
  obtain ⟨v, hv, hzero⟩ := h
  have hnone : ∀ c, events.countP (SimEvent.counts a c) = 0 := fun c =>
    List.countP_eq_zero.mpr (List.any_eq_false.mp hsilent.no_counts)
  have hop : ∀ c : Counter, c.IsOp →
      ∃ v', (S.after cfg events).server.approx_vars.find a = some v' ∧
      v'.poten c = 0 ∧ v'.footprint c = 0 := by
    intro c hc
    obtain ⟨v', hv', hpoten, hsaved⟩ := find_after_some hfootprint hsilent.quiet le_rfl
      (by decide) hc ((hnone c).trans_le (Nat.zero_le 1)) (fun e he hcounts => absurd hcounts
        (List.any_eq_false.mp hsilent.no_counts e he)) hv (hzero c hc).1 (hzero c hc).2
    rw [ite_self] at hpoten hsaved
    exact ⟨v', hv', hpoten, hsaved⟩
  obtain ⟨v', hv', -⟩ := hop .approx_add_cnt (.inl rfl)
  refine ⟨v', hv', fun c hc => ?_⟩
  obtain ⟨v'', hv'', hboth⟩ := hop c hc
  rw [hv'] at hv''
  rw [Option.some.inj hv'']
  exact hboth

theorem NoOps.create {S' : MagicState} (h : S'.server.approx_vars.find a = some .create) :
    S'.NoOps a :=
  ⟨.create, h, fun _ _ => ⟨rfl, rfl⟩⟩

/-- The two commands that register the arrays, with accesses before, between and behind them. -/
theorem registered (hfootprint : cfg.mem_footprint = true) (hP : P.Fits)
    (hempty : S.server.approx_vars.find a = none) {first second : List SimEvent}
    (hfirst : ∀ e ∈ first, e.Quiet) (hsecond : Silent second) :
    let S' := S.after cfg (first ++ .magic (.addApproxAddrs P.srcImage P.imageBytes) ::
      second ++ [.magic (.addApproxAddrs P.dstImage P.imageBytes)])
    (P.InArrays a → S'.NoOps a) ∧ (¬P.InArrays a → S'.server.approx_vars.find a = none) := by
  intro S'
  let S₁ := S.after cfg first
  let S₂ := S₁.step cfg (.magic (.addApproxAddrs P.srcImage P.imageBytes))
  let S₃ := S₂.after cfg second
  have hlast : S' = S₃.step cfg (.magic (.addApproxAddrs P.dstImage P.imageBytes)) := by
    unfold S'
    rw [List.append_cons, after_append, after_append, after_append]
    rfl
  have hfind₁ : S₁.server.approx_vars.find a = none := find_after_none hfootprint hfirst hempty
  have hfind₂ : S₂.server.approx_vars.find a = if InRange P.srcImage P.imageBytes a then
      some ((S₁.server.approx_vars.find a).getD .create) else S₁.server.approx_vars.find a :=
    MagicServer.find_addRange
  have hfind : S'.server.approx_vars.find a = if InRange P.dstImage P.imageBytes a then
      some ((S₃.server.approx_vars.find a).getD .create) else S₃.server.approx_vars.find a := by
    rw [hlast]
    exact MagicServer.find_addRange
  rw [hfind₁] at hfind₂
  by_cases hsrc : InRange P.srcImage P.imageBytes a
  · rw [if_pos hsrc] at hfind₂
    rw [if_neg (FilterProgram.not_dst_of_src hP hsrc)] at hfind
    obtain ⟨v, hv, hzero⟩ := (NoOps.create hfind₂).silent hfootprint hsecond
    exact ⟨fun _ => ⟨v, hfind.trans hv, hzero⟩, fun hno => absurd (.inl hsrc) hno⟩
  · rw [if_neg hsrc] at hfind₂
    have hfind₃ : S₃.server.approx_vars.find a = none :=
      find_after_none hfootprint hsecond.quiet hfind₂
    rw [hfind₃] at hfind
    by_cases hdst : InRange P.dstImage P.imageBytes a
    · rw [if_pos hdst] at hfind
      exact ⟨fun _ => NoOps.create hfind, fun hno => absurd (.inr hdst) hno⟩
    · rw [if_neg hdst] at hfind
      exact ⟨fun hin => absurd hin (not_or.mpr ⟨hsrc, hdst⟩), fun _ => hfind⟩

section

variable (h : events.filterMap SimEvent.toCommand = P.sweepCommands)
include h

theorem mem_sweep_of_magic {cmd : MagicCommand} (hcmd : .magic cmd ∈ events) :
    cmd ∈ P.sweepCommands := by
  rw [← h]
  exact List.mem_filterMap.mpr ⟨_, hcmd, rfl⟩

theorem sweep_quiet : ∀ e ∈ events, e.Quiet := by
  intro e he
  cases e with
  | memory e => trivial
  | magic cmd =>
    obtain ⟨x, -, hcmd⟩ := List.mem_flatMap.mp (mem_sweep_of_magic h he)
    obtain ⟨y, -, hcmd⟩ := List.mem_flatMap.mp hcmd
    obtain ⟨channel, -, hkind⟩ := FilterProgram.mem_pixelCommands.mp hcmd
    rcases hkind with rfl | ⟨muls, -, rfl⟩ <;> trivial

theorem sweep_once (hP : P.Fits) : events.countP (SimEvent.counts a c) ≤ 1 := by
  have hcount : events.countP (SimEvent.counts a c) =
      P.sweepCommands.countP fun cmd => SimEvent.counts a c (.magic cmd) := by
    rw [← h, List.countP_filterMap]
    apply List.countP_congr
    intro e _
    cases e with
    | memory e => rfl
    | magic cmd => rfl
  rw [hcount]
  exact FilterProgram.countP_sweep hP

theorem sweep_amount (hP : P.Fits) :
    ∀ e ∈ events, e.counts a c = true → e.amount = (P.reports c : ℤ) := by
  intro e he hcounts
  have hint : ∀ k < 2 ^ 31, toInt k = k := by
    intro k hk
    exact asInt_of_fits (by omega) (by omega)
  cases e with
  | memory e => cases hcounts
  | magic cmd =>
    rcases FilterProgram.eq_of_counts (mem_sweep_of_magic h he) hcounts with
      ⟨rfl, rfl⟩ | ⟨rfl, muls, hmuls, rfl⟩
    · exact hint P.adds hP.adds
    · refine (hint muls (hP.muls muls hmuls)).trans ?_
      rw [FilterProgram.reports, hmuls, Option.getD_some]

/-- What the sweep leaves saved of a byte without operations. -/
theorem find_sweep (hfootprint : cfg.mem_footprint = true) (hP : P.Fits) (hS : S.NoOps a) :
    ∃ v, (S.after cfg events).server.approx_vars.find a = some v ∧
      ∀ c : Counter, c.IsOp → v.footprint c =
        if SimEvent.readAfter a c events then (P.reports c : ℤ) else 0 := by
  obtain ⟨v, hv, hzero⟩ := hS
  have hop : ∀ c : Counter, c.IsOp →
      ∃ v', (S.after cfg events).server.approx_vars.find a = some v' ∧
      v'.footprint c = if SimEvent.readAfter a c events then (P.reports c : ℤ) else 0 := by
    intro c hc
    obtain ⟨v', hv', -, hsaved⟩ := find_after_some hfootprint (sweep_quiet h)
      (Int.natCast_nonneg (P.reports c)) (FilterProgram.reports_lt hP) hc (sweep_once h hP)
      (sweep_amount h hP) hv (hzero c hc).1 (hzero c hc).2
    exact ⟨v', hv', hsaved⟩
  obtain ⟨v', hv', -⟩ := hop .approx_add_cnt (.inl rfl)
  refine ⟨v', hv', fun c hc => ?_⟩
  obtain ⟨v'', hv'', hsaved⟩ := hop c hc
  rw [hv'] at hv''
  rw [Option.some.inj hv'']
  exact hsaved

end

/-- The registry before the first removal, however the accesses come between the commands. -/
theorem before_removal (hfootprint : cfg.mem_footprint = true) (hP : P.Fits)
    (hempty : S.server.approx_vars.find a = none)
    (h : events.filterMap SimEvent.toCommand = P.startCommands) :
    (P.InArrays a → ∃ v, (S.after cfg events).server.approx_vars.find a = some v ∧
      ∀ c : Counter, c.IsOp → v.footprint c =
        if SimEvent.readAfter a c events then (P.reports c : ℤ) else 0) ∧
    (¬P.InArrays a → (S.after cfg events).server.approx_vars.find a = none) := by
  obtain ⟨l₁, e₁, l₂, rfl, h₁, he₁, h⟩ := List.filterMap_eq_cons_iff.mp h
  obtain ⟨l₃, e₂, l₄, rfl, h₃, he₂, h⟩ := List.filterMap_eq_cons_iff.mp h
  obtain ⟨l₅, e₃, body, rfl, h₅, he₃, h⟩ := List.filterMap_eq_cons_iff.mp h
  rw [SimEvent.eq_magic he₁, SimEvent.eq_magic he₂, SimEvent.eq_magic he₃]
  have hfirst : ∀ e ∈ l₁ ++ .magic .roiStart :: l₃, e.Quiet := by
    intro e he
    rcases List.mem_append.mp he with he | he
    · exact Silent.quiet h₁ e he
    · rcases List.mem_cons.mp he with rfl | he
      · trivial
      · exact Silent.quiet h₃ e he
  obtain ⟨hin, hout⟩ := registered hfootprint hP hempty hfirst h₅
  have hsplit : l₁ ++ .magic .roiStart :: (l₃ ++ .magic (.addApproxAddrs P.srcImage P.imageBytes) ::
      (l₅ ++ .magic (.addApproxAddrs P.dstImage P.imageBytes) :: body)) =
      (l₁ ++ .magic .roiStart :: l₃ ++ .magic (.addApproxAddrs P.srcImage P.imageBytes) ::
        l₅ ++ [.magic (.addApproxAddrs P.dstImage P.imageBytes)]) ++ body := by
    simp only [List.append_assoc, List.cons_append, List.nil_append]
  rw [hsplit, after_append]
  constructor
  · intro ha
    obtain ⟨v, hv, hsaved⟩ := find_sweep h hfootprint hP (hin ha)
    refine ⟨v, hv, fun c hc => ?_⟩
    rw [hsaved c hc, SimEvent.readAfter_skip]
    simp only [List.any_append, List.any_cons, List.any_nil, Silent.no_counts h₁,
      Silent.no_counts h₃, Silent.no_counts h₅]
    rfl
  · exact fun ha => find_after_none hfootprint (sweep_quiet h) (hout ha)

theorem find_del (arg0 arg1 : ℕ) :
    (S.step cfg (.magic (.delApproxAddrs arg0 arg1))).server.approx_vars.find a =
      if InRange arg0 arg1 a then none else S.server.approx_vars.find a := by
  have hdump : (S.dump cfg .del).server = S.server := by
    unfold dump
    split
    · exact if_neg fun h => by cases h.2
    · rfl
  have hfind : (S.step cfg (.magic (.delApproxAddrs arg0 arg1))).server.approx_vars.find a =
      ((S.dump cfg .del).server.delRange arg0 arg1).approx_vars.find a := rfl
  rw [hfind, hdump]
  exact MagicServer.find_delRange

/-- Both arrays are removed. -/
theorem removed (hfootprint : cfg.mem_footprint = true)
    (hout : ¬P.InArrays a → S.server.approx_vars.find a = none)
    (h : events.filterMap SimEvent.toCommand =
      [.delApproxAddrs P.dstImage P.imageBytes, .roiEnd]) :
    (S.after cfg (.magic (.delApproxAddrs P.srcImage P.imageBytes) ::
      events)).server.approx_vars.find a = none := by
  obtain ⟨l₁, e₁, l₂, rfl, h₁, he₁, h⟩ := List.filterMap_eq_cons_iff.mp h
  obtain ⟨l₃, e₂, l₄, rfl, h₃, he₂, h⟩ := List.filterMap_eq_cons_iff.mp h
  have h₄ : Silent l₄ := List.filterMap_eq_nil_iff.mp h
  rw [SimEvent.eq_magic he₁, SimEvent.eq_magic he₂, after_cons, after_append, after_cons]
  have hquiet : ∀ e ∈ l₃ ++ .magic .roiEnd :: l₄, e.Quiet := by
    intro e he
    rcases List.mem_append.mp he with he | he
    · exact Silent.quiet h₃ e he
    · rcases List.mem_cons.mp he with rfl | he
      · trivial
      · exact h₄.quiet e he
  apply find_after_none hfootprint hquiet
  rw [find_del]
  by_cases hdst : InRange P.dstImage P.imageBytes a
  · rw [if_pos hdst]
  · rw [if_neg hdst]
    apply find_after_none hfootprint (Silent.quiet h₁)
    rw [find_del]
    by_cases hsrc : InRange P.srcImage P.imageBytes a
    · rw [if_pos hsrc]
    · rw [if_neg hsrc]
      exact hout (not_or.mpr ⟨hsrc, hdst⟩)

theorem after_of_run {S' : MagicState} (h : (magicMachine cfg).Run S events S') :
    S' = S.after cfg events := by
  induction h with
  | nil => rfl
  | snoc _ _ hx ih =>
    rw [after_append, ← ih]
    exact (Except.ok.inj hx).symm

end MagicState

/-- The elements before the first one without the property. -/
theorem takeWhile_first {α : Type} {p : α → Bool} {l r : List α} {x : α} (hl : ∀ y ∈ l, p y = true)
    (hx : ¬p x = true) : (l ++ x :: r).takeWhile p = l := by
  rw [List.takeWhile_append_of_pos hl, List.takeWhile_cons_of_neg hx, List.append_nil]

namespace FilterProgram

variable {P : FilterProgram}

theorem log_start {cmd : MagicCommand} (h : cmd ∈ P.startCommands) :
    SimEvent.log (.magic cmd) = none := by
  rcases List.mem_append.mp h with h | h
  · simp only [List.mem_cons, List.not_mem_nil, or_false] at h
    rcases h with rfl | rfl | rfl <;> rfl
  · obtain ⟨x, -, h⟩ := List.mem_flatMap.mp h
    obtain ⟨y, -, h⟩ := List.mem_flatMap.mp h
    obtain ⟨channel, -, hkind⟩ := mem_pixelCommands.mp h
    rcases hkind with rfl | ⟨muls, -, rfl⟩ <;> rfl

/-- Every dump of the program is for a removal. -/
theorem log_commands {cmd : MagicCommand} {k : LogKind} (h : cmd ∈ P.commands)
    (hk : SimEvent.log (.magic cmd) = some k) : k = .del := by
  rcases List.mem_append.mp h with h | h
  · rw [log_start h] at hk
    cases hk
  · simp only [List.mem_cons, List.not_mem_nil, or_false] at h
    rcases h with rfl | rfl | rfl
    · exact (Option.some.inj hk).symm
    · exact (Option.some.inj hk).symm
    · cases hk

/-- The first command that dumps removes the source image. -/
theorem split_commands {l r : List MagicCommand} {cmd : MagicCommand}
    (h : P.commands = l ++ cmd :: r)
    (hl : ∀ x ∈ l, SimEvent.log (.magic x) ≠ some .del)
    (hcmd : SimEvent.log (.magic cmd) = some .del) :
    l = P.startCommands ∧ cmd = .delApproxAddrs P.srcImage P.imageBytes ∧
      r = [.delApproxAddrs P.dstImage P.imageBytes, .roiEnd] := by
  let p (x : MagicCommand) : Bool := decide (SimEvent.log (.magic x) ≠ some .del)
  have hstart : P.commands.takeWhile p = P.startCommands := by
    apply takeWhile_first
    · intro x hx
      apply decide_eq_true
      rw [log_start hx]
      exact nofun
    · exact fun hp => of_decide_eq_true hp rfl
  have hleft : P.commands.takeWhile p = l := by
    rw [h]
    apply takeWhile_first
    · exact fun x hx => decide_eq_true (hl x hx)
    · exact fun hp => of_decide_eq_true hp hcmd
  have heq : l = P.startCommands := hleft.symm.trans hstart
  rw [heq] at h
  obtain ⟨rfl, rfl⟩ := List.cons.inj (List.append_cancel_left h)
  exact ⟨heq, rfl, rfl⟩

end FilterProgram

/-- What a run of the program leaves: nothing registered, and in `approx.log` the bytes of the two
arrays. The operations of a byte are in its row if the core has read the byte back behind the
report. -/
structure FilterLog (cfg : MagicConfig) (P : FilterProgram) (S₀ : MagicState)
    (events : List SimEvent) (S : MagicState) (before after : List SimEvent) (S₁ : MagicState) :
    Prop where
  split : events = before ++ .magic (.delApproxAddrs P.srcImage P.imageBytes) :: after
  run : (magicMachine cfg).Run S₀ before S₁
  log : S.approx_log = some (S₁.server.delDump true)
  keys : ∀ a, a ∈ S₁.server.approx_vars.keys ↔ P.InArrays a
  saved : ∀ a v, S₁.server.approx_vars.find a = some v → ∀ c : Counter, c.IsOp → v.footprint c =
    if SimEvent.readAfter a c before then (P.reports c : ℤ) else 0
  removed : ∀ a, S.server.approx_vars.find a = none

/-- The removal of the source image writes the log. -/
theorem FilterProgram.log_ne_none {cfg : MagicConfig} {P : FilterProgram} {events : List SimEvent}
    {S₀ S : MagicState} (hinjector : cfg.injector = .none)
    (hprogram : events.filterMap SimEvent.toCommand = P.commands)
    (hlogged : MagicState.Logged cfg S₀ events S) : S.approx_log ≠ none := by
  intro hnone
  have hdel : .delApproxAddrs P.srcImage P.imageBytes ∈ events.filterMap SimEvent.toCommand := by
    rw [hprogram]
    exact List.mem_append_right _ List.mem_cons_self
  obtain ⟨e, he, hcmd⟩ := List.mem_filterMap.mp hdel
  have hlog := (hlogged.missing.mp hnone).resolve_left (fun hne => hne hinjector) e he
  rw [SimEvent.eq_magic hcmd] at hlog
  cases hlog

/-- The event that wrote the log is that removal, and what comes before it and after it are the
other commands. -/
theorem FilterProgram.split_events {cfg : MagicConfig} {P : FilterProgram} {text : List Char}
    {e : SimEvent} {events before after : List SimEvent} {k : LogKind} {S₀ S₁ : MagicState}
    (hfootprint : cfg.mem_footprint = true)
    (hprogram : events.filterMap SimEvent.toCommand = P.commands)
    (hwritten : LogWritten cfg S₀ events text before e after k S₁) :
    k = .del ∧ e = .magic (.delApproxAddrs P.srcImage P.imageBytes) ∧
      before.filterMap SimEvent.toCommand = P.startCommands ∧
      after.filterMap SimEvent.toCommand =
        [.delApproxAddrs P.dstImage P.imageBytes, .roiEnd] := by
  obtain ⟨cmd, rfl⟩ : ∃ cmd, e = .magic cmd := by
    cases e with
    | magic cmd => exact ⟨cmd, rfl⟩
    | memory e => cases hwritten.kind
  have hcommands : P.commands =
      before.filterMap SimEvent.toCommand ++ cmd :: after.filterMap SimEvent.toCommand := by
    rw [← hprogram, hwritten.split, List.filterMap_append]
    rfl
  have hcmd : cmd ∈ P.commands := by
    rw [hcommands]
    exact List.mem_append_right _ List.mem_cons_self
  obtain rfl := FilterProgram.log_commands hcmd hwritten.kind
  have hfirst : ∀ x ∈ before.filterMap SimEvent.toCommand, SimEvent.log (.magic x) ≠ some .del := by
    intro x hx
    obtain ⟨e, he, hcmd⟩ := List.mem_filterMap.mp hx
    have hne := hwritten.first hfootprint e he
    rwa [SimEvent.eq_magic hcmd] at hne
  obtain ⟨hbefore, rfl, hafter⟩ := FilterProgram.split_commands hcommands hfirst hwritten.kind
  exact ⟨rfl, rfl, hbefore, hafter⟩

/-- The log and the registry after a program, however the accesses of the memory system come between
its commands. -/
theorem filterLog_of_run (cfg : MagicConfig) (hinjector : cfg.injector = .none)
    (hfootprint : cfg.mem_footprint = true) (P : FilterProgram) (hP : P.Fits) (adds muls : ℕ)
    (events : List SimEvent) (S : MagicState)
    (hprogram : events.filterMap SimEvent.toCommand = P.commands)
    (hrun : (magicMachine cfg).Run (.init adds muls) events S) :
    ∃ before after S₁, FilterLog cfg P (.init adds muls) events S before after S₁ := by
  have hlogged := MagicState.Logged.of_run rfl hrun
  have hsome := FilterProgram.log_ne_none hinjector hprogram hlogged
  obtain ⟨text, htext⟩ := Option.ne_none_iff_exists'.mp hsome
  obtain ⟨before, e, after, k, S₁, hwritten⟩ := hlogged.written text htext
  obtain ⟨rfl, rfl, hbefore, hafter⟩ := FilterProgram.split_events hfootprint hprogram hwritten
  have hsplit := hwritten.split
  have hS₁ := MagicState.after_of_run hwritten.run
  have hfind := fun a => MagicState.before_removal (a := a) hfootprint hP
    (S := MagicState.init adds muls) rfl hbefore
  rw [← hS₁] at hfind
  refine ⟨before, after, S₁, hsplit, hwritten.run, ?_, fun a => ?_,
    fun a v hv c hc => ?_, fun a => ?_⟩
  · rw [htext, hwritten.dumped, hfootprint]
    rfl
  · rw [← SortedMap.find_isSome]
    constructor
    · intro hkey
      by_contra hout
      rw [(hfind a).2 hout] at hkey
      cases hkey
    · intro ha
      obtain ⟨v, hv, -⟩ := (hfind a).1 ha
      rw [hv]
      rfl
  · by_cases ha : P.InArrays a
    · obtain ⟨v', hv', hsaved⟩ := (hfind a).1 ha
      rw [hv] at hv'
      rw [Option.some.inj hv']
      exact hsaved c hc
    · rw [(hfind a).2 ha] at hv
      cases hv
  · rw [MagicState.after_of_run hrun, hsplit, MagicState.after_append, ← hS₁]
    exact MagicState.removed hfootprint (hfind a).2 hafter

/-- The mean filter on an image of one pixel. The core reads the first channel back behind its
report, and the second one before. -/
def dotProgram : FilterProgram := .amean 1 1 0 64

def dotRun : List SimEvent :=
  [.magic .roiStart, .magic (.addApproxAddrs 0 3), .magic (.addApproxAddrs 64 3),
    .magic (.addCnt 64 8), .memory (.core .l1Dcache .read 64 0 2), .magic (.addCnt 65 8),
    .magic (.addCnt 66 8), .magic (.delApproxAddrs 0 3), .magic (.delApproxAddrs 64 3),
    .magic .roiEnd]

theorem filterLog_of_run_dot :
    (SimEvent.readAfter 64 .approx_add_cnt dotRun = true ∧
      SimEvent.readAfter 65 .approx_add_cnt dotRun = false) ∧
    ∃ before after S₁, FilterLog footprintConfig dotProgram (.init 0 0) dotRun
      (dotRun.foldl (MagicState.step footprintConfig) (.init 0 0)) before after S₁ := by
  have hfits : dotProgram.Fits :=
    ⟨by decide, by decide, by decide, by decide, .inl (by decide), by decide,
      fun muls hmuls => by cases hmuls⟩
  have hends : ∀ e ∈ dotRun, e.Ends := by
    simp [dotRun, SimEvent.Ends]
  exact ⟨by decide, filterLog_of_run footprintConfig rfl rfl dotProgram hfits 0 0 dotRun _
    (by decide) (MagicState.run_foldl footprintConfig hends (.init 0 0))⟩

end Sniper
