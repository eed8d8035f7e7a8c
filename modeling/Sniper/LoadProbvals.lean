import Sniper.Library.FloatText

namespace Sniper
namespace ProbabilityAnalysis
open TextStream

/-- `apppack`, with exact numbers. -/
structure AppPack where
  appknob : ℚ
  prob : ℚ

/-- The types of the two members of `apppack`. -/
structure Rounding where
  double : FloatType
  longDouble : FloatType

/-- `can not open probability file`, after which the program exits. -/
inductive LoadError where
  | canNotOpen
deriving DecidableEq

variable (R : Rounding)

/-- One turn of the loop; `tmp` has what the new variable holds before. -/
def readPair (tmp : AppPack) (linestream1 linestream2 : TextStream) :
    AppPack × TextStream × TextStream :=
  let (linestream1, appknob) := linestream1.extractFloat R.double
  let (linestream2, prob) := linestream2.extractFloat R.longDouble
  (⟨appknob.getD tmp.appknob, prob.getD tmp.prob⟩, linestream1, linestream2)

/-- The loop `while (linestream1.good() && linestream2.good())`. What the variable of its `i`-th
turn holds before it is read into is `fresh i`. -/
def loadPairs (fresh : ℕ → AppPack) (i : ℕ) (linestream1 linestream2 : TextStream) :
    List AppPack :=
  if h : linestream1.good = true ∧ linestream2.good = true then
    let r := readPair R (fresh i) linestream1 linestream2
    r.1 :: loadPairs fresh (i + 1) r.2.1 r.2.2
  else []
termination_by linestream1.size
decreasing_by exact size_extractFloat_lt h.1

/-- `load_probvals` of a file with this text, or of one that can not be opened. -/
def loadProbvals (fresh : ℕ → AppPack) : Option (List Char) → Except LoadError (List AppPack)
  | none => .error .canNotOpen
  | some text =>
    let (ifs, line1) := (ofText text).getlineString
    let (_, line2) := ifs.getlineString
    .ok (loadPairs R fresh 0 (ofText line1) (ofText line2))

/-- Numerals with what stands before each, and what stands after the last. -/
def itemsText : List (List Char × Numeral) → List Char → List Char
  | [], trailing => trailing
  | (blanks, n) :: items, trailing => blanks ++ (n.text ++ itemsText items trailing)

/-- Blanks and tabs, and the other spaces that can stand in a line. -/
def IsBlank (c : Char) : Prop := isSpace c = true ∧ c ≠ '\n'

/-- The numerals are separated by blanks, with blanks before and after them or without. -/
structure Spaced (items : List (List Char × Numeral)) (trailing : List Char) : Prop where
  blank : ∀ x ∈ items, ∀ c ∈ x.1, IsBlank c
  separated : ∀ x ∈ items.tail, x.1 ≠ []
  trailing : ∀ c ∈ trailing, IsBlank c

/-- A line of numerals. -/
structure NumeralLine where
  items : List (List Char × Numeral)
  trailing : List Char
  nonempty : items ≠ []
  spaced : Spaced items trailing

namespace NumeralLine

variable (L : NumeralLine)

def text : List Char := itemsText L.items L.trailing

def numerals : List Numeral := L.items.map Prod.snd

end NumeralLine

/-- The pairs of the numerals of two lines. -/
def pairs (knobs probs : List Numeral) : List AppPack :=
  List.zipWith (fun knob prob => ⟨R.double.round knob.value, R.longDouble.round prob.value⟩) knobs
    probs

section
variable {R : Rounding} {F : FloatType} {fresh : ℕ → AppPack}
    {items items' : List (List Char × Numeral)}
  {trailing trailing' : List Char} {x : List Char × Numeral}

theorem Spaced.tail (h : Spaced (x :: items) trailing) : Spaced items trailing where
  blank y hy := h.blank y (List.mem_cons_of_mem _ hy)
  separated y hy := h.separated y (List.mem_of_mem_tail hy)
  trailing := h.trailing

/-- After a numeral come spaces, or the end of the line. -/
theorem Spaced.begins (h : Spaced (x :: items) trailing) :
    Begins (isSpace · = true) (itemsText items trailing) := by
  cases items with
  | nil => exact fun c hc => (h.trailing c (List.mem_of_mem_head? hc)).1
  | cons y items =>
    obtain ⟨blanks, n⟩ := y
    obtain ⟨b, blanks, rfl⟩ :=
      List.exists_cons_of_ne_nil (h.separated (blanks, n) (List.mem_cons_self ..))
    exact Begins.cons (h.tail.blank _ (List.mem_cons_self ..) b (List.mem_cons_self ..)).1 _

theorem itemsText_ne_nil (h : items ≠ []) : itemsText items trailing ≠ [] := by
  obtain ⟨⟨blanks, n⟩, items, rfl⟩ := List.exists_cons_of_ne_nil h
  intro hnil
  obtain ⟨-, hnil⟩ := List.append_eq_nil_iff.mp hnil
  exact n.text_ne_nil (List.append_eq_nil_iff.mp hnil).1

theorem Spaced.newline_notMem (h : Spaced items trailing) : '\n' ∉ itemsText items trailing := by
  induction items with
  | nil => exact fun hmem => (h.trailing _ hmem).2 rfl
  | cons x items ih =>
    intro hmem
    rcases List.mem_append.mp hmem with hmem | hmem
    · exact (h.blank x (List.mem_cons_self ..) _ hmem).2 rfl
    rcases List.mem_append.mp hmem with hmem | hmem
    · exact absurd (x.2.not_space hmem) (by decide)
    · exact ih h.tail hmem

/-- What is left of a line stream after the extraction of a numeral. -/
def left (text : List Char) : TextStream := ⟨text, text.isEmpty, false⟩

theorem good_left {text : List Char} : (left text).good = true ↔ text ≠ [] := by
  cases text <;> simp [left, good]

theorem left_eq_ofText {text : List Char} (h : text ≠ []) : left text = ofText text := by
  cases text with
  | nil => exact absurd rfl h
  | cons c text => rfl

theorem extractFloat_item (h : Spaced (x :: items) trailing) :
    (left (itemsText (x :: items) trailing)).extractFloat F =
      (⟨itemsText items trailing, (itemsText items trailing).isEmpty, !decide (F.Fits x.2.value)⟩,
        some (F.store x.2.value)) := by
  rw [left_eq_ofText (itemsText_ne_nil (List.cons_ne_nil _ _))]
  exact extractFloat_numeral (fun c hc => (h.blank x (List.mem_cons_self ..) c hc).1) x.2 h.begins

theorem extractFloat_fits (h : Spaced (x :: items) trailing) (hx : F.Fits x.2.value) :
    (left (itemsText (x :: items) trailing)).extractFloat F =
      (left (itemsText items trailing), some (F.round x.2.value)) := by
  rw [extractFloat_item h, (F.store_eq_iff _).mpr hx, decide_eq_true hx]
  rfl

theorem good_items : (left (itemsText (x :: items) trailing)).good = true :=
  good_left.mpr (itemsText_ne_nil (List.cons_ne_nil _ _))

/-- The numerals are in the range of the type. -/
def AllFit (F : FloatType) (numerals : List Numeral) : Prop := ∀ n ∈ numerals, F.Fits n.value

/-- The loop reads the pairs, and goes round once more when both lines have blanks left. -/
theorem loadPairs_items (R : Rounding) (fresh : ℕ → AppPack) (h : Spaced items trailing) :
    ∀ {items'}, Spaced items' trailing' → items.length = items'.length →
      AllFit R.double (items.map Prod.snd) → AllFit R.longDouble (items'.map Prod.snd) → ∀ i,
      loadPairs R fresh i (left (itemsText items trailing)) (left (itemsText items' trailing')) =
        pairs R (items.map Prod.snd) (items'.map Prod.snd) ++
          if trailing ≠ [] ∧ trailing' ≠ [] then [fresh (i + items.length)] else [] := by
  induction items with
  | nil =>
    intro items' h' hlen _ _ i
    obtain rfl : items' = [] := List.length_eq_zero_iff.mp hlen.symm
    simp only [itemsText]
    rw [loadPairs]
    simp only [good_left]
    by_cases hleft : trailing ≠ [] ∧ trailing' ≠ []
    · -- both extractions meet only blanks
      rw [dif_pos hleft, if_pos hleft, left_eq_ofText hleft.1, left_eq_ofText hleft.2]
      simp only [readPair, extractFloat_blank fun c hc => (h.trailing c hc).1,
        extractFloat_blank fun c hc => (h'.trailing c hc).1]
      rw [loadPairs, dif_neg (by decide)]
      rfl
    · rw [dif_neg hleft, if_neg hleft]
      rfl
  | cons x items ih =>
    intro items' h' hlen hfit hfit' i
    obtain ⟨x', items', rfl⟩ := List.exists_cons_of_length_eq_add_one hlen.symm
    rw [List.map_cons, AllFit, List.forall_mem_cons] at hfit hfit'
    rw [loadPairs, dif_pos ⟨good_items, good_items⟩]
    simp only [readPair, extractFloat_fits h hfit.1, extractFloat_fits h' hfit'.1]
    rw [ih h.tail h'.tail (Nat.succ.inj hlen) hfit.2 hfit'.2 (i + 1), List.length_cons,
      Nat.add_right_comm i 1, Nat.add_assoc]
    rfl

/-- A numeral out of range is not in the pair that is read for it. -/
theorem allFit_of_loadPairs (h : Spaced items trailing) :
    ∀ {items'}, Spaced items' trailing' → items.length = items'.length → ∀ i,
      loadPairs R fresh i (left (itemsText items trailing)) (left (itemsText items' trailing')) =
        pairs R (items.map Prod.snd) (items'.map Prod.snd) →
      AllFit R.double (items.map Prod.snd) ∧ AllFit R.longDouble (items'.map Prod.snd) := by
  induction items with
  | nil =>
    intro items' _ hlen _ _
    obtain rfl : items' = [] := List.length_eq_zero_iff.mp hlen.symm
    exact ⟨List.forall_mem_nil _, List.forall_mem_nil _⟩
  | cons x items ih =>
    intro items' h' hlen i hload
    obtain ⟨x', items', rfl⟩ := List.exists_cons_of_length_eq_add_one hlen.symm
    rw [loadPairs, dif_pos ⟨good_items, good_items⟩] at hload
    obtain ⟨hhead, htail⟩ := List.cons.inj hload
    simp only [readPair, extractFloat_item h, extractFloat_item h', Option.getD_some,
      AppPack.mk.injEq, FloatType.store_eq_iff] at hhead
    simp only [readPair, extractFloat_fits h hhead.1, extractFloat_fits h' hhead.2] at htail
    obtain ⟨hfit, hfit'⟩ := ih h.tail h'.tail (Nat.succ.inj hlen) (i + 1) htail
    exact ⟨List.forall_mem_cons.mpr ⟨hhead.1, hfit⟩, List.forall_mem_cons.mpr ⟨hhead.2, hfit'⟩⟩

/-- A file of two lines of numerals is read by the loop. -/
theorem loadProbvals_lines (L1 L2 : NumeralLine) {rest : List Char}
    (hrest : Begins (· = '\n') rest) :
    loadProbvals R fresh (some (L1.text ++ '\n' :: (L2.text ++ rest))) =
      .ok (loadPairs R fresh 0 (left L1.text) (left L2.text)) := by
  have hline2 : (ofText (L2.text ++ rest)).getlineString.2 = L2.text := by
    cases rest with
    | nil =>
      rw [List.append_nil]
      exact getlineString_last L2.spaced.newline_notMem
    | cons c rest =>
      rw [hrest c rfl]
      exact congrArg Prod.snd (getlineString_line L2.spaced.newline_notMem)
  unfold loadProbvals
  simp only [NumeralLine.text] at hline2 ⊢
  rw [getlineString_line L1.spaced.newline_notMem]
  simp only [hline2]
  rw [left_eq_ofText (itemsText_ne_nil L1.nonempty), left_eq_ofText (itemsText_ne_nil L2.nonempty)]

theorem loadPairs_lines (L1 L2 : NumeralLine) (hlen : L1.items.length = L2.items.length)
    (hfit : AllFit R.double L1.numerals) (hfit' : AllFit R.longDouble L2.numerals) :
    loadPairs R fresh 0 (left L1.text) (left L2.text) = pairs R L1.numerals L2.numerals ++
      if L1.trailing ≠ [] ∧ L2.trailing ≠ [] then [fresh L1.items.length] else [] := by
  have h := loadPairs_items R fresh L1.spaced L2.spaced hlen hfit hfit' 0
  rwa [Nat.zero_add] at h

end

/-- Exactly the listed pairs are loaded exactly when one of the lines ends with its last numeral,
and all numerals are in the range of the type that they are read into. -/
theorem loadProbvals_pairs_iff (R : Rounding) (fresh : ℕ → AppPack) (L1 L2 : NumeralLine)
    (rest : List Char) (hlen : L1.items.length = L2.items.length)
    (hrest : Begins (· = '\n') rest) :
    loadProbvals R fresh (some (L1.text ++ '\n' :: (L2.text ++ rest))) =
      .ok (pairs R L1.numerals L2.numerals) ↔
    (L1.trailing = [] ∨ L2.trailing = []) ∧ AllFit R.double L1.numerals ∧
      AllFit R.longDouble L2.numerals := by
  rw [loadProbvals_lines L1 L2 hrest, Except.ok.injEq]
  by_cases hfit : AllFit R.double L1.numerals ∧ AllFit R.longDouble L2.numerals
  · rw [and_iff_left hfit, loadPairs_lines L1 L2 hlen hfit.1 hfit.2, List.append_right_eq_self]
    by_cases hleft : L1.trailing ≠ [] ∧ L2.trailing ≠ []
    · rw [if_pos hleft]
      exact iff_of_false (List.cons_ne_nil _ _) (not_or.mpr hleft)
    · rw [if_neg hleft]
      exact iff_of_true rfl (not_and_or.mp hleft |>.imp not_not.mp not_not.mp)
  · refine iff_of_false (fun h => hfit ?_) fun h => hfit h.2
    exact allFit_of_loadPairs L1.spaced L2.spaced hlen 0 h

/-- The numeral `1`, and lines of it with a tab at their end or without. -/
def one : Numeral where
  sign := .none
  int := ['1']
  frac := none
  exp := none
  int_digit := fun c hc => by
    rw [List.mem_singleton.mp hc]
    rfl
  frac_digit := fun c hc => by cases hc
  mantissa := List.cons_ne_nil _ _
  exp_digit := fun x hx => by cases hx

def oneLine (tab : Bool) : NumeralLine where
  items := [([], one)]
  trailing := if tab then ['\t'] else []
  nonempty := List.cons_ne_nil _ _
  spaced :=
    { blank := fun x hx c hc => by
        rw [List.mem_singleton.mp hx] at hc
        cases hc
      separated := fun x hx => by cases hx
      trailing := fun c hc => by
        cases tab with
        | false => cases hc
        | true =>
          rw [List.mem_singleton.mp hc]
          exact ⟨rfl, by decide⟩ }

/-- No rounding, and the largest power of two that a `double` holds as the bound. -/
def exactType : FloatType := ⟨id, 2 ^ 1023, by positivity⟩

def exactRounding : Rounding := ⟨exactType, exactType⟩

theorem one_fits : AllFit exactType [one] := by
  intro n hn
  rw [List.mem_singleton.mp hn]
  have hvalue : one.value = 1 := by decide +kernel
  unfold FloatType.Fits
  rw [show exactType.round one.value = 1 from hvalue, abs_one]
  exact one_le_pow₀ one_le_two

theorem loadProbvals_pairs_iff_one :
    loadProbvals exactRounding (fun _ => ⟨0, 0⟩)
        (some ((oneLine true).text ++ '\n' :: ((oneLine false).text ++ ['\n']))) =
      .ok (pairs exactRounding [one] [one]) :=
  (loadProbvals_pairs_iff exactRounding (fun _ => ⟨0, 0⟩) (oneLine true) (oneLine false) ['\n'] rfl
    (Begins.cons (P := (· = '\n')) rfl [])).mpr ⟨.inr rfl, one_fits, one_fits⟩

/-- Of two lines that both end with a tab a pair more is loaded, of what was in memory. -/
theorem loadProbvals_extra :
    loadProbvals exactRounding (fun _ => ⟨7, 7⟩)
        (some ((oneLine true).text ++ '\n' :: ((oneLine true).text ++ ['\n']))) =
      .ok (pairs exactRounding [one] [one] ++ [⟨7, 7⟩]) ∧
    loadProbvals exactRounding (fun _ => ⟨7, 7⟩)
        (some ((oneLine true).text ++ '\n' :: ((oneLine true).text ++ ['\n']))) ≠
      .ok (pairs exactRounding [one] [one]) := by
  have hload : loadProbvals exactRounding (fun _ => ⟨7, 7⟩)
      (some ((oneLine true).text ++ '\n' :: ((oneLine true).text ++ ['\n']))) =
        .ok (pairs exactRounding [one] [one] ++ [⟨7, 7⟩]) :=
    (loadProbvals_lines (oneLine true) (oneLine true) (Begins.cons (P := (· = '\n')) rfl [])).trans
      (congrArg Except.ok (loadPairs_lines (oneLine true) (oneLine true) rfl one_fits one_fits))
  refine ⟨hload, fun h => ?_⟩
  have hlen := congrArg List.length (Except.ok.inj (hload.symm.trans h))
  revert hlen
  decide

end ProbabilityAnalysis
end Sniper
