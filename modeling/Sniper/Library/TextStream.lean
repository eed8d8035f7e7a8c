import Mathlib.Data.List.TakeWhile
import Mathlib.Tactic

/-- An input stream over the text that is left, with its `eofbit` and its `failbit`. -/
structure TextStream where
  rest : List Char
  eof : Bool
  fail : Bool

namespace TextStream

variable (s : TextStream)

def ofText (text : List Char) : TextStream := ⟨text, false, false⟩

def good : Bool := !s.eof && !s.fail

def isSpace (c : Char) : Bool :=
  c = ' ' || c = '\t' || c = '\n' || c = '\x0b' || c = '\x0c' || c = '\r'

/-- The loop of `getline`, which has stored `n` characters less than it can. -/
def getlineFrom : ℕ → Bool → List Char → TextStream
  | _, stored, [] => ⟨[], true, !stored⟩
  | n, _, c :: rest =>
    if c = '\n' then ⟨rest, false, false⟩
    else match n with
      | 0 => ⟨c :: rest, false, true⟩
      | n + 1 => getlineFrom n true rest

/-- `getline` into an array of `n` characters, which are not kept. -/
def getline (n : ℕ) : TextStream :=
  if s.good then getlineFrom (n - 1) false s.rest else { s with fail := true }

/-- `>>` into a variable that holds numbers up to `max`, if there is a bound: the number that is
stored, or `none` when the variable is left as it was. Texts of other numbers than those written
in decimal digits are read as no number. -/
def extract (max : Option ℕ) : TextStream × Option ℕ :=
  if s.good then
    let text := s.rest.dropWhile isSpace
    let digits := text.takeWhile Char.isDigit
    let rest := text.dropWhile Char.isDigit
    if text = [] then (⟨[], true, true⟩, none)
    else if digits = [] then (⟨text, false, true⟩, some 0)
    else
      let n := Nat.ofDigitChars 10 digits 0
      match max with
      | some max => if n ≤ max then (⟨rest, rest.isEmpty, false⟩, some n)
          else (⟨rest, rest.isEmpty, true⟩, some max)
      | none => (⟨rest, rest.isEmpty, false⟩, some n)
  else ({ s with fail := true }, none)

/-- What is left to read, and 0 when nothing more can be read. -/
def size : ℕ := if s.good then s.rest.length + 1 else 0

variable {s}

theorem good_iff : s.good = true ↔ s.eof = false ∧ s.fail = false := by
  unfold good
  cases s.eof <;> cases s.fail <;> simp

/-- An extraction from a stream that is good takes text away or leaves the stream no longer good. -/
theorem size_extract_lt (h : s.good = true) (max : Option ℕ) : (s.extract max).1.size < s.size := by
  have hle : (s.rest.dropWhile isSpace).length ≤ s.rest.length :=
    (List.dropWhile_suffix _).length_le
  have hsize : s.size = s.rest.length + 1 := if_pos h
  unfold extract
  rw [if_pos h, hsize]
  generalize s.rest.dropWhile isSpace = text at hle
  simp only
  split
  · exact Nat.succ_pos _
  split
  · exact Nat.succ_pos _
  rename_i hdigits
  have hlt : (text.dropWhile Char.isDigit).length < text.length := by
    have hsplit := congrArg List.length (List.takeWhile_append_dropWhile
      (p := Char.isDigit) (l := text))
    have hpos := List.length_pos_of_ne_nil hdigits
    rw [List.length_append] at hsplit
    omega
  have hrest : ∀ eof fail, (⟨text.dropWhile Char.isDigit, eof, fail⟩ : TextStream).size <
      s.rest.length + 1 := by
    intro eof fail
    unfold size
    split
    · exact Nat.succ_lt_succ (hlt.trans_le hle)
    · exact Nat.succ_pos _
  split
  · split <;> exact hrest _ _
  · exact hrest _ _

theorem size_extract_le (max : Option ℕ) : (s.extract max).1.size ≤ s.size := by
  by_cases h : s.good = true
  · exact (size_extract_lt h max).le
  · unfold extract
    rw [if_neg h]
    unfold size
    rw [if_neg]
    · exact Nat.zero_le _
    · rw [good_iff]
      simp

theorem extract_of_not_good (h : s.good = false) (max : Option ℕ) :
    s.extract max = ({ s with fail := true }, none) := if_neg (by rw [h]; decide)

/-- Only blanks are left: the extraction fails and stores nothing. -/
theorem extract_blank {text : List Char} (h : ∀ c ∈ text, isSpace c = true) (max : Option ℕ) :
    (ofText text).extract max = (⟨[], true, true⟩, none) := by
  have htext : text.dropWhile isSpace = [] := by
    exact List.dropWhile_eq_nil_iff.mpr h
  unfold extract
  rw [if_pos (show (ofText _).good = true from rfl)]
  simp only [ofText, htext, if_pos]

/-- A number that is written in decimal digits is read back. -/
theorem extract_decimal {ws rest : List Char} {c : Char} {n : ℕ} {max : Option ℕ}
    (hws : ∀ c ∈ ws, isSpace c = true) (hc : c.isDigit = false) (hmax : ∀ k ∈ max, n ≤ k) :
    (ofText (ws ++ (Nat.toDigits 10 n ++ c :: rest))).extract max =
      (ofText (c :: rest), some n) := by
  have hdigit : ∀ d ∈ Nat.toDigits 10 n, d.isDigit = true := fun d hd =>
    Nat.isDigit_of_mem_toDigits (by decide) (by decide) hd
  have hspace : ∀ d : Char, d.isDigit = true → isSpace d = false := by
    intro d hd
    by_contra hs
    rw [Bool.not_eq_false] at hs
    simp only [isSpace, Bool.or_eq_true, decide_eq_true_eq] at hs
    rcases hs with ((((rfl | rfl) | rfl) | rfl) | rfl) | rfl <;> cases hd
  have htext : (ws ++ (Nat.toDigits 10 n ++ c :: rest)).dropWhile isSpace =
      Nat.toDigits 10 n ++ c :: rest := by
    rw [List.dropWhile_append_of_pos hws]
    cases hn : Nat.toDigits 10 n with
    | nil => exact absurd hn Nat.toDigits_ne_nil
    | cons d digits =>
      rw [hn] at hdigit
      refine List.dropWhile_cons_of_neg ?_
      rw [hspace d (hdigit d (by simp))]
      decide
  have htake : (Nat.toDigits 10 n ++ c :: rest).takeWhile Char.isDigit = Nat.toDigits 10 n := by
    rw [List.takeWhile_append_of_pos hdigit, List.takeWhile_cons_of_neg (by rw [hc]; decide),
      List.append_nil]
  have hdrop : (Nat.toDigits 10 n ++ c :: rest).dropWhile Char.isDigit = c :: rest := by
    rw [List.dropWhile_append_of_pos hdigit, List.dropWhile_cons_of_neg (by rw [hc]; decide)]
  unfold extract
  rw [if_pos (show (ofText _).good = true from rfl)]
  simp only [ofText, htext, htake, hdrop, Nat.ofDigitChars_ten_toDigits, List.isEmpty_cons]
  rw [if_neg (by simp), if_neg Nat.toDigits_ne_nil]
  cases max with
  | none => rfl
  | some k =>
    simp only
    rw [if_pos (hmax k rfl)]

/-- `getline` takes a line that fits. -/
theorem getline_line {line rest : List Char} {n : ℕ} (hline : '\n' ∉ line)
    (hn : line.length + 1 ≤ n) : (ofText (line ++ '\n' :: rest)).getline n = ofText rest := by
  have hfrom : ∀ (line : List Char) (k : ℕ) (stored : Bool), '\n' ∉ line → line.length ≤ k →
      getlineFrom k stored (line ++ '\n' :: rest) = ofText rest := by
    intro line
    induction line with
    | nil =>
      intro k stored _ _
      cases k <;> exact if_pos rfl
    | cons c line ih =>
      intro k stored hmem hk
      have hc : c ≠ '\n' := fun h => hmem (by rw [h]; simp)
      cases k with
      | zero => cases hk
      | succ k =>
        rw [List.cons_append, getlineFrom, if_neg hc]
        exact ih k true (fun h => hmem (List.mem_cons_of_mem c h)) (Nat.le_of_succ_le_succ hk)
  unfold getline
  rw [if_pos (show (ofText _).good = true from rfl)]
  exact hfrom line (n - 1) false hline (by omega)

end TextStream
