import Sniper.Library.TextStream

namespace TextStream

inductive Sign where
  | none | plus | minus

def Sign.text : Sign → List Char
  | none => []
  | plus => ['+']
  | minus => ['-']

def Sign.apply {M : Type} [Neg M] (x : M) : Sign → M
  | minus => -x
  | _ => x

/-- The number with these digits before and after its point, times a power of ten. -/
def decimal (sign : Sign) (int frac : List Char) (exp : ℤ) : ℚ :=
  sign.apply (Nat.ofDigitChars 10 (int ++ frac) 0 * 10 ^ (exp - frac.length))

def fracText : Option (List Char) → List Char
  | none => []
  | some frac => '.' :: frac

/-- The marker of an exponent is `E` or `e`. -/
def expText : Option (Bool × Sign × List Char) → List Char
  | none => []
  | some (upper, sign, digits) => (if upper then 'E' else 'e') :: (sign.text ++ digits)

def expValue : Option (Bool × Sign × List Char) → ℤ
  | none => 0
  | some (_, sign, digits) => sign.apply (Nat.ofDigitChars 10 digits 0 : ℤ)

/-- A decimal numeral. -/
structure Numeral where
  sign : Sign
  int : List Char
  frac : Option (List Char)
  exp : Option (Bool × Sign × List Char)
  int_digit : ∀ c ∈ int, c.isDigit = true
  frac_digit : ∀ c ∈ frac.getD [], c.isDigit = true
  mantissa : int ++ frac.getD [] ≠ []
  exp_digit : ∀ x ∈ exp, x.2.2 ≠ [] ∧ ∀ c ∈ x.2.2, c.isDigit = true

namespace Numeral

variable (n : Numeral)

def text : List Char := n.sign.text ++ (n.int ++ (fracText n.frac ++ expText n.exp))

def value : ℚ := decimal n.sign n.int (n.frac.getD []) (expValue n.exp)

end Numeral

def scanSign : List Char → Sign × List Char
  | '+' :: text => (.plus, text)
  | '-' :: text => (.minus, text)
  | text => (.none, text)

def scanDigits (text : List Char) : List Char × List Char :=
  (text.takeWhile Char.isDigit, text.dropWhile Char.isDigit)

def scanFrac : List Char → List Char × List Char
  | '.' :: text => scanDigits text
  | text => ([], text)

/-- There is no value when no digits follow the marker. -/
def scanExp : List Char → Option ℤ × List Char
  | [] => (some 0, [])
  | c :: text =>
    if c = 'E' ∨ c = 'e' then
      let (sign, text) := scanSign text
      let (digits, text) := scanDigits text
      (if digits = [] then none else some (sign.apply (Nat.ofDigitChars 10 digits 0 : ℤ)), text)
    else (some 0, c :: text)

/-- The characters that can be part of a numeral, with the value of a whole numeral. -/
def scanFloat (text : List Char) : Option ℚ × List Char :=
  let (sign, text) := scanSign text
  let (int, text) := scanDigits text
  let (frac, text) := scanFrac text
  if int ++ frac = [] then (none, text)
  else
    let (exp, text) := scanExp text
    (exp.map (decimal sign int frac), text)

/-- A floating-point type: what a number is rounded to if there is no largest one, and the largest.
-/
structure FloatType where
  round : ℚ → ℚ
  max : ℚ
  max_nonneg : 0 ≤ max

namespace FloatType

variable (F : FloatType) (x : ℚ)

/-- The number is not out of the range of the type. -/
def Fits : Prop := |F.round x| ≤ F.max

instance : Decidable (F.Fits x) := inferInstanceAs (Decidable (_ ≤ _))

/-- What a variable of the type gets for a number. -/
def store : ℚ := if F.Fits x then F.round x else if 0 ≤ x then F.max else -F.max

theorem store_eq_iff : F.store x = F.round x ↔ F.Fits x := by
  refine ⟨fun h => ?_, fun h => if_pos h⟩
  by_contra hfits
  have habs : |F.store x| = F.max := by
    unfold store
    rw [if_neg hfits]
    split
    · exact abs_of_nonneg F.max_nonneg
    · rw [abs_neg, abs_of_nonneg F.max_nonneg]
  rw [h] at habs
  exact hfits habs.le

end FloatType

/-- `>>` into a variable of a floating-point type: what is stored, or `none` when the variable is
left as it was. A numeral out of range is taken, but the extraction fails. -/
def extractFloat (s : TextStream) (F : FloatType) : TextStream × Option ℚ :=
  if s.good then
    let text := s.rest.dropWhile isSpace
    if text = [] then (⟨[], true, true⟩, none)
    else
      let (value, rest) := scanFloat text
      match value with
      | none => (⟨rest, rest.isEmpty, true⟩, some 0)
      | some x => (⟨rest, rest.isEmpty, !decide (F.Fits x)⟩, some (F.store x))
  else ({ s with fail := true }, none)

/-- `std::getline` of a string. -/
def getlineString (s : TextStream) : TextStream × List Char :=
  if s.good then
    let line := s.rest.takeWhile (· ≠ '\n')
    match s.rest.dropWhile (· ≠ '\n') with
    | [] => (⟨[], true, line = []⟩, line)
    | _ :: rest => (⟨rest, false, false⟩, line)
  else ({ s with fail := true }, [])

/-- The text is empty or begins with such a character. -/
def Begins (P : Char → Prop) (text : List Char) : Prop := ∀ c ∈ text.head?, P c

variable {F : FloatType} {text rest : List Char} {P Q : Char → Prop}

theorem Begins.mono (h : Begins P text) (hPQ : ∀ c, P c → Q c) : Begins Q text :=
  fun c hc => hPQ c (h c hc)

theorem Begins.cons {c : Char} (h : P c) (text : List Char) : Begins P (c :: text) := by
  intro d hd
  cases hd
  exact h

theorem good_ofText (text : List Char) : (ofText text).good = true := rfl

theorem isSpace_cases {c : Char} (h : isSpace c = true) :
    c.isDigit = false ∧ c ≠ '.' ∧ c ≠ 'E' ∧ c ≠ 'e' ∧ c ≠ '+' ∧ c ≠ '-' := by
  simp only [isSpace, Bool.or_eq_true, decide_eq_true_eq] at h
  rcases h with ((((rfl | rfl) | rfl) | rfl) | rfl) | rfl <;> decide

theorem scanDigits_append {digits : List Char} (hdigit : ∀ c ∈ digits, c.isDigit = true)
    (hrest : Begins (fun c => c.isDigit = false) rest) :
    scanDigits (digits ++ rest) = (digits, rest) := by
  unfold scanDigits
  rw [List.takeWhile_append_of_pos hdigit, List.dropWhile_append_of_pos hdigit]
  cases rest with
  | nil => simp
  | cons c rest =>
    have hc : ¬c.isDigit = true := by
      rw [hrest c rfl]
      decide
    rw [List.takeWhile_cons_of_neg hc, List.dropWhile_cons_of_neg hc, List.append_nil]

theorem scanSign_append (sign : Sign) (hrest : Begins (fun c => c ≠ '+' ∧ c ≠ '-') rest) :
    scanSign (sign.text ++ rest) = (sign, rest) := by
  cases sign with
  | plus => rfl
  | minus => rfl
  | none =>
    cases rest with
    | nil => rfl
    | cons c rest =>
      obtain ⟨hplus, hminus⟩ := hrest c rfl
      simp [Sign.text, scanSign, hplus, hminus]

theorem scanFrac_append {frac : Option (List Char)}
    (hdigit : ∀ c ∈ frac.getD [], c.isDigit = true)
    (hrest : Begins (fun c => c.isDigit = false ∧ c ≠ '.') rest) :
    scanFrac (fracText frac ++ rest) = (frac.getD [], rest) := by
  cases frac with
  | some frac => exact scanDigits_append hdigit (hrest.mono fun c h => h.1)
  | none =>
    cases rest with
    | nil => rfl
    | cons c rest => simp [fracText, scanFrac, (hrest c rfl).2]

/-- Digits do not begin with a sign. -/
theorem begins_digits {digits : List Char} (hne : digits ≠ [])
    (hdigit : ∀ c ∈ digits, c.isDigit = true) (rest : List Char) :
    Begins (fun c => c ≠ '+' ∧ c ≠ '-') (digits ++ rest) := by
  obtain ⟨d, digits, rfl⟩ := List.exists_cons_of_ne_nil hne
  refine Begins.cons ⟨?_, ?_⟩ _
  · rintro rfl
    exact absurd (hdigit '+' (by simp)) (by decide)
  · rintro rfl
    exact absurd (hdigit '-' (by simp)) (by decide)

theorem scanExp_append {exp : Option (Bool × Sign × List Char)}
    (hexp : ∀ x ∈ exp, x.2.2 ≠ [] ∧ ∀ c ∈ x.2.2, c.isDigit = true)
    (hrest : Begins (isSpace · = true) rest) :
    scanExp (expText exp ++ rest) = (some (expValue exp), rest) := by
  cases exp with
  | none =>
    cases rest with
    | nil => rfl
    | cons c rest =>
      have hc := isSpace_cases (hrest c rfl)
      simp [expText, scanExp, expValue, hc]
  | some x =>
    obtain ⟨upper, sign, digits⟩ := x
    obtain ⟨hne, hdigit⟩ := hexp _ rfl
    have hmark : (if upper then 'E' else 'e') = 'E' ∨ (if upper then 'E' else 'e') = 'e' := by
      cases upper <;> simp
    have hsign := begins_digits hne hdigit
    simp only [expText, List.cons_append, List.append_assoc, scanExp, if_pos hmark,
      scanSign_append sign (hsign rest),
      scanDigits_append hdigit (hrest.mono fun c h => (isSpace_cases h).1), if_neg hne]
    rfl

theorem begins_expText (exp : Option (Bool × Sign × List Char))
    (hrest : Begins (isSpace · = true) rest) :
    Begins (fun c => c.isDigit = false ∧ c ≠ '.') (expText exp ++ rest) := by
  cases exp with
  | none => exact hrest.mono fun c h => ⟨(isSpace_cases h).1, (isSpace_cases h).2.1⟩
  | some x =>
    obtain ⟨upper, sign, digits⟩ := x
    refine Begins.cons ?_ _
    cases upper <;> decide

/-- A numeral before a space, or at the end of the text, is scanned as a whole. -/
theorem scanFloat_numeral (n : Numeral) (hrest : Begins (isSpace · = true) rest) :
    scanFloat (n.text ++ rest) = (some n.value, rest) := by
  have hexp := begins_expText n.exp hrest
  have hfrac : Begins (fun c => c.isDigit = false)
    (fracText n.frac ++ (expText n.exp ++ rest)) := by
    cases n.frac with
    | none => exact hexp.mono fun c h => h.1
    | some frac => exact Begins.cons (by decide) _
  have hint : Begins (fun c => c ≠ '+' ∧ c ≠ '-')
      (n.int ++ (fracText n.frac ++ (expText n.exp ++ rest))) := by
    by_cases hn : n.int = []
    · -- no digits before the point, so there is a point
      have hmantissa := n.mantissa
      rw [hn] at hmantissa ⊢
      cases hf : n.frac with
      | none =>
        rw [hf] at hmantissa
        exact absurd rfl hmantissa
      | some frac => exact Begins.cons (by decide) _
    · exact begins_digits hn n.int_digit _
  unfold scanFloat Numeral.text
  simp only [List.append_assoc, scanSign_append n.sign hint, scanDigits_append n.int_digit hfrac,
    scanFrac_append n.frac_digit hexp, if_neg n.mantissa, scanExp_append n.exp_digit hrest]
  rfl

theorem Numeral.text_ne_nil (n : Numeral) : n.text ≠ [] := by
  intro h
  unfold Numeral.text at h
  obtain ⟨-, h⟩ := List.append_eq_nil_iff.mp h
  obtain ⟨hint, h⟩ := List.append_eq_nil_iff.mp h
  obtain ⟨hfrac, -⟩ := List.append_eq_nil_iff.mp h
  have hmantissa := n.mantissa
  cases hn : n.frac with
  | none => exact hmantissa (by rw [hint, hn]; rfl)
  | some frac =>
    rw [hn] at hfrac
    cases hfrac

/-- There is no space in a numeral. -/
theorem Numeral.not_space (n : Numeral) {c : Char} (hc : c ∈ n.text) : isSpace c = false := by
  have hdigit : ∀ d : Char, d.isDigit = true → isSpace d = false := by
    intro d hd
    by_contra hs
    rw [(isSpace_cases (Bool.not_eq_false _ ▸ hs)).1] at hd
    cases hd
  have hsign : ∀ s : Sign, ∀ d ∈ s.text, isSpace d = false := by
    intro s d hd
    cases s with
    | none => cases hd
    | plus => rw [List.mem_singleton.mp hd]; decide
    | minus => rw [List.mem_singleton.mp hd]; decide
  have hf := n.frac_digit
  have he := n.exp_digit
  unfold Numeral.text at hc
  rcases List.mem_append.mp hc with hc | hc
  · exact hsign _ c hc
  rcases List.mem_append.mp hc with hc | hc
  · exact hdigit c (n.int_digit c hc)
  rcases List.mem_append.mp hc with hc | hc
  · cases hn : n.frac with
    | none =>
      rw [hn] at hc
      cases hc
    | some frac =>
      rw [hn] at hc hf
      rcases List.mem_cons.mp hc with rfl | hc
      · decide
      · exact hdigit c (hf c hc)
  · cases hn : n.exp with
    | none =>
      rw [hn] at hc
      cases hc
    | some x =>
      obtain ⟨upper, s, digits⟩ := x
      rw [hn] at hc he
      rcases List.mem_cons.mp hc with rfl | hc
      · cases upper <;> decide
      rcases List.mem_append.mp hc with hc | hc
      · exact hsign _ c hc
      · exact hdigit c ((he _ rfl).2 c hc)

/-- A numeral is taken; the end of the text is seen when it ends there. -/
theorem extractFloat_numeral {ws : List Char} (hws : ∀ c ∈ ws, isSpace c = true) (n : Numeral)
    (hrest : Begins (isSpace · = true) rest) :
    (ofText (ws ++ (n.text ++ rest))).extractFloat F =
      (⟨rest, rest.isEmpty, !decide (F.Fits n.value)⟩, some (F.store n.value)) := by
  obtain ⟨c, text, htext⟩ := List.exists_cons_of_ne_nil n.text_ne_nil
  have hc : isSpace c = false := n.not_space (by simp [htext])
  have hskip : (ws ++ (n.text ++ rest)).dropWhile isSpace = n.text ++ rest := by
    rw [List.dropWhile_append_of_pos hws, htext, List.cons_append,
      List.dropWhile_cons_of_neg (by rw [hc]; decide)]
  unfold extractFloat
  rw [if_pos (good_ofText _)]
  simp only [ofText, hskip, scanFloat_numeral n hrest]
  rw [if_neg (by simp [htext])]

/-- Only spaces are left. -/
theorem extractFloat_blank (h : ∀ c ∈ text, isSpace c = true) :
    (ofText text).extractFloat F = (⟨[], true, true⟩, none) := by
  unfold extractFloat
  rw [if_pos (good_ofText _)]
  simp only [ofText, List.dropWhile_eq_nil_iff.mpr h, if_true]

theorem scanSign_le (text : List Char) : (scanSign text).2.length ≤ text.length := by
  unfold scanSign
  split <;> simp

theorem scanDigits_length (text : List Char) :
    (scanDigits text).1.length + (scanDigits text).2.length = text.length := by
  unfold scanDigits
  rw [← List.length_append, List.takeWhile_append_dropWhile]

theorem scanFrac_length (text : List Char) :
    (scanFrac text).1.length + (scanFrac text).2.length ≤ text.length := by
  unfold scanFrac
  split
  · exact (scanDigits_length _).trans_le (Nat.le_succ _)
  · simp

theorem scanExp_le (text : List Char) : (scanExp text).2.length ≤ text.length := by
  unfold scanExp
  split
  · rfl
  · rename_i c text
    split
    · have hsign := scanSign_le text
      have hdigits := scanDigits_length (scanSign text).2
      simp only [List.length_cons]
      omega
    · rfl

/-- A scan that finds a value has taken a character away. -/
theorem scanFloat_lt {value : ℚ} (h : (scanFloat text).1 = some value) :
    (scanFloat text).2.length < text.length := by
  have hsign := scanSign_le text
  have hint := scanDigits_length (scanSign text).2
  have hfrac := scanFrac_length (scanDigits (scanSign text).2).2
  have hexp := scanExp_le (scanFrac (scanDigits (scanSign text).2).2).2
  unfold scanFloat at h ⊢
  simp only at h ⊢
  split at h
  · cases h
  · rename_i hmantissa
    rw [if_neg hmantissa]
    have hpos := List.length_pos_of_ne_nil hmantissa
    rw [List.length_append] at hpos
    dsimp only
    omega

theorem size_extractFloat_lt {s : TextStream} (h : s.good = true) :
    (s.extractFloat F).1.size < s.size := by
  have hsize : s.size = s.rest.length + 1 := if_pos h
  have hskip : (s.rest.dropWhile isSpace).length ≤ s.rest.length :=
    (List.dropWhile_suffix _).length_le
  unfold extractFloat
  rw [if_pos h, hsize]
  simp only
  split
  · exact Nat.succ_pos _
  · cases hvalue : (scanFloat (s.rest.dropWhile isSpace)).1 with
    | none =>
      simp only [size, good, Bool.not_true, Bool.and_false]
      exact Nat.succ_pos _
    | some value =>
      have hlt := scanFloat_lt hvalue
      simp only [size]
      split <;> omega

theorem forall_ne_newline {line : List Char} (hline : '\n' ∉ line) :
    ∀ c ∈ line, decide (c ≠ '\n') = true := by
  intro c hc
  rw [decide_eq_true_eq]
  rintro rfl
  exact hline hc

theorem getlineString_line {line : List Char} (hline : '\n' ∉ line) :
    (ofText (line ++ '\n' :: rest)).getlineString = (ofText rest, line) := by
  have hall := forall_ne_newline hline
  unfold getlineString
  rw [if_pos (good_ofText _)]
  simp only [ofText, List.takeWhile_append_of_pos hall, List.dropWhile_append_of_pos hall]
  rw [List.takeWhile_cons_of_neg (by decide), List.dropWhile_cons_of_neg (by decide),
    List.append_nil]

/-- The last line of a text may lack its newline. -/
theorem getlineString_last {line : List Char} (hline : '\n' ∉ line) :
    (ofText line).getlineString.2 = line := by
  have hall := forall_ne_newline hline
  unfold getlineString
  rw [if_pos (good_ofText _)]
  simp only [ofText, List.takeWhile_eq_self_iff.mpr hall, List.dropWhile_eq_nil_iff.mpr hall]

end TextStream
