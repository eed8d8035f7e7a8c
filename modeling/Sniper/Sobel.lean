import Sniper.Library.NestedLoops
import Sniper.Library.Outcome
import Sniper.Library.Rounding
import Sniper.Library.SumLoop

namespace Sniper
open NestedLoops Outcome SumLoop

/-- A grayscale image of `n` rows of `n` pixels: the first of its three equal channels. -/
structure GrayImage (n : ℕ) where
  pixel : Fin n → Fin n → UInt8

/-- An index outside the image. -/
structure OutOfImage where
  row : ℤ
  column : ℤ

def Inside (n : ℕ) (i j : ℤ) : Prop := 0 ≤ i ∧ 0 ≤ j ∧ i < n ∧ j < n

instance (n : ℕ) (i j : ℤ) : Decidable (Inside n i j) := inferInstanceAs (Decidable (_ ∧ _))

/-- A pixel that is not on the border of the image. -/
def Interior (n : ℕ) (r c : ℤ) : Prop := 0 < r ∧ 0 < c ∧ r + 1 < n ∧ c + 1 < n

theorem interior_iff {n : ℕ} {r c : ℤ} :
    Interior n r c ↔ ∀ i j : Fin 3, Inside n (r + i - 1) (c + j - 1) := by
  unfold Interior Inside
  constructor
  · intro h i j
    omega
  · intro h
    have h₀ := h 0 0
    have h₂ := h 2 2
    simp only [Fin.isValue, Fin.val_zero, Fin.val_two] at h₀ h₂
    omega

/-- A table of 3 x 3 numbers, by row and column. -/
abbrev Table (α : Type) := Fin 3 → Fin 3 → α

namespace Table

def ofRows {α : Type} (a₀₀ a₀₁ a₀₂ a₁₀ a₁₁ a₁₂ a₂₀ a₂₁ a₂₂ : α) : Table α :=
  ![![a₀₀, a₀₁, a₀₂], ![a₁₀, a₁₁, a₁₂], ![a₂₀, a₂₁, a₂₂]]

theorem ofRows_eq {α : Type} (w : Table α) :
    ofRows (w 0 0) (w 0 1) (w 0 2) (w 1 0) (w 1 1) (w 1 2) (w 2 0) (w 2 1) (w 2 2) = w := by
  ext i j
  fin_cases i <;> fin_cases j <;> rfl

end Table

/-- The conversion of a `double` to an `int`. -/
def doubleToInt (x : ℚ) : ℤ := if 0 ≤ x then ⌊x⌋ else ⌈x⌉

theorem doubleToInt_intCast (z : ℤ) : doubleToInt z = z := by
  unfold doubleToInt
  rw [Int.floor_intCast, Int.ceil_intCast, ite_self]

namespace GrayImage

variable {n : ℕ} (I : GrayImage n)

def pixelAt (i j : ℤ) (h : Inside n i j) : ℕ :=
  (I.pixel ⟨i.toNat, by have := h.1; have := h.2.2.1; omega⟩
    ⟨j.toNat, by have := h.2.1; have := h.2.2.2; omega⟩).toNat

/-- `srcImage[i][j][0]`. -/
def srcImage (i j : ℤ) : Except OutOfImage ℕ :=
  if h : Inside n i j then .ok (I.pixelAt i j h) else .error ⟨i, j⟩

/-! `test/sobel/sobel.cpp` -/

def sobel_x_mask : Table ℤ := Table.ofRows (-1) (-2) (-1) 0 0 0 1 2 1

def sobel_y_mask : Table ℤ := Table.ofRows (-1) 0 1 (-2) 0 2 (-1) 0 1

/-- A turn of the two inner loops: only the first of the two sums is in the scope of the test. -/
def sobelTurn (double : Rounding) (x y : ℤ) (s : ℤ × ℤ) (i j : Fin 3) :
    Except OutOfImage (ℤ × ℤ) := do
  let zx := x + i - 3 / 2
  let zy := y + j - 3 / 2
  let sx ← if zx ≥ 0 ∧ zy ≥ 0 ∧ zx < n ∧ zy < n then do
      pure (doubleToInt (double.add s.1 (double.mul (← I.srcImage zx zy) (sobel_x_mask i j))))
    else pure s.1
  let sy := doubleToInt (double.add s.2 (double.mul (← I.srcImage zx zy) (sobel_y_mask i j)))
  return (sx, sy)

/-- `sx` and `sy` of the pixel in row `x` and column `y`. -/
def sobelLoop (double : Rounding) (x y : ℤ) : Except OutOfImage (ℤ × ℤ) :=
  (List.finRange 3).foldlM (fun s i =>
    (List.finRange 3).foldlM (fun s j => I.sobelTurn double x y s i j) s) (0, 0)

/-! `data_significance/sobel`, without `DATA_SIG` -/

def FLT (pixel : ℕ) : ℕ := pixel

def window (x y : ℤ) : Except OutOfImage (Table ℕ) := do
  let w₀₀ ← FLT <$> I.srcImage (y - 1) (x - 1)
  let w₀₁ ← FLT <$> I.srcImage (y - 1) x
  let w₀₂ ← FLT <$> I.srcImage (y - 1) (x + 1)
  let w₁₀ ← FLT <$> I.srcImage y (x - 1)
  let w₁₁ ← FLT <$> I.srcImage y x
  let w₁₂ ← FLT <$> I.srcImage y (x + 1)
  let w₂₀ ← FLT <$> I.srcImage (y + 1) (x - 1)
  let w₂₁ ← FLT <$> I.srcImage (y + 1) x
  let w₂₂ ← FLT <$> I.srcImage (y + 1) (x + 1)
  return Table.ofRows w₀₀ w₀₁ w₀₂ w₁₀ w₁₁ w₁₂ w₂₀ w₂₁ w₂₂

def halfWindow (x y : ℤ) : Except OutOfImage (Table ℕ) := do
  let w₀₀ ← (if x = 0 ∨ y = 0 then pure 0 else FLT <$> I.srcImage (y - 1) (x - 1))
  let w₀₁ ← (if y = 0 then pure 0 else FLT <$> I.srcImage (y - 1) x)
  let w₀₂ ← (if x = n - 1 ∨ y = 0 then pure 0 else FLT <$> I.srcImage (y - 1) (x + 1))
  let w₁₀ ← (if x = 0 then pure 0 else FLT <$> I.srcImage y (x - 1))
  let w₁₁ ← FLT <$> I.srcImage y x
  let w₁₂ ← (if x = n - 1 then pure 0 else FLT <$> I.srcImage y (x + 1))
  let w₂₀ ← (if x = 0 ∨ y = n - 1 then pure 0 else FLT <$> I.srcImage (y + 1) (x - 1))
  let w₂₁ ← (if y = n - 1 then pure 0 else FLT <$> I.srcImage (y + 1) x)
  let w₂₂ ← (if x = n - 1 ∨ y = n - 1 then pure 0 else FLT <$> I.srcImage (y + 1) (x + 1))
  return Table.ofRows w₀₀ w₀₁ w₀₂ w₁₀ w₁₁ w₁₂ w₂₀ w₂₁ w₂₂

def kx : Table ℤ := Table.ofRows (-1) (-2) (-1) 0 0 0 1 2 1

def ky : Table ℤ := Table.ofRows (-1) 0 1 (-2) 0 2 (-1) 0 1

/-- The entries of a window are bytes, which a `float` holds as they are. -/
def convolve (float : Rounding) (w : Table ℕ) (k : Table ℤ) : ℚ :=
  (List.finRange 3).foldl (fun r j =>
    (List.finRange 3).foldl (fun r i => float.add r (float.mul (w i j) (k j i))) r) 0

/-- `sx` and `sy` of `sobel`. -/
def sobel (float : Rounding) (w : Table ℕ) : ℚ × ℚ := (convolve float w ky, convolve float w kx)

/-- The gradients of the pixels, by row and column and in the order in which `main` comes to them.
-/
def sweep (float : Rounding) : Except OutOfImage (List ((ℤ × ℤ) × ℚ × ℚ)) := do
  let mut dst := []
  let y : ℤ := 0
  for x in List.range n do
    dst := dst ++ [((y, (x : ℤ)), sobel float (← I.halfWindow x y))]
  for y in List.range' 1 (n - 2) do
    let x : ℤ := 0
    dst := dst ++ [(((y : ℤ), x), sobel float (← I.halfWindow x y))]
    for x in List.range' 1 (n - 2) do
      dst := dst ++ [(((y : ℤ), (x : ℤ)), sobel float (← I.window x y))]
    let x : ℤ := n - 1
    dst := dst ++ [(((y : ℤ), x), sobel float (← I.halfWindow x y))]
  let y : ℤ := n - 1
  for x in List.range n do
    dst := dst ++ [((y, (x : ℤ)), sobel float (← I.halfWindow x y))]
  return dst

/-- The image with zeros around it. -/
def padded (i j : ℤ) : ℕ := if h : Inside n i j then I.pixelAt i j h else 0

/-- The pixels around the one in row `r` and column `c`. -/
def around (r c : ℤ) : Table ℕ := fun i j => I.padded (r + i - 1) (c + j - 1)

/-- The gradient for a mask: what both programs are to compute. -/
def gradient (mask : Table ℤ) (r c : ℤ) : ℤ := ∑ i, ∑ j, I.around r c i j * mask i j

variable {I} {i j r c x y : ℤ}

theorem padded_lt : I.padded i j < 256 := by
  unfold padded
  split
  · exact UInt8.toNat_lt _
  · decide

theorem around_lt {i j : Fin 3} : I.around r c i j < 256 := padded_lt

theorem srcImage_inside (h : Inside n i j) : I.srcImage i j = .ok (I.padded i j) := by
  unfold srcImage padded
  rw [dif_pos h, dif_pos h]

theorem srcImage_outside (h : ¬Inside n i j) : I.srcImage i j = .error ⟨i, j⟩ :=
  dif_neg h

theorem padded_outside (h : ¬Inside n i j) : I.padded i j = 0 :=
  dif_neg h

theorem sobel_x_mask_le : ∀ i j, (sobel_x_mask i j).natAbs ≤ 2 := by decide

theorem sobel_y_mask_le : ∀ i j, (sobel_y_mask i j).natAbs ≤ 2 := by decide

theorem natAbs_mul_le {p : ℕ} {m : ℤ} (hp : p < 256) (hm : m.natAbs ≤ 2) :
    ((p : ℤ) * m).natAbs ≤ 510 := by
  rw [Int.natAbs_mul, Int.natAbs_natCast]
  exact Nat.mul_le_mul (Nat.le_of_lt_succ hp) hm

/-- A product of a pixel and a mask's number is added exactly. -/
theorem add_mul_exact (R : Rounding) {p : ℕ} {m z : ℤ} (hp : p < 256) (hm : m.natAbs ≤ 2)
    (hz : z.natAbs + 510 ≤ 2 ^ 24) : R.add z (R.mul p m) = (z + p * m : ℤ) := by
  have hmul := natAbs_mul_le hp hm
  rw [← Int.cast_natCast p, R.mul_exact (by rw [Int.abs_eq_natAbs]; omega),
    R.add_exact (by rw [Int.abs_eq_natAbs]; omega)]

def intSize : Size ℤ := ⟨Int.natAbs, rfl, Int.natAbs_add_le⟩

def pairSize : Size (ℤ × ℤ) where
  size s := max s.1.natAbs s.2.natAbs
  zero := rfl
  add s s' := by
    have h₁ := Int.natAbs_add_le s.1 s'.1
    have h₂ := Int.natAbs_add_le s.2 s'.2
    simp only [Prod.fst_add, Prod.snd_add]
    omega

section

variable {double : Rounding} {s : ℤ × ℤ} {i j : Fin 3}

theorem sobelTurn_eq : I.sobelTurn double x y s i j = (do
    let sx ← if Inside n (x + i - 1) (y + j - 1) then do
        pure (doubleToInt (double.add s.1
          (double.mul (← I.srcImage (x + i - 1) (y + j - 1)) (sobel_x_mask i j))))
      else pure s.1
    let sy := doubleToInt (double.add s.2
      (double.mul (← I.srcImage (x + i - 1) (y + j - 1)) (sobel_y_mask i j)))
    return (sx, sy)) := rfl

theorem sobelTurn_inside (h : Inside n (x + i - 1) (y + j - 1))
    (hs : pairSize.size s + 510 ≤ 2 ^ 24) : I.sobelTurn double x y s i j =
      .ok (s + (I.around x y i j * sobel_x_mask i j, I.around x y i j * sobel_y_mask i j)) := by
  have h₁ : s.1.natAbs + 510 ≤ 2 ^ 24 := le_trans (by gcongr; exact le_max_left _ _) hs
  have h₂ : s.2.natAbs + 510 ≤ 2 ^ 24 := le_trans (by gcongr; exact le_max_right _ _) hs
  have hread : I.srcImage (x + i - 1) (y + j - 1) = .ok (I.around x y i j) := srcImage_inside h
  rw [sobelTurn_eq, if_pos h, hread]
  change Except.ok (doubleToInt _, doubleToInt _) = _
  rw [add_mul_exact double around_lt (sobel_x_mask_le i j) h₁,
    add_mul_exact double around_lt (sobel_y_mask_le i j) h₂, doubleToInt_intCast,
    doubleToInt_intCast]
  rfl

/-- The second sum reads the pixel that the test keeps the first one from. -/
theorem sobelTurn_outside (h : ¬Inside n (x + i - 1) (y + j - 1)) :
    I.sobelTurn double x y s i j = .error ⟨x + i - 1, y + j - 1⟩ := by
  rw [sobelTurn_eq, if_neg h, srcImage_outside h]
  rfl

end

/-- The loop adds up the gradients of a pixel that is not on the border. -/
theorem sobelLoop_interior {double : Rounding}
    (h : ∀ i j : Fin 3, Inside n (x + i - 1) (y + j - 1)) : I.sobelLoop double x y =
      .ok (I.gradient sobel_x_mask x y, I.gradient sobel_y_mask x y) := by
  have hterm : ∀ i j : Fin 3, pairSize.size (I.around x y i j * sobel_x_mask i j,
      I.around x y i j * sobel_y_mask i j) ≤ 510 := by
    intro i j
    apply max_le
    · exact natAbs_mul_le around_lt (sobel_x_mask_le i j)
    · exact natAbs_mul_le around_lt (sobel_y_mask_le i j)
  have hloop := nested_sum pairSize (e := id) (f := I.sobelTurn double x y) hterm
    (fun i j s hs => sobelTurn_inside (h i j) hs) 0 (by decide)
  rw [zero_add] at hloop
  refine hloop.trans (congrArg Except.ok ?_)
  ext <;> simp only [id_eq, Prod.fst_sum, Prod.snd_sum, gradient]

/-- The loop reads outside the image for a pixel on the border. -/
theorem sobelLoop_border {double : Rounding} {i j : Fin 3}
    (h : ¬Inside n (x + i - 1) (y + j - 1)) : ∃ e, I.sobelLoop double x y = .error e := by
  apply foldlM_error (List.mem_finRange i)
  intro s
  apply foldlM_error (List.mem_finRange j)
  intro s
  exact ⟨_, sobelTurn_outside h⟩

/-- A product of the transposed window with a kernel. -/
theorem convolve_around {float : Rounding} {k : Table ℤ} (hk : ∀ i j, (k i j).natAbs ≤ 2) :
    convolve float (I.around r c) k = I.gradient (fun i j => k j i) r c := by
  have hloop := nested_foldl intSize (e := Int.cast) (c := 510) (M := 2 ^ 24)
    (a := fun j i => I.around r c i j * k j i)
    (f := fun (r' : ℚ) j i => float.add r' (float.mul (I.around r c i j) (k j i)))
    (fun j i => natAbs_mul_le around_lt (hk j i))
    (fun j i z hz => add_mul_exact float around_lt (hk j i) hz) 0 (by decide)
  rw [zero_add, Int.cast_zero, Finset.sum_comm] at hloop
  exact hloop

theorem ky_transpose : (fun i j => ky j i) = sobel_x_mask := by decide

theorem kx_transpose : (fun i j => kx j i) = sobel_y_mask := by decide

theorem sobel_around {float : Rounding} : sobel float (I.around r c) =
    ((I.gradient sobel_x_mask r c : ℚ), (I.gradient sobel_y_mask r c : ℚ)) := by
  unfold sobel
  rw [convolve_around (by decide), convolve_around (by decide), ky_transpose, kx_transpose]

theorem ofRows_around : Table.ofRows (I.padded (r - 1) (c - 1)) (I.padded (r - 1) c)
    (I.padded (r - 1) (c + 1)) (I.padded r (c - 1)) (I.padded r c) (I.padded r (c + 1))
    (I.padded (r + 1) (c - 1)) (I.padded (r + 1) c) (I.padded (r + 1) (c + 1)) = I.around r c := by
  have h₀ : ∀ z : ℤ, z + (0 : Fin 3) - 1 = z - 1 := fun z => by simp
  have h₁ : ∀ z : ℤ, z + (1 : Fin 3) - 1 = z := fun z => by simp
  have h₂ : ∀ z : ℤ, z + (2 : Fin 3) - 1 = z + 1 := fun z => by simp; ring
  rw [← Table.ofRows_eq (I.around r c)]
  simp only [around, h₀, h₁, h₂]

/-- A read of the image that is left out when it would be outside. -/
theorem guarded_read {p : Prop} [Decidable p] (h : p ↔ ¬(0 ≤ i ∧ 0 ≤ j ∧ i < n ∧ j < n)) :
    (if p then pure 0 else FLT <$> I.srcImage i j) = .ok (I.padded i j) := by
  by_cases hp : p
  · rw [if_pos hp, padded_outside (h.mp hp)]
    rfl
  · rw [if_neg hp, srcImage_inside (not_not.mp fun hi => hp (h.mpr hi))]
    rfl

theorem halfWindow_eq (h : Inside n y x) : I.halfWindow x y = .ok (I.around y x) := by
  obtain ⟨hy, hx, hyn, hxn⟩ := h
  unfold halfWindow
  rw [guarded_read, guarded_read, guarded_read, guarded_read, guarded_read, guarded_read,
    guarded_read, guarded_read, srcImage_inside ⟨hy, hx, hyn, hxn⟩, ← ofRows_around]
  · rfl
  all_goals omega

theorem window_eq (h : Interior n y x) : I.window x y = .ok (I.around y x) := by
  have hread : ∀ {i j : ℤ}, Inside n i j → FLT <$> I.srcImage i j = .ok (I.padded i j) := by
    intro i j h
    rw [srcImage_inside h]
    rfl
  obtain ⟨hy, hx, hyn, hxn⟩ := h
  unfold window
  rw [hread, hread, hread, hread, hread, hread, hread, hread, hread, ← ofRows_around]
  · rfl
  all_goals
    unfold Inside
    omega

/-- Pixels of row `y`. -/
def row (y : ℤ) (xs : List ℕ) : List (ℤ × ℤ) := xs.map fun x : ℕ => (y, (x : ℤ))

theorem mem_row {p : ℤ × ℤ} {xs : List ℕ} : p ∈ row y xs ↔ p.1 = y ∧ ∃ x ∈ xs, p.2 = x := by
  unfold row
  rw [List.mem_map]
  constructor
  · intro h
    obtain ⟨x, hx, rfl⟩ := h
    exact ⟨rfl, x, hx, rfl⟩
  · intro h
    obtain ⟨hrow, x, hx, hcolumn⟩ := h
    exact ⟨x, hx, Prod.ext hrow.symm hcolumn.symm⟩

/-- The pixels that `main` comes to: the first row, the rows between from border to border, and the
last row. -/
def visited (n : ℕ) : List (ℤ × ℤ) :=
  row 0 (List.range n) ++
    (List.range' 1 (n - 2)).flatMap (fun y : ℕ =>
      [((y : ℤ), 0)] ++ row y (List.range' 1 (n - 2)) ++ [((y : ℤ), (n : ℤ) - 1)]) ++
    row (n - 1) (List.range n)

/-- Every pixel is come to, and nothing else. -/
theorem mem_visited {p : ℤ × ℤ} : p ∈ visited n ↔ Inside n p.1 p.2 := by
  unfold visited Inside
  simp only [List.mem_append, List.mem_flatMap, mem_row, List.mem_singleton, List.mem_range,
    List.mem_range'_1, Prod.ext_iff]
  constructor
  · rintro ((⟨hrow, x, hx, hcolumn⟩ |
      ⟨y, hy, (⟨hrow, hcolumn⟩ | ⟨hrow, x, hx, hcolumn⟩) | ⟨hrow, hcolumn⟩⟩) |
      ⟨hrow, x, hx, hcolumn⟩) <;> omega
  · intro h
    obtain ⟨hrow, hcolumn, hrown, hcolumnn⟩ := h
    by_cases hfirst : p.1 = 0
    · exact .inl (.inl ⟨hfirst, p.2.toNat, by omega, by omega⟩)
    by_cases hlast : p.1 = n - 1
    · exact .inr ⟨hlast, p.2.toNat, by omega, by omega⟩
    refine .inl (.inr ⟨p.1.toNat, by omega, ?_⟩)
    by_cases hleft : p.2 = 0
    · exact .inl (.inl ⟨by omega, hleft⟩)
    by_cases hright : p.2 = n - 1
    · exact .inr ⟨by omega, hright⟩
    exact .inl (.inr ⟨by omega, p.2.toNat, by omega, by omega⟩)

/-- What the sweep finds for a pixel. -/
def found (I : GrayImage n) (float : Rounding) (p : ℤ × ℤ) : (ℤ × ℤ) × ℚ × ℚ :=
  (p, sobel float (I.around p.1 p.2))

section

variable {float : Rounding} {dst : List ((ℤ × ℤ) × ℚ × ℚ)}

theorem flatMap_row (xs : List ℕ) : (xs.flatMap fun x : ℕ => [I.found float (y, (x : ℤ))]) =
    (row y xs).map (I.found float) := by
  unfold row
  rw [List.map_map, List.map_eq_flatMap]
  rfl

/-- The loop over the first row or the last. -/
theorem forIn_halfWindow (h : ∀ x : ℕ, x < n → Inside n y x) :
    (forIn (List.range n) dst fun (x : ℕ) dst => do
      let w ← I.halfWindow x y
      pure (ForInStep.yield (dst ++ [((y, (x : ℤ)), sobel float w)])) : Except OutOfImage _) =
        .ok (dst ++ (row y (List.range n)).map (I.found float)) := by
  rw [← flatMap_row]
  apply forIn_append
  intro x hx dst
  rw [halfWindow_eq (h x (List.mem_range.mp hx))]
  rfl

/-- The loop over a row between them. -/
theorem forIn_window (h : ∀ x ∈ List.range' 1 (n - 2), Interior n y x) :
    (forIn (List.range' 1 (n - 2)) dst fun (x : ℕ) dst => do
      let w ← I.window x y
      pure (ForInStep.yield (dst ++ [((y, (x : ℤ)), sobel float w)])) : Except OutOfImage _) =
        .ok (dst ++ (row y (List.range' 1 (n - 2))).map (I.found float)) := by
  rw [← flatMap_row]
  apply forIn_append
  intro x hx dst
  rw [window_eq (h x hx)]
  rfl

/-- The sweep never reads outside the image. -/
theorem sweep_eq : I.sweep float = .ok ((visited n).map (I.found float)) := by
  unfold sweep visited
  dsimp only
  rw [forIn_halfWindow, ok_bind, forIn_append (g := fun y : ℕ =>
    ([((y : ℤ), 0)] ++ row y (List.range' 1 (n - 2)) ++ [((y : ℤ), (n : ℤ) - 1)]).map
      (I.found float)), ok_bind, forIn_halfWindow, ok_bind]
  · rw [List.map_append, List.map_append, List.map_flatMap]
    rfl
  · unfold Inside
    omega
  · intro y hy dst
    rw [List.mem_range'_1] at hy
    rw [halfWindow_eq (by unfold Inside; omega), ok_bind, forIn_window, ok_bind,
      halfWindow_eq (by unfold Inside; omega), ok_bind, List.map_append, List.map_append,
      List.append_assoc, List.append_assoc]
    · rfl
    · intro x hx
      rw [List.mem_range'_1] at hx
      unfold Interior
      omega
  · unfold Inside
    omega

end

end GrayImage

open GrayImage

/-- For the pixel in row `r` and column `c`, the two programs compute the same gradients and read
nothing but the image. -/
def SobelAgrees (double float : Rounding) {n : ℕ} (I : GrayImage n) (r c : Fin n) : Prop :=
  ∃ sx sy : ℤ, I.sobelLoop double r c = .ok (sx, sy) ∧ ∃ dst, I.sweep float = .ok dst ∧
    (∃ g, (((r : ℤ), (c : ℤ)), g) ∈ dst) ∧
      ∀ g, (((r : ℤ), (c : ℤ)), g) ∈ dst → g = ((sx : ℚ), (sy : ℚ))

/-- The programs agree on the pixels that are not on the border, in every image. -/
theorem sobelAgrees_iff (double float : Rounding) {n : ℕ} (I : GrayImage n) (r c : Fin n) :
    SobelAgrees double float I r c ↔ 0 < r.val ∧ 0 < c.val ∧ r.val + 1 < n ∧ c.val + 1 < n := by
  have hpixel : Interior n r c ↔ 0 < r.val ∧ 0 < c.val ∧ r.val + 1 < n ∧ c.val + 1 < n := by
    unfold Interior
    omega
  rw [← hpixel, interior_iff]
  constructor
  · intro h
    obtain ⟨sx, sy, hloop, -⟩ := h
    intro i j
    by_contra hborder
    have herror : ∃ e, I.sobelLoop double r c = .error e := sobelLoop_border hborder
    obtain ⟨e, he⟩ := herror
    rw [he] at hloop
    cases hloop
  · intro h
    refine ⟨_, _, sobelLoop_interior h, _, sweep_eq, ⟨sobel float (I.around r c), ?_⟩, ?_⟩
    · refine List.mem_map.mpr ⟨((r : ℤ), (c : ℤ)), mem_visited.mpr ?_, rfl⟩
      have hr := r.isLt
      have hc := c.isLt
      unfold Inside
      omega
    · intro g hg
      obtain ⟨p, -, hp⟩ := List.mem_map.mp hg
      obtain ⟨rfl, rfl⟩ := Prod.mk.inj hp
      exact sobel_around

/-- An image of one black pixel. -/
def GrayImage.onePixel : GrayImage 1 := ⟨fun _ _ => 0⟩

theorem onePixel_disagrees : ¬SobelAgrees .ideal .ideal GrayImage.onePixel 0 0 := by
  intro h
  obtain ⟨sx, sy, hloop, -⟩ := h
  have hread : GrayImage.onePixel.sobelLoop .ideal 0 0 = .error ⟨-1, -1⟩ := rfl
  rw [show ((0 : Fin 1) : ℤ) = 0 from rfl, hread] at hloop
  cases hloop

end Sniper
