import Sniper.Appmul
import Sniper.Rapcla
import Sniper.Sobel

namespace Sniper
open SumLoop CarryLookahead Finset

namespace Rapcla

variable {a b w : ℕ}

/-- A carry that leaves the window makes a sum of more bits than the window has. -/
theorem rapcla_exact (h : a + b < 2 ^ (w + 1)) (hw : w ≤ 30) : rapcla a b w = a + b := by
  have hab : a + b < 2 ^ 31 := h.trans_le (Nat.pow_le_pow_right two_pos (by omega))
  have hsum := sum_of_small (w := w) hab
  have hcarry := Bool.toNat_le (carry a.testBit b.testBit w 31)
  have hlost : ∑ g ∈ range (31 - w) with Runs a.testBit b.testBit w g, 2 ^ (g + w + 1) = 0 := by
    apply sum_eq_zero
    intro g hg
    have hterm : 2 ^ (g + w + 1) ≤ ∑ g ∈ range (31 - w) with Runs a.testBit b.testBit w g,
        2 ^ (g + w + 1) := single_le_sum (f := fun g => 2 ^ (g + w + 1))
          (fun _ _ => Nat.zero_le _) hg
    have hpow : 2 ^ (w + 1) ≤ 2 ^ (g + w + 1) := Nat.pow_le_pow_right two_pos (by omega)
    omega
  rw [rapcla_small hab (by omega)]
  omega

end Rapcla

/-- The numbers of a filter, by row and column. -/
abbrev Mask (k : ℕ) := Fin k → Fin k → ℤ

namespace GrayImage

variable {n : ℕ} (I : GrayImage n)

/-- A turn of the two inner loops: the pixels outside the image are left out. -/
def windowTurn {k : ℕ} (add : ℤ → ℕ → Fin k → Fin k → ℤ) (x y val : ℤ) (i j : Fin k) :
    Except OutOfImage ℤ := do
  let zx := x + i - (k / 2 : ℕ)
  let zy := y + j - (k / 2 : ℕ)
  if zx ≥ 0 ∧ zy ≥ 0 ∧ zx < n ∧ zy < n then do
    pure (add val (← I.srcImage zx zy) i j)
  else pure val

/-- The sum over a window of `k` rows and columns around the pixel in row `x` and column `y`. -/
def windowLoop {k : ℕ} (add : ℤ → ℕ → Fin k → Fin k → ℤ) (x y : ℤ) : Except OutOfImage ℤ :=
  (List.finRange k).foldlM (fun s i =>
    (List.finRange k).foldlM (fun s j => I.windowTurn add x y s i j) s) 0

/-- `rapcla` of two `long`s in a window of 16 bits, stored in an `int`. -/
def gem5Add (a b : ℤ) : ℤ := toInt (rapcla (a % 2 ^ 64).toNat (b % 2 ^ 64).toNat 16)

/-! `amean.cpp`: in `test` and, without `DATA_SIG`, in `data_significance` -/

def WIN_DIM : ℕ := 5

/-- With `GEM5` or without it. -/
def ameanAdd (GEM5 : Bool) (sum : ℤ) (pixel : ℕ) : ℤ :=
  if GEM5 then gem5Add sum pixel else sum + pixel

def amean (GEM5 : Bool) (x y : ℤ) : Except OutOfImage UInt8 := do
  let sum ← I.windowLoop (fun sum pixel (_ _ : Fin WIN_DIM) => ameanAdd GEM5 sum pixel) x y
  let val := (sum.tdiv WIN_DIM).tdiv WIN_DIM
  let val := if val > 255 then 255 else val
  return UInt8.ofInt val

/-! `laplacian.cpp` and `sharp.cpp`, in the same two directories -/

def lap_mask : Mask 5 :=
  ![![-1, -1, -1, -1, -1],
    ![-1, -1, -1, -1, -1],
    ![-1, -1, 24, -1, -1],
    ![-1, -1, -1, -1, -1],
    ![-1, -1, -1, -1, -1]]

def shrp_mask : Mask 3 :=
  ![![-1, -1, -1],
    ![-1, 9, -1],
    ![-1, -1, -1]]

/-- How the programs add and multiply: with `GEM5` by the approximate adder and multiplier. -/
inductive Arithmetic where
  | double (R : Rounding)
  | gem5 (mul16x16 : ℤ → ℤ → ℤ → ℤ)

def filterAdd {k : ℕ} (mask : Mask k) (A : Arithmetic) (val : ℤ) (pixel : ℕ) (i j : Fin k) : ℤ :=
  match A with
  | .double R => doubleToInt (R.add val (R.mul pixel (mask i j)))
  | .gem5 mul16x16 => gem5Add val ((appmul mul16x16 pixel (mask i j) 19).getD 0)

/-- The pixel in row `x` and column `y` of the image that the program writes. -/
def filter {k : ℕ} (mask : Mask k) (A : Arithmetic) (x y : ℤ) : Except OutOfImage UInt8 := do
  let val ← I.windowLoop (filterAdd mask A) x y
  let val := if val > 255 then 255 else val
  let val := if val < 0 then 0 else val
  return UInt8.ofInt val

def laplacian := I.filter lap_mask

def sharp := I.filter shrp_mask

/-! What the programs compute -/

/-- The window of `k` rows and columns around the pixel in row `r` and column `c`, with zeros where
it is outside the image. -/
def windowAt (k : ℕ) (r c : ℤ) (i j : Fin k) : ℕ :=
  I.padded (r + i - (k / 2 : ℕ)) (c + j - (k / 2 : ℕ))

def windowSum {k : ℕ} (mask : Mask k) (r c : ℤ) : ℤ := ∑ i, ∑ j, I.windowAt k r c i j * mask i j

def saturate (z : ℤ) : UInt8 := UInt8.ofInt (max 0 (min z 255))

variable {I} {k : ℕ} {mask : Mask k} {x y r c : ℤ}

theorem windowAt_lt {i j : Fin k} : I.windowAt k r c i j < 256 := padded_lt

/-- A turn that adds the pixel exactly, also where the program leaves it out. -/
theorem windowTurn_eq {add : ℤ → ℕ → Fin k → Fin k → ℤ} {val w : ℤ} {i j : Fin k}
    (h : add val (I.windowAt k x y i j) i j = val + I.windowAt k x y i j * w) :
    I.windowTurn add x y val i j = .ok (val + I.windowAt k x y i j * w) := by
  by_cases hin : Inside n (x + i - (k / 2 : ℕ)) (y + j - (k / 2 : ℕ))
  · refine (if_pos hin).trans ?_
    rw [srcImage_inside hin]
    exact congrArg Except.ok h
  · refine (if_neg hin).trans ?_
    rw [windowAt, padded_outside hin, Nat.cast_zero, zero_mul, add_zero]
    rfl

def natSize : Size ℕ := ⟨id, rfl, fun _ _ => le_rfl⟩

/-- The adder is exact on numbers of 16 bits. -/
theorem gem5Add_exact {a b : ℕ} (h : a + b < 2 ^ 17) : gem5Add a b = (a + b : ℕ) := by
  have ha : ((a : ℤ) % 2 ^ 64).toNat = a := by omega
  have hb : ((b : ℤ) % 2 ^ 64).toNat = b := by omega
  unfold gem5Add toInt asInt
  rw [ha, hb, Rapcla.rapcla_exact h (by decide)]
  exact Int.bmod_eq_of_le (by omega) (by omega)

/-- A loop that adds natural numbers exactly as long as they have 16 bits. -/
theorem windowLoop_nat (add : ℤ → ℕ → Fin k → Fin k → ℤ) (w : Fin k → Fin k → ℕ)
    (hadd : ∀ i j (v : ℕ), v + I.windowAt k r c i j * w i j < 2 ^ 17 →
      add v (I.windowAt k r c i j) i j = (v + I.windowAt k r c i j * w i j : ℕ))
    (hw : ∑ i, ∑ j, I.windowAt k r c i j * w i j < 2 ^ 17) :
    I.windowLoop add r c = .ok ((∑ i, ∑ j, I.windowAt k r c i j * w i j : ℕ) : ℤ) := by
  have hloop := nested_sum_weights natSize (e := Nat.cast) (M := 2 ^ 17 - 1)
    (a := fun i j => I.windowAt k r c i j * w i j) (f := I.windowTurn add r c)
    (fun i j v hv => ?_) 0 ?_
  · rw [zero_add, Nat.cast_zero] at hloop
    exact hloop
  · have hv' : v + I.windowAt k r c i j * w i j < 2 ^ 17 := by
      simp only [natSize, id_eq] at hv
      omega
    rw [windowTurn_eq (w := (w i j : ℤ))]
    · push_cast
      rfl
    · rw [hadd i j v hv']
      push_cast
      rfl
  · simp only [natSize, id_eq]
    omega

/-! `amean` -/

theorem sum_window_lt {k : ℕ} : ∑ i, ∑ j, I.windowAt k r c i j ≤ k * (k * 255) := by
  calc ∑ i, ∑ j, I.windowAt k r c i j
      ≤ ∑ _i : Fin k, ∑ _j : Fin k, 255 :=
        sum_le_sum fun _ _ => sum_le_sum fun _ _ => Nat.le_of_lt_succ windowAt_lt
    _ = k * (k * 255) := by simp only [sum_const, card_univ, Fintype.card_fin, smul_eq_mul]

theorem ameanAdd_exact (GEM5 : Bool) {v p : ℕ} (h : v + p < 2 ^ 17) :
    ameanAdd GEM5 v p = (v + p : ℕ) := by
  unfold ameanAdd
  cases GEM5 with
  | false => exact (Nat.cast_add v p).symm
  | true => exact (if_pos rfl).trans (gem5Add_exact h)

theorem toNat_ofInt {z : ℕ} (h : z ≤ 255) : (UInt8.ofInt z).toNat = z := by
  unfold UInt8.ofInt
  rw [UInt8.toNat_ofNat']
  omega

theorem amean_loop (GEM5 : Bool) :
    I.windowLoop (fun sum pixel (_ _ : Fin WIN_DIM) => ameanAdd GEM5 sum pixel) r c =
      .ok ((∑ i, ∑ j, I.windowAt WIN_DIM r c i j : ℕ) : ℤ) := by
  have hsum := sum_window_lt (I := I) (r := r) (c := c) (k := WIN_DIM)
  have hbound : WIN_DIM * (WIN_DIM * 255) < 2 ^ 17 := by decide
  have hloop := windowLoop_nat (I := I) (r := r) (c := c)
    (fun sum pixel (_ _ : Fin WIN_DIM) => ameanAdd GEM5 sum pixel) (fun _ _ => 1)
    (fun i j v hv => ?_) ?_
  · simpa only [Nat.mul_one] using hloop
  · simp only [Nat.mul_one] at hv ⊢
    exact ameanAdd_exact GEM5 hv
  · simp only [Nat.mul_one]
    exact hsum.trans_lt hbound

/-- What the mean filter makes of its sum. -/
theorem mean_eq {sum : ℕ} (h : sum / 25 ≤ 255) :
    (if ((sum : ℤ).tdiv WIN_DIM).tdiv WIN_DIM > 255 then (255 : ℤ)
      else ((sum : ℤ).tdiv WIN_DIM).tdiv WIN_DIM) = (sum / 25 : ℕ) := by
  have hdiv : ((sum : ℤ).tdiv WIN_DIM).tdiv WIN_DIM = (sum / 25 : ℕ) := by
    rw [← Int.ofNat_tdiv, ← Int.ofNat_tdiv, Nat.div_div_eq_div_mul]
    rfl
  rw [hdiv, if_neg (by omega)]

/-- The mean filter is exact with the approximate adder too, and its pixels never saturate: each is
the mean of the 25 pixels around, rounded down, where those outside the image count as 0. -/
theorem amean_exact (I : GrayImage n) (r c : ℤ) : ∃ pixel : UInt8,
    I.amean false r c = .ok pixel ∧ I.amean true r c = .ok pixel ∧
      pixel.toNat = (∑ i, ∑ j, I.windowAt WIN_DIM r c i j) / 25 := by
  have hsum := sum_window_lt (I := I) (r := r) (c := c) (k := WIN_DIM)
  have hbound : WIN_DIM * (WIN_DIM * 255) = 25 * 255 := by decide
  have hmean : (∑ i, ∑ j, I.windowAt WIN_DIM r c i j) / 25 ≤ 255 := by omega
  have hbuild : ∀ GEM5, I.amean GEM5 r c =
      .ok (UInt8.ofInt ((∑ i, ∑ j, I.windowAt WIN_DIM r c i j) / 25 : ℕ)) := by
    intro GEM5
    unfold amean
    rw [amean_loop]
    exact congrArg (fun val => Except.ok (UInt8.ofInt val)) (mean_eq hmean)
  exact ⟨_, hbuild false, hbuild true, toNat_ofInt hmean⟩

/-! `laplacian` and `sharp` -/

/-- What a filter makes of its sum. -/
theorem saturate_eq (val : ℤ) : UInt8.ofInt (if (if val > 255 then 255 else val) < 0 then 0
    else if val > 255 then 255 else val) = saturate val := by
  unfold saturate
  congr 1
  split <;> split <;> omega

theorem filter_eq {A : Arithmetic} {s : ℤ} (h : I.windowLoop (filterAdd mask A) r c = .ok s) :
    I.filter mask A r c = .ok (saturate s) := by
  unfold filter
  rw [h]
  exact congrArg Except.ok (saturate_eq s)

/-- The magnitudes of the products, summed up. -/
theorem sum_weights_le (hmask : ∑ i, ∑ j, (mask i j).natAbs ≤ 64) :
    ∑ i, ∑ j, I.windowAt k r c i j * (mask i j).natAbs ≤ 255 * 64 := by
  calc ∑ i, ∑ j, I.windowAt k r c i j * (mask i j).natAbs
      ≤ ∑ i, ∑ j, 255 * (mask i j).natAbs :=
        sum_le_sum fun _ _ => sum_le_sum fun _ _ =>
          Nat.mul_le_mul_right _ (Nat.le_of_lt_succ windowAt_lt)
    _ = 255 * ∑ i, ∑ j, (mask i j).natAbs := by simp only [mul_sum]
    _ ≤ 255 * 64 := Nat.mul_le_mul_left _ hmask

theorem sum_product_exact (R : Rounding) {p : ℕ} {m z : ℤ}
    (h : intSize.size z + intSize.size (p * m) ≤ 2 ^ 24) :
    doubleToInt (R.add z (R.mul p m)) = z + p * m := by
  have hadd := Int.natAbs_add_le z (p * m)
  have hz : intSize.size z = z.natAbs := rfl
  have hm : intSize.size (p * m) = (p * m).natAbs := rfl
  rw [hz, hm] at h
  rw [← Int.cast_natCast p, R.mul_exact (by rw [Int.abs_eq_natAbs]; omega),
    R.add_exact (by rw [Int.abs_eq_natAbs]; omega), doubleToInt_intCast]

theorem filter_double {R : Rounding} (hmask : ∑ i, ∑ j, (mask i j).natAbs ≤ 64) :
    I.filter mask (.double R) r c = .ok (saturate (I.windowSum mask r c)) := by
  apply filter_eq
  have hloop := nested_sum_weights intSize (e := id) (M := 2 ^ 24)
    (a := fun i j => I.windowAt k r c i j * mask i j)
    (f := I.windowTurn (filterAdd mask (.double R)) r c) (fun i j v hv => ?_) 0 ?_
  · rw [zero_add] at hloop
    exact hloop
  · exact windowTurn_eq (sum_product_exact R hv)
  · have hsize : ∀ i j, intSize.size (I.windowAt k r c i j * mask i j) =
        I.windowAt k r c i j * (mask i j).natAbs := fun i j => by
      exact (Int.natAbs_mul _ _).trans (by rw [Int.natAbs_natCast])
    simp only [hsize, intSize.zero, zero_add]
    exact (sum_weights_le hmask).trans (by decide)

theorem toNat_saturate (z : ℤ) : ((saturate z).toNat : ℤ) = max 0 (min z 255) := by
  unfold saturate
  rw [← Int.toNat_of_nonneg (le_max_left 0 (min z 255)), toNat_ofInt (by omega)]

def gray2 : GrayImage 2 := ⟨fun _ _ => 10⟩

end GrayImage
end Sniper
