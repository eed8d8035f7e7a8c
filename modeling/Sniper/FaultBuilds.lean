import Sniper.ImageFilters
import Sniper.Library.DrawStream

namespace Sniper
open Drawing Finset SumLoop

/-- A computation of a program that is built with `DATA_SIG`: it counts the draws of the generator.
-/
abbrev Faulty := Drawing OutOfImage

/-- The three channels of each pixel of `dstImage`, by row and column. -/
abbrev RgbImage (n : ℕ) := Fin n → Fin n → Fin 3 → UInt8

section
variable (distribution : ℕ → Bool)

/-- A turn of the loop of `flty`. -/
def fltyTurn (out : UInt8) (i : ℕ) : Faulty UInt8 := do
  let fault ← draw distribution
  return if fault then out ^^^ UInt8.ofNat (1 <<< i) else out

/-- `flty<UINT8>`, where `distribution` says what the generator draws. -/
def flty (in_ : UInt8) : Faulty UInt8 := (List.range 8).foldlM (fltyTurn distribution) in_

/-- `saveChImage`, up to the file. -/
def saveChImage {n : ℕ} : RgbImage n → Faulty (RgbImage n) :=
  each (List.finRange n) fun _ => each (List.finRange n) fun _ => each (List.finRange 3) fun _ v =>
    flty distribution v

namespace GrayImage

variable {n : ℕ} (I : GrayImage n)

/-- `FLT(srcImage[i][j][0])`. -/
def faultyPixel (i j : ℤ) : Faulty UInt8 := do flty distribution (UInt8.ofNat (← I.srcImage i j))

/-- A turn of the two inner loops. -/
def faultyTurn {k : ℕ} (add : ℤ → ℕ → Fin k → Fin k → ℤ) (x y val : ℤ) (i j : Fin k) :
    Faulty ℤ := do
  let zx := x + i - (k / 2 : ℕ)
  let zy := y + j - (k / 2 : ℕ)
  if zx ≥ 0 ∧ zy ≥ 0 ∧ zx < n ∧ zy < n then do
    let pixel ← I.faultyPixel distribution zx zy
    return add val pixel.toNat i j
  else return val

def faultyLoop {k : ℕ} (add : ℤ → ℕ → Fin k → Fin k → ℤ) (x y : ℤ) : Faulty ℤ :=
  (List.finRange k).foldlM (fun s i =>
    (List.finRange k).foldlM (fun s j => I.faultyTurn distribution add x y s i j) s) 0

/-- The pixel that the mean filter computes in row `x` and column `y`. -/
def faultyMean (x y : ℤ) : Faulty UInt8 := do
  let sum ← I.faultyLoop distribution (fun sum pixel (_ _ : Fin WIN_DIM) =>
    ameanAdd false sum pixel) x y
  let val := (sum.tdiv WIN_DIM).tdiv WIN_DIM
  let val := if val > 255 then 255 else val
  return UInt8.ofInt val

/-- The pixel that a filter with a mask computes. -/
def faultyFilter {k : ℕ} (mask : Mask k) (R : Rounding) (x y : ℤ) : Faulty UInt8 := do
  let val ← I.faultyLoop distribution (filterAdd mask (.double R)) x y
  let val := if val > 255 then 255 else val
  let val := if val < 0 then 0 else val
  return UInt8.ofInt val

/-- The loop of `main` over the columns. -/
def setRow (pixel : ℤ → ℤ → Faulty UInt8) (x : ℤ) :
    (Fin n → Fin 3 → UInt8) → Faulty (Fin n → Fin 3 → UInt8) :=
  each (List.finRange n) fun y _ => do
    let val ← pixel x y
    return fun _ => val

/-- The loop over the rows. -/
def setPixels (pixel : ℤ → ℤ → Faulty UInt8) : RgbImage n → Faulty (RgbImage n) :=
  each (List.finRange n) fun x => setRow pixel x

def faultyMain (pixel : ℤ → ℤ → Faulty UInt8) (dst : RgbImage n) : Faulty (RgbImage n) := do
  let dst ← setPixels pixel dst
  saveChImage distribution dst

/-! The three programs of `data_significance` that are built with `DATA_SIG` -/

def ameanDataSig : RgbImage n → Faulty (RgbImage n) :=
  faultyMain distribution (I.faultyMean distribution)

def laplacianDataSig (R : Rounding) : RgbImage n → Faulty (RgbImage n) :=
  faultyMain distribution (I.faultyFilter distribution lap_mask R)

def sharpDataSig (R : Rounding) : RgbImage n → Faulty (RgbImage n) :=
  faultyMain distribution (I.faultyFilter distribution shrp_mask R)

end GrayImage
end

/-! What one call of `flty` does -/

/-- The bits that `n` draws from the draw `t` on toggle. -/
def toggled (distribution : ℕ → Bool) (t n : ℕ) : UInt8 :=
  (List.range n).foldl (fun e i =>
    if distribution (t + i) then e ^^^ UInt8.ofNat (1 <<< i) else e) 0

/-- The fault of a call after `t` draws. -/
def fault (distribution : ℕ → Bool) (t : ℕ) : UInt8 := toggled distribution t 8

variable {distribution : ℕ → Bool} {t : ℕ}

theorem toggled_succ (n : ℕ) : toggled distribution t (n + 1) =
    if distribution (t + n) then toggled distribution t n ^^^ UInt8.ofNat (1 <<< n)
    else toggled distribution t n := by
  unfold toggled
  rw [List.range_succ, List.foldl_append]
  rfl

theorem flty_loop (in_ : UInt8) (n : ℕ) :
    Takes ((List.range n).foldlM (fltyTurn distribution) in_) t n
      (· = in_ ^^^ toggled distribution t n) := by
  induction n with
  | zero => exact .pure (UInt8.xor_zero).symm
  | succ n ih =>
    rw [List.range_succ, List.foldlM_append]
    simp only [List.foldlM_cons, List.foldlM_nil, bind_pure]
    apply ih.bind
    intro out hout
    apply (Takes.draw distribution).bind (e := 0)
    intro fault hfault
    apply Takes.pure
    rw [hout, hfault, toggled_succ]
    split
    · exact UInt8.xor_assoc ..
    · rfl

theorem flty_takes (in_ : UInt8) : Takes (flty distribution in_) t 8
    (· = in_ ^^^ fault distribution t) :=
  flty_loop in_ 8

theorem xor_le_add (a b : ℕ) : a ^^^ b ≤ a + b := by
  induction a using Nat.strong_induction_on generalizing b with
  | h a ih =>
    by_cases ha : a = 0
    · rw [ha, Nat.zero_xor, Nat.zero_add]
    · have hhalf := ih (a / 2) (by omega) (b / 2)
      have hdiv := Nat.xor_div_two (a := a) (b := b)
      have hmod := Nat.xor_mod_two_eq (m := a) (n := b)
      omega

/-- A fault moves a byte by its own value at most. -/
theorem fault_near (v e : UInt8) : ((v ^^^ e).toNat : ℤ) ≤ v.toNat + e.toNat ∧
    (v.toNat : ℤ) ≤ (v ^^^ e).toNat + e.toNat := by
  rw [UInt8.toNat_xor]
  have h := xor_le_add v.toNat e.toNat
  have h' := xor_le_add (v.toNat ^^^ e.toNat) e.toNat
  rw [Nat.xor_xor_cancel_right] at h'
  omega

namespace GrayImage

variable {n k : ℕ} {I : GrayImage n} {E : UInt8} {r c : ℤ} {M : ℕ}

/-- The draws for the part of a window at `i` and `j`. -/
def partDraws (n : ℕ) {k : ℕ} (r c : ℤ) (i j : Fin k) : ℕ :=
  if Inside n (r + i - (k / 2 : ℕ)) (c + j - (k / 2 : ℕ)) then 8 else 0

def windowDraws (n k : ℕ) (r c : ℤ) : ℕ := ∑ i : Fin k, ∑ j : Fin k, partDraws n r c i j

theorem partDraws_dvd (i j : Fin k) : 8 ∣ partDraws n r c i j := by
  unfold partDraws
  split
  · exact Nat.dvd_refl 8
  · exact Nat.dvd_zero 8

/-- The bytes that differ from `p` by `E` at most. -/
def Near (E : UInt8) (p : ℕ) (v : ℕ) : Prop := v < 256 ∧ v ≤ p + E.toNat ∧ p ≤ v + E.toNat

theorem flty_near (hE : ∀ t, 8 ∣ t → fault distribution t ≤ E) (ht : 8 ∣ t) (v : UInt8) :
    Takes (flty distribution v) t 8 fun v' => Near E v.toNat v'.toNat := by
  apply (flty_takes v).mono
  intro v' hv'
  have hnear := fault_near v (fault distribution t)
  have hfault : (fault distribution t).toNat ≤ E.toNat := UInt8.le_iff_toNat_le.mp (hE t ht)
  have hlt := (v ^^^ fault distribution t).toNat_lt
  rw [hv']
  unfold Near
  omega

theorem faultyPixel_near (hE : ∀ t, 8 ∣ t → fault distribution t ≤ E) (ht : 8 ∣ t) {i j : ℤ}
    (hin : Inside n i j) :
    Takes (I.faultyPixel distribution i j) t (0 + 8) fun v => Near E (I.padded i j) v.toNat := by
  apply (Takes.lift (srcImage_inside hin) rfl).bind
  intro p hp
  apply (flty_near hE ht _).mono
  intro v hv
  rwa [← hp, UInt8.toNat_ofNat', Nat.mod_eq_of_lt padded_lt] at hv

/-- A turn adds the product with a byte near the pixel, also where the program leaves it out. -/
theorem faultyTurn_near (hE : ∀ t, 8 ∣ t → fault distribution t ≤ E) (ht : 8 ∣ t)
    {add : ℤ → ℕ → Fin k → Fin k → ℤ} {w : ℤ} {i j : Fin k} {val : ℤ}
    (hadd : ∀ v < 256, add val v i j = val + v * w) :
    Takes (I.faultyTurn distribution add r c val i j) t (partDraws n r c i j) fun val' =>
      ∃ a ∈ {a | ∃ v, Near E (I.windowAt k r c i j) v ∧ a = v * w}, val' = val + a := by
  by_cases hin : Inside n (r + i - (k / 2 : ℕ)) (c + j - (k / 2 : ℕ))
  · have hturn : I.faultyTurn distribution add r c val i j = (do
        let pixel ← I.faultyPixel distribution (r + i - (k / 2 : ℕ)) (c + j - (k / 2 : ℕ))
        return add val pixel.toNat i j) := if_pos hin
    rw [hturn, partDraws, if_pos hin]
    apply (faultyPixel_near hE ht hin).bind (e := 0)
    intro v hv
    exact .pure ⟨v.toNat * w, ⟨v.toNat, hv, rfl⟩, hadd _ v.toNat_lt⟩
  · have hturn : I.faultyTurn distribution add r c val i j = pure val := if_neg hin
    rw [hturn, partDraws, if_neg hin]
    apply Takes.pure
    refine ⟨0, ⟨0, ?_, (zero_mul w).symm⟩, (add_zero val).symm⟩
    rw [windowAt, padded_outside hin]
    exact ⟨by decide, Nat.zero_le _, Nat.zero_le _⟩

/-- The loops make the sum of a window whose bytes are near the pixels, when `add` is exact on the
numbers that come up. -/
theorem faultyLoop_near (hE : ∀ t, 8 ∣ t → fault distribution t ≤ E) (ht : 8 ∣ t)
    (add : ℤ → ℕ → Fin k → Fin k → ℤ) (mask : Mask k)
    (hadd : ∀ i j val, ∀ v < 256, val.natAbs + 255 * (mask i j).natAbs ≤ M →
      add val v i j = val + v * mask i j) (hmask : 255 * ∑ i, ∑ j, (mask i j).natAbs ≤ M) :
    Takes (I.faultyLoop distribution add r c) t (windowDraws n k r c) fun val =>
      ∃ v : Fin k → Fin k → ℕ, (∀ i j, Near E (I.windowAt k r c i j) (v i j)) ∧
        val = ∑ i, ∑ j, v i j * mask i j := by
  have hloop := Takes.nested_sum intSize (M := M) (f := I.faultyTurn distribution add r c)
    (P := fun i j => {a | ∃ v, Near E (I.windowAt k r c i j) v ∧ a = v * mask i j})
    (w := fun i j => 255 * (mask i j).natAbs) ht (partDraws_dvd (n := n) (r := r) (c := c))
    ?_ (fun i j b t ht hb => faultyTurn_near hE ht fun v hv => hadd i j b v hv hb) 0 ?_
  · apply hloop.mono
    intro val hval
    obtain ⟨a, ha, rfl⟩ := hval
    choose v hv hav using ha
    exact ⟨v, hv, by simp only [hav, zero_add]⟩
  · intro i j a ha
    obtain ⟨v, hv, rfl⟩ := ha
    change ((v : ℤ) * mask i j).natAbs ≤ _
    rw [Int.natAbs_mul, Int.natAbs_natCast]
    exact Nat.mul_le_mul_right _ (Nat.le_of_lt_succ hv.1)
  · simpa only [intSize.zero, zero_add, mul_sum] using hmask

/-- A sum over a window moves with its bytes. -/
theorem sum_near (mask : Mask k) {p v : Fin k → Fin k → ℕ} (hv : ∀ i j, Near E (p i j) (v i j)) :
    |∑ i, ∑ j, (v i j * mask i j : ℤ) - ∑ i, ∑ j, (p i j * mask i j : ℤ)| ≤
      E.toNat * ∑ i, ∑ j, |mask i j| := by
  calc |∑ i, ∑ j, (v i j * mask i j : ℤ) - ∑ i, ∑ j, (p i j * mask i j : ℤ)|
      = |∑ i, ∑ j, ((v i j : ℤ) - p i j) * mask i j| := by
        simp only [← sum_sub_distrib, sub_mul]
    _ ≤ ∑ i, ∑ j, |((v i j : ℤ) - p i j) * mask i j| :=
        (abs_sum_le_sum_abs _ _).trans (sum_le_sum fun i _ => abs_sum_le_sum_abs _ _)
    _ ≤ ∑ i, ∑ j, E.toNat * |mask i j| := by
        apply sum_le_sum
        intro i _
        apply sum_le_sum
        intro j _
        obtain ⟨-, h₁, h₂⟩ := hv i j
        rw [abs_mul]
        apply mul_le_mul_of_nonneg_right _ (abs_nonneg _)
        rw [abs_le]
        omega
    _ = E.toNat * ∑ i, ∑ j, |mask i j| := by simp only [mul_sum]

theorem faultyFilter_near (hE : ∀ t, 8 ∣ t → fault distribution t ≤ E) (ht : 8 ∣ t) {mask : Mask k}
    (hmask : ∑ i, ∑ j, (mask i j).natAbs ≤ 64) (R : Rounding) :
    Takes (I.faultyFilter distribution mask R r c) t (windowDraws n k r c) fun v =>
      |(v.toNat : ℤ) - (saturate (I.windowSum mask r c)).toNat| ≤
        min 255 (E.toNat * ∑ i, ∑ j, |mask i j|) := by
  have hsize : 255 * ∑ i, ∑ j, (mask i j).natAbs ≤ 2 ^ 24 := by omega
  unfold faultyFilter
  apply (faultyLoop_near hE ht (filterAdd mask (.double R)) mask _ hsize).bind (e := 0)
  · intro val hval
    obtain ⟨v, hv, rfl⟩ := hval
    apply Takes.pure
    have hsum := sum_near mask hv
    rw [saturate_eq, toNat_saturate, toNat_saturate, windowSum]
    rw [abs_le] at hsum
    rw [abs_le]
    omega
  · intro i j val v hv hval
    apply sum_product_exact
    change val.natAbs + ((v : ℤ) * mask i j).natAbs ≤ _
    rw [Int.natAbs_mul, Int.natAbs_natCast]
    have hle := Nat.mul_le_mul_right (mask i j).natAbs (Nat.le_of_lt_succ hv)
    omega

theorem faultyMean_near (hE : ∀ t, 8 ∣ t → fault distribution t ≤ E) (ht : 8 ∣ t) :
    Takes (I.faultyMean distribution r c) t (windowDraws n WIN_DIM r c) fun v =>
      |(v.toNat : ℤ) - ((∑ i, ∑ j, I.windowAt WIN_DIM r c i j) / 25 : ℕ)| ≤ E.toNat := by
  unfold faultyMean
  apply (faultyLoop_near (M := 255 * 25) hE ht
    (fun sum pixel (_ _ : Fin WIN_DIM) => ameanAdd false sum pixel) (fun _ _ => 1) _
    (by decide)).bind (e := 0)
  · intro val hval
    obtain ⟨v, hv, hsum⟩ := hval
    apply Takes.pure
    have hnear := sum_near (fun _ _ => 1) hv
    have hcast : ∀ p : Fin WIN_DIM → Fin WIN_DIM → ℕ,
        ∑ i, ∑ j, (p i j * 1 : ℤ) = (∑ i, ∑ j, p i j : ℕ) := by
      intro p
      push_cast
      simp only [mul_one]
    have hones : ∑ i : Fin WIN_DIM, ∑ j : Fin WIN_DIM, |(1 : ℤ)| = 25 := by decide
    have hle : ∑ i, ∑ j, v i j ≤ 25 * 255 := by
      calc ∑ i, ∑ j, v i j
          ≤ ∑ _i : Fin WIN_DIM, ∑ _j : Fin WIN_DIM, 255 :=
            sum_le_sum fun i _ => sum_le_sum fun j _ => Nat.le_of_lt_succ (hv i j).1
        _ = 25 * 255 := by decide
    have hmean : (∑ i, ∑ j, v i j) / 25 ≤ 255 := by omega
    rw [hcast] at hsum
    rw [hcast, hcast, hones, abs_le] at hnear
    rw [hsum, mean_eq hmean, toNat_ofInt hmean, abs_le]
    omega
  · intro i j val v _ _
    rw [mul_one]
    rfl

/-! How many draws there are -/

/-- The rows of the image that the windows around the pixels of one column have, in all. -/
def windowRows (n k : ℕ) : ℕ := ∑ i : Fin k, (n - ((i : ℤ) - (k / 2 : ℕ)).natAbs)

theorem sum_shifted (n : ℕ) (d : ℤ) :
    ∑ x : Fin n, (if 0 ≤ (x : ℤ) + d ∧ (x : ℤ) + d < n then 1 else 0) = n - d.natAbs := by
  rw [Fin.sum_univ_eq_sum_range (fun x => if 0 ≤ (x : ℤ) + d ∧ (x : ℤ) + d < n then 1 else 0) n,
    ← card_filter]
  have hfilter : (range n).filter (fun x : ℕ => 0 ≤ (x : ℤ) + d ∧ (x : ℤ) + d < n) =
      Ico (-d).toNat (n - d.toNat) := by
    ext x
    simp only [mem_filter, mem_range, mem_Ico]
    omega
  rw [hfilter, Nat.card_Ico]
  omega

theorem sum_windowRows (n k : ℕ) : ∑ x : Fin n, ∑ i : Fin k,
    (if 0 ≤ (x : ℤ) + i - (k / 2 : ℕ) ∧ (x : ℤ) + i - (k / 2 : ℕ) < n then 1 else 0) =
      windowRows n k := by
  rw [sum_comm]
  apply sum_congr rfl
  intro i _
  rw [← sum_shifted]
  simp only [add_sub_assoc]

theorem partDraws_eq (x y : ℤ) (i j : Fin k) : partDraws n x y i j = 8 *
    ((if 0 ≤ x + i - (k / 2 : ℕ) ∧ x + i - (k / 2 : ℕ) < n then 1 else 0) *
      if 0 ≤ y + j - (k / 2 : ℕ) ∧ y + j - (k / 2 : ℕ) < n then 1 else 0) := by
  unfold partDraws
  by_cases hin : Inside n (x + i - (k / 2 : ℕ)) (y + j - (k / 2 : ℕ))
  · obtain ⟨hx, hy, hx', hy'⟩ := hin
    rw [if_pos ⟨hx, hy, hx', hy'⟩, if_pos ⟨hx, hx'⟩, if_pos ⟨hy, hy'⟩]
  · rw [if_neg hin]
    split
    · rename_i hx
      rw [if_neg fun hy => hin ⟨hx.1, hy.1, hx.2, hy.2⟩]
    · rw [Nat.zero_mul]

/-- The windows of all pixels. -/
theorem sum_windowDraws (n k : ℕ) :
    ∑ x : Fin n, ∑ y : Fin n, windowDraws n k x y = 8 * windowRows n k ^ 2 := by
  simp only [windowDraws, partDraws_eq, ← mul_sum]
  rw [sq, ← sum_windowRows, sum_mul_sum]
  congr 1
  apply sum_congr rfl
  intro x _
  apply sum_congr rfl
  intro y _
  rw [sum_mul_sum]
  simp only [mul_sum]

theorem windowDraws_dvd (r c : ℤ) : 8 ∣ windowDraws n k r c :=
  dvd_sum fun i _ => dvd_sum fun j _ => partDraws_dvd i j

end GrayImage

/-! The image -/

/-- A loop over all rows or columns. -/
theorem each_fin {β : Type} {n : ℕ} {f : Fin n → β → Faulty β} {s : Fin n → β} {c : Fin n → ℕ}
    {P Q : Fin n → β → Prop} (ht : 8 ∣ t) (hc : ∀ x, 8 ∣ c x) (hs : ∀ x, P x (s x))
    (hf : ∀ x v t, 8 ∣ t → P x v → Takes (f x v) t (c x) (Q x)) :
    Takes (each (List.finRange n) f s) t (∑ x, c x) fun s' => ∀ x, Q x (s' x) := by
  rw [Fin.sum_univ_def]
  apply (Takes.each (List.nodup_finRange n) ht (fun x _ => hc x)
    (fun x _ => hs x) fun x _ => hf x).mono
  exact fun s' h x => h x (List.mem_finRange x)

namespace GrayImage

variable {n k : ℕ} {E : UInt8}

/-- A byte is no further from another than `B`. -/
def Within (B : ℤ) (plain v : UInt8) : Prop := |(v.toNat : ℤ) - plain.toNat| ≤ B

theorem saveChImage_near (hE : ∀ t, 8 ∣ t → fault distribution t ≤ E) (ht : 8 ∣ t)
    {dst : RgbImage n} (plain : Fin n → Fin n → UInt8) {B : ℤ}
    (hdst : ∀ x y channel, Within B (plain x y) (dst x y channel)) :
    Takes (saveChImage distribution dst) t (∑ _x : Fin n, ∑ _y : Fin n, ∑ _c : Fin 3, 8) fun dst =>
      ∀ x y channel, Within (B + E.toNat) (plain x y) (dst x y channel) := by
  let Row (B : ℤ) (x : Fin n) (row : Fin n → Fin 3 → UInt8) : Prop :=
    ∀ y channel, Within B (plain x y) (row y channel)
  let Channels (B : ℤ) (x y : Fin n) (channels : Fin 3 → UInt8) : Prop :=
    ∀ channel, Within B (plain x y) (channels channel)
  unfold saveChImage
  apply each_fin (P := Row B) (Q := Row (B + E.toNat)) ht
    (fun _ => dvd_sum fun _ _ => dvd_sum fun _ _ => Nat.dvd_refl 8) hdst
  intro x row t ht hrow
  apply each_fin (P := Channels B x) (Q := Channels (B + E.toNat) x) ht
    (fun _ => dvd_sum fun _ _ => Nat.dvd_refl 8) hrow
  intro y channels t ht hchannels
  apply each_fin (P := fun _ => Within B (plain x y))
    (Q := fun _ => Within (B + E.toNat) (plain x y)) ht
    (fun _ => Nat.dvd_refl 8) hchannels
  intro channel v t ht hv
  apply (flty_near hE ht v).mono
  intro v' hv'
  obtain ⟨-, h₁, h₂⟩ := hv'
  unfold Within at hv ⊢
  rw [abs_le] at hv ⊢
  omega

theorem setRow_near {pixel : ℤ → ℤ → Faulty UInt8} {plain : ℤ → UInt8} {B x : ℤ} (ht : 8 ∣ t)
    (hpixel : ∀ y t, 8 ∣ t → Takes (pixel x y) t (windowDraws n k x y) (Within B (plain y)))
    (row : Fin n → Fin 3 → UInt8) :
    Takes (setRow pixel x row) t (∑ y : Fin n, windowDraws n k x y) fun row =>
      ∀ (y : Fin n) channel, Within B (plain y) (row y channel) := by
  apply each_fin (P := fun _ _ => True) (Q := fun (y : Fin n) (channels : Fin 3 → UInt8) =>
    ∀ channel, Within B (plain y) (channels channel)) ht
      (fun y => windowDraws_dvd x y) fun _ => trivial
  intro y _ t ht _
  apply (hpixel y t ht).bind (e := 0)
  intro v hv
  exact .pure fun _ => hv

theorem setPixels_near {pixel : ℤ → ℤ → Faulty UInt8} {plain : ℤ → ℤ → UInt8} {B : ℤ} (ht : 8 ∣ t)
    (hpixel : ∀ x y t, 8 ∣ t → Takes (pixel x y) t (windowDraws n k x y) (Within B (plain x y)))
    (dst : RgbImage n) :
    Takes (setPixels pixel dst) t (8 * windowRows n k ^ 2) fun dst =>
      ∀ (x y : Fin n) channel, Within B (plain x y) (dst x y channel) := by
  have hrow : ∀ x : Fin n, 8 ∣ ∑ y : Fin n, windowDraws n k x y := fun x =>
    dvd_sum fun y _ => windowDraws_dvd x y
  rw [← sum_windowDraws]
  apply each_fin (P := fun _ _ => True) (Q := fun (x : Fin n) (row : Fin n → Fin 3 → UInt8) =>
    ∀ (y : Fin n) channel, Within B (plain x y) (row y channel)) ht hrow fun _ => trivial
  intro x row t ht _
  exact setRow_near ht (hpixel x) row

/-- `main` for a program of which each pixel is computed near `plain`. -/
theorem faultyMain_near (hE : ∀ t, 8 ∣ t → fault distribution t ≤ E) (ht : 8 ∣ t)
    {pixel : ℤ → ℤ → Faulty UInt8} {plain : ℤ → ℤ → UInt8} {B : ℤ}
    (hpixel : ∀ x y t, 8 ∣ t → Takes (pixel x y) t (windowDraws n k x y) (Within B (plain x y)))
    (dst : RgbImage n) :
    Takes (faultyMain distribution pixel dst) t (8 * (windowRows n k ^ 2 + 3 * n ^ 2)) fun dst =>
      ∀ (x y : Fin n) channel, Within (B + E.toNat) (plain x y) (dst x y channel) := by
  have hcount : 8 * (windowRows n k ^ 2 + 3 * n ^ 2) =
      8 * windowRows n k ^ 2 + ∑ _x : Fin n, ∑ _y : Fin n, ∑ _c : Fin 3, 8 := by
    simp only [sum_const, card_univ, Fintype.card_fin, smul_eq_mul]
    ring
  rw [hcount]
  apply (setPixels_near ht hpixel dst).bind
  intro dst hdst
  have ht' : 8 ∣ t + 8 * windowRows n k ^ 2 := Nat.dvd_add ht (Nat.dvd_mul_right 8 _)
  exact saveChImage_near hE ht' (fun x y => plain x y) hdst

/-- What a build with `DATA_SIG` makes of an image, against the plain build `plain`: the program
comes to its end after this many draws, and no byte of the image is further from the plain pixel
than `B`. -/
def NearPlain (main : RgbImage n → Faulty (RgbImage n)) (plain : ℤ → ℤ → Except OutOfImage UInt8)
    (draws : ℕ) (B : ℤ) : Prop :=
  ∀ dst, Takes (main dst) 0 draws fun dst => ∀ (x y : Fin n) channel,
    ∃ pixel, plain x y = .ok pixel ∧ Within B pixel (dst x y channel)

theorem NearPlain.of_pixel (hE : ∀ t, 8 ∣ t → fault distribution t ≤ E)
    {pixel : ℤ → ℤ → Faulty UInt8} {plain : ℤ → ℤ → Except OutOfImage UInt8} {value : ℤ → ℤ → UInt8}
    {B : ℤ} (hplain : ∀ x y, plain x y = .ok (value x y))
    (hpixel : ∀ x y t, 8 ∣ t → Takes (pixel x y) t (windowDraws n k x y) (Within B (value x y))) :
    NearPlain (n := n) (faultyMain distribution pixel) plain (8 * (windowRows n k ^ 2 + 3 * n ^ 2))
      (B + E.toNat) := by
  intro dst
  apply (faultyMain_near hE (Nat.dvd_zero 8) hpixel dst).mono
  exact fun dst h x y channel => ⟨_, hplain x y, h x y channel⟩

/-- The mean filter, the Laplacian filter and the sharpening filter on every image, when no eight
draws of the generator make a fault above `E`. -/
theorem faulty_builds_near (R : Rounding) (distribution : ℕ → Bool) (E : UInt8)
    (hE : ∀ t, 8 ∣ t → fault distribution t ≤ E) (I : GrayImage n) :
    NearPlain (I.ameanDataSig distribution) (I.amean false)
        (8 * (windowRows n 5 ^ 2 + 3 * n ^ 2)) (2 * E.toNat) ∧
      NearPlain (I.laplacianDataSig distribution R) (I.laplacian (.double R))
        (8 * (windowRows n 5 ^ 2 + 3 * n ^ 2)) (min 255 (E.toNat * 48 : ℤ) + E.toNat) ∧
      NearPlain (I.sharpDataSig distribution R) (I.sharp (.double R))
        (8 * (windowRows n 3 ^ 2 + 3 * n ^ 2)) (min 255 (E.toNat * 17 : ℤ) + E.toNat) := by
  refine ⟨?_, ?_, ?_⟩
  · choose value hplain _ hvalue using I.amean_exact
    rw [two_mul]
    apply NearPlain.of_pixel hE hplain
    intro x y t ht
    unfold Within
    rw [hvalue]
    exact faultyMean_near hE ht
  · have hmagnitudes : ∑ i, ∑ j, |lap_mask i j| = 48 := by decide
    rw [← hmagnitudes]
    exact .of_pixel hE (fun x y => filter_double (by decide))
      fun x y t ht => faultyFilter_near hE ht (by decide) R
  · have hmagnitudes : ∑ i, ∑ j, |shrp_mask i j| = 17 := by decide
    rw [← hmagnitudes]
    exact .of_pixel hE (fun x y => filter_double (by decide))
      fun x y t ht => faultyFilter_near hE ht (by decide) R

/-- A generator that toggles the lowest bit of each byte. -/
def lowestBit (t : ℕ) : Bool := t % 8 = 0

theorem fault_lowestBit : ∀ t, 8 ∣ t → fault lowestBit t ≤ 1 := by
  intro t ht
  obtain ⟨q, rfl⟩ := ht
  have hdraw : ∀ i, lowestBit (8 * q + i) = lowestBit i := by
    intro i
    unfold lowestBit
    rw [Nat.mul_add_mod]
  unfold fault toggled
  simp only [hdraw]
  decide

/-- On two rows of two pixels. -/
theorem faulty_builds_near_lowestBit :
    NearPlain (gray2.ameanDataSig lowestBit) (gray2.amean false) 224 2 ∧
      NearPlain (gray2.laplacianDataSig lowestBit .ideal)
        (gray2.laplacian (.double .ideal)) 224 49 ∧
      NearPlain (gray2.sharpDataSig lowestBit .ideal) (gray2.sharp (.double .ideal)) 224 18 := by
  have hnear := faulty_builds_near .ideal lowestBit 1 fault_lowestBit gray2
  have hdraws : 8 * (windowRows 2 5 ^ 2 + 3 * 2 ^ 2) = 224 := by decide
  have hdraws' : 8 * (windowRows 2 3 ^ 2 + 3 * 2 ^ 2) = 224 := by decide
  rw [hdraws, hdraws'] at hnear
  exact hnear

end GrayImage
end Sniper
