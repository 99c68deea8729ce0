import Mathlib
import TensorKernels.Number.Decimal

/-!
# The decimals that round to a binary32 value

The parts of a binary32 value determine it (`Binary32.ofFloat_injective`), and changing the sign of a finite
value changes the sign of its parts only (`Binary32.ofFloat_neg`).

The rational numbers that round to a value form an interval (`Binary32.Rounds`), and a rational rounds to one
magnitude only (`Binary32.Rounds.unique`): two intervals meet at most in an end, where a tie goes to the even
one of two significands. The shortest decimal lies in the interval of its value (`Decimal.shortest_rounds`).
What the search for it needs is that nine digits are enough: the grid of the ninth digit is finer than the
upper half of the interval.
-/

set_option autoImplicit false

open Float.Model

namespace TensorKernels

namespace Binary32

/-! ## Parts of a value -/

/-- The significand has 24 bits, and its leading bit is set where the unit is not the smallest. -/
structure Standard (b : Binary32) : Prop where
  significand_lt : b.significand < 2 ^ 24
  minExponent_le : minExponent ≤ b.exponent
  leading : minExponent < b.exponent → 2 ^ 23 ≤ b.significand

/-- The components of a float are in the standard ranges. -/
theorem standard_ofFloat (x : Float32) : (ofFloat x).Standard := by
  have hfraction : x.toBits.toNat % 1 <<< 23 < 2 ^ 23 := Nat.mod_lt _ (by decide)
  refine ⟨?_, ?_, ?_⟩
  · simp only [ofFloat]
    split <;> omega
  · simp only [ofFloat, minExponent]
    split <;> omega
  · simp only [ofFloat, minExponent]
    split <;> omega

/-- A value is determined by its parts: the leading bit of the significand tells subnormal values from the
others. -/
theorem ofFloat_injective : Function.Injective ofFloat := by
  intro x y h
  have hx := x.toBits.toNat_lt
  have hy := y.toBits.toNat_lt
  simp only [ofFloat, minExponent, mk.injEq, Nat.shiftRight_eq_div_pow, Nat.one_shiftLeft,
    decide_eq_decide] at h
  obtain ⟨hsign, hsignificand, hexponent⟩ := h
  refine Float32.toBits_inj.1 (UInt32.toNat_inj.1 ?_)
  by_cases hx0 : x.toBits.toNat / 2 ^ 23 % 256 = 0
  · by_cases hy0 : y.toBits.toNat / 2 ^ 23 % 256 = 0
    · rw [if_pos hx0, if_pos hy0] at hsignificand
      omega
    · rw [if_pos hx0, if_neg hy0] at hsignificand
      omega
  · by_cases hy0 : y.toBits.toNat / 2 ^ 23 % 256 = 0
    · rw [if_neg hx0, if_pos hy0] at hsignificand
      omega
    · rw [if_neg hx0, if_neg hy0] at hsignificand hexponent
      omega

/-- The bit pattern with the given sign, exponent and mantissa, as a number. -/
theorem toNat_packComponents (s : UnpackedFloat.Sign) (e : BitVec 8) (m : BitVec 23) :
    (UnpackedFloat.packComponents Format.binary32 s e m).toNat =
      s.toBitVec.toNat * 2 ^ 31 + e.toNat * 2 ^ 23 + m.toNat := by
  have hm := m.isLt
  have he := e.isLt
  show ((s.toBitVec ++ e) ++ m).toNat = _
  rw [BitVec.toNat_append, ← Nat.shiftLeft_add_eq_or_of_lt hm, BitVec.toNat_append,
    ← Nat.shiftLeft_add_eq_or_of_lt he]
  simp only [Nat.shiftLeft_eq]
  omega

/-- The sign of a number is packed on its own. -/
theorem pack_neg {u : UnpackedFloat} (hu : u ≠ .notANumber) :
    ∃ s e m, u.pack Format.binary32 = UnpackedFloat.packComponents Format.binary32 s e m ∧
      u.neg.pack Format.binary32 = UnpackedFloat.packComponents Format.binary32 (-s) e m := by
  cases u with
  | notANumber => exact absurd rfl hu
  | infinity s => exact ⟨s, _, _, rfl, rfl⟩
  | zero s => exact ⟨s, _, _, rfl, rfl⟩
  | finite s m e hm =>
    simp only [UnpackedFloat.neg, UnpackedFloat.pack]
    split
    · exact ⟨s, _, _, rfl, rfl⟩
    · split
      · exact ⟨s, _, _, rfl, rfl⟩
      · exact ⟨s, _, _, rfl, rfl⟩

/-- A float is finite exactly if its exponent field is not all ones. -/
theorem isFinite_iff (x : Float32) :
    x.isFinite = true ↔ @UnpackedFloat.unpackExponent Format.binary32 x.toBits.toBitVec ≠ -1#8 := by
  show (UnpackedFloat.unpack Format.binary32 x.toBits.toBitVec).isFinite = true ↔ _
  unfold UnpackedFloat.unpack
  dsimp only
  split
  · next h => split <;> simp [UnpackedFloat.isFinite, h]
  · next h =>
    split
    · split <;> simpa [UnpackedFloat.isFinite] using h
    · simpa [UnpackedFloat.isFinite] using h

/-- A finite float is neither NaN nor infinite. -/
theorem not_isNaN_of_isFinite {x : Float32} (hx : x.isFinite = true) : x.isNaN = false ∧ x.isInf = false := by
  have hfinite : x.toModel.unpack.isFinite = true := hx
  show x.toModel.unpack.isNaN = false ∧ x.toModel.unpack.isInf = false
  cases hu : x.toModel.unpack with
  | notANumber =>
    rw [hu] at hfinite
    cases hfinite
  | infinity s =>
    rw [hu] at hfinite
    cases hfinite
  | zero s => exact ⟨rfl, rfl⟩
  | finite s m e hm => exact ⟨rfl, rfl⟩

/-- Negation flips the sign bit, and keeps the exponent and the mantissa. -/
theorem neg_components {x : Float32} (hx : x.isFinite = true) :
    ∃ s e m, x.toBits.toBitVec = UnpackedFloat.packComponents Format.binary32 s e m ∧
      (-x).toBits.toBitVec = UnpackedFloat.packComponents Format.binary32 (-s) e m := by
  have hnan : x.toModel.unpack ≠ .notANumber := by
    intro h
    have hnumber : x.toModel.unpack.isNaN = false := (not_isNaN_of_isFinite hx).1
    rw [h] at hnumber
    cases hnumber
  obtain ⟨s, e, m, hpack, hneg⟩ := pack_neg hnan
  exact ⟨s, e, m, (UnpackedFloat.pack_unpack_of_valid x.toModel.valid).symm.trans hpack, hneg⟩

/-- The negation of a finite float is finite. -/
theorem isFinite_neg {x : Float32} (hx : x.isFinite = true) : (-x).isFinite = true := by
  obtain ⟨s, e, m, hbits, hneg⟩ := neg_components hx
  rw [isFinite_iff, hbits, UnpackedFloat.unpackExponent_packComponents] at hx
  rw [isFinite_iff, hneg, UnpackedFloat.unpackExponent_packComponents]
  exact hx

/-- Changing the sign of a finite value changes the sign of its parts. -/
theorem ofFloat_neg {x : Float32} (hx : x.isFinite = true) :
    ofFloat (-x) = { ofFloat x with negative := !(ofFloat x).negative } := by
  obtain ⟨s, e, m, hbits, hneg⟩ := neg_components hx
  have hnat := congrArg BitVec.toNat hbits
  have hnat' := congrArg BitVec.toNat hneg
  rw [toNat_packComponents] at hnat hnat'
  have hm : m.toNat < 2 ^ 23 := m.isLt
  have he : e.toNat < 2 ^ 8 := e.isLt
  simp only [UInt32.toNat_toBitVec] at hnat hnat'
  simp only [ofFloat, hnat, hnat', Nat.shiftRight_eq_div_pow, mk.injEq]
  have hfield : ∀ k < 2, (k * 2 ^ 31 + e.toNat * 2 ^ 23 + m.toNat) / 2 ^ 23 % 256 = e.toNat := by
    omega
  have hfraction : ∀ k, (k * 2 ^ 31 + e.toNat * 2 ^ 23 + m.toNat) % 1 <<< 23 = m.toNat := by
    intro k
    show _ % 2 ^ 23 = _
    omega
  have hsign : (decide (1 <<< 31 ≤ (-s).toBitVec.toNat * 2 ^ 31 + e.toNat * 2 ^ 23 + m.toNat)) =
      !decide (1 <<< 31 ≤ s.toBitVec.toNat * 2 ^ 31 + e.toNat * 2 ^ 23 + m.toNat) := by
    rw [← decide_not, decide_eq_decide]
    cases s with
    | negative =>
      show 2 ^ 31 ≤ 0 * 2 ^ 31 + _ + _ ↔ ¬ 2 ^ 31 ≤ 1 * 2 ^ 31 + _ + _
      omega
    | positive =>
      show 2 ^ 31 ≤ 1 * 2 ^ 31 + _ + _ ↔ ¬ 2 ^ 31 ≤ 0 * 2 ^ 31 + _ + _
      omega
  simp only [hfield _ s.toBitVec.isLt, hfield _ (-s).toBitVec.isLt, hfraction, hsign, and_self]

/-- Negating a finite float twice gives it back. -/
theorem neg_neg_of_isFinite {x : Float32} (hx : x.isFinite = true) : -(-x) = x := by
  apply ofFloat_injective
  rw [ofFloat_neg (isFinite_neg hx), ofFloat_neg hx, Bool.not_not]

/-! ## Rounding intervals -/

/-- How far the interval of a value reaches below it, in quarters of its unit. -/
def below (b : Binary32) : ℕ :=
  if b.significand = 2 ^ 23 ∧ minExponent < b.exponent then 1 else 2

/-- A quarter of the unit of a value. -/
def quarter (b : Binary32) : ℚ := 2 ^ (b.exponent - 2)

/-- The rational rounds to the magnitude of the value, a tie to the even significand. -/
def Rounds (b : Binary32) (q : ℚ) : Prop :=
  (4 * b.significand - b.below) * b.quarter ≤ q ∧ q ≤ (4 * b.significand + 2) * b.quarter ∧
    (b.significand % 2 = 1 →
      (4 * b.significand - b.below) * b.quarter < q ∧ q < (4 * b.significand + 2) * b.quarter)

/-- A quarter of the unit in the last place is positive. -/
theorem quarter_pos (b : Binary32) : 0 < b.quarter := by
  unfold quarter
  positivity

/-- The interval of a value reaches at most two quarters below it. -/
theorem below_le (b : Binary32) : b.below ≤ 2 := by
  unfold below
  split <;> decide

/-- A unit that is larger is at least twice as large. -/
theorem two_quarter_le {b c : Binary32} (h : b.exponent < c.exponent) : 2 * b.quarter ≤ c.quarter := by
  unfold quarter
  calc (2 : ℚ) * 2 ^ (b.exponent - 2) = 2 ^ (b.exponent - 2 + 1) := by
        rw [zpow_add_one₀ (by norm_num), mul_comm]
    _ ≤ 2 ^ (c.exponent - 2) := zpow_le_zpow_right₀ (by norm_num) (by omega)

namespace Rounds

variable {b c : Binary32} {q : ℚ}

/-- What rounds to a positive number is positive. -/
theorem pos (h : b.Rounds q) (hb : 0 < b.significand) : 0 < q := by
  have hquarter := b.quarter_pos
  have hbelow : (b.below : ℚ) ≤ 2 := by exact_mod_cast b.below_le
  have hsignificand : (1 : ℚ) ≤ b.significand := by exact_mod_cast hb
  exact lt_of_lt_of_le (mul_pos (by linarith) hquarter) h.1

/-- No rational rounds to two values with different units. -/
theorem exponent_not_lt (hb : b.Standard) (hc : c.Standard) (h : b.Rounds q) (h' : c.Rounds q) :
    ¬ b.exponent < c.exponent := by
  intro hlt
  have hquarter := b.quarter_pos
  have hdouble := two_quarter_le hlt
  have hleading := hc.leading (lt_of_le_of_lt hb.minExponent_le hlt)
  -- the upper interval begins at the end of the lower one, if not above it
  have hlow : (2 ^ 25 - 1 : ℚ) ≤ 4 * c.significand - c.below := by
    rcases Nat.eq_or_lt_of_le hleading with heq | hgt
    · have hbelow : c.below = 1 := if_pos ⟨heq.symm, lt_of_le_of_lt hb.minExponent_le hlt⟩
      rw [hbelow, ← heq]
      norm_num
    · have hbelow : (c.below : ℚ) ≤ 2 := by exact_mod_cast c.below_le
      have hgt : ((2 ^ 23 + 1 : ℕ) : ℚ) ≤ c.significand := by exact_mod_cast hgt
      push_cast at hgt
      linarith
  have hbegin : (2 ^ 26 - 2 : ℚ) * b.quarter ≤ (4 * c.significand - c.below) * c.quarter :=
    calc (2 ^ 26 - 2 : ℚ) * b.quarter = (2 ^ 25 - 1) * (2 * b.quarter) := by ring
      _ ≤ (2 ^ 25 - 1) * c.quarter := by linarith
      _ ≤ _ := mul_le_mul_of_nonneg_right hlow (by linarith)
  have hlargest := hb.significand_lt
  -- they meet only where the lower significand is the largest, which is odd
  rcases Nat.mod_two_eq_zero_or_one b.significand with heven | hodd
  · have hsmaller : (b.significand : ℚ) + 2 ≤ 2 ^ 24 := by
      have : b.significand + 2 ≤ 2 ^ 24 := by omega
      exact_mod_cast this
    have hend : (4 * b.significand + 2 : ℚ) * b.quarter < (2 ^ 26 - 2) * b.quarter :=
      mul_lt_mul_of_pos_right (by linarith) hquarter
    linarith [h.2.1, h'.1]
  · have hsmall : (b.significand : ℚ) + 1 ≤ 2 ^ 24 := by exact_mod_cast hlargest
    have hend : (4 * b.significand + 2 : ℚ) * b.quarter ≤ (2 ^ 26 - 2) * b.quarter :=
      mul_le_mul_of_nonneg_right (by linarith) hquarter.le
    linarith [(h.2.2 hodd).2, h'.1]

/-- No rational rounds to two values with the same unit. -/
theorem significand_not_lt (hexponent : b.exponent = c.exponent) (h : b.Rounds q) (h' : c.Rounds q) :
    ¬ b.significand < c.significand := by
  intro hlt
  have hquarter := c.quarter_pos
  have hsame : b.quarter = c.quarter := by rw [quarter, quarter, hexponent]
  have hbelow : (c.below : ℚ) ≤ 2 := by exact_mod_cast c.below_le
  have hle : ((b.significand + 1 : ℕ) : ℚ) ≤ c.significand := by exact_mod_cast hlt
  push_cast at hle
  have hends : (4 * b.significand + 2 : ℚ) * b.quarter ≤ (4 * c.significand - c.below) * c.quarter := by
    rw [hsame]
    exact mul_le_mul_of_nonneg_right (by linarith) hquarter.le
  rcases Nat.mod_two_eq_zero_or_one b.significand with heven | hodd
  · rcases Nat.mod_two_eq_zero_or_one c.significand with heven' | hodd'
    · have hle : ((b.significand + 2 : ℕ) : ℚ) ≤ c.significand := by exact_mod_cast (by omega)
      push_cast at hle
      have hgap : (4 * b.significand + 2 : ℚ) * b.quarter < (4 * c.significand - c.below) * c.quarter := by
        rw [hsame]
        exact mul_lt_mul_of_pos_right (by linarith) hquarter
      linarith [h.2.1, h'.1]
    · linarith [h.2.1, (h'.2.2 hodd').1]
  · linarith [(h.2.2 hodd).2, h'.1]

/-- A rational rounds to one magnitude only. -/
theorem unique (hb : b.Standard) (hc : c.Standard) (h : b.Rounds q) (h' : c.Rounds q) :
    b.significand = c.significand ∧ b.exponent = c.exponent := by
  have hexponent : b.exponent = c.exponent := by
    have := exponent_not_lt hb hc h h'
    have := exponent_not_lt hc hb h' h
    omega
  have := significand_not_lt hexponent h h'
  have := significand_not_lt hexponent.symm h' h
  exact ⟨by omega, hexponent⟩

end Rounds

end Binary32

namespace Decimal

/-! ## The shortest decimal -/

/-- The rational that a decimal stands for. -/
def value (d : Decimal) : ℚ := d.digits * 10 ^ d.exponent

/-- A fraction in units of a power of ten. -/
theorem inUnits_eq (num den : ℕ) (place : ℤ) :
    inUnits num den place = (num * 10 ^ (-place).toNat, den * 10 ^ place.toNat) := by
  unfold inUnits
  split
  · next h =>
    rw [Int.toNat_eq_zero.2 (by omega : -place ≤ 0), pow_zero, mul_one]
    rfl
  · next h =>
    rw [Int.toNat_eq_zero.2 (by omega : place ≤ 0), pow_zero, mul_one]
    rfl

/-- A power of ten, with a negative exponent moved to the other side. -/
theorem ten_zpow_mul (place : ℤ) : (10 : ℚ) ^ place * 10 ^ (-place).toNat = 10 ^ place.toNat := by
  rw [← zpow_natCast, ← zpow_natCast, ← zpow_add₀ (by norm_num)]
  congr 1
  omega

/-- Moving trailing zeros into the exponent keeps the number. -/
theorem value_trim (fuel : ℕ) (d : Decimal) : (trim fuel d).value = d.value := by
  induction fuel generalizing d with
  | zero => rfl
  | succ fuel ih =>
    rw [trim]
    split
    · next h =>
      rw [ih]
      have hdigits : d.digits = d.digits / 10 * 10 := by omega
      simp only [value]
      rw [zpow_add_one₀ (by norm_num), mul_comm ((10 : ℚ) ^ d.exponent), ← mul_assoc]
      congr 1
      exact_mod_cast hdigits.symm
    · rfl

/-- A positive number is at least the power of ten with as many digits. -/
theorem pow_width_le {n : ℕ} (hn : 0 < n) : 10 ^ (width n - 1) ≤ n := by
  fun_induction width n with
  | case1 n h => exact hn
  | case2 n h ih =>
    have ih := ih (by omega)
    rw [Nat.add_sub_cancel]
    obtain ⟨w, hw⟩ : ∃ w, width (n / 10) = w + 1 := by
      unfold width
      split
      · exact ⟨0, rfl⟩
      · exact ⟨_, rfl⟩
    rw [hw] at ih ⊢
    rw [Nat.add_sub_cancel] at ih
    calc 10 ^ (w + 1) = 10 ^ w * 10 := pow_succ 10 w
      _ ≤ n / 10 * 10 := Nat.mul_le_mul_right 10 ih
      _ ≤ n := Nat.div_mul_le_self n 10

/-- The magnitude of a quotient is not too large. -/
theorem zpow_magnitude_le {num den : ℕ} (hden : 0 < den) (h : den ≤ num * 10 ^ leastPlace) :
    (10 : ℚ) ^ (magnitude num den - 1) ≤ num / den := by
  have hpos : 0 < num * 10 ^ leastPlace / den := Nat.div_pos h hden
  have hwidth := pow_width_le hpos
  have hone : 1 ≤ width (num * 10 ^ leastPlace / den) := by
    unfold width
    split <;> omega
  have hscaled : ((10 ^ (width (num * 10 ^ leastPlace / den) - 1) : ℕ) : ℚ) ≤
      (num * 10 ^ leastPlace : ℕ) / (den : ℚ) :=
    le_trans (by exact_mod_cast hwidth) Nat.cast_div_le
  have hexponent : magnitude num den - 1 =
      ((width (num * 10 ^ leastPlace / den) - 1 : ℕ) : ℤ) - (leastPlace : ℕ) := by
    have hmagnitude : magnitude num den = (width (num * 10 ^ leastPlace / den) : ℤ) - (leastPlace : ℕ) := rfl
    omega
  rw [hexponent, zpow_sub₀ (by norm_num), zpow_natCast, zpow_natCast, div_le_iff₀ (by positivity)]
  push_cast at hscaled
  calc (10 : ℚ) ^ (width (num * 10 ^ leastPlace / den) - 1) ≤ num * 10 ^ leastPlace / den := hscaled
    _ = num / den * 10 ^ leastPlace := by ring

namespace Interval

/-- The rational lies in the interval. -/
def Has (i : Interval) (q : ℚ) : Prop :=
  (i.low / i.den : ℚ) ≤ q ∧ q ≤ i.high / i.den ∧
    (i.closed = false → (i.low / i.den : ℚ) < q ∧ q < i.high / i.den)

/-- A quotient and a point of a grid are compared over a common denominator. -/
theorem inUnits_le_iff {num den : ℕ} (hden : 0 < den) (other digits : ℕ) (place : ℤ) :
    ((inUnits num den place).1 ≤ digits * (inUnits other den place).2 ↔
      (num / den : ℚ) ≤ digits * 10 ^ place) ∧
    (digits * (inUnits other den place).2 ≤ (inUnits num den place).1 ↔
      digits * (10 : ℚ) ^ place ≤ num / den) := by
  have hscale : (0 : ℚ) < den * 10 ^ (-place).toNat := by positivity
  have hnum : ((num * 10 ^ (-place).toNat : ℕ) : ℚ) = num / den * (den * 10 ^ (-place).toNat) := by
    push_cast
    field_simp
  have hpoint : ((digits * (den * 10 ^ place.toNat) : ℕ) : ℚ) =
      digits * 10 ^ place * (den * 10 ^ (-place).toNat) := by
    push_cast
    rw [← ten_zpow_mul]
    ring
  rw [inUnits_eq, inUnits_eq, ← @Nat.cast_le ℚ, ← @Nat.cast_le ℚ, hnum, hpoint]
  exact ⟨mul_le_mul_iff_of_pos_right hscale, mul_le_mul_iff_of_pos_right hscale⟩

/-- The check of a grid point is exact. -/
theorem contains_iff {i : Interval} (hden : 0 < i.den) (digits : ℕ) (place : ℤ) :
    i.contains digits place = true ↔ i.Has (digits * 10 ^ place) := by
  obtain ⟨hlow, hlow'⟩ := @inUnits_le_iff i.low i.den hden i.high digits place
  obtain ⟨hhigh', hhigh⟩ := @inUnits_le_iff i.high i.den hden i.high digits place
  unfold Interval.contains Has
  dsimp only
  cases i.closed with
  | true => simp [hlow, hhigh]
  | false =>
    simp only [Bool.false_eq_true, if_false, Bool.and_eq_true, decide_eq_true_eq, true_implies]
    rw [← not_le, ← not_le, hlow', hhigh', not_le, not_le]
    exact ⟨fun h => ⟨h.1.le, h.2.le, h⟩, fun h => h.2.2⟩

/-- A power of two as a fraction. -/
theorem ratio_unit (e : ℤ) : Binary32.ratio ⟨false, 1, e⟩ = (2 ^ e.toNat, 2 ^ (-e).toNat) := by
  unfold Binary32.ratio
  dsimp only
  split
  · next h =>
    rw [Int.toNat_eq_zero.2 (by omega : -e ≤ 0), Nat.one_shiftLeft]
    rfl
  · next h =>
    rw [Int.toNat_eq_zero.2 (by omega : e ≤ 0), Nat.one_shiftLeft]
    rfl

variable {b : Binary32}

/-- The denominator of an interval is positive. -/
theorem den_around_pos (b : Binary32) : 0 < (Interval.around b).den := by
  show 0 < (Binary32.ratio ⟨false, 1, b.exponent - 2⟩).2
  rw [ratio_unit]
  positivity

/-- A bound of an interval, in quarters of the unit of its value. -/
theorem quarters_div_den (b : Binary32) (k : ℕ) :
    ((k * (Binary32.ratio ⟨false, 1, b.exponent - 2⟩).1 : ℕ) / (Interval.around b).den : ℚ) =
      k * b.quarter := by
  show ((k * (Binary32.ratio ⟨false, 1, b.exponent - 2⟩).1 : ℕ) /
    (Binary32.ratio ⟨false, 1, b.exponent - 2⟩).2 : ℚ) = _
  rw [ratio_unit, Binary32.quarter, div_eq_iff (by positivity)]
  push_cast
  rw [mul_assoc, ← zpow_natCast, ← zpow_natCast, ← zpow_add₀ (by norm_num)]
  congr 2
  omega

/-- The middle of the interval around a float is the float. -/
theorem mid_div_den (b : Binary32) :
    ((Interval.around b).mid / (Interval.around b).den : ℚ) = 4 * b.significand * b.quarter := by
  refine (quarters_div_den b (4 * b.significand)).trans ?_
  push_cast
  rfl

/-- The value is not below the least place that `magnitude` counts from. -/
theorem den_le_mid (hb : b.Standard) (hpos : 0 < b.significand) :
    (Interval.around b).den ≤ (Interval.around b).mid * 10 ^ leastPlace := by
  have hexponent : (-(b.exponent - 2)).toNat ≤ 151 := by
    have := hb.minExponent_le
    unfold Binary32.minExponent at this
    omega
  have hmid : 4 ≤ (Interval.around b).mid := by
    show 4 ≤ 4 * b.significand * (Binary32.ratio ⟨false, 1, b.exponent - 2⟩).1
    rw [ratio_unit]
    have hunit : 0 < 2 ^ (b.exponent - 2).toNat := by positivity
    nlinarith
  calc (Interval.around b).den = 2 ^ (-(b.exponent - 2)).toNat := congrArg Prod.snd (ratio_unit _)
    _ ≤ 2 ^ 151 := Nat.pow_le_pow_right (by decide) hexponent
    _ ≤ 4 * 10 ^ leastPlace := by decide
    _ ≤ (Interval.around b).mid * 10 ^ leastPlace := Nat.mul_le_mul_right _ hmid

/-- The interval around a value holds the rationals that round to it. -/
theorem has_around_iff (hb : 0 < b.significand) (q : ℚ) : (Interval.around b).Has q ↔ b.Rounds q := by
  have hbelow : ((4 * b.significand - b.below : ℕ) : ℚ) = 4 * b.significand - b.below := by
    have := b.below_le
    rw [Nat.cast_sub (by omega)]
    push_cast
    rfl
  have hlow : ((Interval.around b).low / (Interval.around b).den : ℚ) =
      (4 * b.significand - b.below) * b.quarter := by
    rw [← hbelow]
    exact quarters_div_den b _
  have hhigh : ((Interval.around b).high / (Interval.around b).den : ℚ) =
      (4 * b.significand + 2) * b.quarter := by
    refine (quarters_div_den b (4 * b.significand + 2)).trans ?_
    push_cast
    rfl
  have hclosed : (Interval.around b).closed = false ↔ b.significand % 2 = 1 := by
    simp [Interval.around]
  rw [Has, Binary32.Rounds, hlow, hhigh, hclosed]

/-- A neighbour on a grid that is found lies in the interval. -/
theorem neighbour_has {i : Interval} (hden : 0 < i.den) {place : ℤ} {d : ℕ}
    (h : i.neighbour place = some d) : i.Has (d * 10 ^ place) := by
  unfold Interval.neighbour at h
  dsimp only at h
  split at h
  · next hlower hupper =>
    split at h
    · cases h
      exact (contains_iff hden _ _).1 hlower
    · cases h
      exact (contains_iff hden _ _).1 hupper
  · next hlower hupper =>
    cases h
    exact (contains_iff hden _ _).1 hlower
  · next hlower hupper =>
    cases h
    exact (contains_iff hden _ _).1 hupper
  · cases h

/-- If no neighbour lies in the interval, the upper one does not. -/
theorem not_contains_of_neighbour {i : Interval} {place : ℤ} (h : i.neighbour place = none) :
    i.contains ((inUnits i.mid i.den place).1 / (inUnits i.mid i.den place).2 + 1) place = false := by
  unfold Interval.neighbour at h
  dsimp only at h
  split at h
  · split at h <;> cases h
  · cases h
  · cases h
  · next hlower hupper => exact hupper

/-- A grid that is finer than the upper half of the interval has a point in it. -/
theorem neighbour_isSome (hb : 0 < b.significand) {place : ℤ} (hfine : (10 : ℚ) ^ place < 2 * b.quarter) :
    ((Interval.around b).neighbour place).isSome := by
  have hden := den_around_pos b
  let i := Interval.around b
  let d := (inUnits i.mid i.den place).1 / (inUnits i.mid i.den place).2
  have hmid := mid_div_den b
  have hunits : 0 < (inUnits i.mid i.den place).2 := by
    rw [inUnits_eq]
    positivity
  -- the value lies between the grid points `d` and `d + 1`
  have hdown : d * (10 : ℚ) ^ place ≤ 4 * b.significand * b.quarter := by
    rw [← hmid, ← (inUnits_le_iff hden i.mid d place).2]
    exact Nat.div_mul_le_self _ _
  have hup : 4 * b.significand * b.quarter < (d + 1 : ℕ) * (10 : ℚ) ^ place := by
    rw [← hmid, ← not_le, ← (inUnits_le_iff hden i.mid (d + 1) place).2, not_le, mul_comm]
    exact Nat.lt_mul_div_succ _ hunits
  have hupper : i.contains (d + 1) place = true := by
    rw [contains_iff hden, has_around_iff hb]
    have hquarter := b.quarter_pos
    have hlow : (4 * b.significand - b.below) * b.quarter ≤ 4 * b.significand * b.quarter :=
      mul_le_mul_of_nonneg_right (by simp) hquarter.le
    have hlt : ((d + 1 : ℕ) : ℚ) * 10 ^ place < (4 * b.significand + 2) * b.quarter := by
      push_cast
      linarith
    exact ⟨by linarith, hlt.le, fun _ => ⟨by linarith, hlt⟩⟩
  rw [Option.isSome_iff_ne_none]
  intro hnone
  exact absurd hupper (by rw [not_contains_of_neighbour hnone]; exact Bool.false_ne_true)

/-- A search over grids of which one is fine enough ends in the interval. -/
theorem has_search {i : Interval} (hden : 0 < i.den) {top : ℤ} {fuel n k : ℕ} (hn : n ≤ k) (hk : k < n + fuel)
    (hsome : (i.neighbour (top - k)).isSome) : i.Has (i.search top fuel n).value := by
  induction fuel generalizing n with
  | zero => omega
  | succ fuel ih =>
    rw [Interval.search]
    split
    · next d hd =>
      rw [value_trim]
      exact neighbour_has hden hd
    · next hnone =>
      have hne : n ≠ k := by
        rintro rfl
        rw [hnone] at hsome
        cases hsome
      exact ih (by omega) (by omega)

end Interval

/-- The shortest decimal of a value rounds to it. -/
theorem shortest_rounds {b : Binary32} (hb : b.Standard) (hpos : 0 < b.significand) :
    b.Rounds (shortest b).value := by
  have hden := Interval.den_around_pos b
  have hquarter := b.quarter_pos
  have htop := zpow_magnitude_le hden (Interval.den_le_mid hb hpos)
  rw [Interval.mid_div_den] at htop
  have hsmall : (b.significand : ℚ) ≤ 2 ^ 24 := by exact_mod_cast hb.significand_lt.le
  -- the grid of the ninth digit
  have hfine : (10 : ℚ) ^ (magnitude (Interval.around b).mid (Interval.around b).den - 9) <
      2 * b.quarter := by
    have hsplit : (10 : ℚ) ^ (magnitude (Interval.around b).mid (Interval.around b).den - 1) =
        10 ^ (magnitude (Interval.around b).mid (Interval.around b).den - 9) * 10 ^ 8 := by
      rw [← zpow_natCast (10 : ℚ) 8, ← zpow_add₀ (by norm_num)]
      congr 1
      push_cast
      ring
    nlinarith
  exact (Interval.has_around_iff hpos _).1
    (Interval.has_search hden (by decide : 1 ≤ 9) (by decide) (Interval.neighbour_isSome hpos hfine))

end Decimal

end TensorKernels
