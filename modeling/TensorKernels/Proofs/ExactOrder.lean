import TensorKernels.Proofs.DropoutRate
import TensorKernels.Proofs.RoundingIntervals

/-!
# The exact order of binary32 values

A finite binary32 value stands for a rational number (`Number.exact`). Comparing two values compares these
numbers (`Number.lt_iff_exact`): the comparison looks at the exponents first and at the significands only
where the exponents agree, which is right because the significand of a larger exponent has its leading bit
set. So the larger of two values is the one with the larger number (`Number.larger_eq`).

A difference is rounded, but it is zero only where the numbers are equal (`Number.exact_eq_of_sub_eq_zero`):
the smallest unit divides every difference, so that none is rounded away.
-/

set_option autoImplicit false

open Float.Model

namespace TensorKernels

namespace Binary32

/-! ## Numbers of parts -/

/-- The number without its sign. -/
def size (b : Binary32) : ℚ := b.significand * 2 ^ b.exponent

/-- The number that the parts stand for. -/
def value (b : Binary32) : ℚ := if b.negative then -b.size else b.size

variable {b c : Binary32}

/-- The unit of the last place is positive. -/
theorem unit_pos (b : Binary32) : (0 : ℚ) < 2 ^ b.exponent := by positivity

/-- A size is not negative. -/
theorem size_nonneg (b : Binary32) : 0 ≤ b.size :=
  mul_nonneg (Nat.cast_nonneg _) b.unit_pos.le

/-- A number with a significand has a positive size. -/
theorem size_pos (h : 0 < b.significand) : 0 < b.size :=
  mul_pos (by exact_mod_cast h) b.unit_pos

/-- A number without a significand has size zero. -/
theorem size_eq_zero (h : b.significand = 0) : b.size = 0 := by simp [size, h]

/-- A larger exponent makes a larger number, since the leading bit is set. -/
theorem size_lt_of_exponent_lt (hb : b.Standard) (hc : c.Standard) (h : b.exponent < c.exponent) :
    b.size < c.size := by
  have hsmall : (b.significand : ℚ) < 2 ^ 24 := by exact_mod_cast hb.significand_lt
  have hleading : (2 ^ 23 : ℚ) ≤ c.significand := by
    exact_mod_cast hc.leading (lt_of_le_of_lt hb.minExponent_le h)
  have hunit : (2 : ℚ) * 2 ^ b.exponent ≤ 2 ^ c.exponent := by
    calc (2 : ℚ) * 2 ^ b.exponent = 2 ^ (b.exponent + 1) := by
          rw [zpow_add_one₀ (by norm_num), mul_comm]
      _ ≤ 2 ^ c.exponent := zpow_le_zpow_right₀ (by norm_num) (by omega)
  calc b.size < 2 ^ 24 * 2 ^ b.exponent := mul_lt_mul_of_pos_right hsmall b.unit_pos
    _ = 2 ^ 23 * (2 * 2 ^ b.exponent) := by ring
    _ ≤ 2 ^ 23 * 2 ^ c.exponent := mul_le_mul_of_nonneg_left hunit (by norm_num)
    _ ≤ c.size := mul_le_mul_of_nonneg_right hleading c.unit_pos.le

/-- Exponents are compared first, then significands. -/
theorem size_lt_iff (hb : b.Standard) (hc : c.Standard) :
    b.size < c.size ↔
      b.exponent < c.exponent ∨ b.exponent = c.exponent ∧ b.significand < c.significand := by
  rcases lt_trichotomy b.exponent c.exponent with hlt | heq | hgt
  · simp [size_lt_of_exponent_lt hb hc hlt, hlt]
  · have hcast : (b.significand : ℚ) < c.significand ↔ b.significand < c.significand := Nat.cast_lt
    rw [size, size, heq, mul_lt_mul_iff_of_pos_right c.unit_pos, hcast]
    simp
  · have hnot := (size_lt_of_exponent_lt hc hb hgt).le
    constructor
    · intro h
      linarith
    · omega

/-- The size determines the parts. -/
theorem parts_eq_of_size_eq (hb : b.Standard) (hc : c.Standard) (h : b.size = c.size) :
    b.significand = c.significand ∧ b.exponent = c.exponent := by
  have hbc := mt (size_lt_iff hb hc).2 (by rw [h]; exact lt_irrefl _)
  have hcb := mt (size_lt_iff hc hb).2 (by rw [h]; exact lt_irrefl _)
  omega

/-- The comparison of exponents and then significands. -/
theorem compare_then_eq (hb : b.Standard) (hc : c.Standard) :
    (compare b.exponent c.exponent).then (compare b.significand c.significand) =
      compare b.size c.size := by
  rcases lt_trichotomy b.size c.size with hlt | heq | hgt
  · rw [compare_lt_iff_lt.2 hlt]
    rcases (size_lt_iff hb hc).1 hlt with hexponent | ⟨hexponent, hsignificand⟩
    · rw [compare_lt_iff_lt.2 hexponent]
      rfl
    · rw [compare_eq_iff_eq.2 hexponent, compare_lt_iff_lt.2 hsignificand]
      rfl
  · obtain ⟨hsignificand, hexponent⟩ := parts_eq_of_size_eq hb hc heq
    rw [compare_eq_iff_eq.2 heq, compare_eq_iff_eq.2 hexponent, compare_eq_iff_eq.2 hsignificand]
    rfl
  · rw [compare_gt_iff_gt.2 hgt]
    rcases (size_lt_iff hc hb).1 hgt with hexponent | ⟨hexponent, hsignificand⟩
    · rw [compare_gt_iff_gt.2 hexponent]
      rfl
    · rw [compare_eq_iff_eq.2 hexponent.symm, compare_gt_iff_gt.2 hsignificand]
      rfl

/-! ## Unpacked numbers -/

/-- The sign of the parts. -/
def sign (b : Binary32) : UnpackedFloat.Sign := if b.negative then .negative else .positive

/-- The parts as an unpacked number. -/
def unpacked (b : Binary32) : UnpackedFloat :=
  if h : b.significand = 0 then .zero b.sign
  else .finite b.sign b.significand b.exponent (Nat.pos_of_ne_zero h)

/-- The fields of a bit pattern as numbers. -/
theorem toNat_unpackMantissa (v : BitVec 32) :
    (@UnpackedFloat.unpackMantissa Format.binary32 v).toNat = v.toNat % 2 ^ 23 := by
  show (v.extractLsb 22 0).toNat = _
  rw [BitVec.extractLsb_toNat]
  rfl

/-- The exponent field of a bit pattern, as a number. -/
theorem toNat_unpackExponent (v : BitVec 32) :
    (@UnpackedFloat.unpackExponent Format.binary32 v).toNat = v.toNat / 2 ^ 23 % 256 := by
  show (v.extractLsb 30 23).toNat = _
  rw [BitVec.extractLsb_toNat, Nat.shiftRight_eq_div_pow]

/-- The sign bit of a bit pattern, as a number. -/
theorem toNat_unpackSign (v : BitVec 32) :
    (@UnpackedFloat.unpackSign Format.binary32 v).toNat = v.toNat / 2 ^ 31 := by
  show (v.extractLsb 31 31).toNat = _
  rw [BitVec.extractLsb_toNat, Nat.shiftRight_eq_div_pow]
  have := v.isLt
  omega

/-- The parts of a zero or subnormal value. -/
theorem ofFloat_of_field_eq_zero {x : Float32} (h : x.toBits.toNat / 2 ^ 23 % 256 = 0) :
    (ofFloat x).significand = x.toBits.toNat % 2 ^ 23 ∧ (ofFloat x).exponent = minExponent := by
  rw [← Nat.shiftRight_eq_div_pow] at h
  exact ⟨if_pos h, if_pos h⟩

/-- The parts of any other value. -/
theorem ofFloat_of_field_ne_zero {x : Float32} (h : x.toBits.toNat / 2 ^ 23 % 256 ≠ 0) :
    (ofFloat x).significand = 2 ^ 23 + x.toBits.toNat % 2 ^ 23 ∧
      (ofFloat x).exponent = minExponent + (x.toBits.toNat / 2 ^ 23 % 256 - 1 : Nat) := by
  rw [← Nat.shiftRight_eq_div_pow] at h ⊢
  exact ⟨if_neg h, if_neg h⟩

/-- A zero significand unpacks to zero. -/
theorem unpacked_of_eq_zero {b : Binary32} (h : b.significand = 0) : b.unpacked = .zero b.sign := dif_pos h

/-- A positive significand unpacks to a finite number. -/
theorem unpacked_of_pos {b : Binary32} (h : 0 < b.significand) :
    b.unpacked = .finite b.sign b.significand b.exponent h := dif_neg (Nat.pos_iff_ne_zero.1 h)

/-- Unpacking a finite value reads off its parts. -/
theorem unpack_eq {x : Float32} (hx : x.isFinite = true) : x.toModel.unpack = (ofFloat x).unpacked := by
  rw [isFinite_iff] at hx
  have hexponent := toNat_unpackExponent x.toBits.toBitVec
  have hmantissa := toNat_unpackMantissa x.toBits.toBitVec
  have hbit := toNat_unpackSign x.toBits.toBitVec
  rw [UInt32.toNat_toBitVec] at hexponent hmantissa hbit
  have hbias : (Format.binary32.exponentBias + 23 : Int) = 150 := by decide
  have hsign : UnpackedFloat.Sign.ofBitVec (@UnpackedFloat.unpackSign Format.binary32 x.toBits.toBitVec) =
      (ofFloat x).sign := by
    unfold UnpackedFloat.Sign.ofBitVec
    simp only [sign, ofFloat, decide_eq_true_eq, Nat.one_shiftLeft, ← BitVec.toNat_inj, hbit,
      BitVec.toNat_ofNat, Nat.zero_mod]
    by_cases hneg : 2 ^ 31 ≤ x.toBits.toNat
    · rw [if_pos hneg, if_neg (by omega)]
    · rw [if_neg hneg, if_pos (by omega)]
  show UnpackedFloat.unpack Format.binary32 x.toBits.toBitVec = _
  unfold UnpackedFloat.unpack
  dsimp only
  rw [if_neg hx, hsign]
  split
  · next hzero =>
    have hfield : x.toBits.toNat / 2 ^ 23 % 256 = 0 := by
      rw [← hexponent, hzero]
      rfl
    obtain ⟨hsignificand, hunit⟩ := ofFloat_of_field_eq_zero hfield
    split
    · next hm =>
      rw [unpacked_of_eq_zero]
      rw [hsignificand, ← hmantissa, hm]
      rfl
    · next hm =>
      have hpos : 0 < (ofFloat x).significand := by
        rw [hsignificand, ← hmantissa]
        exact Nat.pos_of_ne_zero fun h => hm (BitVec.toNat_inj.1 h)
      rw [unpacked_of_pos hpos]
      simp only [UnpackedFloat.finite.injEq, hsignificand, hmantissa, hexponent, hfield, hunit, true_and]
      rfl
  · next hzero =>
    have hfield : x.toBits.toNat / 2 ^ 23 % 256 ≠ 0 := by
      rw [← hexponent]
      exact fun h => hzero (BitVec.toNat_inj.1 h)
    obtain ⟨hsignificand, hunit⟩ := ofFloat_of_field_ne_zero hfield
    have hpos : 0 < (ofFloat x).significand := by omega
    rw [unpacked_of_pos hpos]
    simp only [UnpackedFloat.finite.injEq, hsignificand, hexponent, hunit, true_and, minExponent]
    constructor
    · rw [BitVec.toNat_append, ← Nat.shiftLeft_add_eq_or_of_lt (BitVec.isLt _), hmantissa]
      rfl
    · omega

/-- Unpacked numbers are compared like the numbers they stand for. -/
theorem lt_unpacked_iff (hb : b.Standard) (hc : c.Standard) :
    b.unpacked.lt c.unpacked = true ↔ b.value < c.value := by
  unfold UnpackedFloat.lt
  rcases Nat.eq_zero_or_pos b.significand with hb0 | hbpos
  · rcases Nat.eq_zero_or_pos c.significand with hc0 | hcpos
    · rw [unpacked_of_eq_zero hb0, unpacked_of_eq_zero hc0]
      simp [UnpackedFloat.compare, value, size_eq_zero hb0, size_eq_zero hc0]
    · have hsize := size_pos hcpos
      rw [unpacked_of_eq_zero hb0, unpacked_of_pos hcpos]
      cases hn : c.negative with
      | false => simp [UnpackedFloat.compare, sign, value, size_eq_zero hb0, hn, hsize]
      | true => simp [UnpackedFloat.compare, sign, value, size_eq_zero hb0, hn, hsize.le]
  · have hsize := size_pos hbpos
    rcases Nat.eq_zero_or_pos c.significand with hc0 | hcpos
    · rw [unpacked_of_pos hbpos, unpacked_of_eq_zero hc0]
      cases hn : b.negative with
      | false => simp [UnpackedFloat.compare, sign, value, size_eq_zero hc0, hn, hsize.le]
      | true => simp [UnpackedFloat.compare, sign, value, size_eq_zero hc0, hn, hsize]
    · have hsize' := size_pos hcpos
      rw [unpacked_of_pos hbpos, unpacked_of_pos hcpos]
      cases hn : b.negative with
      | false =>
        cases hn' : c.negative with
        | false =>
          simp [UnpackedFloat.compare, sign, value, hn, hn', compare_then_eq hb hc, compare_lt_iff_lt]
        | true =>
          have hle : -c.size ≤ b.size := by linarith
          simp [UnpackedFloat.compare, sign, value, hn, hn', hle]
      | true =>
        cases hn' : c.negative with
        | false =>
          have hlt : -b.size < c.size := by linarith
          simp [UnpackedFloat.compare, sign, value, hn, hn', hlt]
        | true =>
          simp [UnpackedFloat.compare, sign, value, hn, hn', compare_then_eq hb hc, compare_gt_iff_gt]

/-! ## Differences -/

/-- The exponent to which a number is rounded leaves 24 bits, and is not below the least one. -/
theorem targetExponent_eq (t : Int) : Format.binary32.targetExponent t = max (t - 24) minExponent := rfl

/-- Shifting right divides the mantissa. -/
theorem mantissa_shiftRight (em : UnpackedFloat.ExtendedMantissa) (k : Nat) :
    (em >>> k).mantissa = em.mantissa / 2 ^ k := by
  induction k with
  | zero => exact (Nat.div_one _).symm
  | succ k ih =>
    show (em >>> k).shiftRightOne.mantissa = _
    rw [pow_succ, ← Nat.div_div_eq_div_mul, ← ih]
    rfl

/-- Rounding does not go below the truncated mantissa. -/
theorem le_roundedMantissa (em : UnpackedFloat.ExtendedMantissa) : em.mantissa ≤ em.roundedMantissa := by
  unfold UnpackedFloat.ExtendedMantissa.roundedMantissa UnpackedFloat.Accuracy.roundToNearestEven
  split <;> omega

/-- Bringing a significand to its unit leaves 24 bits of it, and not nothing. -/
theorem shiftToTargetExponent_bounds {m : Nat} (hm : 0 < m) {e : Int} (he : minExponent ≤ e)
    (accuracy : UnpackedFloat.Accuracy) :
    let shifted := UnpackedFloat.shiftToTargetExponent Format.binary32 m e accuracy
    0 < shifted.1.mantissa ∧ shifted.1.mantissa < 2 ^ 24 ∧ minExponent ≤ shifted.2 := by
  have hstart : (UnpackedFloat.ExtendedMantissa.ofMantissaAndAccuracy m accuracy).mantissa = m := by
    unfold UnpackedFloat.ExtendedMantissa.ofMantissaAndAccuracy
    split <;> rfl
  have hlow := Nat.log2_self_le (Nat.pos_iff_ne_zero.1 hm)
  have hhigh : m < 2 ^ (m.log2 + 1) := Nat.lt_log2_self
  simp only [UnpackedFloat.shiftToTargetExponent, UnpackedFloat.shiftToExponent, mantissa_shiftRight, hstart,
    targetExponent_eq, totalExponent]
  generalize hk : (max ((m.log2 : Int) + 1 + e - 24) minExponent - e).toNat = k
  -- the shift keeps 24 bits where there are more
  have hk : k = m.log2 - 23 := by omega
  refine ⟨?_, ?_, by omega⟩
  · refine Nat.div_pos (le_trans (Nat.pow_le_pow_right (by decide) ?_) hlow) (Nat.two_pow_pos k)
    omega
  · rw [Nat.div_lt_iff_lt_mul (Nat.two_pow_pos k), ← Nat.pow_add]
    exact lt_of_lt_of_le hhigh (Nat.pow_le_pow_right (by decide) (by omega))

/-- A number in units that are not too small is not rounded to zero. -/
theorem round_eq_finite (s : UnpackedFloat.Sign) {m : Nat} (hm : 0 < m) {e : Int} (he : minExponent ≤ e) :
    ∃ n d hn, UnpackedFloat.round Format.binary32 s m e = .finite s n d hn ∧ n < 2 ^ 24 ∧
      minExponent ≤ d := by
  unfold UnpackedFloat.round UnpackedFloat.decreaseExponent UnpackedFloat.roundWithAccuracy
  rw [targetExponent_eq]
  dsimp only
  generalize hdrop : (e - max (totalExponent m e - 24) minExponent).toNat = drop
  have hpos : 0 < m <<< drop := by
    rw [Nat.shiftLeft_eq]
    exact Nat.mul_pos hm (Nat.two_pow_pos drop)
  obtain ⟨hfirst, -, hunit⟩ := shiftToTargetExponent_bounds hpos
    (show minExponent ≤ e - drop by omega) .exact
  obtain ⟨hsecond, hlt, hunit'⟩ := shiftToTargetExponent_bounds
    (Nat.lt_of_lt_of_le hfirst (le_roundedMantissa _)) hunit .exact
  rw [dif_neg (Nat.pos_iff_ne_zero.1 hsecond)]
  exact ⟨_, _, hsecond, rfl, hlt, hunit'⟩

/-- The pattern of a number that is not zero is not that of zero. -/
theorem pack_finite_ne_zero (s : UnpackedFloat.Sign) {m : Nat} (hm : 0 < m) (hlt : m < 2 ^ 24) {e : Int}
    (he : minExponent ≤ e) (s' : UnpackedFloat.Sign) :
    UnpackedFloat.pack Format.binary32 (.finite s m e hm) ≠
      UnpackedFloat.pack Format.binary32 (.zero s') := by
  have hbias : (Format.binary32.exponentBias : Int) = 127 := by decide
  have hbits : Format.binary32.mantissaBits = 24 := rfl
  intro h
  have hexponent := congrArg UnpackedFloat.unpackExponent h
  have hmantissa := congrArg UnpackedFloat.unpackMantissa h
  simp only [UnpackedFloat.pack, UnpackedFloat.packedZero, hbias, hbits] at hexponent hmantissa
  rw [UnpackedFloat.unpackExponent_packComponents] at hexponent
  rw [UnpackedFloat.unpackMantissa_packComponents] at hmantissa
  unfold minExponent at he
  split at hexponent
  · rw [UnpackedFloat.packedInfinity, UnpackedFloat.unpackExponent_packComponents] at hexponent
    exact absurd hexponent (by decide)
  · next hfinite =>
    rw [if_neg hfinite] at hmantissa
    split at hexponent
    · rw [UnpackedFloat.unpackExponent_packComponents] at hexponent
      have hnat : (e + 127 + 23).toNat % 2 ^ 8 = 0 := congrArg BitVec.toNat hexponent
      omega
    · next hsub =>
      rw [if_neg hsub, UnpackedFloat.unpackMantissa_packComponents] at hmantissa
      have hnat : m % 2 ^ 23 = 0 := congrArg BitVec.toNat hmantissa
      have hlog : m.log2 < 24 := (Nat.log2_lt (Nat.pos_iff_ne_zero.1 hm)).2 hlt
      have hsmall : m < 2 ^ 23 := (Nat.log2_lt (Nat.pos_iff_ne_zero.1 hm)).1 (by omega)
      omega

/-- Rounding a number in units that are not too small never packs it like zero. -/
theorem pack_round_ne_zero (s : UnpackedFloat.Sign) {m : Nat} (hm : 0 < m) {e : Int} (he : minExponent ≤ e)
    (s' : UnpackedFloat.Sign) :
    UnpackedFloat.pack Format.binary32 (UnpackedFloat.round Format.binary32 s m e) ≠
      UnpackedFloat.pack Format.binary32 (.zero s') := by
  obtain ⟨n, d, hn, heq, hlt, hd⟩ := round_eq_finite s hm he
  rw [heq]
  exact pack_finite_ne_zero s hn hlt hd s'

/-- The number of the parts, counted in a smaller unit. -/
theorem apply_shiftLeft_mul (b : Binary32) {e : Int} (he : e ≤ b.exponent) :
    (b.sign.apply (b.significand <<< (b.exponent - e).toNat : Nat) : ℚ) * 2 ^ e = b.value := by
  have hshift : ((b.significand <<< (b.exponent - e).toNat : Nat) : ℚ) * 2 ^ e = b.size := by
    rw [Nat.shiftLeft_eq, size]
    push_cast
    rw [mul_assoc, ← zpow_natCast, ← zpow_add₀ (by norm_num)]
    congr 2
    omega
  cases hn : b.negative with
  | false =>
    simp only [value, sign, hn, Bool.false_eq_true, if_false, UnpackedFloat.Sign.apply]
    rw [Int.cast_natCast, hshift]
  | true =>
    simp only [value, sign, hn, if_true, UnpackedFloat.Sign.apply]
    rw [Int.cast_neg, Int.cast_natCast, neg_mul, hshift]

/-- A difference that is packed like zero is one of equal numbers. -/
theorem value_eq_of_pack_sub (hb : b.Standard) (hc : c.Standard) {s : UnpackedFloat.Sign}
    (h : UnpackedFloat.pack Format.binary32 (UnpackedFloat.sub Format.binary32 b.unpacked c.unpacked) =
      UnpackedFloat.pack Format.binary32 (.zero s)) : b.value = c.value := by
  rcases Nat.eq_zero_or_pos b.significand with hb0 | hbpos
  · rcases Nat.eq_zero_or_pos c.significand with hc0 | hcpos
    · simp [value, size_eq_zero hb0, size_eq_zero hc0]
    · rw [unpacked_of_eq_zero hb0, unpacked_of_pos hcpos] at h
      exact absurd h (pack_finite_ne_zero _ hcpos hc.significand_lt hc.minExponent_le s)
  · rcases Nat.eq_zero_or_pos c.significand with hc0 | hcpos
    · rw [unpacked_of_pos hbpos, unpacked_of_eq_zero hc0] at h
      exact absurd h (pack_finite_ne_zero _ hbpos hb.significand_lt hb.minExponent_le s)
    · rw [unpacked_of_pos hbpos, unpacked_of_pos hcpos] at h
      have hunit : minExponent ≤ min b.exponent c.exponent := le_min hb.minExponent_le hc.minExponent_le
      have hbvalue := b.apply_shiftLeft_mul (min_le_left b.exponent c.exponent)
      have hcvalue := c.apply_shiftLeft_mul (min_le_right b.exponent c.exponent)
      simp only [UnpackedFloat.sub, UnpackedFloat.decreaseExponent] at h
      generalize b.sign.apply (b.significand <<< (b.exponent - min b.exponent c.exponent).toNat : Nat) = m at *
      generalize c.sign.apply (c.significand <<< (c.exponent - min b.exponent c.exponent).toNat : Nat) = n at *
      unfold UnpackedFloat.normalize at h
      split at h
      · next hlt =>
        rw [compare_lt_iff_lt] at hlt
        exact absurd h (pack_round_ne_zero .negative (by omega) hunit s)
      · next heq =>
        rw [compare_eq_iff_eq] at heq
        rw [← hbvalue, ← hcvalue, show m = n by omega]
      · next hgt =>
        rw [compare_gt_iff_gt] at hgt
        exact absurd h (pack_round_ne_zero .positive (by omega) hunit s)

/-- A number minus itself is positive zero. -/
theorem sub_unpacked_self (b : Binary32) :
    UnpackedFloat.sub Format.binary32 b.unpacked b.unpacked = .zero .positive := by
  rcases Nat.eq_zero_or_pos b.significand with hb0 | hbpos
  · rw [unpacked_of_eq_zero hb0]
    cases b.sign <;> rfl
  · rw [unpacked_of_pos hbpos]
    simp only [UnpackedFloat.sub, UnpackedFloat.normalize, Int.sub_self]
    rfl

end Binary32

namespace Number

/-! ## Values -/

/-- The number that a finite value stands for. -/
def exact (x : Float32) : ℚ := (Binary32.ofFloat x).value

variable {x y : Float32}

/-- The comparison of finite values is exact. -/
theorem lt_iff_exact (hx : x.isFinite = true) (hy : y.isFinite = true) : x < y ↔ exact x < exact y := by
  rw [Binary32.lt_iff, Binary32.unpack_eq hx, Binary32.unpack_eq hy]
  exact Binary32.lt_unpacked_iff (Binary32.standard_ofFloat x) (Binary32.standard_ofFloat y)

/-- A number other than zero is that of one value. -/
theorem eq_of_exact_eq (h : exact x = exact y) (hne : exact x ≠ 0) : x = y := by
  have hb := Binary32.standard_ofFloat x
  have hc := Binary32.standard_ofFloat y
  apply Binary32.ofFloat_injective
  unfold exact at h hne
  generalize Binary32.ofFloat x = b at *
  generalize Binary32.ofFloat y = c at *
  have hbsize := b.size_nonneg
  have hcsize := c.size_nonneg
  obtain ⟨hsign, hsize⟩ : b.negative = c.negative ∧ b.size = c.size := by
    unfold Binary32.value at h hne
    cases hn : b.negative <;> cases hn' : c.negative <;>
      simp only [hn, hn', Bool.false_eq_true, if_false, if_true] at h hne
    · exact ⟨rfl, h⟩
    · exact absurd (by linarith) hne
    · exact absurd (by linarith) hne
    · exact ⟨rfl, neg_injective h⟩
  obtain ⟨hsignificand, hexponent⟩ := Binary32.parts_eq_of_size_eq hb hc hsize
  cases b
  cases c
  simp_all

/-- The larger of two finite values is one of them. -/
theorem larger_eq (hx : x.isFinite = true) (hy : y.isFinite = true) :
    larger x y = if exact x < exact y then y else x := by
  unfold larger
  rw [if_neg (Bool.eq_false_iff.1 (Binary32.not_isNaN_of_isFinite hx).1),
    if_neg (Bool.eq_false_iff.1 (Binary32.not_isNaN_of_isFinite hy).1)]
  simp only [lt_iff_exact hx hy]

/-- A finite value minus itself is zero. -/
theorem sub_self (hx : x.isFinite = true) : x - x = 0.0 := by
  show Float32.ofModel (.pack (UnpackedFloat.sub Format.binary32 x.toModel.unpack x.toModel.unpack)) = 0.0
  rw [Binary32.unpack_eq hx, Binary32.sub_unpacked_self]
  rfl

/-- A difference that is zero is one of equal numbers. -/
theorem exact_eq_of_sub_eq_zero (hx : x.isFinite = true) (hy : y.isFinite = true) (h : x - y = 0.0) :
    exact x = exact y := by
  have hbits : UnpackedFloat.pack Format.binary32
      (UnpackedFloat.sub Format.binary32 x.toModel.unpack y.toModel.unpack) =
      UnpackedFloat.pack Format.binary32 (.zero .positive) :=
    congrArg (fun z : Float32 => z.toModel.toBits.toBitVec) h
  rw [Binary32.unpack_eq hx, Binary32.unpack_eq hy] at hbits
  exact Binary32.value_eq_of_pack_sub (Binary32.standard_ofFloat x) (Binary32.standard_ofFloat y) hbits

end Number

end TensorKernels
