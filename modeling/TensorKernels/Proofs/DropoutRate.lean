import TensorKernels.Node.Lowering
import TensorKernels.Tensor.Mask

/-!
# Masks of a dropout rate can be drawn

An element of a mask is kept with probability `1 - rate`, computed in binary32. For a rate that a
lowering accepts this is a probability (`Mask.isProbability_keep`), so a mask of such a rate can always
be drawn anew (`Mask.refresh_ok`). The difference may be rounded; what matters is that it is a number,
since it is clamped to the unit interval.
-/

set_option autoImplicit false

open Float.Model

namespace TensorKernels

namespace Binary32

/-- Packing a number gives a number. -/
theorem unpack_pack_ne_nan {f : UnpackedFloat} (h : f ≠ .notANumber) :
    UnpackedFloat.unpack Format.binary32 (UnpackedFloat.pack Format.binary32 f) ≠ .notANumber := by
  -- all exponent bits are set only for an infinity, whose mantissa is zero
  have hkey : UnpackedFloat.unpackExponent (UnpackedFloat.pack Format.binary32 f) = -1#_ →
      UnpackedFloat.unpackMantissa (UnpackedFloat.pack Format.binary32 f) = 0#_ := by
    fun_cases UnpackedFloat.pack with
    | case1 => exact absurd rfl h
    | case2 s => simp [UnpackedFloat.packedInfinity]
    | case3 s => simp [UnpackedFloat.packedZero]
    | case4 s m e hm biased hb => simp [UnpackedFloat.packedInfinity]
    | case5 s m e hm bits biased hb hn =>
      intro hexp
      rw [UnpackedFloat.unpackExponent_packComponents] at hexp
      have := congrArg BitVec.toNat hexp
      simp at this hb
      omega
    | case6 s m e hm bits biased hb hn =>
      intro hexp
      rw [UnpackedFloat.unpackExponent_packComponents] at hexp
      simp at hexp
  unfold UnpackedFloat.unpack
  dsimp only
  by_cases he : UnpackedFloat.unpackExponent (UnpackedFloat.pack Format.binary32 f) = -1#_
  · rw [if_pos he, if_pos (hkey he)]
    exact fun h => UnpackedFloat.noConfusion h
  · rw [if_neg he]
    by_cases hzero : UnpackedFloat.unpackExponent (UnpackedFloat.pack Format.binary32 f) = 0#_
    · rw [if_pos hzero]
      by_cases hm : UnpackedFloat.unpackMantissa (UnpackedFloat.pack Format.binary32 f) = 0#_
      · rw [dif_pos hm]
        exact fun h => UnpackedFloat.noConfusion h
      · rw [dif_neg hm]
        exact fun h => UnpackedFloat.noConfusion h
    · rw [if_neg hzero]
      exact fun h => UnpackedFloat.noConfusion h

/-- Rounding a finite number does not give NaN. -/
theorem normalize_ne_nan (spec : Format) (m e : Int) (s : UnpackedFloat.Sign) :
    UnpackedFloat.normalize spec m e s ≠ .notANumber := by
  have hround : ∀ s m e, UnpackedFloat.round spec s m e ≠ .notANumber := by
    intro s m e
    unfold UnpackedFloat.round UnpackedFloat.roundWithAccuracy
    dsimp only
    generalize UnpackedFloat.shiftToTargetExponent spec _ _ UnpackedFloat.Accuracy.exact = final
    by_cases hm : final.1.mantissa = 0
    · rw [dif_pos hm]
      exact fun h => UnpackedFloat.noConfusion h
    · rw [dif_neg hm]
      exact fun h => UnpackedFloat.noConfusion h
  unfold UnpackedFloat.normalize
  split
  · exact hround _ _ _
  · exact fun h => UnpackedFloat.noConfusion h
  · exact hround _ _ _

/-- A finite number minus a number is a number. -/
theorem sub_ne_nan (spec : Format) {s : UnpackedFloat.Sign} {m : Nat} {e : Int} (hm : 0 < m)
    {y : UnpackedFloat} (hy : y ≠ .notANumber) :
    UnpackedFloat.sub spec (.finite s m e hm) y ≠ .notANumber := by
  cases y with
  | notANumber => exact absurd rfl hy
  | infinity s' => exact fun h => UnpackedFloat.noConfusion h
  | zero s' => exact fun h => UnpackedFloat.noConfusion h
  | finite s' m' e' hm' => exact normalize_ne_nan _ _ _ _

/-- Of two numbers one is not above the other. -/
theorem le_of_not_lt {a b : UnpackedFloat} (ha : a ≠ .notANumber) (hb : b ≠ .notANumber)
    (h : a.lt b = false) : b.le a = true := by
  have hswap : ∀ (m n : Nat) (d e : Int), (compare d e).then (compare m n) =
      ((compare e d).then (compare n m)).swap := by
    intro m n d e
    rw [Ordering.swap_then, ← Std.OrientedCmp.eq_swap, ← Std.OrientedCmp.eq_swap]
  unfold UnpackedFloat.lt at h
  unfold UnpackedFloat.le
  cases a with
  | notANumber => exact absurd rfl ha
  | infinity s =>
    cases b with
    | notANumber => exact absurd rfl hb
    | infinity t => cases s <;> cases t <;> first | rfl | cases h
    | zero t => cases s <;> first | rfl | cases h
    | finite t m e hm => cases s <;> first | rfl | cases h
  | zero s =>
    cases b with
    | notANumber => exact absurd rfl hb
    | infinity t => cases t <;> first | rfl | cases h
    | zero t => rfl
    | finite t m e hm => cases t <;> first | rfl | cases h
  | finite s m e hm =>
    cases b with
    | notANumber => exact absurd rfl hb
    | infinity t => cases t <;> first | rfl | cases h
    | zero t => cases s <;> first | rfl | cases h
    | finite t n d hn =>
      cases s <;> cases t <;> try first | rfl | cases h
      all_goals
        dsimp only [UnpackedFloat.compare, Option.any_some] at h ⊢
        rw [hswap] at h
        revert h
        cases (compare d e).then (compare n m) <;> decide

/-- The order of floats is that of their unpacked values. -/
theorem le_iff {a b : Float32} : a ≤ b ↔ a.toModel.unpack.le b.toModel.unpack = true := by
  show Float32.le a b = true ↔ _
  unfold Float32.le
  rw [decide_eq_true_eq]
  rfl

/-- The strict order of floats is that of their unpacked values. -/
theorem lt_iff {a b : Float32} : a < b ↔ a.toModel.unpack.lt b.toModel.unpack = true := by
  show Float32.lt a b = true ↔ _
  unfold Float32.lt
  rw [decide_eq_true_eq]
  rfl

end Binary32

/-- A rate that a lowering accepts is a number. -/
theorem unpack_rate_ne_nan {rate : Float32} (h : Lowering.isDropoutRate rate) :
    rate.toModel.unpack ≠ .notANumber := by
  unfold Lowering.isDropoutRate at h
  rw [Bool.and_eq_true, decide_eq_true_eq] at h
  intro hnan
  have hle := Binary32.le_iff.1 h.1
  rw [hnan] at hle
  cases hle

namespace Mask

variable {α : Type} (ops : Arithmetic α)

/-- The probability that an element is kept is one, for a rate that a lowering accepts. -/
theorem isProbability_keep {m : Mask α} (h : Lowering.isDropoutRate m.rate) :
    Draw.isProbability m.keep := by
  have hzero : (0.0 : Float32).toModel.unpack = .zero .positive := rfl
  have hone : (1.0 : Float32).toModel.unpack = .finite .positive 8388608 (-23) (by decide) := rfl
  have hp : (1.0 - m.rate).toModel.unpack ≠ .notANumber := by
    show UnpackedFloat.unpack Format.binary32 (UnpackedFloat.pack Format.binary32
      (UnpackedFloat.sub Format.binary32 (1.0 : Float32).toModel.unpack m.rate.toModel.unpack)) ≠ _
    rw [hone]
    exact Binary32.unpack_pack_ne_nan (Binary32.sub_ne_nan _ _ (unpack_rate_ne_nan h))
  unfold keep Draw.isProbability
  dsimp only
  split
  · decide
  · next hlow =>
    split
    · decide
    · next hhigh =>
      rw [Binary32.lt_iff, Bool.not_eq_true] at hlow hhigh
      rw [Bool.and_eq_true, decide_eq_true_eq, decide_eq_true_eq, Binary32.le_iff, Binary32.le_iff]
      exact ⟨Binary32.le_of_not_lt hp (hzero ▸ fun h => UnpackedFloat.noConfusion h) hlow,
        Binary32.le_of_not_lt (hone ▸ fun h => UnpackedFloat.noConfusion h) hp hhigh⟩

/-- A mask of a rate that a lowering accepts can be drawn anew. -/
theorem refresh_ok {m : Mask α} (h : Lowering.isDropoutRate m.rate) (g : Generator) :
    ∃ m' g', m.refresh ops g = .ok m' g' := by
  unfold refresh
  rw [if_pos (.inr (isProbability_keep h))]
  exact ⟨_, _, rfl⟩

end Mask

end TensorKernels
