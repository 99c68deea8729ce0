import TensorKernels.Error
import TensorKernels.Number.Arithmetic
import TensorKernels.Random.Generator

/-!
# Dropout masks

A mask multiplies the elements of a dropout site. In training it is drawn anew for every run:
an element is kept with probability `1 - rate` and then scaled by the inverse of that probability.
Outside training it is one everywhere.
-/

set_option autoImplicit false

namespace TensorKernels

/-- A mask with its current values. -/
structure Mask (α : Type) where
  rate : Float32
  value : Array α

namespace Mask

variable {α : Type} (ops : Arithmetic α)

/-- The probability that an element is kept; a NaN stays one. -/
def keep (m : Mask α) : Float32 :=
  let p := 1.0 - m.rate
  if p < 0.0 then 0.0 else if 1.0 < p then 1.0 else p

/-- The value of a kept element. -/
def scale (m : Mask α) : Float32 := if 0.0 < m.keep then 1.0 / m.keep else 0.0

/-- A mask that keeps everything. -/
def ones (rate : Float32) (size : Nat) : Mask α := ⟨rate, Array.replicate size ops.one⟩

/-- The mask with newly drawn values. It fails for a rate that gives no probability, unless there is
nothing to draw. -/
def refresh (m : Mask α) : EStateM Error Generator (Mask α) := fun g =>
  if m.value.size = 0 ∨ Draw.isProbability m.keep then
    let (kept, g) := Draw.times m.value.size (Draw.coin m.keep) g
    .ok { m with value := kept.map fun k => ops.lit (if k then m.scale else 0.0) } g
  else .error .outOfRange g

/-- The mask that keeps everything. -/
def disable (m : Mask α) : Mask α := ones ops m.rate m.value.size

/-- A mask of ones has the size that was asked for. -/
@[simp] theorem size_ones (rate : Float32) (n : Nat) : (ones ops rate n).value.size = n := by
  simp [ones]

/-- A disabled mask keeps its size. -/
@[simp] theorem size_disable (m : Mask α) : (m.disable ops).value.size = m.value.size := by
  simp [disable]

/-- New values do not change the number of elements or the rate. -/
theorem size_refresh {m m' : Mask α} {g g' : Generator} (h : m.refresh ops g = .ok m' g') :
    m'.value.size = m.value.size ∧ m'.rate = m.rate := by
  unfold refresh at h
  split at h
  · cases h
    simp [Draw.size_timesAfter]
  · cases h

end Mask

end TensorKernels
