import TensorKernels.Number.Binary32
import TensorKernels.Random.ChaCha

/-!
# Random draws

A generator is a position in a ChaCha12 stream whose key is expanded from a 64-bit seed. Every draw
takes the next words of the stream. How normal variates are drawn is left open (`NormalSampler`).
-/

set_option autoImplicit false

namespace TensorKernels

/-- A stream of random words. -/
structure Generator where
  key : List UInt32
  /-- The words of the current block that are left. -/
  pending : List UInt32
  /-- The number of the next block. -/
  nextBlock : Nat
  deriving DecidableEq, Repr

/-- A computation that draws random words. -/
abbrev Draw := StateM Generator

namespace Generator

/-- One step of the linear congruential sequence that expands a seed. -/
def expandStep (state : UInt64) : UInt64 := state * 6364136223846793005 + 11634580027462260723

/-- The output of a state: its high bits folded and rotated. -/
def expandWord (state : UInt64) : UInt32 :=
  ChaCha.rotateRight (((state >>> 18) ^^^ state) >>> 27).toUInt32 (state >>> 59).toUInt32

/-- The next `n` words of the sequence. -/
def expand : Nat → UInt64 → List UInt32
  | 0, _ => []
  | n + 1, state => expandWord (expandStep state) :: expand n (expandStep state)

/-- The generator of a seed. -/
def ofSeed (seed : UInt64) : Generator := ⟨expand 8 seed, [], 0⟩

/-- The next word. -/
def next (g : Generator) : UInt32 × Generator :=
  match g.pending with
  | w :: rest => (w, { g with pending := rest })
  | [] =>
    let words := ChaCha.block g.key g.nextBlock
    (words.headD 0, ⟨g.key, words.tail, g.nextBlock + 1⟩)

end Generator

namespace Draw

/-- The next word. -/
def word : Draw UInt32 := fun g => g.next

/-- Draws `n` more times after the values `drawn`. -/
def timesAfter {β : Type} (draw : Draw β) : Nat → Array β → Draw (Array β)
  | 0, drawn => pure drawn
  | n + 1, drawn => do timesAfter draw n (drawn.push (← draw))

/-- Draws `n` times, first to last. -/
def times {β : Type} (n : Nat) (draw : Draw β) : Draw (Array β) := timesAfter draw n #[]

/-- As many values are added as are drawn. -/
theorem size_timesAfter {β : Type} (draw : Draw β) (n : Nat) (drawn : Array β) (g : Generator) :
    (timesAfter draw n drawn g).1.size = drawn.size + n := by
  induction n generalizing drawn g with
  | zero => rfl
  | succ n ih =>
    have h := ih (drawn.push (draw g).1) (draw g).2
    rw [Array.size_push] at h
    show (timesAfter draw n (drawn.push (draw g).1) (draw g).2).1.size = drawn.size + (n + 1)
    omega

/-- A multiple of `2 ^ (-23)` in the unit interval, one excluded. -/
def unit : Draw Float32 := do
  return ((← word) >>> 9).toFloat32 / 8388608.0

/-- Whether values can be drawn between two bounds. -/
def isRange (low high : Float32) : Bool :=
  low < high && low.isFinite && high.isFinite && (high - low).isFinite

/-- A value between two bounds. -/
def between (low high : Float32) : Draw Float32 := do
  return (← unit) * (high - low) + low

/-- Whether a number is a probability. -/
def isProbability (p : Float32) : Bool := 0.0 ≤ p && p ≤ 1.0

/-- True with probability `p`: two words, the low one first, are compared with `p * 2 ^ 64`. A
certain outcome takes no words. -/
def coin (p : Float32) : Draw Bool := do
  if p == 1.0 then return true
  let low ← word
  let high ← word
  return high.toNat * UInt32.size + low.toNat < (Binary32.ofFloat p).floorScaled 64

end Draw

/-- How a normal variate with mean zero and the given deviation is drawn. -/
abbrev NormalSampler := Float32 → Draw Float32

end TensorKernels
