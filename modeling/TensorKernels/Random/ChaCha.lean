/-!
# The ChaCha12 stream

A 256-bit key gives an endless sequence of 32-bit words in blocks of sixteen. A block is the sum of
its initial state (constants, key, block number) and the state after twelve rounds.
-/

set_option autoImplicit false

namespace TensorKernels.ChaCha

/-- The sixteen words of a state. -/
abbrev State := Array UInt32

/-- Rotation to the left. -/
def rotateLeft (x n : UInt32) : UInt32 := (x <<< n) ||| (x >>> (32 - n))

/-- Rotation to the right. -/
def rotateRight (x n : UInt32) : UInt32 := (x >>> n) ||| (x <<< (32 - n))

/-- Adds word `b` to word `a`, and rotates the exclusive or of the sum with word `d`. -/
def mix (s : State) (a b d : Nat) (rotation : UInt32) : State :=
  let sum := s.getD a 0 + s.getD b 0
  (s.setIfInBounds a sum).setIfInBounds d (rotateLeft (s.getD d 0 ^^^ sum) rotation)

/-- The quarter round on four words. -/
def quarterRound (s : State) (a b c d : Nat) : State :=
  mix (mix (mix (mix s a b d 16) c d b 12) a b d 8) c d b 7

/-- A round on the columns followed by a round on the diagonals. -/
def doubleRound (s : State) : State :=
  let s := quarterRound s 0 4 8 12
  let s := quarterRound s 1 5 9 13
  let s := quarterRound s 2 6 10 14
  let s := quarterRound s 3 7 11 15
  let s := quarterRound s 0 5 10 15
  let s := quarterRound s 1 6 11 12
  let s := quarterRound s 2 7 8 13
  quarterRound s 3 4 9 14

/-- The first four words of every state. -/
def constants : List UInt32 := [0x61707865, 0x3320646e, 0x79622d32, 0x6b206574]

/-- The state before the rounds: constants, key, block number and two zeros. -/
def initialState (key : List UInt32) (block : Nat) : State :=
  (constants ++ key ++
    [UInt32.ofNat block, UInt32.ofNat (block / UInt32.size), 0, 0]).toArray

/-- Applies the double round `n` times. -/
def rounds : Nat → State → State
  | 0, s => s
  | n + 1, s => rounds n (doubleRound s)

/-- The words of a block. -/
def block (key : List UInt32) (number : Nat) : List UInt32 :=
  let start := initialState key number
  List.zipWith (· + ·) start.toList (rounds 6 start).toList

end TensorKernels.ChaCha
