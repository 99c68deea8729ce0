/-!
# Shapes

A shape lists the dimensions of a tensor, outermost first; the empty shape is a scalar with one
element. Elements are numbered in row-major order, so most of the library only needs the element
count (`Shape.size`) and the view of a shape as a matrix (`Shape.asMatrix`).

Elements are counted in 64 bits, with the dimensions multiplied from the first to the last.
`Shape.isCountable` says that no product on the way is too large for that. Operations that count
the elements of a shape stop where it is not countable.
-/

set_option autoImplicit false

namespace TensorKernels

/-- The dimensions of a tensor, outermost first. -/
abbrev Shape := List Nat

namespace Shape

/-- The number of elements. -/
def size : Shape → Nat
  | [] => 1
  | n :: rest => n * size rest

/-- Whether the dimensions, and `n` multiplied by one after the other, stay below `2 ^ 64`. -/
def countsFrom : Nat → Shape → Bool
  | _, [] => true
  | n, d :: rest => d < UInt64.size && n * d < UInt64.size && countsFrom (n * d) rest

/-- Whether the elements can be counted in 64 bits. -/
def isCountable (s : Shape) : Bool := countsFrom 1 s

/-- The rows and columns of a shape. A vector is a single row, a scalar is one by one, and the inner
dimensions of a higher rank are taken together. -/
def asMatrix : Shape → Nat × Nat
  | [] => (1, 1)
  | [n] => (1, n)
  | rows :: rest => (rows, size rest)

/-- Whether the columns of a shape can be counted. -/
def hasMatrix (s : Shape) : Bool := isCountable s.tail

/-- The shape without its leading unit dimensions. -/
def withoutLeadingOnes (s : Shape) : Shape := s.dropWhile (· = 1)

/-- The text of a shape, such as `[2, 3]`. -/
def text (s : Shape) : String := "[" ++ String.intercalate ", " (s.map toString) ++ "]"

/-- The matrix view has as many elements as the shape. -/
theorem asMatrix_size (s : Shape) : s.asMatrix.1 * s.asMatrix.2 = s.size := by
  match s with
  | [] => rfl
  | [n] => simp [asMatrix, size]
  | rows :: c :: rest => simp [asMatrix, size]

end Shape

end TensorKernels
