import TensorKernels.Access
import TensorKernels.Error
import TensorKernels.Operator.Basic

/-!
# Shape inference

`Op.infer` gives the shape of an operator's result and how each operand is read, or refuses the
operand shapes. Two operands of an element-wise operator are matched by `broadcast`. Where elements
are counted, a shape that is not countable stops the inference.
-/

set_option autoImplicit false

namespace TensorKernels

/-- The shape of a result and the access to each operand. -/
structure Inferred where
  shape : Shape
  access : List Access
  deriving DecidableEq, Repr

/-- How a row or a column is repeated to cover a matrix. A shape that is both is a row. -/
def rowOrCol (full small : Shape) : Option Access :=
  match full, small with
  | [rows, cols], [c] => if c = cols then some (.row rows cols) else none
  | [rows, cols], [a, b] =>
    if a = 1 ∧ b = cols then some (.row rows cols)
    else if b = 1 ∧ a = rows then some (.col cols)
    else none
  | _, _ => none

/-- Matches the operands of an element-wise operator: shapes that are equal up to leading unit
dimensions, a single element against anything, and a row or a column against a matrix. -/
def matchShapes (op : String) (a b : Shape) : Except Error Inferred :=
  if a = b ∨ a.withoutLeadingOnes = b.withoutLeadingOnes then .ok ⟨a, [.aligned, .aligned]⟩
  else if b.size = 1 then .ok ⟨a, [.aligned, .scalar a.size]⟩
  else if a.size = 1 then .ok ⟨b, [.scalar b.size, .aligned]⟩
  else
    match rowOrCol a b, rowOrCol b a with
    | some access, _ => .ok ⟨a, [.aligned, access]⟩
    | none, some access => .ok ⟨b, [access, .aligned]⟩
    | none, none => .error (.shapeMismatch op a b)

/-- Counts the elements of the operands of an element-wise operator and matches them. -/
def broadcast (op : String) (a b : Shape) : Except Error Inferred :=
  if a.isCountable && b.isCountable then matchShapes op a b else .error .overflow

/-- The product of two matrices; a vector is a single row. -/
def inferMatmul (a b : Shape) : Except Error Inferred :=
  if a.hasMatrix && b.hasMatrix then
    if a.asMatrix.2 = b.asMatrix.1 then .ok ⟨[a.asMatrix.1, b.asMatrix.2], [.aligned, .aligned]⟩
    else .error (.shapeMismatch "matmul" a b)
  else .error .overflow

/-- The shape of a fold: the folded axis has length one, and a vector is folded to one element. -/
def foldShape (axis : Axis) : Shape → Shape
  | [] => [1]
  | [_] => [1]
  | s =>
    match axis with
    | .last => [s.asMatrix.1, 1]
    | .first => [1, s.asMatrix.2]

/-- The fold of a matrix along an axis. -/
def inferFold (axis : Axis) (s : Shape) : Except Error Inferred :=
  if s.hasMatrix then .ok ⟨foldShape axis s, [.aligned]⟩ else .error .overflow

/-- The transpose of a vector or matrix. Where one side is a unit the layout stays the same. -/
def inferTranspose : Shape → Except Error Inferred
  | [n] => .ok ⟨[n, 1], [.aligned]⟩
  | [rows, cols] =>
    if rows = 1 ∨ cols = 1 then .ok ⟨[cols, rows], [.aligned]⟩
    else .ok ⟨[cols, rows], [.permuted rows cols]⟩
  | s => .error (.shapeMismatch "transpose" s [])

/-- The same elements in another shape. -/
def inferReshape (new old : Shape) : Except Error Inferred :=
  if old.isCountable && new.isCountable then
    if old.size = new.size then .ok ⟨new, [.aligned]⟩
    else .error (.shapeMismatch "reshape" old new)
  else .error .overflow

/-- Scale and shift: every operand but the first has one element per column of the first. The first
operand that has not, or that cannot be counted, is refused. -/
def inferAffine (norm : NormKind) (shapes : List Shape) : Except Error Inferred :=
  let x := shapes.headD []
  let (rows, cols) := x.asMatrix
  if x.hasMatrix then
    match shapes.tail.find? fun s => !s.isCountable || s.size ≠ cols with
    | some s => .error (if s.isCountable then .shapeMismatch norm.name x s else .overflow)
    | none =>
      let access := if rows = 1 then Access.aligned else .row rows cols
      .ok ⟨x, .aligned :: shapes.tail.map fun _ => access⟩
  else .error .overflow

/-- The result of an operator on operands of the given shapes. A missing operand counts as a single
element. -/
def Op.infer (op : Op) (shapes : List Shape) : Except Error Inferred :=
  let operand (i : Nat) : Shape := shapes.getD i [1]
  match op with
  | .unary _ => .ok ⟨operand 0, [.aligned]⟩
  | .softmax => .ok ⟨operand 0, [.aligned]⟩
  | .binary f => broadcast f.name (operand 0) (operand 1)
  | .loss f => broadcast f.name (operand 0) (operand 1)
  | .matmul => inferMatmul (operand 0) (operand 1)
  | .fold _ axis => inferFold axis (operand 0)
  | .reshape new => inferReshape new (operand 0)
  | .transpose => inferTranspose (operand 0)
  | .dropout _ => .ok ⟨operand 0, [.aligned, .aligned]⟩
  | .affine norm => inferAffine norm shapes

/-- The result of an operator, if its elements can be counted. -/
def Op.inferCounted (op : Op) (shapes : List Shape) : Except Error Inferred :=
  match op.infer shapes with
  | .error e => .error e
  | .ok r => if r.shape.isCountable then .ok r else .error .overflow

end TensorKernels
