import TensorKernels.Kernel.Stmt
import TensorKernels.Number.Arithmetic

/-!
# Operand access

An operator that computes one element per invocation reads each operand through an `Access`, which
says which operand element invocation `index` reads. The gradient of an operand flows back the same
way: a consumer stores its contributions in a partial buffer (`Access.partialIndex`), and the
contributions to one operand element are summed up in a kernel (`Access.foldInto`) or on the host
(`Access.foldHost`).
-/

set_option autoImplicit false

namespace TensorKernels

/-- Which operand element an invocation reads. -/
inductive Access
  /-- The element of the same index. -/
  | aligned
  /-- The only element, for `count` invocations. -/
  | scalar (count : Nat)
  /-- A row of `cols` elements, repeated for `rows` rows. -/
  | row (rows cols : Nat)
  /-- A column with one element per row of `cols` invocations. -/
  | col (cols : Nat)
  /-- A `rows` by `cols` matrix, read through its transpose. -/
  | permuted (rows cols : Nat)
  deriving DecidableEq, Repr

namespace Access

/-- The operand element that the current invocation reads. -/
def index : Access → Expr
  | .aligned => .index
  | .scalar _ => .ofNat 0
  | .row _ cols => .index % .ofNat cols
  | .col cols => .index / .ofNat cols
  | .permuted rows cols => (.index % .ofNat rows) * .ofNat cols + .index / .ofNat rows

/-- Whether the access is the identity. -/
def isAligned : Access → Bool
  | .aligned => true
  | _ => false

/-- Where the current invocation stores its contribution to the operand's gradient. A transposed
read is a bijection, so its contribution goes straight to the operand's layout; every other partial
keeps the consumer's layout. -/
def partialIndex : Access → Expr
  | .permuted rows cols => index (.permuted rows cols)
  | _ => .index

/-- Adds the contributions to operand element `element` that the buffer `source` holds to the variable
`acc`, looping with `loopVar` where there can be several. -/
def foldInto (acc source : String) (element : Expr) (loopVar : String) : Access → List Stmt
  | .aligned => [.accumulate acc (.load source element)]
  | .permuted _ _ => [.accumulate acc (.load source element)]
  | .scalar count => [.forLoop loopVar count [.accumulate acc (.load source (.var loopVar))]]
  | .row rows cols =>
    [.forLoop loopVar rows
      [.accumulate acc (.load source (.var loopVar * .ofNat cols + element))]]
  | .col cols =>
    [.forLoop loopVar cols
      [.accumulate acc (.load source (element * .ofNat cols + .var loopVar))]]

variable {α : Type} (ops : Arithmetic α)

/-- Adds `x` to the element at `j`, if there is one. -/
def addAt (grad : Array α) (j : Nat) (x : α) : Option (Array α) :=
  if h : j < grad.size then some (grad.set j (ops.add grad[j] x)) else none

/-- Adds every contribution to the element that `target` gives for its position. -/
def scatter (target : Nat → Option Nat) (source grad : Array α) : Option (Array α) :=
  source.toList.zipIdx.foldlM
    (fun grad (x, i) => (target i).bind fun j => addAt ops grad j x) grad

/-- Adds a partial buffer to a gradient on the host. Nothing is returned where a contribution has no
element to go to. For a single element the contributions are summed up first. -/
def foldHost (source grad : Array α) : Access → Option (Array α)
  | .aligned => some (grad.mapIdx fun i g => (source[i]?).elim g (ops.add g))
  | .permuted _ _ => some (grad.mapIdx fun i g => (source[i]?).elim g (ops.add g))
  | .scalar _ =>
    if h : 0 < grad.size then some (grad.set 0 (ops.add grad[0] (ops.sum source))) else some grad
  | .row _ cols => scatter ops (fun i => if cols = 0 then none else some (i % cols)) source grad
  | .col cols => scatter ops (fun i => if cols = 0 then none else some (i / cols)) source grad

end Access

end TensorKernels
