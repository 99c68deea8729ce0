import TensorKernels.Kernel.Bindings
import TensorKernels.Operator.Forward
import TensorKernels.Tensor.Signature

/-!
# Nodes

A lowered term is an array of nodes in which operands come before the nodes that read them. A node
is a leaf (a constant, a declared tensor, a dropout mask) or an operator, which is called computed.
-/

set_option autoImplicit false

namespace TensorKernels

/-- What a node stands for. -/
inductive NodeKind
  | op (op : Op)
  | tensor (id : Nat)
  | mask (index : Nat)
  | constant (value : Float32)
  deriving DecidableEq, Repr

/-- One value of a lowered term. -/
structure Node where
  kind : NodeKind
  /-- The operands and how they are read. -/
  operands : List (Nat × Access)
  shape : Shape
  /-- The greatest number of values handed over through buffers on a path to a leaf. -/
  stage : Nat
  /-- The nodes that read this one, once per operand, oldest first. -/
  consumers : List Nat
  deriving DecidableEq, Repr

namespace Node

/-- A node without operands. -/
def leaf (kind : NodeKind) (shape : Shape) : Node := ⟨kind, [], shape, 0, []⟩

/-- The number of elements. -/
def size (n : Node) : Nat := n.shape.size

/-- Whether the node is an operator. -/
def isComputed (n : Node) : Bool :=
  match n.kind with
  | .op _ => true
  | _ => false

/-- The class of the node's operator; a leaf is regular. -/
def opClass (n : Node) : OpClass :=
  match n.kind with
  | .op op => op.opClass
  | _ => .regular

/-- The local that holds the value of a node in the kernel that computes it, and the buffer that
holds it elsewhere. -/
def varName (id : Nat) : String := "v" ++ toString id

/-- The buffer of a dropout mask. -/
def maskName (index : Nat) : String := "mask_" ++ toString index

/-- The binding through which a kernel that does not compute the node reads it. Constants have no
buffer. -/
def binding? (n : Node) (signature : Signature) (id : Nat) : Option Binding :=
  match n.kind with
  | .constant _ => none
  | .tensor t => (signature.get? t).map fun d => ⟨d.bindingName, d.size, .tensor t⟩
  | .mask m => some ⟨maskName m, n.size, .mask m⟩
  | .op _ => some ⟨varName id, n.size, .ownBuffer⟩

/-- Where a kernel that does not compute the node finds its value. -/
def source (n : Node) (signature : Signature) (id : Nat) : Source :=
  match n.kind, n.binding? signature id with
  | .constant x, _ => .const x
  | _, some b => .buffer b.name
  | _, none => .const 0.0

end Node

end TensorKernels
