import TensorKernels.Operator.Gradient
import TensorKernels.Partition.Placement

/-!
# Layouts

A layout is a placed root: the nodes, the context of each, and the order of the contexts. The
kernels of a root are functions of its layout. This module says what a context reads, which forward
values its gradient rules read, and what it exports.
-/

set_option autoImplicit false

namespace TensorKernels

/-- A root with its contexts in order. -/
structure Layout where
  signature : Signature
  nodes : Array Node
  root : Nat
  placement : Placement
  /-- The contexts, producers first. -/
  order : List Nat

namespace Layout

/-- The layout of a lowered root. -/
def ofRoot (signature : Signature) (nodes : Array Node) (root : Nat) : Layout :=
  let placement := Placement.ofRoot nodes root
  ⟨signature, nodes, root, placement, placement.partition.linearize⟩

variable (l : Layout)

/-- A node, or a leaf with one element where there is none. -/
def node (id : Nat) : Node := l.nodes.getD id (.leaf (.constant 0.0) [1])

/-- The context that computes a node. -/
def home (id : Nat) : Option Nat := homeOf l.placement.home id

/-- A context. -/
def context? (context : Nat) : Option Context := l.placement.partition.contexts[context]?

/-- The number of elements that a context computes per node. -/
def sizeOf (context : Nat) : Nat := (l.context? context).elim 0 Context.size

/-- The class of a context. -/
def classOf (context : Nat) : OpClass := (l.context? context).elim .regular Context.opClass

/-- The nodes of a context, operands first. -/
def members (context : Nat) : List Nat :=
  ((l.context? context).elim [] Context.nodes).mergeSort fun a b => a ≤ b

/-- Whether a node is computed in the given context. -/
def isMember (context id : Nat) : Bool :=
  isComputedIn l.placement.home context (l.node id) id

/-- The binding through which other kernels read a node. -/
def binding? (id : Nat) : Option Binding := (l.node id).binding? l.signature id

/-- The buffers that the code of a node reads: operands that its context does not compute. -/
def readBindings (context id : Nat) : List Binding :=
  (l.node id).operands.filterMap fun (o, _) =>
    if l.isMember context o then none else l.binding? o

/-- The values of its own context that the gradient rule of a node reads. -/
def savedBy (context id : Nat) : List Nat :=
  match (l.node id).kind with
  | .op op =>
    op.reads.filterMap fun
      | .output => some id
      | .operand i =>
        ((l.node id).operands[i]?).bind fun (o, _) =>
          if l.isMember context o then some o else none
  | _ => []

/-- The values that the backward kernel of a context reads from its forward kernel. A reduction
always keeps its result. -/
def saved (context : Nat) : List Nat :=
  match l.classOf context with
  | .regular => (l.members context).flatMap (l.savedBy context)
  | .reduction => (l.members context).take 1

/-- Whether a node is read by a node of another context. -/
def isReadElsewhere (context id : Nat) : Bool :=
  (l.node id).consumers.any fun c => (l.home c).isSome && l.home c ≠ some context

/-- The values that a context hands out: the root, what other contexts read, and what its backward
kernel reads. -/
def exports (context : Nat) : List Nat :=
  let saved := l.saved context
  (l.members context).filter fun id =>
    id = l.root || l.isReadElsewhere context id || saved.contains id

end Layout

end TensorKernels
