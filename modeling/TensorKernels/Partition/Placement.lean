import TensorKernels.Partition.Resolve

/-!
# Placement

`Placement.place` gives every computed node that a root depends on a context, from the root down: a
node is placed before its operands, and an operand is looked at from its reader's context.
-/

set_option autoImplicit false

namespace TensorKernels

/-- Contexts, and the context of each node. -/
structure Placement where
  partition : Partition
  /-- The context of each node that has one. -/
  home : Array (Option Nat)
  log : Log

namespace Placement

/-- The state before anything is placed: one regular context of stage zero for the root. -/
def start (nodes : Array Node) (size : Nat) : Placement :=
  ⟨(Partition.empty.create .regular 0 size).2, Array.replicate nodes.size none, []⟩

/-- Puts a node into the context that fits, and returns that context. -/
def assign (p : Placement) (current id : Nat) (node : Node) : Nat × Placement :=
  let choice := (p.partition.choose current node.opClass node.stage node.size).getD .fresh
  let (context, partition) :=
    p.partition.enter choice current node.opClass node.stage node.size
  ( context,
    { partition := partition.pushNode context id
      home := p.home.setIfInBounds id (some context)
      log := p.log ++
        Partition.choiceLog choice current context node.opClass node.stage node.size } )

/-- Places a node and everything it depends on. An operand always precedes its reader, which is what
ends the recursion. -/
def place (nodes : Array Node) (current id : Nat) (p : Placement) : Placement :=
  match nodes[id]? with
  | none => p
  | some node =>
    if (homeOf p.home id).isSome || !node.isComputed then p
    else
      let (context, p) := p.assign current id node
      node.operands.foldl
        (fun p o => if o.1 < id then place nodes context o.1 p else p) p
termination_by id

/-- The placement of a root, with contexts that stayed empty closed. -/
def ofRoot (nodes : Array Node) (root : Nat) : Placement :=
  let size := (nodes[root]?).elim 0 Node.size
  let p := place nodes 0 root (start nodes size)
  { p with partition := p.partition.prune }

end Placement

end TensorKernels
