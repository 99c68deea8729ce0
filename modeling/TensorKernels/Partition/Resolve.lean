import TensorKernels.Partition

/-!
# Operands seen from a context

`operandIn` says how the code of a context reads an operand: constants are written into the code,
values of the same context are locals, everything else is read from a buffer.
`Partition.resolve` also notes the buffer as an input of the context and asks the context that
computes the operand to export it.
-/

set_option autoImplicit false

namespace TensorKernels

/-- The context that computes a node. -/
def homeOf (home : Array (Option Nat)) (id : Nat) : Option Nat := home.getD id none

/-- Whether an operand is computed in the given context. -/
def isComputedIn (home : Array (Option Nat)) (context : Nat) (node : Node) (id : Nat) : Bool :=
  node.isComputed && homeOf home id = some context

/-- An operand as the forward code of a context reads it. -/
def operandIn (signature : Signature) (home : Array (Option Nat)) (context : Nat) (node : Node)
    (id : Nat) (access : Access) : Operand :=
  { source :=
      if isComputedIn home context node id then .var (Node.varName id)
      else node.source signature id
    access := access
    shape := node.shape }

namespace Partition

/-- Notes that a context reads a buffer of the given shape. -/
def bind (context : Nat) (b : Binding) (shape : Shape) : EStateM Error Partition Unit := do
  let p ← get
  if !decide (context < p.contexts.size) then throw .outOfRange
  else if !shape.isCountable then throw .overflow
  else
    set
      { p with
        contexts := p.contexts.modify context fun c =>
          { c with inputs := c.inputs.register b, shapes := c.shapes.insert b.name shape } }

/-- Notes that other contexts read a node of a context. -/
def addExport (context id : Nat) : EStateM Error Partition Unit := do
  let p ← get
  if context < p.contexts.size then
    set
      { p with
        contexts := p.contexts.modify context fun c =>
          { c with exports := insertAscending id c.exports } }
  else throw .outOfRange

/-- The name of a context's kernel. -/
def labelOf (context : Nat) : EStateM Error Partition String := do
  match (← get).contexts[context]? with
  | some c => return c.label
  | none => throw .outOfRange

/-- Resolves an operand of a node in `context` and notes what has to be bound and exported. -/
def resolve (signature : Signature) (nodes : Array Node) (home : Array (Option Nat))
    (context id : Nat) (access : Access) : EStateM Error Partition Operand := do
  match nodes[id]? with
  | none => throw .outOfRange
  | some node =>
    match node.kind, node.binding? signature id with
    | .constant _, _ => pure ()
    | .tensor t, none => throw (.unknownTensor t)
    | .tensor t, some b => bind context b ((signature.get? t).elim [] TensorDecl.shape)
    | .mask _, some b => bind context b node.shape
    | .op _, some b =>
      match homeOf home id with
      | none => throw (.unboundBuffer (← labelOf context) b.name)
      | some producer =>
        if producer = context then pure ()
        else
          addExport producer id
          bind context b node.shape
    | _, none => pure ()
    return operandIn signature home context node id access

end Partition

end TensorKernels
