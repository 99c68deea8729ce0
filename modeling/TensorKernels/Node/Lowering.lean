import TensorKernels.Node
import TensorKernels.Operator.Inference
import TensorKernels.Table
import TensorKernels.Term

/-!
# Lowering terms to nodes

`Lowering.lower` turns a term into nodes. A call site or tensor that was lowered before is not
lowered again, so it has one node however many paths lead to it. Constants get a node per
occurrence, and every dropout site gets a mask. A failure keeps the nodes and masks made so far, and
remembers only the sites whose lowering succeeded.
-/

set_option autoImplicit false

namespace TensorKernels

/-- The mask of a dropout site. -/
structure MaskSite where
  rate : Float32
  size : Nat
  deriving DecidableEq, Repr

/-- The state of a lowering. -/
structure Lowering where
  signature : Signature
  nodes : Array Node
  masks : Array MaskSite
  /-- The node of each call site. -/
  sites : Table Nat Nat
  /-- The node of each tensor. -/
  leaves : Table Nat Nat

/-- Lowering steps. A failure leaves its state behind. -/
abbrev LowerM := EStateM Error Lowering

namespace Lowering

/-- The start of a lowering. -/
def start (signature : Signature) : Lowering := ⟨signature, #[], #[], .empty, .empty⟩

/-- A node, or a leaf with one element where there is none. -/
def node (s : Lowering) (id : Nat) : Node := s.nodes.getD id (.leaf (.constant 0.0) [1])

/-- Whether a value has to be handed over through a buffer: a reduction writes or reads it, or it is
read at another index. -/
def isMaterialized (producer consumer : OpClass) (access : Access) : Bool :=
  producer = .reduction || consumer = .reduction || !access.isAligned

/-- The stage that an operand forces on its reader. -/
def operandStage (operand : Node) (consumer : OpClass) (access : Access) : Nat :=
  if operand.isComputed then
    operand.stage + (if isMaterialized operand.opClass consumer access then 1 else 0)
  else 0

/-- The stage of a node with the given operands. -/
def stageOf (s : Lowering) (consumer : OpClass) (operands : List (Nat × Access)) : Nat :=
  operands.foldl (fun stage o => max stage (operandStage (s.node o.1) consumer o.2)) 0

/-- Adds a node at the end. -/
def push (n : Node) : LowerM Nat :=
  modifyGet fun s => (s.nodes.size, { s with nodes := s.nodes.push n })

/-- Records a consumer with each of its operands. -/
def addConsumer (nodes : Array Node) (consumer : Nat) (operands : List Nat) : Array Node :=
  operands.foldl
    (fun nodes o => nodes.modify o fun n => { n with consumers := n.consumers ++ [consumer] }) nodes

/-- Adds the node of an operator on lowered operands, if their shapes fit and the elements of the result
can be counted. -/
def addOp (op : Op) (operands : List Nat) : LowerM Nat := do
  let s ← get
  match op.inferCounted (operands.map fun o => (s.node o).shape) with
  | .error e => throw e
  | .ok inferred =>
    let pairs := operands.zip inferred.access
    let id ← push
      { kind := .op op
        operands := pairs
        shape := inferred.shape
        stage := s.stageOf op.opClass pairs
        consumers := [] }
    modify fun s => { s with nodes := addConsumer s.nodes id operands }
    return id

/-- Whether a dropout rate is at least zero and below one. -/
def isDropoutRate (rate : Float32) : Bool := 0.0 ≤ rate && rate < 1.0

/-- Adds the mask of a dropout on a lowered operand. -/
def addMask (rate : Float32) (operand : Nat) : LowerM Nat := do
  let s ← get
  let shape := (s.node operand).shape
  set { s with masks := s.masks.push ⟨rate, shape.size⟩ }
  push (.leaf (.mask s.masks.size) shape)

/-- The operands of an operator: a dropout also reads a new mask. -/
def withMask (op : Op) (operands : List Nat) : LowerM (List Nat) := do
  match op with
  | .dropout rate =>
    if isDropoutRate rate then
      let mask ← addMask rate (operands.headD 0)
      return operands ++ [mask]
    else throw (.dropoutRate rate)
  | _ => return operands

/-- Lowers a declared tensor. -/
def lowerTensor (id : Nat) : LowerM Nat := do
  let s ← get
  match s.leaves.find? id, s.signature.get id with
  | some n, _ => return n
  | none, .error e => throw e
  | none, .ok d =>
    let n ← push (.leaf (.tensor id) d.shape)
    modify fun s => { s with leaves := s.leaves.insert id n }
    return n

mutual

/-- The node of a term. -/
def lower : Term → LowerM Nat
  | .constant value => push (.leaf (.constant value) [1])
  | .tensor id => lowerTensor id
  | .apply site op args => do
    match (← get).sites.find? site with
    | some n => return n
    | none =>
      let operands ← lowerAll args
      let operands ← withMask op operands
      let n ← addOp op operands
      modify fun s => { s with sites := s.sites.insert site n }
      return n

/-- The nodes of terms, in order. -/
def lowerAll : List Term → LowerM (List Nat)
  | [] => return []
  | t :: rest => do
    let n ← lower t
    let ns ← lowerAll rest
    return n :: ns

end

end Lowering

end TensorKernels
