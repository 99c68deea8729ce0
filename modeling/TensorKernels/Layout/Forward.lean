import TensorKernels.Kernel.Basic
import TensorKernels.Layout

/-!
# Forward kernels

The forward kernel of a context computes its nodes one after the other into locals and stores the
exported ones.
-/

set_option autoImplicit false

namespace TensorKernels

namespace Layout

variable (l : Layout)

/-- The operands of a node as the forward code of a context reads them. -/
def forwardOperands (context id : Nat) : List Operand :=
  (l.node id).operands.map fun (o, access) =>
    operandIn l.signature l.placement.home context (l.node o) o access

/-- The statements that compute a node. -/
def forwardCode (context id : Nat) : List Stmt :=
  match (l.node id).kind with
  | .op op => op.forward (Node.varName id) (l.forwardOperands context id)
  | _ => []

/-- The output binding of an exported node. -/
def exportBinding (id : Nat) : Binding :=
  ⟨outputName (Node.varName id), (l.node id).size, .ownBuffer⟩

/-- The statement that stores an exported node. -/
def exportStore (id : Nat) : Stmt :=
  .store (outputName (Node.varName id)) .index (.var (Node.varName id))

/-- The forward kernel of a context, before unused bindings are dropped. -/
def forwardKernel (context : Nat) : Kernel :=
  let members := l.members context
  let exports := l.exports context
  { label := "forward_k" ++ toString context
    size := l.sizeOf context
    inputs := Bindings.empty.registerAll (members.flatMap (l.readBindings context))
    outputs := Bindings.empty.registerAll (exports.map l.exportBinding)
    body :=
      .boundsGuard (l.sizeOf context) ::
        (members.flatMap (l.forwardCode context) ++ exports.map exportStore) }

end Layout

end TensorKernels
