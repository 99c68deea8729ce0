import TensorKernels.Layout.Backward
import TensorKernels.Layout.Forward
import TensorKernels.Node.Lowering
import TensorKernels.Plan

/-!
# Compilation

`compile` turns a term into a plan: the term is lowered, its nodes are placed into contexts, every
context gets a forward kernel and, where there is something to differentiate, a backward kernel, and
the kernels are wired together.
-/

set_option autoImplicit false

namespace TensorKernels

namespace Lowering

/-- Lowers the root of a compilation. Its element count has to be that of the output shape, and the
output always comes out of a kernel: a leaf is wrapped in a reshape. -/
def lowerRoot (root : Term) (shape : Shape) : LowerM Nat := do
  let id ← lower root
  let found := ((← get).node id).shape
  if !shape.isCountable then throw .overflow
  if found.size ≠ shape.size then throw (.shapeMismatch "output" found shape)
  if ((← get).node id).isComputed then return id else addOp (.reshape shape) [id]

end Lowering

namespace Layout

variable (l : Layout)

/-- The contexts with a backward kernel, last context first. -/
def backwardContexts : List Nat :=
  l.backwardKernels.filterMap fun (context, b) => b.map fun _ => context

/-- The partial buffers of parameters as the host reads them. -/
def parameterPartials : List ParameterPartial :=
  let contexts := l.backwardContexts
  let buffers := l.backwardKernels.flatMap fun (_, b) => b.elim [] BackwardKernel.partials
  buffers.filterMap fun p =>
    match p.owner with
    | .node _ => none
    | .parameter t =>
      some ⟨t, ⟨l.order.length + contexts.idxOf p.context, outputName p.name⟩, p.access⟩

/-- The kernels of a layout: forward kernels in order, then backward kernels in reverse order. -/
def kernels : Except Error (List Kernel) := do
  let backward ← (l.backwardKernels.filterMap Prod.snd).mapM fun b => b.kernel.checked
  let forward ← l.order.mapM fun context => (l.forwardKernel context).checked
  .ok (forward ++ backward)

/-- The position of the context that computes the root. -/
def rootPosition : Except Error Nat :=
  match l.home l.root with
  | none => .error (.cyclicKernels 0)
  | some context =>
    match l.order.findIdx? (· = context) with
    | some i => .ok i
    | none => .error (.cyclicKernels context)

/-- The plan of a layout. -/
def plan : Except Error Plan := do
  l.placement.partition.verifyOrder l.nodes l.placement.home l.order
  let position ← l.rootPosition
  let kernels ← l.kernels
  Plan.wire kernels l.order.length ⟨position, outputName (Node.varName l.root)⟩
    l.parameterPartials

/-- The records about the backward kernel of a context. -/
def backwardLog (context : Nat) (b : Option BackwardKernel) : Log :=
  let label := "backward_k" ++ toString context
  match b with
  | none => [⟨.debug, label ++ ": nothing to differentiate"⟩]
  | some b =>
    match b.kernel.checked with
    | .error _ => []
    | .ok k =>
      b.kernel.checkedLog ++
        [⟨.debug, label ++ ": " ++ toString k.inputs.size ++ " inputs, " ++
          toString k.outputs.size ++ " outputs"⟩]

/-- The records of a compilation. -/
def log : Log :=
  let backward := l.backwardKernels
  l.placement.log ++ backward.flatMap (fun (context, b) => backwardLog context b) ++
    l.order.flatMap (fun context => (l.forwardKernel context).checkedLog) ++
    [⟨.info, "compiled " ++ toString l.nodes.size ++ " nodes into " ++ toString l.order.length ++
      " forward and " ++ toString l.backwardContexts.length ++ " backward kernels"⟩]

end Layout

/-- What a compilation leaves: a plan or an error, the masks of the dropout sites that were lowered,
and the records. -/
structure Compilation where
  plan : Except Error Plan
  masks : Array MaskSite
  log : Log

/-- Compiles a term whose result has the given shape. -/
def compile (signature : Signature) (root : Term) (shape : Shape) : Compilation :=
  match (Lowering.lowerRoot root shape).run (.start signature) with
  | .error e s => ⟨.error e, s.masks, []⟩
  | .ok id s =>
    let l := Layout.ofRoot signature s.nodes id
    ⟨l.plan, s.masks, l.log⟩

end TensorKernels
