import TensorKernels.Kernel.Basic
import TensorKernels.Layout

/-!
# Backward kernels

Every context has at most one backward kernel, and contexts are taken in reverse order, so the
readers of a context have written their contributions before it runs.

In a regular context each node `v` has an accumulator `g_v`. It starts at one for the root and at
zero elsewhere, plus what readers in other contexts wrote. The gradient rules then run from the last
node to the first and add to the accumulators of operands that are read in place. Contributions to
anything else (parameters, values of other contexts, operands read through a broadcast or a
transpose) are collected per operand and access, and stored in a partial buffer. The context that
computes the operand, or the host for a parameter, folds partial buffers back to the operand's shape.

In a reduction context the gradient of each operand is computed element by element.
-/

set_option autoImplicit false

namespace TensorKernels

/-- Whose gradient a partial buffer is a part of. -/
inductive Owner
  | node (id : Nat)
  | parameter (id : Nat)
  deriving DecidableEq, Repr

/-- Contributions to the gradient of one operand, written by one kernel. -/
structure PartialBuffer where
  owner : Owner
  /-- The context whose backward kernel writes the buffer. -/
  context : Nat
  /-- The name under which the buffer is read. -/
  name : String
  /-- How the buffer's elements map to the operand's. -/
  access : Access
  len : Nat
  deriving DecidableEq, Repr

/-- Where a contribution to the gradient of an operand goes. -/
inductive Target
  /-- Nowhere: constants, inputs and masks have no gradient. -/
  | nowhere
  /-- To the accumulator of a node of the same context. -/
  | accumulator (name : String)
  /-- To a partial buffer named after `base`. -/
  | buffer (base : String) (owner : Owner)
  deriving DecidableEq, Repr

/-- A contribution of one rule to one operand. -/
structure Contribution where
  operand : Nat
  access : Access
  target : Target
  value : Expr

/-- A backward kernel, before unused bindings are dropped, with the partial buffers it writes. -/
structure BackwardKernel where
  kernel : Kernel
  partials : List PartialBuffer

namespace PartialBuffer

/-- The input binding of a reader. -/
def binding (p : PartialBuffer) : Binding := ⟨p.name, p.len, .ownBuffer⟩

/-- The output binding of the writer. -/
def outputBinding (p : PartialBuffer) : Binding := ⟨outputName p.name, p.len, .ownBuffer⟩

/-- The `k`-th name for a partial buffer of `base`. -/
def candidate (base : String) (context k : Nat) : String :=
  let stem := "grad_" ++ base ++ "_k" ++ toString context
  if k = 0 then stem else stem ++ "_" ++ toString k

/-- The first name whose output is not taken. One of as many names as there are outputs, and one
more, is free. -/
def freshName (outputs : Bindings) (base : String) (context : Nat) : String :=
  let names := (List.range (outputs.size + 1)).map (candidate base context)
  (names.find? fun name => !outputs.contains (outputName name)).getD (candidate base context 0)

end PartialBuffer

/-- The accumulator of a node. -/
def gradName (id : Nat) : String := "g_" ++ Node.varName id

/-- Declares a variable as the incoming gradient at a flat index: one for the root and zero
elsewhere, plus the contributions that partial buffers hold. -/
def seedCode (name : String) (isRoot : Bool) (incoming : List PartialBuffer) (position : Expr)
    (loopVar : String) : List Stmt :=
  .varDecl name (.float (if isRoot then 1.0 else 0.0)) ::
    (incoming.mapIdx fun j p =>
      p.access.foldInto name p.name position (loopVar ++ toString j)).flatten

/-- Partial buffers being laid out, with their output bindings. -/
structure PartialOutputs where
  bindings : Bindings
  partials : List PartialBuffer

namespace PartialOutputs

/-- Nothing laid out. -/
def empty : PartialOutputs := ⟨.empty, []⟩

/-- Lays out a partial buffer under a new name. -/
def add (os : PartialOutputs) (base : String) (owner : Owner) (context : Nat) (access : Access)
    (len : Nat) : PartialBuffer × PartialOutputs :=
  let name := PartialBuffer.freshName os.bindings base context
  let p : PartialBuffer := ⟨owner, context, name, access, len⟩
  (p, ⟨os.bindings.register p.outputBinding, os.partials ++ [p]⟩)

end PartialOutputs

namespace Layout

variable (l : Layout)

/-- The partial buffers that hold contributions to a node, oldest first. -/
def incoming (partials : List PartialBuffer) (id : Nat) : List PartialBuffer :=
  partials.filter fun p => p.owner = .node id

/-- Where contributions to an operand go. -/
def target (context operand : Nat) (access : Access) : Target :=
  match (l.node operand).kind with
  | .constant _ => .nowhere
  | .mask _ => .nowhere
  | .tensor t =>
    match l.signature.get? t with
    | some d =>
      match d.kind with
      | .input => .nowhere
      | .parameter => .buffer d.bindingName (.parameter t)
    | none => .nowhere
  | .op _ =>
    if l.classOf context = .regular && l.isMember context operand && access.isAligned then
      .accumulator (gradName operand)
    else .buffer (Node.varName operand) (.node operand)

/-- The operands of a node as backward code reads them: always from buffers. -/
def backwardOperands (id : Nat) : List Operand :=
  (l.node id).operands.map fun (o, access) =>
    ⟨(l.node o).source l.signature o, access, (l.node o).shape⟩

/-- The gradient terms of a regular node, one per operand. -/
def terms (id : Nat) : List (Option Expr) :=
  match (l.node id).kind with
  | .op op =>
    let operands := l.backwardOperands id
    op.gradients (.var (gradName id)) (fun i => (operands.getD i .absent).value)
      (.load (Node.varName id) .index)
  | _ => []

/-- The contributions of a regular node to its operands. -/
def contributions (context id : Nat) : List Contribution :=
  ((l.node id).operands.zip (l.terms id)).filterMap fun ((o, access), term) =>
    term.map fun value => ⟨o, access, l.target context o access, value⟩

/-- The buffers that the gradient rule of a regular node reads. -/
def ruleBindings (context id : Nat) : List Binding :=
  l.readBindings context id ++ (l.savedBy context id).filterMap l.binding?

/-- The seeds of the accumulators of a regular context. -/
def seeds (partials : List PartialBuffer) (ids : List Nat) : List Stmt :=
  ids.flatMap fun id =>
    seedCode (gradName id) (id = l.root) (incoming partials id) .index (gradName id ++ "_f")

/-- Operands whose contributions go to partial buffers, each with its access, base name and owner. -/
def bufferTargets (contributions : List Contribution) :
    List ((Nat × Access) × (String × Owner)) :=
  contributions.filterMap fun c =>
    match c.target with
    | .buffer base owner => some ((c.operand, c.access), (base, owner))
    | _ => none

/-- The variable that collects the contributions of the `k`-th partial buffer. -/
def collectorName (k : Nat) : String := "gl" ++ toString k

/-- Adds a contribution to its accumulator or collector. -/
def ruleCode (keys : List ((Nat × Access) × (String × Owner))) (c : Contribution) : Option Stmt :=
  match c.target with
  | .nowhere => none
  | .accumulator name => some (.accumulate name c.value)
  | .buffer base owner =>
    some (.accumulate (collectorName (keys.idxOf ((c.operand, c.access), (base, owner)))) c.value)

/-- Lays out the partial buffers of a regular context. -/
def layOut (context size : Nat) (keys : List ((Nat × Access) × (String × Owner))) :
    PartialOutputs :=
  keys.foldl (fun os ((_, access), (base, owner)) => (os.add base owner context access size).2)
    .empty

/-- The backward kernel of a regular context. -/
def regularBackward (partials : List PartialBuffer) (context : Nat) : BackwardKernel :=
  let ids := l.members context
  let size := l.sizeOf context
  let contributions := ids.reverse.flatMap (l.contributions context)
  let keys := (bufferTargets contributions).eraseDups
  let outputs := layOut context size keys
  { kernel :=
      { label := "backward_k" ++ toString context
        size := size
        inputs := Bindings.empty.registerAll
          (ids.flatMap (fun id => (incoming partials id).map PartialBuffer.binding) ++
            ids.reverse.flatMap (l.ruleBindings context))
        outputs := outputs.bindings
        body :=
          .boundsGuard size ::
            (l.seeds partials ids ++
              (keys.mapIdx fun k _ => .varDecl (collectorName k) (.float 0.0)) ++
              contributions.filterMap (ruleCode keys) ++
              (outputs.partials.mapIdx fun k p =>
                .store (outputName p.name) p.access.partialIndex (.var (collectorName k)))) }
    partials := outputs.partials }

/-- What the gradient code of a reduction node uses for operand `i`. -/
def reductionFrame (partials : List PartialBuffer) (id i : Nat) : ReductionFrame :=
  { stem := Node.varName id ++ "_d" ++ toString i
    operands := l.backwardOperands id
    output := ⟨.buffer (Node.varName id), .aligned, (l.node id).shape⟩
    shape := (l.node id).shape
    seed := fun name position loopVar =>
      seedCode name (id = l.root) (incoming partials id) position loopVar }

/-- The gradient of one operand of a reduction node: a block that runs for as many invocations as
the operand has elements. Nothing is added for an operand without a gradient. -/
def reductionBlock (partials : List PartialBuffer) (context id : Nat) (op : Op)
    (state : List Stmt × PartialOutputs) (operand : (Nat × Access) × Nat) :
    List Stmt × PartialOutputs :=
  let ((o, access), i) := operand
  match l.target context o access with
  | .buffer base owner =>
    let len := (l.node o).size
    let (p, outputs) := state.2.add base owner context .aligned len
    let (code, value) := op.reductionGradient i (l.reductionFrame partials id i)
    ( state.1 ++
        [.ifThen (Expr.index.lt (.ofNat len)) (code ++ [.store (outputName p.name) .index value])],
      outputs )
  | _ => state

/-- The backward kernel of the context of a reduction node. -/
def reductionBackward (partials : List PartialBuffer) (context id : Nat) (op : Op) :
    BackwardKernel :=
  let (body, outputs) :=
    (l.node id).operands.zipIdx.foldl (l.reductionBlock partials context id op) ([], .empty)
  { kernel :=
      { label := "backward_k" ++ toString context
        size := outputs.partials.foldl (fun size p => max size p.len) 0
        inputs := Bindings.empty.registerAll
          ((incoming partials id).map PartialBuffer.binding ++ l.readBindings context id ++
            (l.binding? id).toList)
        outputs := outputs.bindings
        body := body }
    partials := outputs.partials }

/-- The backward kernel of a context, if there is anything to differentiate. `partials` holds what
the contexts after it wrote. -/
def backwardKernel (partials : List PartialBuffer) (context : Nat) : Option BackwardKernel :=
  let draft :=
    match l.classOf context, l.members context with
    | .regular, _ => some (l.regularBackward partials context)
    | .reduction, [] => none
    | .reduction, id :: _ =>
      match (l.node id).kind with
      | .op op => some (l.reductionBackward partials context id op)
      | _ => none
  draft.filter fun b => !b.kernel.outputs.isEmpty

/-- The backward kernels of contexts, each with the partial buffers written so far. -/
def backwardPass : List PartialBuffer → List Nat → List (Nat × Option BackwardKernel)
  | _, [] => []
  | partials, context :: rest =>
    let b := l.backwardKernel partials context
    (context, b) :: backwardPass (partials ++ b.elim [] BackwardKernel.partials) rest

/-- The backward kernels of all contexts, last context first. -/
def backwardKernels : List (Nat × Option BackwardKernel) := l.backwardPass [] l.order.reverse

end Layout

end TensorKernels
