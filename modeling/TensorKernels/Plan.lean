import TensorKernels.Access
import TensorKernels.Kernel.Basic

/-!
# Plans

A plan is a list of kernels in execution order, the forward ones first, and the copies that hand
values from one kernel to a later one. `Plan.wire` finds the copies by name: an input `x` that the
kernel owns is filled from the last earlier kernel that writes `x_output`.
-/

set_option autoImplicit false

namespace TensorKernels

/-- A copy made right before a kernel runs. -/
structure Copy where
  /-- The kernel that owns the source. -/
  fromKernel : Nat
  /-- The output it is copied from. -/
  source : String
  /-- The input it is copied to. -/
  target : String
  len : Nat
  deriving DecidableEq, Repr

/-- A buffer of one kernel. -/
structure BufferRef where
  kernel : Nat
  name : String
  deriving DecidableEq, Repr

/-- One part of a parameter's gradient, to be added up on the host. -/
structure ParameterPartial where
  tensor : Nat
  buffer : BufferRef
  /-- How the buffer's elements map to the parameter's. -/
  access : Access
  deriving DecidableEq, Repr

/-- Kernels with the wiring between them. -/
structure Plan where
  kernels : List Kernel
  /-- The copies before each kernel. -/
  copies : List (List Copy)
  /-- The number of forward kernels. -/
  forwardCount : Nat
  output : BufferRef
  partials : List ParameterPartial
  deriving Repr

namespace Plan

/-- The last of the kernels that writes a buffer. -/
def lastWriter (kernels : List Kernel) (name : String) : Option Nat :=
  (kernels.reverse.findIdx? fun k => k.outputs.contains name).map fun i => kernels.length - 1 - i

/-- The copy that fills an input of a kernel from the kernels before it. -/
def copyFor (earlier : List Kernel) (k : Kernel) (input : Binding) : Except Error Copy :=
  match lastWriter earlier (outputName input.name) with
  | some i => .ok ⟨i, outputName input.name, input.name, input.len⟩
  | none => .error (.unboundBuffer k.label input.name)

/-- The copies before a kernel: one per input that the kernel owns. -/
def copiesFor (earlier : List Kernel) (k : Kernel) : Except Error (List Copy) :=
  (k.inputs.entries.filter fun b => b.source = .ownBuffer).mapM (copyFor earlier k)

/-- The copies before each of the remaining kernels. -/
def allCopies (earlier : List Kernel) : List Kernel → Except Error (List (List Copy))
  | [] => .ok []
  | k :: rest => do
    let copies ← copiesFor earlier k
    let others ← allCopies (earlier ++ [k]) rest
    .ok (copies :: others)

/-- Checks that a buffer is written by its kernel. -/
def checkWritten (kernels : List Kernel) (r : BufferRef) : Except Error Unit :=
  match kernels[r.kernel]? with
  | some k => if k.outputs.contains r.name then .ok () else .error (.unboundBuffer k.label r.name)
  | none => .error (.unboundBuffer "" r.name)

/-- Wires kernels into a plan. Every owned input needs an earlier writer, and the output and all
partials have to be written by their kernels. -/
def wire (kernels : List Kernel) (forwardCount : Nat) (output : BufferRef)
    (partials : List ParameterPartial) : Except Error Plan := do
  let copies ← allCopies [] kernels
  checkWritten kernels output
  partials.forM fun p => checkWritten kernels p.buffer
  .ok ⟨kernels, copies, forwardCount, output, partials⟩

/-- The number of kernels that a run executes. -/
def kernelCount (p : Plan) (backward : Bool) : Nat :=
  if backward then p.kernels.length else p.forwardCount

end Plan

end TensorKernels
