import TensorKernels.Kernel.Exec
import TensorKernels.Plan

/-!
# The machine that runs plans

A machine holds the values of tensors and masks and the buffers that each kernel owns. A run
executes the kernels of its plan in order, each after its copies, and reads back the output and,
for a training run, the partial gradients. Buffers start at zero and keep their contents between
runs. A failing run leaves the machine as it was when it failed.
-/

set_option autoImplicit false

namespace TensorKernels

/-- A plan with the contents of all buffers. -/
structure Machine (α : Type) where
  plan : Plan
  tensors : Table Nat (Array α)
  masks : Table Nat (Array α)
  /-- The buffers that each kernel owns. -/
  owned : List (Buffers α)

/-- What is read back after a run. -/
structure Readback (α : Type) where
  output : Array α
  /-- One buffer per partial of the plan; none for a forward run. -/
  partials : List (Array α)

/-- Steps of a machine. A failure leaves its state behind. -/
abbrev MachineM (α : Type) := EStateM Error (Machine α)

namespace Machine

variable {α : Type} (ops : Arithmetic α)

/-- A buffer of zeros. -/
def zeros (n : Nat) : Array α := Array.replicate n ops.zero

/-- The buffers that a kernel owns, at zero. -/
def initialBuffers (k : Kernel) : Buffers α :=
  let bindings := k.inputs.entries ++ k.outputs.entries
  .ofList ((bindings.filter fun b => b.source = .ownBuffer).map fun b => (b.name, zeros ops b.len))

/-- The values of a list by position. -/
def byPosition (values : List (Array α)) : Table Nat (Array α) :=
  ⟨values.mapIdx fun i v => (i, v)⟩

/-- A machine with the given tensor and mask values. -/
def start (plan : Plan) (tensors masks : List (Array α)) : Machine α :=
  ⟨plan, byPosition tensors, byPosition masks, plan.kernels.map (initialBuffers ops)⟩

/-- Replaces the value of a tensor. -/
def writeTensor (m : Machine α) (id : Nat) (data : Array α) : Machine α :=
  { m with tensors := m.tensors.insert id data }

/-- Replaces the value of a mask. -/
def writeMask (m : Machine α) (index : Nat) (data : Array α) : Machine α :=
  { m with masks := m.masks.insert index data }

/-- The value, or a failure where the position is out of range. -/
def orOutOfRange {β : Type} : Option β → MachineM α β
  | some b => pure b
  | none => throw .outOfRange

/-- The kernel at a position. -/
def kernelAt (i : Nat) : MachineM α Kernel := do orOutOfRange (← get).plan.kernels[i]?

/-- The buffers of the kernel at a position. -/
def buffersAt (i : Nat) : MachineM α (Buffers α) := do orOutOfRange (← get).owned[i]?

/-- Changes the buffers of the kernel at a position. -/
def modifyBuffers (i : Nat) (f : Buffers α → Buffers α) : MachineM α Unit :=
  modify fun m => { m with owned := m.owned.modify i f }

/-- A buffer that the kernel at a position owns. -/
def readBuffer (i : Nat) (name : String) : MachineM α (Array α) := do
  match (← buffersAt i).find? name with
  | some data => return data
  | none => throw (.unboundBuffer (← kernelAt i).label name)

/-- The target with its first elements replaced by the data, if they fit. -/
def overwrite (data target : Array α) : Option (Array α) :=
  if data.size ≤ target.size then some (data ++ target.extract data.size target.size) else none

/-- Makes a copy before the kernel at a position runs. A target that the kernel does not own is left
out. -/
def copy (i : Nat) (c : Copy) : MachineM α Unit := do
  let source ← readBuffer c.fromKernel c.source
  let data := source.extract 0 (min c.len source.size)
  match (← buffersAt i).find? c.target with
  | none => pure ()
  | some target =>
    let target ← orOutOfRange (overwrite data target)
    modifyBuffers i fun bs => bs.insert c.target target

/-- Takes the output buffers out of the buffers of a kernel. One that is missing starts at zero. -/
def takeOutputs (i : Nat) (k : Kernel) : MachineM α (Buffers α) := do
  let own ← buffersAt i
  let outputs := k.outputs.entries.map fun b => (b.name, (own.find? b.name).getD (zeros ops b.len))
  modifyBuffers i fun bs => k.outputs.names.foldl Table.erase bs
  return .ofList outputs

/-- The buffer behind an input binding of the kernel at a position. -/
def inputBuffer (i : Nat) (k : Kernel) (b : Binding) : MachineM α (String × Array α) := do
  let m ← get
  let data :=
    match b.source with
    | .tensor id => m.tensors.find? id
    | .mask index => m.masks.find? index
    | .ownBuffer => (m.owned[i]?).bind fun bs => bs.find? b.name
  match data with
  | some data => return (b.name, data)
  | none => throw (.unboundBuffer k.label b.name)

/-- Runs the kernel at a position. The outputs are written back even if the kernel stops with a
fault, but not if one of its inputs has no buffer. -/
def runKernel (i : Nat) : MachineM α Unit := do
  let copies ← orOutOfRange (← get).plan.copies[i]?
  copies.forM (copy i)
  let k ← kernelAt i
  let outputs ← takeOutputs ops i k
  let inputs ← k.inputs.entries.mapM (inputBuffer i k)
  let (fault, outputs) := k.dispatch ops ⟨inputs⟩ outputs
  modifyBuffers i fun bs => bs.union outputs
  match fault with
  | some fault => throw (.interpreter fault)
  | none => pure ()

/-- Runs `count` kernels from position `i` on, up to the first failure. -/
def runKernels : Nat → Nat → MachineM α Unit
  | 0, _ => pure ()
  | count + 1, i => do
    runKernel ops i
    runKernels count (i + 1)

/-- Runs the forward kernels, and the backward kernels for a training run, and reads back. -/
def run (backward : Bool) : MachineM α (Readback α) := do
  let plan := (← get).plan
  runKernels ops (plan.kernelCount backward) 0
  let output ← readBuffer plan.output.kernel plan.output.name
  let partials ←
    if backward then plan.partials.mapM fun p => readBuffer p.buffer.kernel p.buffer.name
    else pure []
  return ⟨output, partials⟩

end Machine

end TensorKernels
