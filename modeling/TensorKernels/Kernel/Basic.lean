import TensorKernels.Error
import TensorKernels.Log
import TensorKernels.Kernel.Bindings
import TensorKernels.Kernel.Stmt

/-!
# Kernels

A kernel is a body that runs once per index below its size, rounded up to whole workgroups, on the
buffers of its bindings. Inputs are read and outputs are written. `Kernel.checked` keeps exactly the
bindings that the body touches and refuses a body that touches anything else; `Kernel.wgsl` is the
text of the compute shader.
-/

set_option autoImplicit false

namespace TensorKernels

/-- A kernel with its bindings. -/
structure Kernel where
  label : String
  /-- The number of elements to compute. -/
  size : Nat
  inputs : Bindings
  outputs : Bindings
  body : List Stmt
  deriving Repr

/-- The name under which a kernel writes the buffer that others read as `base`. -/
def outputName (base : String) : String := base ++ "_output"

/-- The least string of a list in the order of code points. -/
def leastString : List String → Option String
  | [] => none
  | s :: rest =>
    match leastString rest with
    | none => some s
    | some t => if t < s then some t else some s

namespace Kernel

/-- Invocations per workgroup. -/
def workgroupSize : Nat := 64

/-- The number of workgroups that cover the size, modulo `2 ^ 32`. -/
def workgroups (k : Kernel) : UInt32 :=
  UInt32.ofNat ((k.size + workgroupSize - 1) / workgroupSize)

/-- The buffers that the body reads. -/
def loads (k : Kernel) : List String := Stmt.blockLoads k.body

/-- The buffers that the body writes. -/
def stores (k : Kernel) : List String := Stmt.blockStores k.body

/-- The least buffer that is read without an input binding. -/
def missingLoad (k : Kernel) : Option String :=
  leastString (k.loads.filter fun name => !k.inputs.contains name)

/-- The least buffer that is written without an output binding. -/
def missingStore (k : Kernel) : Option String :=
  leastString (k.stores.filter fun name => !k.outputs.contains name)

/-- The kernel without the bindings that its body does not touch, or the first buffer that is not
bound: a missing input comes before a missing output. -/
def checked (k : Kernel) : Except Error Kernel :=
  match k.missingLoad, k.missingStore with
  | some name, _ => .error (.unboundBuffer k.label name)
  | none, some name => .error (.unboundBuffer k.label name)
  | none, none =>
    .ok
      { k with
        inputs := k.inputs.filter fun b => k.loads.contains b.name
        outputs := k.outputs.filter fun b => k.stores.contains b.name }

/-- The records of a successful check: one per dropped input. -/
def checkedLog (k : Kernel) : Log :=
  match k.checked with
  | .error _ => []
  | .ok _ =>
    (k.inputs.names.filter fun name => !k.loads.contains name).map fun name =>
      ⟨.debug, k.label ++ ": dropping unused input `" ++ name ++ "`"⟩

/-- One line of the shader's header. -/
def bindingText (slot : Nat) (mode : String) (name : String) : String :=
  "@group(0) @binding(" ++ toString slot ++ ") var<storage, " ++ mode ++ "> " ++ name ++
    ": array<f32>;\n"

/-- The kernel as a WGSL compute shader: inputs take the first slots, outputs the ones after. -/
def wgsl (k : Kernel) : String :=
  "// " ++ k.label ++ "\n" ++
    String.join (k.inputs.names.mapIdx fun i name => bindingText i "read" name) ++
    String.join (k.outputs.names.mapIdx fun i name =>
      bindingText (k.inputs.size + i) "read_write" name) ++
    "\n@compute @workgroup_size(" ++ toString workgroupSize ++ ")\n" ++
    "fn main(@builtin(global_invocation_id) gid: vec3<u32>) \x7b\n    let index = gid.x;\n" ++
    Stmt.blockText 1 k.body ++ "\x7d\n"

end Kernel

end TensorKernels
