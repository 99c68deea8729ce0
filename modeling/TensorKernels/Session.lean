import TensorKernels.Config
import TensorKernels.Machine
import TensorKernels.Plan.Compile
import TensorKernels.Tensor.Initializer
import TensorKernels.Tensor.Mask

/-!
# Sessions

A session owns declared tensors with their values and gradients, the masks of the compiled term's
dropout sites, a random generator and the machine that runs the compiled plan. Operations can fail;
a failure leaves the session as it was when the failure was found.

Tensor values live in the session and are copied to the machine before a run if they changed since
the last copy.
-/

set_option autoImplicit false

namespace TensorKernels

/-- The values of a declared tensor. -/
structure TensorState (α : Type) where
  value : Array α
  /-- The gradient of the last training run; zero for an input. -/
  grad : Array α
  /-- Whether the value changed since it was last copied to the machine. -/
  dirty : Bool

/-- A compiled term. -/
structure Compiled (α : Type) where
  machine : Machine α
  outputShape : Shape

/-- The result of a training run. -/
structure TrainingRun (α : Type) where
  output : Array α
  /-- The gradient of the summed output for every parameter, in order of declaration. -/
  gradients : List (String × Array α)

/-- Tensors, masks, random draws and the compiled term. -/
structure Session (α : Type) where
  config : Config
  environment : Environment
  /-- How initializers draw normal values. -/
  normal : NormalSampler
  signature : Signature
  tensors : Array (TensorState α)
  masks : Array (Mask α)
  generator : Generator
  compiled : Option (Compiled α)
  log : Log

/-- Operations of a session. A failure leaves its state behind. -/
abbrev SessionM (α : Type) := EStateM Error (Session α)

namespace Session

variable {α : Type} (ops : Arithmetic α)

/-- A session without tensors. `entropy` is the seed where the configuration has none. -/
def start (config : Config) (environment : Environment) (normal : NormalSampler) (entropy : UInt64) :
    Session α :=
  { config := config
    environment := environment
    normal := normal
    signature := .empty
    tensors := #[]
    masks := #[]
    generator := .ofSeed (config.seed.getD entropy)
    compiled := none
    log := [] }

/-- A session with the settings of an environment. -/
def ofEnvironment (environment : Environment) (normal : NormalSampler) (entropy : UInt64) : Session α :=
  { start (.ofEnvironment environment) environment normal entropy with
    log := Config.readLog environment }

/-- The outcome of a pure computation. -/
def lift {β : Type} : Except Error β → SessionM α β
  | .ok b => pure b
  | .error e => throw e

/-- A computation on the generator. -/
def draw {β : Type} (d : EStateM Error Generator β) : SessionM α β := fun s =>
  match d s.generator with
  | .ok b g => .ok b { s with generator := g }
  | .error e g => .error e { s with generator := g }

/-! ## Tensors -/

/-- Declares a tensor with all elements zero and returns its number. -/
def declare (d : TensorDecl) : SessionM α Nat := do
  let s ← get
  let signature ← lift (s.signature.declare d)
  let zeros := Machine.zeros ops d.size
  set { s with signature := signature, tensors := s.tensors.push ⟨zeros, zeros, true⟩ }
  return s.tensors.size

/-- The declaration of a tensor. -/
def declaration (id : Nat) : SessionM α TensorDecl := do lift ((← get).signature.get id)

/-- The values of a tensor. -/
def tensor (id : Nat) : SessionM α (TensorState α) := do
  match (← get).tensors[id]? with
  | some t => return t
  | none => throw (.unknownTensor id)

/-- Replaces the value of a tensor. -/
def setTensor (id : Nat) (data : Array α) : SessionM α Unit := do
  let data ← lift ((← get).signature.accept id data)
  modify fun s =>
    { s with tensors := s.tensors.modify id fun t => { t with value := data, dirty := true } }

/-- Replaces the value of a tensor by that of an initializer. -/
def initTensor (id : Nat) (i : Initializer α) : SessionM α Unit := do
  let d ← declaration id
  setTensor id (← draw (i.sample ops (← get).normal d.name d.shape))

/-! ## Compilation -/

/-- The masks of dropout sites before the first run. -/
def freshMasks (sites : Array MaskSite) : Array (Mask α) :=
  sites.map fun m => Mask.ones ops m.rate m.size

/-- The records about a new plan: the text of its kernels if asked for, and the device. -/
def planLog (s : Session α) (plan : Plan) : Log :=
  (if Config.dumpsKernels s.environment then
      plan.kernels.map fun k => ⟨.debug, k.label ++ ":\n" ++ k.wgsl⟩
    else []) ++
  (if s.config.device = .gpu then
      [⟨.warn, "no GPU adapter available, falling back to the CPU runtime"⟩]
    else []) ++
  [⟨.info, "graph compiled for the cpu runtime"⟩]

/-- Loads a plan with the current values of tensors and masks. -/
def install (plan : Plan) (shape : Shape) : SessionM α Unit := do
  modify fun s =>
    { s with
      compiled := some
        { machine := Machine.start ops plan (s.tensors.toList.map TensorState.value)
            (s.masks.toList.map Mask.value)
          outputShape := shape }
      tensors := s.tensors.map fun t => { t with dirty := false }
      log := s.log ++ s.planLog plan }

/-- Compiles a term, replacing what was compiled before. -/
def compileTerm (root : Term) (shape : Shape) : SessionM α Unit := do
  let c := compile (← get).signature root shape
  modify fun s =>
    { s with compiled := none, masks := freshMasks ops c.masks, log := s.log ++ c.log }
  install ops (← lift c.plan) shape

/-- Compiles a term with its own shape and returns the shape. The term is lowered on its own first;
if that fails, what was compiled before stays, and the masks are those of the failed lowering. -/
def compileOutput (root : Term) : SessionM α Shape := do
  match (Lowering.lower root).run (.start (← get).signature) with
  | .error e lowered =>
    modify fun s => { s with masks := freshMasks ops lowered.masks }
    throw e
  | .ok id lowered =>
    let shape := (lowered.node id).shape
    compileTerm ops root shape
    return shape

/-- Whether a term is compiled. -/
def isCompiled (s : Session α) : Bool := s.compiled.isSome

/-- The compiled term. -/
def current : SessionM α (Compiled α) := do
  match (← get).compiled with
  | some c => return c
  | none => throw .notCompiled

/-- The device that runs the compiled term: always the host, whatever device was asked for. -/
def device : SessionM α Device := do
  let _ ← current
  return .cpu

/-! ## Runs -/

/-- Changes the machine of the compiled term. -/
def modifyMachine (f : Machine α → Machine α) : SessionM α Unit :=
  modify fun s => { s with compiled := s.compiled.map fun c => { c with machine := f c.machine } }

/-- Copies the tensors that changed to the machine. -/
def uploadTensors : SessionM α Unit := do
  let changed := (← get).tensors.toList.zipIdx.filter fun (t, _) => t.dirty
  modifyMachine fun m => changed.foldl (fun m (t, i) => m.writeTensor i t.value) m
  modify fun s => { s with tensors := s.tensors.map fun t => { t with dirty := false } }

/-- Draws one mask anew or disables it, and copies it to the machine. -/
def uploadMask (training : Bool) (i : Nat) : SessionM α Unit := do
  match (← get).masks[i]? with
  | none => pure ()
  | some m =>
    let m ← if training then draw (m.refresh ops) else pure (m.disable ops)
    modify fun s => { s with masks := s.masks.setIfInBounds i m }
    modifyMachine fun machine => machine.writeMask i m.value

/-- Copies what changed to the machine. Masks are drawn anew for training and disabled otherwise. -/
def upload (training : Bool) : SessionM α Unit := do
  let _ ← current
  uploadTensors
  (List.range (← get).masks.size).forM (uploadMask ops training)

/-- Runs the machine of the compiled term. -/
def runMachine (backward : Bool) : SessionM α (Readback α) := fun s =>
  match s.compiled with
  | none => .error .notCompiled s
  | some c =>
    match Machine.run ops backward c.machine with
    | .ok r m => .ok r { s with compiled := some { c with machine := m } }
    | .error e m => .error e { s with compiled := some { c with machine := m } }

/-- Adds one partial gradient to the gradient of its parameter. -/
def addPartial (p : ParameterPartial) (data : Array α) : SessionM α Unit := do
  let t ← tensor p.tensor
  match p.access.foldHost ops data t.grad with
  | some grad =>
    modify fun s =>
      { s with tensors := s.tensors.modify p.tensor fun t => { t with grad := grad } }
  | none => throw .outOfRange

/-- The gradients of the parameters. -/
def gradients (s : Session α) : List (String × Array α) :=
  (s.signature.decls.zip s.tensors.toList).filterMap fun (d, t) =>
    if d.kind = .parameter then some (d.name, t.grad) else none

/-- Runs the compiled term for training: the gradient of every parameter is replaced by that of the
summed output. -/
def run : SessionM α (TrainingRun α) := do
  upload ops true
  let readback ← runMachine ops true
  let c ← current
  modify fun s =>
    { s with tensors := s.tensors.map fun t => { t with grad := t.grad.map fun _ => ops.zero } }
  (c.machine.plan.partials.zip readback.partials).forM fun (p, data) => addPartial ops p data
  return ⟨readback.output.take c.outputShape.size, (← get).gradients⟩

/-- Runs the compiled term forward, without dropout. -/
def infer : SessionM α (Array α) := do
  upload ops false
  let readback ← runMachine ops false
  let c ← current
  return readback.output.take c.outputShape.size

/-- One step of gradient descent. -/
def descend (rate : α) (d : TensorDecl) (t : TensorState α) : TensorState α :=
  match d.kind with
  | .input => t
  | .parameter =>
    { t with
      value := t.value.mapIdx fun i v => (t.grad[i]?).elim v fun g => ops.sub v (ops.mul rate g)
      dirty := true }

/-- One step of gradient descent on a parameter; an input stays. -/
def learn (id : Nat) (rate : α) : SessionM α Unit := do
  let d ← declaration id
  modify fun s => { s with tensors := s.tensors.modify id (descend ops rate d) }

/-- One step of gradient descent on every parameter. -/
def learnAll (rate : α) : SessionM α Unit :=
  modify fun s =>
    { s with
      tensors := (List.zipWith (descend ops rate) s.signature.decls s.tensors.toList).toArray }

/-- `n` training runs, each followed by a step of gradient descent on every parameter. -/
def train (rate : α) : Nat → SessionM α (List (Array α))
  | 0 => return []
  | n + 1 => do
    let r ← run ops
    learnAll ops rate
    return r.output :: (← train rate n)

end Session

end TensorKernels
