import TensorKernels.Session
import TensorKernels.Term.Build

/-!
# Learning the AND gate

A perceptron with two inputs, four hidden units and one output is trained on the truth table of AND.
`AndGate.transcript` is the report of the training: the compiled kernels, the loss along the way and
the final predictions.
-/

set_option autoImplicit false

namespace TensorKernels.AndGate

/-- The four input pairs. -/
def inputs : Array Float32 := #[0.0, 0.0, 0.0, 1.0, 1.0, 0.0, 1.0, 1.0]

/-- The four targets. -/
def targets : Array Float32 := #[0.0, 0.0, 0.0, 1.0]

/-- The number of training runs. -/
def epochs : Nat := 2000

/-- The step of gradient descent. -/
def learningRate : Float32 := 0.01

/-- The prediction and the loss as terms over the tensors 0 to 5. -/
def network : Build (Term × Term) := do
  let hidden ← Build.unary .tanh
    (← Build.binary .add (← Build.matmul (.tensor 0) (.tensor 2)) (.tensor 3))
  let prediction ← Build.unary .sigmoid
    (← Build.binary .add (← Build.matmul hidden (.tensor 4)) (.tensor 5))
  return (prediction, ← Build.loss .binaryCrossEntropy prediction (.tensor 1))

/-- A text padded with spaces on the right. -/
def padRight (width : Nat) (s : String) : String :=
  s ++ String.ofList (List.replicate (width - s.length) ' ')

/-- A text padded with spaces on the left. -/
def padLeft (width : Nat) (s : String) : String :=
  String.ofList (List.replicate (width - s.length) ' ') ++ s

/-- A list of names in brackets and quotes. -/
def nameList (names : List String) : String :=
  "[" ++ String.intercalate ", " (names.map fun n => "\"" ++ n ++ "\"") ++ "]"

/-- One line per kernel. -/
def kernelLine (k : Kernel) : String :=
  "  " ++ padRight 14 k.label ++ " reads " ++ nameList k.inputs.names ++ " writes " ++
    nameList k.outputs.names ++ "\n"

/-- The line of an epoch; only every five hundredth has one. -/
def epochLine (epoch : Nat) (output : Array Float32) : String :=
  if epoch % 500 = 499 then
    let loss := Arithmetic.binary32.sum output / (UInt64.ofNat output.size).toFloat32
    "Epoch " ++ padLeft 4 (toString (epoch + 1)) ++ ": loss = " ++ Number.fixed 6 loss ++ "\n"
  else ""

/-- The line of a prediction. -/
def predictionLine (i : Nat) (p : Float32) : String :=
  "  " ++ Number.plain (inputs.getD (2 * i) 0.0) ++ " AND " ++
    Number.plain (inputs.getD (2 * i + 1) 0.0) ++ " -> " ++ Number.fixed 4 p ++ " (target " ++
    Number.plain (targets.getD i 0.0) ++ ")\n"

/-- Declares and initializes the tensors. -/
def setUp : SessionM Float32 Unit := do
  let ops := Arithmetic.binary32
  let x ← Session.declare ops ⟨"x", [4, 2], .input⟩
  let y ← Session.declare ops ⟨"y", [4, 1], .input⟩
  let w1 ← Session.declare ops ⟨"w1", [2, 4], .parameter⟩
  let _ ← Session.declare ops ⟨"b1", [4], .parameter⟩
  let w2 ← Session.declare ops ⟨"w2", [4, 1], .parameter⟩
  let _ ← Session.declare ops ⟨"b2", [1], .parameter⟩
  Session.initTensor ops w1 .xavier
  Session.initTensor ops w2 .xavier
  Session.setTensor x inputs
  Session.setTensor y targets

/-- Sets up, trains and predicts, and reports on it. -/
def report : SessionM Float32 String := do
  let ops := Arithmetic.binary32
  setUp
  let (prediction, loss) := (network 0).1
  Session.compileTerm ops loss [4, 1]
  let kernels := (← Session.current).machine.plan.kernels
  let device ← Session.device
  let outputs ← Session.train ops learningRate epochs
  Session.compileTerm ops prediction [4, 1]
  let predictions ← Session.infer ops
  return "=== AND Gate Example ===\n\nCompiled " ++ toString kernels.length ++ " kernels on the " ++
    device.name ++ " runtime:\n" ++ String.join (kernels.map kernelLine) ++ "\n" ++
    String.join (outputs.mapIdx epochLine) ++ "\n=== Training Complete ===\n" ++
    String.join (predictions.toList.mapIdx predictionLine)

/-- The report of a training under an environment, with the records logged on the way. `entropy` is
the seed where the environment has none. -/
def transcript (environment : Environment) (normal : NormalSampler) (entropy : UInt64) :
    Except Error String × Log :=
  match report (.ofEnvironment environment normal entropy) with
  | .ok text s => (.ok text, s.log)
  | .error e s => (.error e, s.log)

end TensorKernels.AndGate
