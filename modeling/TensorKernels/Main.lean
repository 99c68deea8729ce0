import TensorKernels.Demo.AndGate

/-!
# The AND gate program

Prints the report of training the AND gate under the process's environment.
-/

set_option autoImplicit false

open TensorKernels

/-- The environment variables that are looked at. -/
def readEnvironment : IO Environment := do
  let mut env : Environment := .empty
  for name in Config.variableNames do
    if let some value ← IO.getEnv name then
      env := env.insert name value
  return env

/-- A seed for runs that are not repeatable. -/
def readEntropy : IO UInt64 := do
  let bytes ← IO.getRandomBytes 8
  return bytes.toList.foldl (fun n b => n * 256 + b.toUInt64) 0

/-- Normal variates from two uniform ones, as a radius and an angle. -/
def polarSampler : NormalSampler := fun deviation => do
  let u ← Draw.unit
  let v ← Draw.unit
  return deviation * (((-2.0) * (1.0 - u).log).sqrt * (6.2831855 * v).cos)

/-- Trains the AND gate and prints the report. -/
def main : IO UInt32 := do
  match (AndGate.transcript (← readEnvironment) polarSampler (← readEntropy)).1 with
  | .ok text =>
    IO.print text
    return 0
  | .error e =>
    IO.eprintln e.message
    return 1
