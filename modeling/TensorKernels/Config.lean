import TensorKernels.Log
import TensorKernels.Table

/-!
# Configuration

A configuration is read from environment variables. Values that do not parse are ignored; an unknown
device is reported.
-/

set_option autoImplicit false

namespace TensorKernels

/-- Environment variables with their values. -/
abbrev Environment := Table String String

/-- The device that kernels are meant for. -/
inductive Device
  | cpu
  | gpu
  deriving DecidableEq, Repr

/-- The name of a device. -/
def Device.name : Device → String
  | .cpu => "cpu"
  | .gpu => "gpu"

/-- The settings of a session. -/
structure Config where
  device : Device
  /-- The seed of random draws, if they are to be repeatable. -/
  seed : Option UInt64
  /-- How many seconds a readback may wait. -/
  syncTimeout : UInt64
  deriving DecidableEq, Repr

namespace Config

/-- The value of a digit. -/
def digit? (c : Char) : Option Nat :=
  if '0' ≤ c ∧ c ≤ '9' then some (c.toNat - '0'.toNat) else none

/-- A nonempty sequence of decimal digits, after an optional plus sign, below `2 ^ 64`. -/
def parseUInt64 (s : String) : Option UInt64 :=
  let digits :=
    match s.toList with
    | '+' :: rest => rest
    | cs => cs
  if digits.isEmpty then none
  else
    (digits.mapM digit?).bind fun ds =>
      let n := ds.foldl (fun n d => n * 10 + d) 0
      if n < UInt64.size then some (UInt64.ofNat n) else none

/-- The device variable, in lower case. -/
def deviceText (env : Environment) : Option String :=
  (env.find? "SHADERGRAD_DEVICE").map fun s => String.ofList (s.toList.map Char.toLower)

/-- The device of a text. -/
def device? : String → Option Device
  | "cpu" => some .cpu
  | "gpu" => some .gpu
  | _ => none

/-- A variable that holds a number. -/
def number? (env : Environment) (name : String) : Option UInt64 :=
  (env.find? name).bind parseUInt64

/-- The settings of an environment. -/
def ofEnvironment (env : Environment) : Config :=
  { device := ((deviceText env).bind device?).getD .gpu
    seed := number? env "SHADERGRAD_SEED"
    syncTimeout := (number? env "SHADERGRAD_GPU_SYNC_TIMEOUT").getD 5 }

/-- The records of reading the settings: an unknown device is ignored. -/
def readLog (env : Environment) : Log :=
  match deviceText env with
  | none => []
  | some text =>
    if (device? text).isSome then []
    else [⟨.warn, "ignoring unknown SHADERGRAD_DEVICE value `" ++ text ++ "`"⟩]

/-- The settings of an environment, for the host. -/
def cpu (env : Environment) : Config := { ofEnvironment env with device := .cpu }

/-- Whether the text of compiled kernels is logged. -/
def dumpsKernels (env : Environment) : Bool := env.contains "SHADERGRAD_DUMP_SHADERS"

/-- The names of the variables that are looked at. -/
def variableNames : List String :=
  ["SHADERGRAD_DEVICE", "SHADERGRAD_SEED", "SHADERGRAD_GPU_SYNC_TIMEOUT", "SHADERGRAD_DUMP_SHADERS"]

end Config

end TensorKernels
