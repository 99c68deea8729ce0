import TensorKernels.Number.Text
import TensorKernels.Shape
import TensorKernels.Kernel.Expr

/-!
# Errors

`Fault` says why an invocation of a kernel stopped and `Error` why an operation of the library
failed. Both name the cause; `Fault.message` and `Error.message` hold the wording.
-/

set_option autoImplicit false

namespace TensorKernels

/-- The kinds of values an expression can have. -/
inductive ValueKind
  | scalar
  | word
  | truth
  deriving DecidableEq, Repr

/-- The name of a kind in error messages. -/
def ValueKind.name : ValueKind → String
  | .scalar => "f32"
  | .word => "u32"
  | .truth => "bool"

/-- Why an invocation stopped. Values are kept as their texts. -/
inductive Fault
  | wrongKind (expected : ValueKind) (actual : String)
  | unknownVariable (name : String)
  | unboundLoad (buffer : String)
  | unboundStore (buffer : String)
  | undeclared (name : String)
  | mismatched (f : BinaryFn) (lhs rhs : String)
  deriving DecidableEq, Repr

/-- The wording of a fault. -/
def Fault.message : Fault → String
  | .wrongKind expected actual => "expected " ++ expected.name ++ ", got " ++ actual
  | .unknownVariable name => "unknown variable `" ++ name ++ "`"
  | .unboundLoad buffer => "unbound buffer `" ++ buffer ++ "`"
  | .unboundStore buffer => "store to unbound `" ++ buffer ++ "`"
  | .undeclared name => "assignment to undeclared `" ++ name ++ "`"
  | .mismatched f lhs rhs => "mismatched operands for " ++ f.name ++ ": " ++ lhs ++ " and " ++ rhs

/-- Why an operation failed. -/
inductive Error
  /-- Operand shapes that an operator does not take. -/
  | shapeMismatch (op : String) (lhs rhs : Shape)
  /-- A buffer that no binding, copy or kernel provides. -/
  | unboundBuffer (kernel name : String)
  /-- Data of the wrong length for a tensor. -/
  | sizeMismatch (name : String) (expected actual : Nat)
  | unknownTensor (id : Nat)
  | duplicateName (name : String)
  | invalidName (name : String)
  | dropoutRate (rate : Float32)
  | notCompiled
  /-- A kernel order in which a context reads from a later one. -/
  | cyclicKernels (context : Nat)
  | interpreter (fault : Fault)
  /-- A position outside a list, or a range with nothing to draw from. -/
  | outOfRange
  /-- A number of elements that 64 bits do not hold. -/
  | overflow
  deriving DecidableEq, Repr

/-- The wording of an error. -/
def Error.message : Error → String
  | .shapeMismatch op lhs rhs => "Shape mismatch in " ++ op ++ ": " ++ lhs.text ++ " vs " ++ rhs.text
  | .unboundBuffer kernel name =>
    "Buffer `" ++ name ++ "` is not bound in kernel `" ++ kernel ++ "`"
  | .sizeMismatch name expected actual =>
    "Tensor `" ++ name ++ "` expects " ++ toString expected ++ " elements but got " ++ toString actual
  | .unknownTensor id => "Unknown tensor id " ++ toString id
  | .duplicateName name => "A tensor named `" ++ name ++ "` already exists"
  | .invalidName name =>
    "Invalid tensor name `" ++ name ++ "`: use ASCII letters, digits and underscores"
  | .dropoutRate rate => "Dropout rate must be in [0, 1), got " ++ Number.plain rate
  | .notCompiled => "Graph has not been compiled"
  | .cyclicKernels context => "Kernel partition contains a cycle through context " ++ toString context
  | .interpreter fault => "Interpreter error: " ++ fault.message
  | .outOfRange => "Position out of range"
  | .overflow => "Element count out of range"

end TensorKernels
