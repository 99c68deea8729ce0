import TensorKernels.Number.Text

/-!
# Kernel expressions

An expression is evaluated once per invocation of a kernel. It reads the invocation index, local
variables and named buffers. Scalars are tensor elements, words are 32-bit indices, and comparisons
give truth values that only `select` and `if` consume. `Expr.text` writes an expression in WGSL and
`Expr.loads` lists the buffers it reads.
-/

set_option autoImplicit false

namespace TensorKernels

/-- A function of one scalar. -/
inductive UnaryFn
  | neg
  | exp
  | log
  | sqrt
  | tanh
  deriving DecidableEq, Repr

/-- A function of two scalars or of two words. -/
inductive BinaryFn
  | add
  | sub
  | mul
  | div
  | rem
  | max
  | lt
  | gt
  | ge
  deriving DecidableEq, Repr

/-- The name of a function in error messages. -/
def BinaryFn.name : BinaryFn → String
  | .add => "Add"
  | .sub => "Sub"
  | .mul => "Mul"
  | .div => "Div"
  | .rem => "Rem"
  | .max => "Max"
  | .lt => "Lt"
  | .gt => "Gt"
  | .ge => "Ge"

/-- An expression of a kernel body. -/
inductive Expr
  /-- A scalar literal. -/
  | float (value : Float32)
  /-- A word literal: a size or dimension, of which the word is the value modulo `2 ^ 32`. -/
  | word (value : Nat)
  /-- The index of the invocation. -/
  | index
  /-- A local variable. -/
  | var (name : String)
  /-- The element of a buffer at an index. -/
  | load (buffer : String) (index : Expr)
  | unary (f : UnaryFn) (x : Expr)
  | binary (f : BinaryFn) (a b : Expr)
  | select (cond onTrue onFalse : Expr)
  | clamp (value low high : Expr)
  deriving DecidableEq, Repr

namespace Expr

/-- The word literal of a size or dimension. -/
def ofNat (n : Nat) : Expr := .word n

instance : Add Expr := ⟨.binary .add⟩
instance : Sub Expr := ⟨.binary .sub⟩
instance : Mul Expr := ⟨.binary .mul⟩
instance : Div Expr := ⟨.binary .div⟩
instance : Mod Expr := ⟨.binary .rem⟩
instance : Neg Expr := ⟨.unary .neg⟩

/-- A sum, as a node of the syntax tree. -/
theorem add_def (a b : Expr) : a + b = .binary .add a b := rfl

/-- A difference, as a node of the syntax tree. -/
theorem sub_def (a b : Expr) : a - b = .binary .sub a b := rfl

/-- A product, as a node of the syntax tree. -/
theorem mul_def (a b : Expr) : a * b = .binary .mul a b := rfl

/-- A quotient, as a node of the syntax tree. -/
theorem div_def (a b : Expr) : a / b = .binary .div a b := rfl

/-- A remainder, as a node of the syntax tree. -/
theorem mod_def (a b : Expr) : a % b = .binary .rem a b := rfl

/-- A negation, as a node of the syntax tree. -/
theorem neg_def (a : Expr) : -a = .unary .neg a := rfl

/-- The exponential of an expression. -/
def exp (x : Expr) : Expr := .unary .exp x

/-- The logarithm of an expression. -/
def log (x : Expr) : Expr := .unary .log x

/-- The square root of an expression. -/
def sqrt (x : Expr) : Expr := .unary .sqrt x

/-- The hyperbolic tangent of an expression. -/
def tanh (x : Expr) : Expr := .unary .tanh x

/-- The larger of two expressions. -/
def max (a b : Expr) : Expr := .binary .max a b

/-- The comparison `a > b`. -/
def gt (a b : Expr) : Expr := .binary .gt a b

/-- The comparison `a < b`. -/
def lt (a b : Expr) : Expr := .binary .lt a b

/-- The comparison `a >= b`. -/
def ge (a b : Expr) : Expr := .binary .ge a b

/-- The text of a scalar literal; a set sign bit puts it in parentheses. There is one NaN, and it has no
sign. -/
def literalText (x : Float32) : String :=
  if (Binary32.ofFloat x).negative then "(" ++ Number.literal x ++ ")"
  else Number.literal x

/-- The WGSL text of a function application. -/
def unaryText : UnaryFn → String → String
  | .neg, x => s!"(-{x})"
  | .exp, x => s!"exp({x})"
  | .log, x => s!"log({x})"
  | .sqrt, x => s!"sqrt({x})"
  | .tanh, x => s!"tanh({x})"

/-- The WGSL text of an operator between two operands. -/
def binaryText : BinaryFn → String → String → String
  | .add, a, b => s!"({a} + {b})"
  | .sub, a, b => s!"({a} - {b})"
  | .mul, a, b => s!"({a} * {b})"
  | .div, a, b => s!"({a} / {b})"
  | .rem, a, b => s!"({a} % {b})"
  | .max, a, b => s!"max({a}, {b})"
  | .lt, a, b => s!"({a} < {b})"
  | .gt, a, b => s!"({a} > {b})"
  | .ge, a, b => s!"({a} >= {b})"

/-- The WGSL text of an expression. `select` takes its alternatives before its condition. -/
def text : Expr → String
  | .float x => literalText x
  | .word n => toString (UInt32.ofNat n).toNat ++ "u"
  | .index => "index"
  | .var name => name
  | .load buffer i => buffer ++ "[" ++ i.text ++ "]"
  | .unary f x => unaryText f x.text
  | .binary f a b => binaryText f a.text b.text
  | .select c t e => "select(" ++ e.text ++ ", " ++ t.text ++ ", " ++ c.text ++ ")"
  | .clamp v l h => "clamp(" ++ v.text ++ ", " ++ l.text ++ ", " ++ h.text ++ ")"

/-- The buffers an expression reads, as often as they occur. -/
def loads : Expr → List String
  | .float _ => []
  | .word _ => []
  | .index => []
  | .var _ => []
  | .load buffer i => buffer :: i.loads
  | .unary _ x => x.loads
  | .binary _ a b => a.loads ++ b.loads
  | .select c t e => c.loads ++ t.loads ++ e.loads
  | .clamp v l h => v.loads ++ l.loads ++ h.loads

end Expr

end TensorKernels
