import TensorKernels.Error
import TensorKernels.Table
import TensorKernels.Number.Arithmetic

/-!
# Evaluation of expressions

`Expr.eval` gives the value of an expression in an invocation, over any arithmetic. Words wrap
modulo `2 ^ 32`; dividing a word by zero gives the dividend and the remainder is zero. A load past
the end of its buffer reads zero.
-/

set_option autoImplicit false

namespace TensorKernels

/-- The value of an expression. -/
inductive Value (α : Type)
  | scalar (x : α)
  | word (n : UInt32)
  | truth (b : Bool)
  deriving DecidableEq, Repr

/-- Named buffers. -/
abbrev Buffers (α : Type) := Table String (Array α)

/-- What the statements of one invocation see. -/
structure Invocation (α : Type) where
  /-- The index of the invocation. -/
  index : UInt32
  /-- The local variables. -/
  locals : Table String (Value α)
  /-- The buffers that are read. -/
  inputs : Buffers α
  /-- The buffers that are written. -/
  outputs : Buffers α

namespace Value

variable {α : Type} (ops : Arithmetic α)

/-- The text of a value in an error message. -/
def text : Value α → String
  | .scalar x => "F(" ++ ops.text x ++ ")"
  | .word n => "U(" ++ toString n.toNat ++ ")"
  | .truth b => "B(" ++ toString b ++ ")"

/-- The scalar of a value. -/
def toScalar : Value α → Except Fault α
  | .scalar x => .ok x
  | v => .error (.wrongKind .scalar (v.text ops))

/-- The word of a value. -/
def toWord : Value α → Except Fault UInt32
  | .word n => .ok n
  | v => .error (.wrongKind .word (v.text ops))

/-- The truth value of a value. -/
def toTruth : Value α → Except Fault Bool
  | .truth b => .ok b
  | v => .error (.wrongKind .truth (v.text ops))

end Value

variable {α : Type} (ops : Arithmetic α)

/-- A function of one scalar. -/
def UnaryFn.apply : UnaryFn → α → α
  | .neg, x => ops.neg x
  | .exp, x => ops.exp x
  | .log, x => ops.log x
  | .sqrt, x => ops.sqrt x
  | .tanh, x => ops.tanh x

/-- A function of two scalars. -/
def BinaryFn.onScalars : BinaryFn → α → α → Value α
  | .add, a, b => .scalar (ops.add a b)
  | .sub, a, b => .scalar (ops.sub a b)
  | .mul, a, b => .scalar (ops.mul a b)
  | .div, a, b => .scalar (ops.div a b)
  | .rem, a, b => .scalar (ops.rem a b)
  | .max, a, b => .scalar (ops.max a b)
  | .lt, a, b => .truth (ops.lt a b)
  | .gt, a, b => .truth (ops.lt b a)
  | .ge, a, b => .truth (ops.le b a)

/-- A function of two words. -/
def BinaryFn.onWords : BinaryFn → UInt32 → UInt32 → Value α
  | .add, a, b => .word (a + b)
  | .sub, a, b => .word (a - b)
  | .mul, a, b => .word (a * b)
  | .div, a, b => .word (if b = 0 then a else a / b)
  | .rem, a, b => .word (if b = 0 then 0 else a % b)
  | .max, a, b => .word (if a < b then b else a)
  | .lt, a, b => .truth (a < b)
  | .gt, a, b => .truth (b < a)
  | .ge, a, b => .truth (b ≤ a)

/-- A function of two values of the same kind. -/
def BinaryFn.apply (f : BinaryFn) : Value α → Value α → Except Fault (Value α)
  | .scalar a, .scalar b => .ok (f.onScalars ops a b)
  | .word a, .word b => .ok (f.onWords a b)
  | a, b => .error (.mismatched f (a.text ops) (b.text ops))

/-- The buffer that a load names: inputs come before outputs. -/
def Invocation.buffer? (s : Invocation α) (name : String) : Option (Array α) :=
  match s.inputs.find? name with
  | some data => some data
  | none => s.outputs.find? name

/-- The value of an expression, with operands evaluated from left to right. Only the chosen
alternative of a `select` is evaluated. -/
def Expr.eval (s : Invocation α) : Expr → Except Fault (Value α)
  | .float x => .ok (.scalar (ops.lit x))
  | .word n => .ok (.word (UInt32.ofNat n))
  | .index => .ok (.word s.index)
  | .var name =>
    match s.locals.find? name with
    | some v => .ok v
    | none => .error (.unknownVariable name)
  | .load buffer position => do
    let i ← (← position.eval s).toWord ops
    match s.buffer? buffer with
    | some data => .ok (.scalar (data.getD i.toNat ops.zero))
    | none => .error (.unboundLoad buffer)
  | .unary f x => do
    let v ← (← x.eval s).toScalar ops
    .ok (.scalar (f.apply ops v))
  | .binary f a b => do
    let v ← a.eval s
    let w ← b.eval s
    f.apply ops v w
  | .select cond onTrue onFalse => do
    let c ← (← cond.eval s).toTruth ops
    if c then onTrue.eval s else onFalse.eval s
  | .clamp value low high => do
    let v ← (← value.eval s).toScalar ops
    let l ← (← low.eval s).toScalar ops
    let h ← (← high.eval s).toScalar ops
    .ok (.scalar (ops.min (ops.max v l) h))

end TensorKernels
