import TensorKernels.Kernel.Basic
import TensorKernels.Kernel.Eval

/-!
# Execution of kernels

`Stmt.exec` runs the statements of one invocation and `Kernel.dispatch` runs all invocations of a
kernel, one after the other. A store past the end of its buffer is dropped. Locals live in one flat
map: a declaration stays visible after its block and replaces an earlier one of the same name. When
an invocation stops with a fault, what it stored before stays.
-/

set_option autoImplicit false

namespace TensorKernels

/-- How a list of statements ends. -/
inductive Outcome (α : Type)
  /-- The statements ran to their end. -/
  | next (s : Invocation α)
  /-- The invocation returned. -/
  | returned (s : Invocation α)
  /-- The invocation stopped with a fault. -/
  | failed (fault : Fault) (s : Invocation α)

variable {α : Type} (ops : Arithmetic α)

namespace Outcome

/-- Goes on only where the statements ran to their end. -/
@[inline] def andThen (o : Outcome α) (f : Invocation α → Outcome α) : Outcome α :=
  match o with
  | .next s => f s
  | .returned s => .returned s
  | .failed fault s => .failed fault s

/-- A computation that can go on goes on. -/
@[simp] theorem andThen_next (s : Invocation α) (f : Invocation α → Outcome α) :
    (Outcome.next s).andThen f = f s := rfl

/-- A computation that has returned stays as it is. -/
@[simp] theorem andThen_returned (s : Invocation α) (f : Invocation α → Outcome α) :
    (Outcome.returned s).andThen f = .returned s := rfl

/-- A computation that has failed stays as it is. -/
@[simp] theorem andThen_failed (fault : Fault) (s : Invocation α) (f : Invocation α → Outcome α) :
    (Outcome.failed fault s).andThen f = .failed fault s := rfl

/-- The state in which the statements ended. -/
def state : Outcome α → Invocation α
  | .next s => s
  | .returned s => s
  | .failed _ s => s

/-- The fault, if there was one. -/
def fault? : Outcome α → Option Fault
  | .failed fault _ => some fault
  | _ => none

end Outcome

namespace Invocation

/-- The invocation with a local variable set. -/
def setLocal (s : Invocation α) (name : String) (v : Value α) : Invocation α :=
  { s with locals := s.locals.insert name v }

/-- The invocation with an element of an output written, if the element exists. -/
def write (s : Invocation α) (buffer : String) (i : Nat) (x : α) : Invocation α :=
  { s with outputs := s.outputs.modify buffer fun data => data.setIfInBounds i x }

/-- Runs `body` for each of `count` values of the loop variable from `k` on. -/
def iterate (var : String) (body : Invocation α → Outcome α) : Nat → Nat → Invocation α → Outcome α
  | 0, _, s => .next s
  | count + 1, k, s =>
    (body (s.setLocal var (.word (UInt32.ofNat k)))).andThen (iterate var body count (k + 1))

end Invocation

/-- The element and the value that a store writes. -/
def Expr.storeOperands (s : Invocation α) (position value : Expr) : Except Fault (UInt32 × α) := do
  let i ← (← position.eval ops s).toWord ops
  let x ← (← value.eval ops s).toScalar ops
  .ok (i, x)

/-- The truth value of a condition. -/
def Expr.evalCond (s : Invocation α) (cond : Expr) : Except Fault Bool := do
  (← cond.eval ops s).toTruth ops

mutual

/-- Runs one statement. -/
def Stmt.exec (s : Invocation α) : Stmt → Outcome α
  | .letDecl name value =>
    match value.eval ops s with
    | .ok v => .next (s.setLocal name v)
    | .error fault => .failed fault s
  | .varDecl name value =>
    match value.eval ops s with
    | .ok v => .next (s.setLocal name v)
    | .error fault => .failed fault s
  | .assign name value =>
    match value.eval ops s with
    | .ok v =>
      if s.locals.contains name then .next (s.setLocal name v) else .failed (.undeclared name) s
    | .error fault => .failed fault s
  | .store buffer position value =>
    match Expr.storeOperands ops s position value with
    | .ok (i, x) =>
      if s.outputs.contains buffer then .next (s.write buffer i.toNat x)
      else .failed (.unboundStore buffer) s
    | .error fault => .failed fault s
  | .forLoop var count body => Invocation.iterate var (fun s => Stmt.execBlock s body) count 0 s
  | .ifThen cond body =>
    match cond.evalCond ops s with
    | .ok true => Stmt.execBlock s body
    | .ok false => .next s
    | .error fault => .failed fault s
  | .ret => .returned s

/-- Runs statements from first to last. -/
def Stmt.execBlock (s : Invocation α) : List Stmt → Outcome α
  | [] => .next s
  | stmt :: rest => (stmt.exec s).andThen fun s => Stmt.execBlock s rest

end

namespace Kernel

/-- Runs the body of a kernel once, at the given index. -/
def invoke (body : List Stmt) (inputs outputs : Buffers α) (index : Nat) : Outcome α :=
  Stmt.execBlock ops ⟨UInt32.ofNat index, .empty, inputs, outputs⟩ body

/-- Runs the body at each of the given indices, up to the first fault. -/
def invokeAll (body : List Stmt) (inputs : Buffers α) :
    List Nat → Buffers α → Option Fault × Buffers α
  | [], outputs => (none, outputs)
  | index :: rest, outputs =>
    match invoke ops body inputs outputs index with
    | .failed fault s => (some fault, s.outputs)
    | .next s => invokeAll body inputs rest s.outputs
    | .returned s => invokeAll body inputs rest s.outputs

/-- The number of invocations: whole workgroups. -/
def invocations (k : Kernel) : Nat := k.workgroups.toNat * workgroupSize

/-- Runs all invocations of a kernel in ascending order. The outputs are returned with the fault of
the invocation that stopped, if any. -/
def dispatch (k : Kernel) (inputs outputs : Buffers α) : Option Fault × Buffers α :=
  invokeAll ops k.body inputs (List.range k.invocations) outputs

end Kernel

end TensorKernels
