import TensorKernels.Kernel.Expr

/-!
# Kernel statements

A kernel body is a list of statements that every invocation executes from the top until it ends or
returns. `Stmt.blockText` writes a block in WGSL, and `Stmt.blockLoads` and `Stmt.blockStores` list
the buffers that occur in it, whether or not the statement is ever executed.
-/

set_option autoImplicit false

namespace TensorKernels

/-- A statement of a kernel body. -/
inductive Stmt
  /-- An immutable local. -/
  | letDecl (name : String) (value : Expr)
  /-- A mutable local. -/
  | varDecl (name : String) (value : Expr)
  | assign (name : String) (value : Expr)
  | store (buffer : String) (position value : Expr)
  /-- Runs the body with the loop variable at `0`, `1`, up to `count - 1`. -/
  | forLoop (var : String) (count : Nat) (body : List Stmt)
  | ifThen (cond : Expr) (body : List Stmt)
  | ret
  deriving Repr

namespace Stmt

/-- `name = name + value`. -/
def accumulate (name : String) (value : Expr) : Stmt := .assign name (.var name + value)

/-- Ends the invocations past the last element. -/
def boundsGuard (size : Nat) : Stmt := .ifThen (Expr.index.ge (.ofNat size)) [.ret]

/-- The indentation of a block. -/
def indent (depth : Nat) : String := String.join (List.replicate depth "    ")

mutual

/-- The WGSL text of a statement, ending in a line break. -/
def text (depth : Nat) : Stmt → String
  | .letDecl name value => indent depth ++ "let " ++ name ++ " = " ++ value.text ++ ";\n"
  | .varDecl name value => indent depth ++ "var " ++ name ++ " = " ++ value.text ++ ";\n"
  | .assign name value => indent depth ++ name ++ " = " ++ value.text ++ ";\n"
  | .store buffer i value =>
    indent depth ++ buffer ++ "[" ++ i.text ++ "] = " ++ value.text ++ ";\n"
  | .forLoop var count body =>
    indent depth ++ "for (var " ++ var ++ " = 0u; " ++ var ++ " < " ++ toString count ++ "u; " ++
      var ++ " = " ++ var ++ " + 1u) \x7b\n" ++ blockText (depth + 1) body ++ indent depth ++ "\x7d\n"
  | .ifThen cond body =>
    indent depth ++ "if " ++ cond.text ++ " \x7b\n" ++ blockText (depth + 1) body ++
      indent depth ++ "\x7d\n"
  | .ret => indent depth ++ "return;\n"

/-- The WGSL text of a block. -/
def blockText (depth : Nat) : List Stmt → String
  | [] => ""
  | s :: rest => s.text depth ++ blockText depth rest

end

mutual

/-- The buffers a statement reads. -/
def loads : Stmt → List String
  | .letDecl _ value => value.loads
  | .varDecl _ value => value.loads
  | .assign _ value => value.loads
  | .store _ i value => i.loads ++ value.loads
  | .forLoop _ _ body => blockLoads body
  | .ifThen cond body => cond.loads ++ blockLoads body
  | .ret => []

/-- The buffers a block reads. -/
def blockLoads : List Stmt → List String
  | [] => []
  | s :: rest => s.loads ++ blockLoads rest

end

mutual

/-- The buffers a statement writes. -/
def stores : Stmt → List String
  | .letDecl _ _ => []
  | .varDecl _ _ => []
  | .assign _ _ => []
  | .store buffer _ _ => [buffer]
  | .forLoop _ _ body => blockStores body
  | .ifThen _ body => blockStores body
  | .ret => []

/-- The buffers a block writes. -/
def blockStores : List Stmt → List String
  | [] => []
  | s :: rest => s.stores ++ blockStores rest

end

end Stmt

end TensorKernels
