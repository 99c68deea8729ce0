import TensorKernels.Session

/-!
# Commands

A `Command` is one operation on a session, and `Command.exec` carries it out. Scripts of commands
are what statements about all histories of a session quantify over.
-/

set_option autoImplicit false

namespace TensorKernels

/-- An operation on a session. -/
inductive Command (α : Type)
  | declare (d : TensorDecl)
  | set (id : Nat) (data : Array α)
  | init (id : Nat) (i : Initializer α)
  | compile (root : Term) (shape : Shape)
  | output (root : Term)
  | run
  | infer
  | learn (id : Nat) (rate : α)
  | learnAll (rate : α)

/-- The answer to a command. -/
inductive Reply (α : Type)
  | done
  | declared (id : Nat)
  | shape (s : Shape)
  | trained (r : TrainingRun α)
  | inferred (output : Array α)

variable {α : Type} (ops : Arithmetic α)

/-- Carries a command out. -/
def Command.exec : Command α → SessionM α (Reply α)
  | .declare d => return .declared (← Session.declare ops d)
  | .set id data => do
    Session.setTensor id data
    return .done
  | .init id i => do
    Session.initTensor ops id i
    return .done
  | .compile root shape => do
    Session.compileTerm ops root shape
    return .done
  | .output root => return .shape (← Session.compileOutput ops root)
  | .run => return .trained (← Session.run ops)
  | .infer => return .inferred (← Session.infer ops)
  | .learn id rate => do
    Session.learn ops id rate
    return .done
  | .learnAll rate => do
    Session.learnAll ops rate
    return .done

/-- Carries commands out one after the other, whether or not they fail, and collects the answers. -/
def Session.script : List (Command α) → Session α → List (Except Error (Reply α)) × Session α
  | [], s => ([], s)
  | c :: rest, s =>
    let (answer, s) : Except Error (Reply α) × Session α :=
      match c.exec ops s with
      | .ok r s => (.ok r, s)
      | .error e s => (.error e, s)
    let (answers, s) := Session.script rest s
    (answer :: answers, s)

end TensorKernels
