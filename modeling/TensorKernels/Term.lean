import TensorKernels.Operator.Basic

/-!
# Tensor terms

A term is a symbolic tensor expression over constants and declared tensors. Every application of an
operator is a call site with a number of its own. Using one application twice means using the same
site twice, so sharing is part of the term: two applications that look alike but were written
separately have different sites.
-/

set_option autoImplicit false

namespace TensorKernels

/-- A symbolic tensor expression. -/
inductive Term
  | constant (value : Float32)
  /-- A declared tensor. -/
  | tensor (id : Nat)
  /-- An operator applied to arguments, at a call site. -/
  | apply (site : Nat) (op : Op) (args : List Term)
  deriving Repr

namespace Term

/-- The call site of an application. -/
def site? : Term → Option Nat
  | .apply site _ _ => some site
  | _ => none

/-- The operator of an application. -/
def op? : Term → Option Op
  | .apply _ op _ => some op
  | _ => none

end Term

end TensorKernels
