import TensorKernels.Error

/-!
# Declared tensors

A signature lists the tensors a program declares; the position of a declaration is the tensor's
number. Names are nonempty words of ASCII letters, digits and underscores, and no name is declared
twice.
-/

set_option autoImplicit false

namespace TensorKernels

/-- Whether a tensor is trained or fed from outside. -/
inductive TensorKind
  /-- Trainable; receives a gradient. -/
  | parameter
  /-- Fed from outside; never differentiated. -/
  | input
  deriving DecidableEq, Repr

/-- A declared tensor. -/
structure TensorDecl where
  name : String
  shape : Shape
  kind : TensorKind
  deriving DecidableEq, Repr

namespace TensorDecl

/-- The name of the tensor's buffer in kernels. -/
def bindingName (d : TensorDecl) : String :=
  match d.kind with
  | .parameter => "param_" ++ d.name
  | .input => "input_" ++ d.name

/-- The number of elements. -/
def size (d : TensorDecl) : Nat := d.shape.size

end TensorDecl

/-- Whether a character may stand in a tensor name: an ASCII letter or digit, or an underscore. -/
def isNameChar (c : Char) : Bool := c.isAlphanum || c = '_'

/-- Whether a string is a tensor name. -/
def isTensorName (name : String) : Bool := !name.isEmpty && name.toList.all isNameChar

/-- The declared tensors in order of declaration. -/
structure Signature where
  decls : List TensorDecl
  /-- Every name is well formed. -/
  valid : ∀ d ∈ decls, isTensorName d.name
  /-- No name is declared twice. -/
  nodup : (decls.map TensorDecl.name).Nodup
  /-- The elements of every tensor can be counted. -/
  countable : ∀ d ∈ decls, d.shape.isCountable

namespace Signature

/-- No tensors. -/
def empty : Signature := ⟨[], by simp, by simp, by simp⟩

/-- The number of tensors. -/
def size (s : Signature) : Nat := s.decls.length

/-- The declaration of a tensor. -/
def get? (s : Signature) (id : Nat) : Option TensorDecl := s.decls[id]?

/-- The declaration of a tensor, or the error that there is none. -/
def get (s : Signature) (id : Nat) : Except Error TensorDecl :=
  match s.get? id with
  | some d => .ok d
  | none => .error (.unknownTensor id)

/-- The data, if a tensor has as many elements. -/
def accept {α : Type} (s : Signature) (id : Nat) (data : Array α) : Except Error (Array α) :=
  match s.get id with
  | .error e => .error e
  | .ok d =>
    if data.size = d.size then .ok data else .error (.sizeMismatch d.name d.size data.size)

/-- The tensor of a name. -/
def find? (s : Signature) (name : String) : Option Nat := s.decls.findIdx? (·.name = name)

/-- Declares a tensor. A malformed name is reported before a repeated one, and both before elements
that cannot be counted. -/
def declare (s : Signature) (d : TensorDecl) : Except Error Signature :=
  if hv : isTensorName d.name then
    if hd : d.name ∈ s.decls.map TensorDecl.name then .error (.duplicateName d.name)
    else if hc : d.shape.isCountable then
      .ok
        { decls := s.decls ++ [d]
          valid := by
            intro e he
            rcases List.mem_append.1 he with h | h
            · exact s.valid e h
            · rw [List.mem_singleton.1 h]
              exact hv
          nodup := by
            rw [List.map_append, List.map_singleton, List.nodup_append]
            refine ⟨s.nodup, by simp, ?_⟩
            intro a ha b hb hab
            rw [List.mem_singleton] at hb
            exact hd (hb ▸ hab ▸ ha)
          countable := by
            intro e he
            rcases List.mem_append.1 he with h | h
            · exact s.countable e h
            · rw [List.mem_singleton.1 h]
              exact hc }
    else .error .overflow
  else .error (.invalidName d.name)

end Signature

end TensorKernels
