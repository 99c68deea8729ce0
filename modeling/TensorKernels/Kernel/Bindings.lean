/-!
# Bindings

A kernel names its buffers through bindings. `Bindings` is a list of them without repeated names;
the position of a binding is its slot. Registering a name that is already there changes nothing.
-/

set_option autoImplicit false

namespace TensorKernels

/-- Where the buffer behind a binding comes from. -/
inductive BufferSource
  /-- A parameter or input, shared by all kernels. -/
  | tensor (id : Nat)
  /-- A dropout mask. -/
  | mask (index : Nat)
  /-- Owned by the kernel: an output, or an input that a copy fills. -/
  | ownBuffer
  deriving DecidableEq, Repr

/-- A buffer as a kernel sees it. -/
structure Binding where
  name : String
  /-- The number of elements. -/
  len : Nat
  source : BufferSource
  deriving DecidableEq, Repr

/-- Bindings with distinct names, in slot order. -/
structure Bindings where
  entries : List Binding
  nodup : (entries.map Binding.name).Nodup := by simp
  deriving DecidableEq, Repr

namespace Bindings

/-- No bindings. -/
def empty : Bindings := ⟨[], by simp⟩

/-- The names in slot order. -/
def names (bs : Bindings) : List String := bs.entries.map Binding.name

/-- Whether a name is bound. -/
def contains (bs : Bindings) (name : String) : Bool := bs.entries.any (·.name = name)

/-- The slot of a name. -/
def slot? (bs : Bindings) (name : String) : Option Nat := bs.entries.findIdx? (·.name = name)

/-- The binding of a name. -/
def get? (bs : Bindings) (name : String) : Option Binding := bs.entries.find? (·.name = name)

/-- The number of bindings. -/
def size (bs : Bindings) : Nat := bs.entries.length

/-- Whether nothing is bound. -/
def isEmpty (bs : Bindings) : Bool := bs.entries.isEmpty

/-- A name is bound if it is among the names. -/
theorem contains_iff (bs : Bindings) (name : String) : bs.contains name ↔ name ∈ bs.names := by
  simp [contains, names]

/-- Adds a binding at the next slot unless its name is bound already. -/
def register (bs : Bindings) (b : Binding) : Bindings :=
  if h : bs.contains b.name then bs
  else
    { entries := bs.entries ++ [b]
      nodup := by
        have hn : b.name ∉ bs.names := fun hm => h ((contains_iff bs b.name).2 hm)
        rw [List.map_append, List.map_singleton, List.nodup_append]
        refine ⟨bs.nodup, by simp, ?_⟩
        intro a ha c hc hac
        rw [List.mem_singleton] at hc
        exact hn (hc ▸ hac ▸ ha) }

/-- The empty bindings have no names. -/
@[simp] theorem names_empty : empty.names = [] := rfl

/-- Registering adds a name at the end, unless it is there already. -/
theorem names_register (bs : Bindings) (b : Binding) :
    (bs.register b).names = if b.name ∈ bs.names then bs.names else bs.names ++ [b.name] := by
  by_cases h : b.name ∈ bs.names
  · simp [register, (contains_iff bs b.name).2 h, h]
  · have hc : ¬ bs.contains b.name := fun hc => h ((contains_iff bs b.name).1 hc)
    simp [register, hc, names] at h ⊢
    simpa using h

/-- Registers a list of bindings in order. -/
def registerAll (bs : Bindings) (l : List Binding) : Bindings := l.foldl register bs

/-- The bindings that satisfy `keep`, in the same order. -/
def filter (bs : Bindings) (keep : Binding → Bool) : Bindings :=
  { entries := bs.entries.filter keep
    nodup := bs.nodup.sublist ((List.filter_sublist).map _) }

end Bindings

end TensorKernels
