import TensorKernels.Log
import TensorKernels.Node
import TensorKernels.Table

/-!
# Partition into contexts

A context collects the nodes that one kernel computes. A reduction always opens a context of its
own. Regular nodes of one stage and element count share a context, so every value that crosses from
one context to another goes from a lower stage to a higher one.
-/

set_option autoImplicit false

namespace TensorKernels

/-- The nodes that one kernel computes, and what is known about its buffers. -/
structure Context where
  id : Nat
  opClass : OpClass
  /-- The stage of all its nodes. -/
  stage : Nat
  /-- The number of elements of all its nodes. -/
  size : Nat
  nodes : List Nat
  inputs : Bindings
  /-- The shape behind each input. -/
  shapes : Table String Shape
  /-- The nodes that other contexts read, ascending. -/
  exports : List Nat

/-- All contexts, by number, and the regular ones that can be joined. -/
structure Partition where
  contexts : Array Context
  /-- The regular context of a stage and element count. -/
  regular : Table (Nat × Nat) Nat

/-- Inserts a number into an ascending list without repetition. -/
def insertAscending (n : Nat) : List Nat → List Nat
  | [] => [n]
  | m :: rest =>
    if n < m then n :: m :: rest else if n = m then m :: rest else m :: insertAscending n rest

namespace Context

/-- The name of the context's forward kernel. -/
def label (c : Context) : String := "forward_k" ++ toString c.id

/-- Whether the context has no nodes. -/
def isEmpty (c : Context) : Bool := c.nodes.isEmpty

/-- The shapes of the inputs, sorted by name. -/
def sortedShapes (c : Context) : List (String × Shape) :=
  c.shapes.entries.mergeSort fun a b => a.1 ≤ b.1

end Context

/-- How a node gets its context when it is reached from another one. -/
inductive ContextChoice
  /-- The current context fits. -/
  | stay
  /-- Another regular context fits. -/
  | join (id : Nat)
  /-- A new context is opened. -/
  | fresh
  deriving DecidableEq, Repr

namespace Partition

/-- No contexts. -/
def empty : Partition := ⟨#[], .empty⟩

/-- Opens a context. The first regular context of a stage and element count can be joined later. -/
def create (p : Partition) (opClass : OpClass) (stage size : Nat) : Nat × Partition :=
  let id := p.contexts.size
  let context : Context := ⟨id, opClass, stage, size, [], .empty, .empty, []⟩
  let joinable :=
    if opClass = .regular ∧ (p.regular.find? (stage, size)).isNone then
      p.regular.insert (stage, size) id
    else p.regular
  (id, ⟨p.contexts.push context, joinable⟩)

/-- The context for a node that is reached from `current`. A reduction does not look at `current`;
for a regular node it has to exist. -/
def choose (p : Partition) (current : Nat) (opClass : OpClass) (stage size : Nat) :
    Option ContextChoice :=
  match opClass with
  | .reduction => some .fresh
  | .regular =>
    (p.contexts[current]?).map fun here =>
      if here.opClass = .regular ∧ here.stage = stage ∧ here.size = size then .stay
      else
        match p.regular.find? (stage, size) with
        | some id => .join id
        | none => .fresh

/-- Carries a choice out. -/
def enter (p : Partition) (choice : ContextChoice) (current : Nat) (opClass : OpClass)
    (stage size : Nat) : Nat × Partition :=
  match choice with
  | .stay => (current, p)
  | .join id => (id, p)
  | .fresh => p.create opClass stage size

/-- The records of a choice that led to context `id`. -/
def choiceLog (choice : ContextChoice) (current id : Nat) (opClass : OpClass) (stage size : Nat) :
    Log :=
  match choice with
  | .stay => []
  | .join _ => [⟨.debug, "reusing context k" ++ toString id ++ " from k" ++ toString current⟩]
  | .fresh =>
    [⟨.debug, "opened " ++ opClass.name ++ " context k" ++ toString id ++ " (stage " ++
      toString stage ++ ", size " ++ toString size ++ ")"⟩]

/-- Adds a node to a context. -/
def pushNode (p : Partition) (context node : Nat) : Partition :=
  { p with contexts := p.contexts.modify context fun c => { c with nodes := c.nodes ++ [node] } }

/-- Contexts without nodes can no longer be joined. -/
def prune (p : Partition) : Partition :=
  let isOpen (e : (Nat × Nat) × Nat) : Bool := (p.contexts[e.2]?).all fun c => !c.isEmpty
  { p with regular := ⟨p.regular.entries.filter isOpen⟩ }

/-- The contexts that have nodes, by stage and then by number. -/
def linearize (p : Partition) : List Nat :=
  let before (a b : Context) : Bool := a.stage < b.stage || (a.stage = b.stage && a.id ≤ b.id)
  ((p.contexts.toList.filter fun c => !c.isEmpty).mergeSort before).map Context.id

/-- The last position of a number in a list. -/
def lastPosition (order : List Nat) (c : Nat) : Option Nat :=
  (order.reverse.findIdx? (· = c)).map fun i => order.length - 1 - i

/-- Whether a context comes before the context of one of its operands. -/
def readsLater (order : List Nat) (context : Nat) (producer : Option Nat) : Bool :=
  match producer.bind (lastPosition order), lastPosition order context with
  | some p, some c => c < p
  | some _, none => true
  | none, _ => false

/-- Checks that every operand comes from an earlier context in the order, or from the same one.
`home` gives the context of each node. -/
def verifyOrder (p : Partition) (nodes : Array Node) (home : Array (Option Nat))
    (order : List Nat) : Except Error Unit :=
  let orFail {β : Type} (x : Option β) : Except Error β := x.elim (.error .outOfRange) .ok
  order.forM fun context => do
    let c ← orFail p.contexts[context]?
    c.nodes.forM fun id => do
      let n ← orFail nodes[id]?
      n.operands.forM fun (operand, _) => do
        let producer ← orFail home[operand]?
        if readsLater order context producer then throw (.cyclicKernels context)

end Partition

end TensorKernels
