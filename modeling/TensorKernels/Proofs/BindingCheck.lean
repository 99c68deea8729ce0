import Mathlib.Data.String.Basic
import Mathlib.Order.Bounds.Basic
import TensorKernels.Proofs.Buffers

/-!
# The check of a kernel's bindings

`Expr.ReadsFrom`, `Stmt.ReadsFrom` and `Stmt.WritesTo` say where a buffer occurs in code: in an operand, in
an index, in the body of a loop or of a branch, whether or not it is ever executed. The lists that the check
goes through hold exactly these buffers (`Kernel.mem_loads_iff`, `Kernel.mem_stores_iff`), so a kernel passes
if and only if all of them are bound, and otherwise the least missing name is reported.

A kernel that passes keeps the bindings it touches. Two invocations that share the buffers under those names
(`Invocation.Shares`) run alike, whatever else is bound: one statement keeps them so (`Stmt.exec_shares`), and
by induction a whole dispatch does (`Kernel.invokeAll_shares`). No step misses a buffer.
-/

set_option autoImplicit false

namespace TensorKernels

/-! ## Where buffers occur -/

namespace Expr

/-- An element of the buffer is loaded somewhere in the expression. -/
inductive ReadsFrom (buffer : String) : Expr → Prop
  | load (position : Expr) : ReadsFrom buffer (.load buffer position)
  | position {other : String} {position : Expr} (h : ReadsFrom buffer position) :
      ReadsFrom buffer (.load other position)
  | operand {f : UnaryFn} {x : Expr} (h : ReadsFrom buffer x) : ReadsFrom buffer (.unary f x)
  | left {f : BinaryFn} {a b : Expr} (h : ReadsFrom buffer a) : ReadsFrom buffer (.binary f a b)
  | right {f : BinaryFn} {a b : Expr} (h : ReadsFrom buffer b) : ReadsFrom buffer (.binary f a b)
  | cond {c t e : Expr} (h : ReadsFrom buffer c) : ReadsFrom buffer (.select c t e)
  | onTrue {c t e : Expr} (h : ReadsFrom buffer t) : ReadsFrom buffer (.select c t e)
  | onFalse {c t e : Expr} (h : ReadsFrom buffer e) : ReadsFrom buffer (.select c t e)
  | value {v l h : Expr} (hv : ReadsFrom buffer v) : ReadsFrom buffer (.clamp v l h)
  | low {v l h : Expr} (hl : ReadsFrom buffer l) : ReadsFrom buffer (.clamp v l h)
  | high {v l h : Expr} (hh : ReadsFrom buffer h) : ReadsFrom buffer (.clamp v l h)

/-- The loads of an expression are the buffers that it reads. -/
theorem mem_loads_iff {buffer : String} {e : Expr} : buffer ∈ e.loads ↔ e.ReadsFrom buffer := by
  constructor
  · intro hmem
    induction e with
    | float x => cases hmem
    | word n => cases hmem
    | index => cases hmem
    | var name => cases hmem
    | load other position ih =>
      rcases List.mem_cons.1 hmem with rfl | hmem
      · exact .load position
      · exact .position (ih hmem)
    | unary f x ih => exact .operand (ih hmem)
    | binary f a b iha ihb =>
      rcases List.mem_append.1 hmem with hmem | hmem
      · exact .left (iha hmem)
      · exact .right (ihb hmem)
    | select c t e ihc iht ihe =>
      rcases List.mem_append.1 hmem with hmem | hmem
      · rcases List.mem_append.1 hmem with hmem | hmem
        · exact .cond (ihc hmem)
        · exact .onTrue (iht hmem)
      · exact .onFalse (ihe hmem)
    | clamp v l h ihv ihl ihh =>
      rcases List.mem_append.1 hmem with hmem | hmem
      · rcases List.mem_append.1 hmem with hmem | hmem
        · exact .value (ihv hmem)
        · exact .low (ihl hmem)
      · exact .high (ihh hmem)
  · intro h
    induction h <;> simp [loads, *]

end Expr

namespace Stmt

/-- An element of the buffer is loaded somewhere in the statement. -/
inductive ReadsFrom (buffer : String) : Stmt → Prop
  | letDecl {name : String} {value : Expr} (h : value.ReadsFrom buffer) :
      ReadsFrom buffer (.letDecl name value)
  | varDecl {name : String} {value : Expr} (h : value.ReadsFrom buffer) :
      ReadsFrom buffer (.varDecl name value)
  | assign {name : String} {value : Expr} (h : value.ReadsFrom buffer) :
      ReadsFrom buffer (.assign name value)
  | position {other : String} {position value : Expr} (h : position.ReadsFrom buffer) :
      ReadsFrom buffer (.store other position value)
  | value {other : String} {position value : Expr} (h : value.ReadsFrom buffer) :
      ReadsFrom buffer (.store other position value)
  | round {var : String} {count : Nat} {body : List Stmt} {stmt : Stmt} (hs : stmt ∈ body)
      (h : ReadsFrom buffer stmt) : ReadsFrom buffer (.forLoop var count body)
  | cond {cond : Expr} {body : List Stmt} (h : cond.ReadsFrom buffer) :
      ReadsFrom buffer (.ifThen cond body)
  | branch {cond : Expr} {body : List Stmt} {stmt : Stmt} (hs : stmt ∈ body)
      (h : ReadsFrom buffer stmt) : ReadsFrom buffer (.ifThen cond body)

/-- An element of the buffer is stored somewhere in the statement. -/
inductive WritesTo (buffer : String) : Stmt → Prop
  | store (position value : Expr) : WritesTo buffer (.store buffer position value)
  | round {var : String} {count : Nat} {body : List Stmt} {stmt : Stmt} (hs : stmt ∈ body)
      (h : WritesTo buffer stmt) : WritesTo buffer (.forLoop var count body)
  | branch {cond : Expr} {body : List Stmt} {stmt : Stmt} (hs : stmt ∈ body)
      (h : WritesTo buffer stmt) : WritesTo buffer (.ifThen cond body)

/-- A block loads what one of its statements loads. -/
theorem mem_blockLoads_of_mem {block : List Stmt} {stmt : Stmt} (hs : stmt ∈ block) {name : String}
    (h : name ∈ stmt.loads) : name ∈ blockLoads block := by
  have hflat : name ∈ blockLoads (block.flatMap fun s => [s]) :=
    mem_blockLoads_flatMap hs (List.mem_append_left _ h)
  rwa [List.flatMap_singleton'] at hflat

variable {buffer : String}

mutual

/-- What is among the loads of a statement, the statement reads. -/
theorem readsFrom_of_mem_loads (stmt : Stmt) (h : buffer ∈ stmt.loads) : stmt.ReadsFrom buffer := by
  match stmt with
  | .letDecl name value => exact .letDecl (Expr.mem_loads_iff.1 h)
  | .varDecl name value => exact .varDecl (Expr.mem_loads_iff.1 h)
  | .assign name value => exact .assign (Expr.mem_loads_iff.1 h)
  | .store other position value =>
    rcases List.mem_append.1 h with h | h
    · exact .position (Expr.mem_loads_iff.1 h)
    · exact .value (Expr.mem_loads_iff.1 h)
  | .forLoop var count body =>
    obtain ⟨stmt, hs, hreads⟩ := readsFrom_of_mem_blockLoads body h
    exact .round hs hreads
  | .ifThen cond body =>
    rcases List.mem_append.1 h with h | h
    · exact .cond (Expr.mem_loads_iff.1 h)
    · obtain ⟨stmt, hs, hreads⟩ := readsFrom_of_mem_blockLoads body h
      exact .branch hs hreads
  | .ret => cases h

/-- What is among the loads of a block, one of its statements reads. -/
theorem readsFrom_of_mem_blockLoads (block : List Stmt) (h : buffer ∈ blockLoads block) :
    ∃ stmt ∈ block, stmt.ReadsFrom buffer := by
  match block with
  | [] => cases h
  | stmt :: block =>
    rcases List.mem_append.1 h with h | h
    · exact ⟨stmt, List.mem_cons_self, readsFrom_of_mem_loads stmt h⟩
    · obtain ⟨stmt', hs, hreads⟩ := readsFrom_of_mem_blockLoads block h
      exact ⟨stmt', List.mem_cons_of_mem _ hs, hreads⟩

end

/-- What a statement reads is among its loads. -/
theorem ReadsFrom.mem_loads {stmt : Stmt} (h : stmt.ReadsFrom buffer) : buffer ∈ stmt.loads := by
  induction h with
  | letDecl h => exact Expr.mem_loads_iff.2 h
  | varDecl h => exact Expr.mem_loads_iff.2 h
  | assign h => exact Expr.mem_loads_iff.2 h
  | position h => exact List.mem_append_left _ (Expr.mem_loads_iff.2 h)
  | value h => exact List.mem_append_right _ (Expr.mem_loads_iff.2 h)
  | round hs _ ih => exact mem_blockLoads_of_mem hs ih
  | cond h => exact List.mem_append_left _ (Expr.mem_loads_iff.2 h)
  | branch hs _ ih => exact List.mem_append_right _ (mem_blockLoads_of_mem hs ih)

mutual

/-- What is among the stores of a statement, the statement writes. -/
theorem writesTo_of_mem_stores (stmt : Stmt) (h : buffer ∈ stmt.stores) : stmt.WritesTo buffer := by
  match stmt with
  | .letDecl name value => cases h
  | .varDecl name value => cases h
  | .assign name value => cases h
  | .store other position value =>
    obtain rfl := List.mem_singleton.1 h
    exact .store position value
  | .forLoop var count body =>
    obtain ⟨stmt, hs, hwrites⟩ := writesTo_of_mem_blockStores body h
    exact .round hs hwrites
  | .ifThen cond body =>
    obtain ⟨stmt, hs, hwrites⟩ := writesTo_of_mem_blockStores body h
    exact .branch hs hwrites
  | .ret => cases h

/-- What is among the stores of a block, one of its statements writes. -/
theorem writesTo_of_mem_blockStores (block : List Stmt) (h : buffer ∈ blockStores block) :
    ∃ stmt ∈ block, stmt.WritesTo buffer := by
  match block with
  | [] => cases h
  | stmt :: block =>
    rcases List.mem_append.1 h with h | h
    · exact ⟨stmt, List.mem_cons_self, writesTo_of_mem_stores stmt h⟩
    · obtain ⟨stmt', hs, hwrites⟩ := writesTo_of_mem_blockStores block h
      exact ⟨stmt', List.mem_cons_of_mem _ hs, hwrites⟩

end

/-- What a statement writes is among its stores. -/
theorem WritesTo.mem_stores {stmt : Stmt} (h : stmt.WritesTo buffer) : buffer ∈ stmt.stores := by
  induction h with
  | store position value => exact List.mem_singleton.2 rfl
  | round hs _ ih => exact mem_blockStores_of_mem hs ih
  | branch hs _ ih => exact mem_blockStores_of_mem hs ih

end Stmt

namespace Kernel

/-- The buffer is loaded somewhere in the body. -/
def Reads (k : Kernel) (buffer : String) : Prop := ∃ stmt ∈ k.body, stmt.ReadsFrom buffer

/-- The buffer is stored to somewhere in the body. -/
def Writes (k : Kernel) (buffer : String) : Prop := ∃ stmt ∈ k.body, stmt.WritesTo buffer

/-- The loads of a kernel are the buffers that its body reads. -/
theorem mem_loads_iff {k : Kernel} {buffer : String} : buffer ∈ k.loads ↔ k.Reads buffer := by
  constructor
  · exact Stmt.readsFrom_of_mem_blockLoads k.body
  · rintro ⟨stmt, hs, h⟩
    exact Stmt.mem_blockLoads_of_mem hs h.mem_loads

/-- The stores of a kernel are the buffers that its body writes. -/
theorem mem_stores_iff {k : Kernel} {buffer : String} : buffer ∈ k.stores ↔ k.Writes buffer := by
  constructor
  · exact Stmt.writesTo_of_mem_blockStores k.body
  · rintro ⟨stmt, hs, h⟩
    exact Stmt.mem_blockStores_of_mem hs h.mem_stores

end Kernel

/-! ## What the check says -/

/-- The least string of a list is a member, and no member comes before it. -/
theorem isLeast_of_leastString {l : List String} {s : String} (h : leastString l = some s) :
    IsLeast {t | t ∈ l} s := by
  induction l generalizing s with
  | nil => cases h
  | cons t l ih =>
    unfold leastString at h
    cases hl : leastString l with
    | none =>
      simp only [hl, Option.some.injEq] at h
      subst h
      rw [leastString_eq_none] at hl
      subst hl
      exact ⟨List.mem_cons_self, fun u hu => le_of_eq (List.mem_singleton.1 hu).symm⟩
    | some u =>
      obtain ⟨hmem, hlow⟩ := ih hl
      simp only [hl] at h
      split at h
      · next hlt =>
        obtain rfl := Option.some.inj h
        refine ⟨List.mem_cons_of_mem _ hmem, ?_⟩
        intro v hv
        rcases List.mem_cons.1 hv with rfl | hv
        · exact le_of_lt hlt
        · exact hlow hv
      · next hlt =>
        obtain rfl := Option.some.inj h
        refine ⟨List.mem_cons_self, ?_⟩
        intro v hv
        rcases List.mem_cons.1 hv with rfl | hv
        · exact le_refl v
        · exact le_trans (not_lt.1 hlt) (hlow hv)

namespace Kernel

variable {k : Kernel}

/-- The names that are used without a binding. -/
theorem missing_eq (used : List String) (bs : Bindings) :
    {t | t ∈ used.filter fun name => !bs.contains name} = {t | t ∈ used ∧ t ∉ bs.names} := by
  ext t
  simp [← Bindings.contains_iff]

/-- No input is missing exactly if every buffer that is read is bound. -/
theorem missingLoad_eq_none : k.missingLoad = none ↔ ∀ b, k.Reads b → b ∈ k.inputs.names := by
  rw [missingLoad, leastString_eq_none, List.filter_eq_nil_iff]
  simp [mem_loads_iff, Bindings.contains_iff]

/-- No output is missing exactly if every buffer that is written is bound. -/
theorem missingStore_eq_none : k.missingStore = none ↔ ∀ b, k.Writes b → b ∈ k.outputs.names := by
  rw [missingStore, leastString_eq_none, List.filter_eq_nil_iff]
  simp [mem_stores_iff, Bindings.contains_iff]

/-- The missing input that is reported is the least one. -/
theorem isLeast_of_missingLoad {name : String} (h : k.missingLoad = some name) :
    IsLeast {b | k.Reads b ∧ b ∉ k.inputs.names} name := by
  have hleast := isLeast_of_leastString h
  rw [missing_eq] at hleast
  simpa only [mem_loads_iff] using hleast

/-- The missing output that is reported is the least one. -/
theorem isLeast_of_missingStore {name : String} (h : k.missingStore = some name) :
    IsLeast {b | k.Writes b ∧ b ∉ k.outputs.names} name := by
  have hleast := isLeast_of_leastString h
  rw [missing_eq] at hleast
  simpa only [mem_stores_iff] using hleast

/-- A kernel is refused for the least buffer that it reads without a binding, then for the least that it
writes without one, or it loses the bindings that it does not touch. -/
theorem checked_cases (k : Kernel) :
    (∃ name, k.checked = .error (.unboundBuffer k.label name) ∧
      (IsLeast {b | k.Reads b ∧ b ∉ k.inputs.names} name ∨
        (∀ b, k.Reads b → b ∈ k.inputs.names) ∧
          IsLeast {b | k.Writes b ∧ b ∉ k.outputs.names} name)) ∨
    (k.checked = .ok k.trimmed ∧ (∀ b, k.Reads b → b ∈ k.inputs.names) ∧
      ∀ b, k.Writes b → b ∈ k.outputs.names) := by
  unfold checked
  cases hl : k.missingLoad with
  | some name => exact .inl ⟨name, rfl, .inl (isLeast_of_missingLoad hl)⟩
  | none =>
    have hreads := missingLoad_eq_none.1 hl
    cases hs : k.missingStore with
    | some name => exact .inl ⟨name, rfl, .inr ⟨hreads, isLeast_of_missingStore hs⟩⟩
    | none => exact .inr ⟨rfl, hreads, missingStore_eq_none.1 hs⟩

end Kernel

/-! ## Faults of evaluation -/

/-- The fault of a buffer that is not bound. -/
def Fault.Unbound : Fault → Prop
  | .unboundLoad _ => True
  | .unboundStore _ => True
  | _ => False

/-- If the computation stops, then not for want of a buffer. -/
def FindsBuffers {β : Type} (r : Except Fault β) : Prop := ∀ fault, r = .error fault → ¬ fault.Unbound

namespace FindsBuffers

/-- A result is no missing buffer. -/
theorem ok {β : Type} (b : β) : FindsBuffers (.ok b) := by
  rintro _ ⟨⟩

/-- A chain of computations misses no buffer if none of them does. -/
theorem bind {β γ : Type} {r : Except Fault β} {f : β → Except Fault γ} (hr : FindsBuffers r)
    (hf : ∀ b, FindsBuffers (f b)) : FindsBuffers (r >>= f) := by
  cases r with
  | error fault =>
    rintro _ ⟨⟩
    exact hr fault rfl
  | ok b => exact hf b

variable {α : Type} (ops : Arithmetic α)

/-- Reading a value as a scalar misses no buffer. -/
theorem toScalar (v : Value α) : FindsBuffers (v.toScalar ops) := by
  cases v with
  | scalar x => exact .ok x
  | word n => rintro _ ⟨⟩ ⟨⟩
  | truth b => rintro _ ⟨⟩ ⟨⟩

/-- Reading a value as a word misses no buffer. -/
theorem toWord (v : Value α) : FindsBuffers (v.toWord ops) := by
  cases v with
  | word n => exact .ok n
  | scalar x => rintro _ ⟨⟩ ⟨⟩
  | truth b => rintro _ ⟨⟩ ⟨⟩

/-- Reading a value as a truth value misses no buffer. -/
theorem toTruth (v : Value α) : FindsBuffers (v.toTruth ops) := by
  cases v with
  | truth b => exact .ok b
  | scalar x => rintro _ ⟨⟩ ⟨⟩
  | word n => rintro _ ⟨⟩ ⟨⟩

/-- Applying an operator misses no buffer. -/
theorem apply (f : BinaryFn) (v w : Value α) : FindsBuffers (f.apply ops v w) := by
  unfold BinaryFn.apply
  split
  · exact .ok _
  · exact .ok _
  · rintro _ ⟨⟩ ⟨⟩

/-- Evaluation finds its buffers where everything that is loaded is bound. -/
theorem eval {s : Invocation α} (e : Expr) (h : ∀ b ∈ e.loads, (s.buffer? b).isSome) :
    FindsBuffers (e.eval ops s) := by
  induction e with
  | float x => exact .ok _
  | word n => exact .ok _
  | index => exact .ok _
  | var name =>
    unfold Expr.eval
    split
    · exact .ok _
    · rintro _ ⟨⟩ ⟨⟩
  | load buffer position ih =>
    refine (ih fun b hb => h b (List.mem_cons_of_mem _ hb)).bind fun v => (toWord ops v).bind fun i => ?_
    obtain ⟨data, hdata⟩ := Option.isSome_iff_exists.1 (h buffer List.mem_cons_self)
    rw [hdata]
    exact .ok _
  | unary f x ih => exact (ih h).bind fun v => (toScalar ops v).bind fun x => .ok _
  | binary f a b iha ihb =>
    exact (iha fun n hn => h n (List.mem_append_left _ hn)).bind fun v =>
      (ihb fun n hn => h n (List.mem_append_right _ hn)).bind fun w => apply ops f v w
  | select c x y ihc ihx ihy =>
    simp only [Expr.loads, List.mem_append] at h
    refine (ihc fun n hn => h n (.inl (.inl hn))).bind fun v => (toTruth ops v).bind fun t => ?_
    cases t with
    | true => exact ihx fun n hn => h n (.inl (.inr hn))
    | false => exact ihy fun n hn => h n (.inr hn)
  | clamp v l u ihv ihl ihu =>
    simp only [Expr.loads, List.mem_append] at h
    exact (ihv fun n hn => h n (.inl (.inl hn))).bind fun x => (toScalar ops x).bind fun x =>
      (ihl fun n hn => h n (.inl (.inr hn))).bind fun y => (toScalar ops y).bind fun y =>
        (ihu fun n hn => h n (.inr hn)).bind fun z => (toScalar ops z).bind fun z => .ok _

end FindsBuffers

/-! ## Sharing what is touched -/

variable {α : Type}

/-- Both tables have the same buffer under each of the names. -/
def Buffers.Share (names : List String) (a b : Buffers α) : Prop :=
  ∀ name ∈ names, ∃ data, a.find? name = some data ∧ b.find? name = some data

/-- Both invocations are at the same point and have the same buffers to read and to write. -/
structure Invocation.Shares (reads writes : List String) (s t : Invocation α) : Prop where
  index : t.index = s.index
  locals : t.locals = s.locals
  inputs : Buffers.Share reads s.inputs t.inputs
  outputs : Buffers.Share writes s.outputs t.outputs

namespace Invocation.Shares

variable {reads writes : List String} {s t : Invocation α}

/-- Two invocations that share buffers still do after both set one local. -/
theorem setLocal (h : Shares reads writes s t) (name : String) (v : Value α) :
    Shares reads writes (s.setLocal name v) (t.setLocal name v) := by
  refine ⟨h.index, ?_, h.inputs, h.outputs⟩
  show t.locals.insert name v = s.locals.insert name v
  rw [h.locals]

/-- Two invocations that share buffers still do after both write one element. -/
theorem write (h : Shares reads writes s t) (buffer : String) (i : Nat) (x : α) :
    Shares reads writes (s.write buffer i x) (t.write buffer i x) := by
  refine ⟨h.index, h.locals, h.inputs, ?_⟩
  intro name hname
  obtain ⟨data, hs, ht⟩ := h.outputs name hname
  rw [find?_write, find?_write, hs, ht]
  split
  · exact ⟨_, rfl, rfl⟩
  · exact ⟨_, rfl, rfl⟩

/-- A buffer that the body may write exists on both sides. -/
theorem contains_eq (h : Shares reads writes s t) {name : String} (hname : name ∈ writes) :
    s.outputs.contains name = true ∧ t.outputs.contains name = true := by
  obtain ⟨data, hs, ht⟩ := h.outputs name hname
  simp [Table.contains, hs, ht]

variable (ops : Arithmetic α)

/-- An expression has the same value in both, or the same fault, which is not that of a missing buffer. -/
theorem eval_eq (h : Shares reads writes s t) {e : Expr} (he : e.loads ⊆ reads) :
    e.eval ops t = e.eval ops s ∧ FindsBuffers (e.eval ops s) := by
  refine ⟨e.eval_congr ops h.index (fun name _ => by rw [h.locals]) ?_, .eval ops e ?_⟩
  · intro b hb
    obtain ⟨data, hs, ht⟩ := h.inputs b (he hb)
    rw [buffer?_eq_of_input hs, buffer?_eq_of_input ht]
  · intro b hb
    obtain ⟨data, hs, -⟩ := h.inputs b (he hb)
    rw [buffer?_eq_of_input hs]
    rfl

/-- Position and value of a store are the same on both sides, and no buffer is missing. -/
theorem storeOperands_eq (h : Shares reads writes s t) {position value : Expr}
    (hp : position.loads ⊆ reads) (hv : value.loads ⊆ reads) :
    Expr.storeOperands ops t position value = Expr.storeOperands ops s position value ∧
      FindsBuffers (Expr.storeOperands ops s position value) := by
  obtain ⟨hpeq, hpfinds⟩ := h.eval_eq ops hp
  obtain ⟨hveq, hvfinds⟩ := h.eval_eq ops hv
  refine ⟨by rw [Expr.storeOperands, Expr.storeOperands, hpeq, hveq], ?_⟩
  exact hpfinds.bind fun v => (FindsBuffers.toWord ops v).bind fun i =>
    hvfinds.bind fun w => (FindsBuffers.toScalar ops w).bind fun x => .ok _

/-- A condition has the same value on both sides, and no buffer is missing. -/
theorem evalCond_eq (h : Shares reads writes s t) {cond : Expr} (hc : cond.loads ⊆ reads) :
    cond.evalCond ops t = cond.evalCond ops s ∧ FindsBuffers (cond.evalCond ops s) := by
  obtain ⟨heq, hfinds⟩ := h.eval_eq ops hc
  exact ⟨by rw [Expr.evalCond, Expr.evalCond, heq], hfinds.bind fun v => FindsBuffers.toTruth ops v⟩

end Invocation.Shares

/-- Both end alike in related states, and not for want of a buffer. -/
inductive Outcome.Paired (P : Invocation α → Invocation α → Prop) : Outcome α → Outcome α → Prop
  | next {s t : Invocation α} (h : P s t) : Paired P (.next s) (.next t)
  | returned {s t : Invocation α} (h : P s t) : Paired P (.returned s) (.returned t)
  | failed {fault : Fault} {s t : Invocation α} (hfault : ¬ fault.Unbound) (h : P s t) :
      Paired P (.failed fault s) (.failed fault t)

/-- Paired outcomes stay paired when both sides go on in the same way. -/
theorem Outcome.Paired.andThen {P : Invocation α → Invocation α → Prop} {o o' : Outcome α}
    (h : Paired P o o') {f g : Invocation α → Outcome α} (hfg : ∀ s t, P s t → Paired P (f s) (g t)) :
    Paired P (o.andThen f) (o'.andThen g) := by
  cases h with
  | next h => exact hfg _ _ h
  | returned h => exact .returned h
  | failed hfault h => exact .failed hfault h

/-- Loops with paired bodies have paired outcomes. -/
theorem Invocation.iterate_shares {reads writes : List String} {var : String}
    {body body' : Invocation α → Outcome α}
    (hbody : ∀ s t, Shares reads writes s t → Outcome.Paired (Shares reads writes) (body s) (body' t))
    (count k : Nat) {s t : Invocation α} (h : Shares reads writes s t) :
    Outcome.Paired (Shares reads writes) (iterate var body count k s) (iterate var body' count k t) := by
  induction count generalizing k s t with
  | zero => exact .next h
  | succ count ih =>
    exact (hbody _ _ (h.setLocal var (.word (UInt32.ofNat k)))).andThen fun s t hst => ih (k + 1) hst

namespace Stmt

variable (ops : Arithmetic α) {reads writes : List String}

mutual

/-- A statement that touches only shared buffers does the same in both invocations. -/
theorem exec_shares {s t : Invocation α} (stmt : Stmt) (hreads : stmt.loads ⊆ reads)
    (hwrites : stmt.stores ⊆ writes) (h : Invocation.Shares reads writes s t) :
    Outcome.Paired (Invocation.Shares reads writes) (stmt.exec ops s) (stmt.exec ops t) := by
  match stmt with
  | .letDecl name value =>
    obtain ⟨heq, hfinds⟩ := h.eval_eq ops hreads
    rw [exec, exec, heq]
    cases hv : value.eval ops s with
    | ok v => exact .next (h.setLocal name v)
    | error fault => exact .failed (hfinds fault hv) h
  | .varDecl name value =>
    obtain ⟨heq, hfinds⟩ := h.eval_eq ops hreads
    rw [exec, exec, heq]
    cases hv : value.eval ops s with
    | ok v => exact .next (h.setLocal name v)
    | error fault => exact .failed (hfinds fault hv) h
  | .assign name value =>
    obtain ⟨heq, hfinds⟩ := h.eval_eq ops hreads
    rw [exec, exec, heq, h.locals]
    cases hv : value.eval ops s with
    | ok v =>
      dsimp only
      split
      · exact .next (h.setLocal name v)
      · exact .failed (fun hfault => hfault) h
    | error fault => exact .failed (hfinds fault hv) h
  | .store buffer position value =>
    have hp : position.loads ⊆ reads := fun b hb => hreads (List.mem_append_left _ hb)
    have hv : value.loads ⊆ reads := fun b hb => hreads (List.mem_append_right _ hb)
    obtain ⟨heq, hfinds⟩ := h.storeOperands_eq ops hp hv
    obtain ⟨hs, ht⟩ := h.contains_eq (hwrites (List.mem_singleton.2 rfl))
    rw [exec, exec, heq]
    cases hv : Expr.storeOperands ops s position value with
    | ok ix =>
      simp only [hs, ht, if_true]
      exact .next (h.write buffer ix.1.toNat ix.2)
    | error fault => exact .failed (hfinds fault hv) h
  | .forLoop var count body =>
    rw [exec, exec]
    exact Invocation.iterate_shares (fun s t hst => execBlock_shares body hreads hwrites hst) count 0 h
  | .ifThen cond body =>
    have hc : cond.loads ⊆ reads := fun b hb => hreads (List.mem_append_left _ hb)
    have hb : blockLoads body ⊆ reads := fun b hb => hreads (List.mem_append_right _ hb)
    obtain ⟨heq, hfinds⟩ := h.evalCond_eq ops hc
    rw [exec, exec, heq]
    cases hv : cond.evalCond ops s with
    | error fault => exact .failed (hfinds fault hv) h
    | ok c =>
      cases c with
      | false => exact .next h
      | true => exact execBlock_shares body hb hwrites h
  | .ret => exact .returned h

/-- A block that touches only shared buffers does the same in both invocations. -/
theorem execBlock_shares {s t : Invocation α} (block : List Stmt) (hreads : blockLoads block ⊆ reads)
    (hwrites : blockStores block ⊆ writes) (h : Invocation.Shares reads writes s t) :
    Outcome.Paired (Invocation.Shares reads writes) (execBlock ops s block) (execBlock ops t block) := by
  match block with
  | [] => exact .next h
  | stmt :: block =>
    rw [execBlock_cons, execBlock_cons]
    refine (exec_shares stmt (fun b hb => hreads (List.mem_append_left _ hb))
      (fun b hb => hwrites (List.mem_append_left _ hb)) h).andThen fun s t hst => ?_
    exact execBlock_shares block (fun b hb => hreads (List.mem_append_right _ hb))
      (fun b hb => hwrites (List.mem_append_right _ hb)) hst

end

end Stmt

namespace Kernel

variable (ops : Arithmetic α) {reads writes : List String}

/-- Invocations one after the other, on buffers that share what the body touches: both runs stop with the
same fault, if any, and leave the same buffers where they share them. -/
theorem invokeAll_shares {body : List Stmt} (hreads : Stmt.blockLoads body ⊆ reads)
    (hwrites : Stmt.blockStores body ⊆ writes) {inputs inputs' : Buffers α}
    (hinputs : Buffers.Share reads inputs inputs') (indices : List Nat) {outputs outputs' : Buffers α}
    (houtputs : Buffers.Share writes outputs outputs') :
    (invokeAll ops body inputs' indices outputs').1 = (invokeAll ops body inputs indices outputs).1 ∧
      (∀ fault, (invokeAll ops body inputs indices outputs).1 = some fault → ¬ fault.Unbound) ∧
      Buffers.Share writes (invokeAll ops body inputs indices outputs).2
        (invokeAll ops body inputs' indices outputs').2 := by
  induction indices generalizing outputs outputs' with
  | nil => exact ⟨rfl, by rintro _ ⟨⟩, houtputs⟩
  | cons index indices ih =>
    have hstart : Invocation.Shares reads writes
        (⟨UInt32.ofNat index, .empty, inputs, outputs⟩ : Invocation α)
        ⟨UInt32.ofNat index, .empty, inputs', outputs'⟩ := ⟨rfl, rfl, hinputs, houtputs⟩
    have hpaired := Stmt.execBlock_shares ops body hreads hwrites hstart
    simp only [invokeAll, invoke]
    revert hpaired
    generalize Stmt.execBlock ops ⟨UInt32.ofNat index, .empty, inputs, outputs⟩ body = o
    generalize Stmt.execBlock ops ⟨UInt32.ofNat index, .empty, inputs', outputs'⟩ body = o'
    intro hpaired
    cases hpaired with
    | next h => exact ih h.outputs
    | returned h => exact ih h.outputs
    | failed hfault h =>
      refine ⟨rfl, ?_, h.outputs⟩
      intro fault hf
      obtain rfl := Option.some.inj hf
      exact hfault

end Kernel

/-- A kernel passes its check if and only if every buffer that its body reads anywhere is an input and every
buffer that it writes anywhere is an output. A kernel that fails is refused for the least missing buffer that
it reads, or for the least missing one that it writes if nothing that it reads is missing. One that passes
keeps its label, size and body, and of its bindings, in order, exactly those that the body touches. On any
buffers for the bindings it keeps it never misses a buffer; whatever else is bound, such as buffers for the
dropped bindings, it stops with the same fault, if any, and leaves the same in the outputs it keeps. -/
theorem check_exact_and_sound (k : Kernel) :
    ((∃ k', k.checked = .ok k') ↔
      (∀ b, k.Reads b → b ∈ k.inputs.names) ∧ ∀ b, k.Writes b → b ∈ k.outputs.names) ∧
    (∀ e, k.checked = .error e → ∃ name, e = .unboundBuffer k.label name ∧
      (IsLeast {b | k.Reads b ∧ b ∉ k.inputs.names} name ∨
        (∀ b, k.Reads b → b ∈ k.inputs.names) ∧ IsLeast {b | k.Writes b ∧ b ∉ k.outputs.names} name)) ∧
    ∀ k', k.checked = .ok k' →
      (k'.label = k.label ∧ k'.size = k.size ∧ k'.body = k.body) ∧
      (k'.inputs.entries.Sublist k.inputs.entries ∧
        ∀ b, b ∈ k'.inputs.entries ↔ b ∈ k.inputs.entries ∧ k.Reads b.name) ∧
      (k'.outputs.entries.Sublist k.outputs.entries ∧
        ∀ b, b ∈ k'.outputs.entries ↔ b ∈ k.outputs.entries ∧ k.Writes b.name) ∧
      ∀ (α : Type) (ops : Arithmetic α) (inputs outputs inputs' outputs' : Buffers α),
        Buffers.Share k'.inputs.names inputs inputs' → Buffers.Share k'.outputs.names outputs outputs' →
        (k'.dispatch ops inputs' outputs').1 = (k.dispatch ops inputs outputs).1 ∧
        (∀ fault, (k'.dispatch ops inputs' outputs').1 = some fault → ¬ fault.Unbound) ∧
        Buffers.Share k'.outputs.names (k.dispatch ops inputs outputs).2
          (k'.dispatch ops inputs' outputs').2 := by
  rcases k.checked_cases with ⟨name, herror, hleast⟩ | ⟨hok, hreads, hwrites⟩
  · rw [herror]
    refine ⟨⟨?_, ?_⟩, ?_, ?_⟩
    · rintro ⟨_, ⟨⟩⟩
    · rintro ⟨hreads, hwrites⟩
      rcases hleast with hleast | ⟨-, hleast⟩
      · exact absurd (hreads name hleast.1.1) hleast.1.2
      · exact absurd (hwrites name hleast.1.1) hleast.1.2
    · rintro e ⟨⟩
      exact ⟨name, rfl, hleast⟩
    · rintro _ ⟨⟩
  · rw [hok]
    refine ⟨⟨fun _ => ⟨hreads, hwrites⟩, fun _ => ⟨_, rfl⟩⟩, ?_, ?_⟩
    · rintro _ ⟨⟩
    · rintro k' ⟨⟩
      refine ⟨⟨rfl, rfl, rfl⟩, ⟨List.filter_sublist, ?_⟩, ⟨List.filter_sublist, ?_⟩, ?_⟩
      · intro b
        rw [Kernel.mem_trimmed_inputs, Kernel.mem_loads_iff]
      · intro b
        rw [Kernel.mem_trimmed_outputs, Kernel.mem_stores_iff]
      · intro α ops inputs outputs inputs' outputs' hinputs houtputs
        have hkept := Kernel.loads_subset_trimmed fun b hb => hreads b (Kernel.mem_loads_iff.1 hb)
        have hkept' := Kernel.stores_subset_trimmed fun b hb => hwrites b (Kernel.mem_stores_iff.1 hb)
        obtain ⟨hfault, hbound, hfinal⟩ := Kernel.invokeAll_shares ops hkept hkept' hinputs
          (List.range k.invocations) houtputs
        exact ⟨hfault, fun fault h => hbound fault (hfault.symm.trans h), hfinal⟩

/-- A kernel that reads one of its inputs only in a loop without rounds, and has bindings to spare. -/
def relayKernel : Kernel where
  label := "relay"
  size := 2
  inputs := .registerAll .empty [⟨"x", 2, .tensor 0⟩, ⟨"spare", 2, .ownBuffer⟩, ⟨"y", 2, .tensor 1⟩]
  outputs := .registerAll .empty [⟨"unused_output", 2, .ownBuffer⟩, ⟨"z_output", 2, .ownBuffer⟩]
  body :=
    [ .boundsGuard 2,
      .forLoop "k" 0 [.letDecl "u" (.load "y" .index)],
      .store "z_output" .index (.load "x" (.ofNat 1 - .index)) ]

/-- The kernel keeps the input of the loop, and needs no buffers for what it drops. -/
theorem relay_check_sound :
    ∃ k', relayKernel.checked = .ok k' ∧ k'.inputs.names = ["x", "y"] ∧ k'.outputs.names = ["z_output"] ∧
      (k'.dispatch .binary32 (.ofList [("x", #[1.0, 2.0]), ("y", #[])]) (.ofList [("z_output", #[0.0, 0.0])])).1 =
        (relayKernel.dispatch .binary32 (.ofList [("x", #[1.0, 2.0]), ("spare", #[3.0]), ("y", #[])])
          (.ofList [("unused_output", #[4.0]), ("z_output", #[0.0, 0.0])])).1 ∧
      Buffers.Share ["z_output"]
        (relayKernel.dispatch .binary32 (.ofList [("x", #[1.0, 2.0]), ("spare", #[3.0]), ("y", #[])])
          (.ofList [("unused_output", #[4.0]), ("z_output", #[0.0, 0.0])])).2
        (k'.dispatch .binary32 (.ofList [("x", #[1.0, 2.0]), ("y", #[])])
          (.ofList [("z_output", #[0.0, 0.0])])).2 := by
  have hchecked : relayKernel.checked = .ok relayKernel.trimmed :=
    Kernel.checked_eq_ok (by decide) (by decide)
  have hinputs : relayKernel.trimmed.inputs.names = ["x", "y"] := by decide
  have houtputs : relayKernel.trimmed.outputs.names = ["z_output"] := by decide
  obtain ⟨-, -, -, hrun⟩ := (check_exact_and_sound relayKernel).2.2 _ hchecked
  obtain ⟨hfault, -, hfinal⟩ := hrun Float32 .binary32
    (.ofList [("x", #[1.0, 2.0]), ("spare", #[3.0]), ("y", #[])])
    (.ofList [("unused_output", #[4.0]), ("z_output", #[0.0, 0.0])])
    (.ofList [("x", #[1.0, 2.0]), ("y", #[])]) (.ofList [("z_output", #[0.0, 0.0])])
    (by
      rw [hinputs]
      intro name hname
      simp only [List.mem_cons, List.not_mem_nil, or_false] at hname
      rcases hname with rfl | rfl
      · exact ⟨_, rfl, rfl⟩
      · exact ⟨_, rfl, rfl⟩)
    (by
      rw [houtputs]
      intro name hname
      obtain rfl := List.mem_singleton.1 hname
      exact ⟨_, rfl, rfl⟩)
  exact ⟨_, hchecked, hinputs, houtputs, hfault, houtputs ▸ hfinal⟩

end TensorKernels
