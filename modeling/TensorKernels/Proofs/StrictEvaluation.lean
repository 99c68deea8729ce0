import TensorKernels.Proofs.Evaluation
import TensorKernels.Proofs.Names

/-!
# Strict evaluation

The language gives every index expression a value: words wrap around, a load past the end reads zero,
a store past the end is dropped, a zero divisor has a result of its own, and a literal that does not fit
into a word is cut off. Strict evaluation has none of these rules. It gives no result, `none`, where one
of them would be needed (`Expr.evalStrict`, `Stmt.execStrict`), so code whose strict execution is its
execution computes with exact numbers and touches existing elements only.

The proofs about generated code use `Stmt.Safely`: a block is executed strictly, and what is claimed of
its end holds if it gets there. Index expressions are tracked with their values (`Expr.Yields`); of a
formula on scalars it is enough that its loads are in range (`Expr.Plain`).
-/

set_option autoImplicit false

namespace TensorKernels

variable {α : Type} (ops : Arithmetic α)

/-! ## Strict evaluation -/

/-- A result, a fault, or nothing where a rule for what is out of range would be needed. -/
abbrev Strict (β : Type) := ExceptT Fault Option β

/-- A function of two words that has its exact value: it does not wrap around and divides by no
zero. -/
def BinaryFn.Exact (a b : UInt32) : BinaryFn → Prop
  | .add => a.toNat + b.toNat < 2 ^ 32
  | .sub => b.toNat ≤ a.toNat
  | .mul => a.toNat * b.toNat < 2 ^ 32
  | .div => b ≠ 0
  | .rem => b ≠ 0
  | .max => True
  | .lt => True
  | .gt => True
  | .ge => True

instance (a b : UInt32) (f : BinaryFn) : Decidable (f.Exact a b) :=
  match f with
  | .add => inferInstanceAs (Decidable (_ < _))
  | .sub => inferInstanceAs (Decidable (_ ≤ _))
  | .mul => inferInstanceAs (Decidable (_ < _))
  | .div => inferInstanceAs (Decidable (_ ≠ _))
  | .rem => inferInstanceAs (Decidable (_ ≠ _))
  | .max => inferInstanceAs (Decidable True)
  | .lt => inferInstanceAs (Decidable True)
  | .gt => inferInstanceAs (Decidable True)
  | .ge => inferInstanceAs (Decidable True)

/-- A function of two values, of words only where it is exact. -/
def BinaryFn.applyStrict (f : BinaryFn) : Value α → Value α → Strict (Value α)
  | .word a, .word b => ExceptT.mk (if f.Exact a b then some (.ok (f.onWords a b)) else none)
  | v, w => ExceptT.mk (some (f.apply ops v w))

/-- The element of a buffer, if it exists. -/
def Invocation.loadStrict (s : Invocation α) (buffer : String) (i : Nat) : Strict (Value α) :=
  ExceptT.mk
    (match s.buffer? buffer with
    | some data => if h : i < data.size then some (.ok (.scalar data[i])) else none
    | none => some (.error (.unboundLoad buffer)))

/-- The value of an expression without rules for what is out of range. -/
def Expr.evalStrict (s : Invocation α) : Expr → Strict (Value α)
  | .float x => pure (.scalar (ops.lit x))
  | .word n => ExceptT.mk (if n < 2 ^ 32 then some (.ok (.word (UInt32.ofNat n))) else none)
  | .index => pure (.word s.index)
  | .var name =>
    match s.locals.find? name with
    | some v => pure v
    | none => throw (.unknownVariable name)
  | .load buffer position => do
    let i ← ExceptT.mk (some ((← position.evalStrict s).toWord ops))
    s.loadStrict buffer i.toNat
  | .unary f x => do
    let v ← ExceptT.mk (some ((← x.evalStrict s).toScalar ops))
    pure (.scalar (f.apply ops v))
  | .binary f a b => do
    let v ← a.evalStrict s
    let w ← b.evalStrict s
    f.applyStrict ops v w
  | .select cond onTrue onFalse => do
    let c ← ExceptT.mk (some ((← cond.evalStrict s).toTruth ops))
    if c then onTrue.evalStrict s else onFalse.evalStrict s
  | .clamp value low high => do
    let v ← ExceptT.mk (some ((← value.evalStrict s).toScalar ops))
    let l ← ExceptT.mk (some ((← low.evalStrict s).toScalar ops))
    let h ← ExceptT.mk (some ((← high.evalStrict s).toScalar ops))
    pure (.scalar (ops.min (ops.max v l) h))

/-! ## Strict execution -/

/-- Goes on where the statements ran to their end. -/
def Strict.andThen (o : Option (Outcome α)) (f : Invocation α → Option (Outcome α)) :
    Option (Outcome α) :=
  match o with
  | none => none
  | some (.next s) => f s
  | some (.returned s) => some (.returned s)
  | some (.failed fault s) => some (.failed fault s)

/-- Goes on with the value of an expression. -/
def Strict.outcome {β : Type} (s : Invocation α) (x : Strict β) (f : β → Option (Outcome α)) :
    Option (Outcome α) :=
  match x.run with
  | none => none
  | some (.ok v) => f v
  | some (.error fault) => some (.failed fault s)

/-- Runs a loop whose counter has to fit into a word. -/
def Invocation.iterateStrict (var : String) (body : Invocation α → Option (Outcome α)) :
    Nat → Nat → Invocation α → Option (Outcome α)
  | 0, _, s => some (.next s)
  | count + 1, k, s =>
    if k < 2 ^ 32 then
      Strict.andThen (body (s.setLocal var (.word (UInt32.ofNat k)))) (iterateStrict var body count (k + 1))
    else none

/-- Writes an element of an output, which has to exist. -/
def Invocation.storeStrict (s : Invocation α) (buffer : String) (i : Nat) (x : α) :
    Option (Outcome α) :=
  match s.outputs.find? buffer with
  | some data => if i < data.size then some (.next (s.write buffer i x)) else none
  | none => some (.failed (.unboundStore buffer) s)

mutual

/-- Runs one statement without rules for what is out of range. -/
def Stmt.execStrict (s : Invocation α) : Stmt → Option (Outcome α)
  | .letDecl name value =>
    Strict.outcome s (value.evalStrict ops s) fun v => some (.next (s.setLocal name v))
  | .varDecl name value =>
    Strict.outcome s (value.evalStrict ops s) fun v => some (.next (s.setLocal name v))
  | .assign name value =>
    Strict.outcome s (value.evalStrict ops s) fun v =>
      if s.locals.contains name then some (.next (s.setLocal name v))
      else some (.failed (.undeclared name) s)
  | .store buffer position value =>
    Strict.outcome s (position.evalStrict ops s >>= fun v => ExceptT.mk (some (v.toWord ops))) fun i =>
      Strict.outcome s (value.evalStrict ops s >>= fun v => ExceptT.mk (some (v.toScalar ops))) fun x =>
        s.storeStrict buffer i.toNat x
  | .forLoop var count body =>
    Invocation.iterateStrict var (fun s => Stmt.execBlockStrict s body) count 0 s
  | .ifThen cond body =>
    Strict.outcome s (cond.evalStrict ops s >>= fun v => ExceptT.mk (some (v.toTruth ops))) fun c =>
      if c then Stmt.execBlockStrict s body else some (.next s)
  | .ret => some (.returned s)

/-- Runs statements from first to last without rules for what is out of range. -/
def Stmt.execBlockStrict (s : Invocation α) : List Stmt → Option (Outcome α)
  | [] => some (.next s)
  | stmt :: rest => Strict.andThen (stmt.execStrict s) fun s => Stmt.execBlockStrict s rest

end

/-- Runs the body of a kernel once, at an index that has to fit into a word. -/
def Kernel.invokeStrict (body : List Stmt) (inputs outputs : Buffers α) (index : Nat) :
    Option (Outcome α) :=
  if index < 2 ^ 32 then
    Stmt.execBlockStrict ops ⟨UInt32.ofNat index, .empty, inputs, outputs⟩ body
  else none

/-- Runs the body at each of the given indices without rules for what is out of range. -/
def Kernel.invokeAllStrict (body : List Stmt) (inputs : Buffers α) :
    List Nat → Buffers α → Option (Option Fault × Buffers α)
  | [], outputs => some (none, outputs)
  | index :: rest, outputs =>
    match Kernel.invokeStrict ops body inputs outputs index with
    | none => none
    | some (.failed fault s) => some (some fault, s.outputs)
    | some (.next s) => Kernel.invokeAllStrict body inputs rest s.outputs
    | some (.returned s) => Kernel.invokeAllStrict body inputs rest s.outputs

/-- Runs all invocations of a kernel without rules for what is out of range. -/
def Kernel.dispatchStrict (k : Kernel) (inputs outputs : Buffers α) :
    Option (Option Fault × Buffers α) :=
  Kernel.invokeAllStrict ops k.body inputs (List.range k.invocations) outputs

/-! ## Exact expressions -/

/-- Strict evaluation step by step. -/
theorem Strict.bind_eq {β γ : Type} {x : Strict β} {r : Except Fault β} {f : β → Strict γ}
    {g : β → Except Fault γ} (hx : x = ExceptT.mk (some r))
    (hf : ∀ v, r = .ok v → f v = ExceptT.mk (some (g v))) :
    (x >>= f) = ExceptT.mk (some (r >>= g)) := by
  subst hx
  cases r with
  | error fault => rfl
  | ok v => exact hf v rfl

/-- Strict evaluation depends on what evaluation depends on. -/
theorem Expr.evalStrict_congr {s t : Invocation α} (e : Expr) (hindex : t.index = s.index)
    (hlocals : ∀ name ∈ e.vars, t.locals.find? name = s.locals.find? name)
    (hbuffers : ∀ b ∈ e.loads, t.buffer? b = s.buffer? b) : e.evalStrict ops t = e.evalStrict ops s := by
  induction e with
  | float x => rfl
  | word n => rfl
  | index => simp [evalStrict, hindex]
  | var name => simp [evalStrict, hlocals name (by simp [vars])]
  | load buffer position ih =>
    simp only [vars, loads, List.mem_cons] at hlocals hbuffers
    simp only [evalStrict, ih hlocals fun b hb => hbuffers b (.inr hb), Invocation.loadStrict,
      hbuffers buffer (.inl rfl)]
  | unary f x ih => simp only [evalStrict, ih hlocals hbuffers]
  | binary f a b iha ihb =>
    simp only [vars, loads, List.mem_append] at hlocals hbuffers
    simp only [evalStrict, iha (fun n hn => hlocals n (.inl hn)) fun n hn => hbuffers n (.inl hn),
      ihb (fun n hn => hlocals n (.inr hn)) fun n hn => hbuffers n (.inr hn)]
  | select c x y ihc ihx ihy =>
    simp only [vars, loads, List.mem_append] at hlocals hbuffers
    simp only [evalStrict,
      ihc (fun n hn => hlocals n (.inl (.inl hn))) fun n hn => hbuffers n (.inl (.inl hn)),
      ihx (fun n hn => hlocals n (.inl (.inr hn))) fun n hn => hbuffers n (.inl (.inr hn)),
      ihy (fun n hn => hlocals n (.inr hn)) fun n hn => hbuffers n (.inr hn)]
  | clamp v l h ihv ihl ihh =>
    simp only [vars, loads, List.mem_append] at hlocals hbuffers
    simp only [evalStrict,
      ihv (fun n hn => hlocals n (.inl (.inl hn))) fun n hn => hbuffers n (.inl (.inl hn)),
      ihl (fun n hn => hlocals n (.inl (.inr hn))) fun n hn => hbuffers n (.inl (.inr hn)),
      ihh (fun n hn => hlocals n (.inr hn)) fun n hn => hbuffers n (.inr hn)]

/-- The expression is evaluated without rules for what is out of range. -/
def Expr.Exact (s : Invocation α) (e : Expr) : Prop :=
  e.evalStrict ops s = ExceptT.mk (some (e.eval ops s))

namespace Expr.Exact

variable {ops} {s : Invocation α} {a b c : Expr}

/-- Literals are exact. -/
theorem float (x : Float32) : (Expr.float x).Exact ops s := rfl

/-- The index is exact. -/
theorem index : Expr.index.Exact ops s := rfl

/-- Counts below `2 ^ 32` are exact. -/
theorem ofNat {n : Nat} (h : n < 2 ^ 32) : (Expr.ofNat n).Exact ops s := by
  unfold Exact Expr.ofNat evalStrict
  rw [if_pos h]
  rfl

/-- Locals are exact. -/
theorem var (name : String) : (Expr.var name).Exact ops s := by
  unfold Exact evalStrict eval
  cases s.locals.find? name <;> rfl

/-- A load is exact if its position is, and lies inside of the buffer. -/
theorem load {buffer : String} (ha : a.Exact ops s)
    (h : ∀ i data, a.eval ops s = .ok (.word i) → s.buffer? buffer = some data → i.toNat < data.size) :
    (Expr.load buffer a).Exact ops s := by
  unfold Exact evalStrict eval
  refine Strict.bind_eq ha fun v hv => Strict.bind_eq rfl fun i hi => ?_
  have hword : v = .word i := by
    cases v <;> simp_all [Value.toWord]
  unfold Invocation.loadStrict
  cases hdata : s.buffer? buffer with
  | none => rfl
  | some data =>
    have hlt := h i data (hword ▸ hv) hdata
    simp [hlt, Array.getD]

/-- Functions of one operand are exact if the operand is. -/
theorem unary (f : UnaryFn) (ha : a.Exact ops s) : (Expr.unary f a).Exact ops s := by
  unfold Exact evalStrict eval
  exact Strict.bind_eq ha fun v _ => Strict.bind_eq rfl fun x _ => rfl

/-- A function of two operands is exact if both are, and it is exact on words. -/
theorem binary {f : BinaryFn} (ha : a.Exact ops s) (hb : b.Exact ops s)
    (h : ∀ i j, a.eval ops s = .ok (.word i) → b.eval ops s = .ok (.word j) → f.Exact i j) :
    (Expr.binary f a b).Exact ops s := by
  unfold Exact evalStrict eval
  refine Strict.bind_eq ha fun v hv => Strict.bind_eq hb fun w hw => ?_
  unfold BinaryFn.applyStrict
  split
  · next i j =>
    rw [if_pos (h i j hv hw)]
    rfl
  · rfl

/-- A selection is exact if its parts are. -/
theorem select (hc : c.Exact ops s) (ha : a.Exact ops s) (hb : b.Exact ops s) :
    (Expr.select c a b).Exact ops s := by
  unfold Exact evalStrict eval
  refine Strict.bind_eq hc fun v _ => Strict.bind_eq rfl fun t _ => ?_
  cases t
  · exact hb
  · exact ha

/-- A clamped value is exact if its parts are. -/
theorem clamp (ha : a.Exact ops s) (hb : b.Exact ops s) (hc : c.Exact ops s) :
    (Expr.clamp a b c).Exact ops s := by
  unfold Exact evalStrict eval
  exact Strict.bind_eq ha fun _ _ => Strict.bind_eq rfl fun _ _ => Strict.bind_eq hb fun _ _ =>
    Strict.bind_eq rfl fun _ _ => Strict.bind_eq hc fun _ _ => Strict.bind_eq rfl fun _ _ => rfl

end Expr.Exact

/-! ## Index expressions -/

/-- The expression is exact and has a number as its value. -/
structure Expr.Yields (s : Invocation α) (e : Expr) (n : Nat) : Prop where
  exact : e.Exact ops s
  eval : e.eval ops s = .ok (.word (UInt32.ofNat n))
  lt : n < 2 ^ 32

namespace Expr.Yields

variable {ops} {s : Invocation α} {a b : Expr} {m n : Nat}

/-- A count below `2 ^ 32` yields itself. -/
theorem ofNat (h : n < 2 ^ 32) : (Expr.ofNat n).Yields ops s n := ⟨.ofNat h, eval_ofNat ops n, h⟩

/-- The index yields the number of the invocation. -/
theorem index (hs : s.index = UInt32.ofNat n) (h : n < 2 ^ 32) : Expr.index.Yields ops s n :=
  ⟨.index, eval_index ops hs, h⟩

/-- A local that holds a word yields it. -/
theorem var {name : String} (hs : s.locals.find? name = some (.word (UInt32.ofNat n)))
    (h : n < 2 ^ 32) : (Expr.var name).Yields ops s n :=
  ⟨.var name, eval_var ops hs, h⟩

/-- The words that exact operands evaluate to. -/
theorem binary {f : BinaryFn} (ha : a.Yields ops s m) (hb : b.Yields ops s n)
    (h : f.Exact (UInt32.ofNat m) (UInt32.ofNat n)) : (Expr.binary f a b).Exact ops s := by
  refine .binary ha.exact hb.exact fun i j hi hj => ?_
  rw [ha.eval] at hi
  rw [hb.eval] at hj
  cases hi
  cases hj
  exact h

/-- A sum yields the sum if it does not wrap around. -/
theorem add (ha : a.Yields ops s m) (hb : b.Yields ops s n) (h : m + n < 2 ^ 32) :
    (a + b).Yields ops s (m + n) := by
  refine ⟨ha.binary hb ?_, eval_add_word ops ha.eval hb.eval, h⟩
  show (UInt32.ofNat m).toNat + (UInt32.ofNat n).toNat < 2 ^ 32
  rwa [UInt32.toNat_ofNat_of_lt' ha.lt, UInt32.toNat_ofNat_of_lt' hb.lt]

/-- A product yields the product if it does not wrap around. -/
theorem mul (ha : a.Yields ops s m) (hb : b.Yields ops s n) (h : m * n < 2 ^ 32) :
    (a * b).Yields ops s (m * n) := by
  refine ⟨ha.binary hb ?_, eval_mul_word ops ha.eval hb.eval, h⟩
  show (UInt32.ofNat m).toNat * (UInt32.ofNat n).toNat < 2 ^ 32
  rwa [UInt32.toNat_ofNat_of_lt' ha.lt, UInt32.toNat_ofNat_of_lt' hb.lt]

/-- A quotient yields the quotient if it divides by no zero. -/
theorem div (ha : a.Yields ops s m) (hb : b.Yields ops s n) (h : 0 < n) :
    (a / b).Yields ops s (m / n) :=
  ⟨ha.binary hb (ofNat_ne_zero hb.lt h), eval_div_word ops ha.lt hb.lt h ha.eval hb.eval,
    Nat.lt_of_le_of_lt (Nat.div_le_self m n) ha.lt⟩

/-- A remainder yields the remainder if it divides by no zero. -/
theorem mod (ha : a.Yields ops s m) (hb : b.Yields ops s n) (h : 0 < n) :
    (a % b).Yields ops s (m % n) :=
  ⟨ha.binary hb (ofNat_ne_zero hb.lt h), eval_mod_word ops ha.lt hb.lt h ha.eval hb.eval,
    Nat.lt_of_le_of_lt (Nat.mod_le m n) ha.lt⟩

/-- A row and a column of a matrix. -/
theorem rowMajor {c : Expr} {i k rows cols : Nat} (ha : a.Yields ops s i) (hb : b.Yields ops s cols)
    (hc : c.Yields ops s k) (hi : i < rows) (hk : k < cols) (hsize : rows * cols < 2 ^ 32) :
    (a * b + c).Yields ops s (i * cols + k) := by
  have hlt : i * cols + k < rows * cols := row_add_lt hi hk
  exact (ha.mul hb (by omega)).add hc (by omega)

/-- An index expression has its value wherever its locals have theirs. -/
theorem of_frame {sets : List String} {t : Invocation α} (ha : a.Yields ops s m)
    (hframe : Invocation.Frame sets [] s t) (hvars : ∀ x ∈ a.vars, x ∉ sets) :
    a.Yields ops t m := by
  have hlocals : ∀ x ∈ a.vars, t.locals.find? x = s.locals.find? x :=
    fun x hx => hframe.locals x (hvars x hx)
  refine ⟨?_, ?_, ha.lt⟩
  · unfold Exact
    rw [a.evalStrict_congr ops hframe.index hlocals fun b _ => hframe.buffer?_eq b,
      a.eval_congr ops hframe.index hlocals fun b _ => hframe.buffer?_eq b]
    exact ha.exact
  · rw [Expr.eval_of_frame ops hframe a hvars, ha.eval]

end Expr.Yields

/-! ## Formulas on scalars -/

/-- No local whose name tells a scalar holds a word. -/
def Invocation.Tame (s : Invocation α) : Prop :=
  ∀ name i, localKind name = .scalar → s.locals.find? name ≠ some (.word i)

/-- A formula of scalars in which every load is exact. -/
def Expr.Plain (s : Invocation α) : Expr → Prop
  | .float _ => True
  | .word _ => False
  | .index => False
  | .var name => localKind name = .scalar
  | .load buffer position => (Expr.load buffer position).Exact ops s
  | .unary _ x => Plain s x
  | .binary _ a b => Plain s a ∧ Plain s b
  | .select c a b => Plain s c ∧ Plain s a ∧ Plain s b
  | .clamp v l h => Plain s v ∧ Plain s l ∧ Plain s h

/-- A chain that succeeds has succeeded at its first step. -/
theorem Except.exists_of_bind_eq_ok {ε β γ : Type} {x : Except ε β} {f : β → Except ε γ} {c : γ}
    (h : (x >>= f) = .ok c) : ∃ v, x = .ok v ∧ f v = .ok c := by
  cases x with
  | error e => cases h
  | ok v => exact ⟨v, rfl, h⟩

namespace Expr.Plain

variable {ops} {s : Invocation α}

/-- The value of a formula is no word. -/
theorem not_word (hs : s.Tame) {e : Expr} (h : e.Plain ops s) (i : UInt32) :
    e.eval ops s ≠ .ok (.word i) := by
  induction e generalizing i with
  | float x => simp [eval]
  | word n => exact h.elim
  | index => exact h.elim
  | var name =>
    unfold eval
    cases hv : s.locals.find? name with
    | none => simp
    | some v =>
      intro heq
      cases heq
      exact hs name i h hv
  | load buffer position _ =>
    intro heq
    obtain ⟨v, -, heq⟩ := Except.exists_of_bind_eq_ok heq
    obtain ⟨j, -, heq⟩ := Except.exists_of_bind_eq_ok heq
    split at heq <;> cases heq
  | unary f x _ =>
    intro heq
    obtain ⟨v, -, heq⟩ := Except.exists_of_bind_eq_ok heq
    obtain ⟨j, -, heq⟩ := Except.exists_of_bind_eq_ok heq
    cases heq
  | binary f a b iha ihb =>
    intro heq
    obtain ⟨v, hv, heq⟩ := Except.exists_of_bind_eq_ok heq
    obtain ⟨w, hw, heq⟩ := Except.exists_of_bind_eq_ok heq
    -- only words give words
    cases v with
    | word n => exact iha h.1 n hv
    | truth c => cases w <;> cases heq
    | scalar x =>
      cases w with
      | word n => cases heq
      | truth c => cases heq
      | scalar y => cases f <;> cases heq
  | select c a b _ iha ihb =>
    intro heq
    obtain ⟨v, -, heq⟩ := Except.exists_of_bind_eq_ok heq
    obtain ⟨t, -, heq⟩ := Except.exists_of_bind_eq_ok heq
    cases t with
    | true => exact iha h.2.1 i heq
    | false => exact ihb h.2.2 i heq
  | clamp v l u _ _ _ =>
    intro heq
    obtain ⟨_, -, heq⟩ := Except.exists_of_bind_eq_ok heq
    obtain ⟨_, -, heq⟩ := Except.exists_of_bind_eq_ok heq
    obtain ⟨_, -, heq⟩ := Except.exists_of_bind_eq_ok heq
    obtain ⟨_, -, heq⟩ := Except.exists_of_bind_eq_ok heq
    obtain ⟨_, -, heq⟩ := Except.exists_of_bind_eq_ok heq
    obtain ⟨_, -, heq⟩ := Except.exists_of_bind_eq_ok heq
    cases heq

/-- A formula is exact. -/
theorem exact (hs : s.Tame) {e : Expr} (h : e.Plain ops s) : e.Exact ops s := by
  induction e with
  | float x => exact .float x
  | word n => exact h.elim
  | index => exact h.elim
  | var name => exact .var name
  | load buffer position _ => exact h
  | unary f x ih => exact .unary f (ih h)
  | binary f a b iha ihb =>
    refine .binary (iha h.1) (ihb h.2) fun i j hi _ => absurd hi (h.1.not_word hs i)
  | select c a b ihc iha ihb => exact .select (ihc h.1) (iha h.2.1) (ihb h.2.2)
  | clamp v l u ihv ihl ihu => exact .clamp (ihv h.1) (ihl h.2.1) (ihu h.2.2)

end Expr.Plain

/-! ## Safe blocks -/

namespace Strict

variable {o : Option (Outcome α)} {p : Outcome α} {s : Invocation α}

/-- A strict computation followed by strict ones is the plain one. -/
theorem andThen_eq {f : Invocation α → Option (Outcome α)} {g : Invocation α → Outcome α}
    (ho : o = some p) (hfg : ∀ t, p = .next t → f t = some (g t)) :
    andThen o f = some (p.andThen g) := by
  subst ho
  cases p with
  | next t => exact hfg t rfl
  | returned t => rfl
  | failed fault t => rfl

end Strict

/-- Strict execution of two blocks one after the other. -/
theorem Stmt.execBlockStrict_append (s : Invocation α) (a b : List Stmt) :
    Stmt.execBlockStrict ops s (a ++ b) =
      Strict.andThen (Stmt.execBlockStrict ops s a) fun t => Stmt.execBlockStrict ops t b := by
  induction a generalizing s with
  | nil => rfl
  | cons stmt a ih =>
    rw [List.cons_append, execBlockStrict, execBlockStrict]
    rcases stmt.execStrict ops s with _ | _ | _ | _
    · rfl
    · exact ih _
    · rfl
    · rfl

/-- The block is executed without rules for what is out of range, and if it runs to its end, `Q` holds
there. -/
def Stmt.Safely (s : Invocation α) (block : List Stmt) (Q : Invocation α → Prop) : Prop :=
  Stmt.execBlockStrict ops s block = some (Stmt.execBlock ops s block) ∧
    ∀ t, Stmt.execBlock ops s block = .next t → Q t

namespace Stmt.Safely

variable {ops} {s : Invocation α} {rest : List Stmt} {Q : Invocation α → Prop}

/-- The empty block is safe. -/
theorem nil (h : Q s) : Safely ops s [] Q := by
  refine ⟨rfl, fun t ht => ?_⟩
  cases ht
  exact h

/-- A weaker condition at the end is implied. -/
theorem mono {block : List Stmt} {P : Invocation α → Prop} (h : Safely ops s block P)
    (hPQ : ∀ t, P t → Q t) : Safely ops s block Q := ⟨h.1, fun t ht => hPQ t (h.2 t ht)⟩

/-- What the frame of a block leaves alone is known at its end. -/
theorem withFrame {block : List Stmt} {P : Invocation α → Prop} (h : Safely ops s block P)
    (hPQ : ∀ t, Invocation.Frame (blockSets block) (blockStores block) s t → P t → Q t) :
    Safely ops s block Q := by
  refine ⟨h.1, fun t ht => hPQ t ?_ (h.2 t ht)⟩
  have hframe := execBlock_frame ops s block
  rw [ht] at hframe
  exact hframe

/-- Blocks one after the other are safe if the second is safe where the first ends. -/
theorem append {a b : List Stmt} (h : Safely ops s a fun t => Safely ops t b Q) :
    Safely ops s (a ++ b) Q := by
  refine ⟨?_, fun u hu => ?_⟩
  · rw [execBlockStrict_append, execBlock_append]
    exact Strict.andThen_eq h.1 fun t ht => (h.2 t ht).1
  · rw [execBlock_append] at hu
    cases ha : execBlock ops s a with
    | next t =>
      rw [ha] at hu
      exact (h.2 t ha).2 u hu
    | returned t =>
      rw [ha] at hu
      cases hu
    | failed fault t =>
      rw [ha] at hu
      cases hu

/-- Blocks one after the other, through an invariant. -/
theorem flatMap {β : Type} {f : β → List Stmt} {xs : List β} {P : Invocation α → Prop}
    (h : ∀ x ∈ xs, ∀ t, P t → Safely ops t (f x) P) (hs : P s) : Safely ops s (xs.flatMap f) P := by
  induction xs generalizing s with
  | nil => exact nil hs
  | cons x xs ih =>
    rw [List.flatMap_cons]
    exact append ((h x List.mem_cons_self s hs).mono fun t ht =>
      ih (fun y hy => h y (List.mem_cons_of_mem _ hy)) ht)

/-- Statements one after the other, through an invariant. -/
theorem each {block : List Stmt} {P : Invocation α → Prop}
    (h : ∀ stmt ∈ block, ∀ t, P t → Safely ops t [stmt] P) (hs : P s) : Safely ops s block P := by
  have hblocks := flatMap (f := fun stmt => [stmt]) h hs
  rwa [← List.map_eq_flatMap, List.map_id'] at hblocks

/-- A statement, then the rest. -/
theorem cons {stmt : Stmt} (hexec : stmt.execStrict ops s = some (stmt.exec ops s))
    (h : ∀ t, stmt.exec ops s = .next t → Safely ops t rest Q) : Safely ops s (stmt :: rest) Q := by
  have hone : Safely ops s [stmt] fun t => Safely ops t rest Q := by
    refine ⟨?_, fun t ht => h t (by rwa [execBlock_singleton] at ht)⟩
    rw [execBlock_singleton, execBlockStrict, hexec]
    cases stmt.exec ops s <;> rfl
  exact append hone

/-- A constant with an exact value is declared safely. -/
theorem letDecl {name : String} {value : Expr} (hv : value.Exact ops s)
    (h : ∀ v, value.eval ops s = .ok v → Safely ops (s.setLocal name v) rest Q) :
    Safely ops s (.letDecl name value :: rest) Q := by
  refine cons ?_ fun t ht => ?_
  · rw [execStrict, hv, exec]
    cases value.eval ops s <;> rfl
  · rw [exec] at ht
    cases hval : value.eval ops s with
    | error fault =>
      rw [hval] at ht
      cases ht
    | ok v =>
      rw [hval] at ht
      cases ht
      exact h v hval

/-- A variable with an exact value is declared safely. -/
theorem varDecl {name : String} {value : Expr} (hv : value.Exact ops s)
    (h : ∀ v, value.eval ops s = .ok v → Safely ops (s.setLocal name v) rest Q) :
    Safely ops s (.varDecl name value :: rest) Q := letDecl hv h

/-- An exact value is assigned safely. -/
theorem assign {name : String} {value : Expr} (hv : value.Exact ops s)
    (h : ∀ v, value.eval ops s = .ok v → Safely ops (s.setLocal name v) rest Q) :
    Safely ops s (.assign name value :: rest) Q := by
  refine cons ?_ fun t ht => ?_
  · rw [execStrict, hv, exec]
    cases value.eval ops s with
    | error fault => rfl
    | ok v =>
      show (if _ then _ else _) = some (if _ then _ else _)
      split <;> rfl
  · rw [exec] at ht
    cases hval : value.eval ops s with
    | error fault =>
      rw [hval] at ht
      cases ht
    | ok v =>
      rw [hval] at ht
      dsimp only at ht
      split at ht
      · cases ht
        exact h v hval
      · cases ht

/-- An exact value is stored safely inside of the buffer. -/
theorem store {buffer : String} {position value : Expr} {i : Nat} (hp : position.Yields ops s i)
    (hv : value.Exact ops s) (hlt : ∀ data, s.outputs.find? buffer = some data → i < data.size)
    (h : ∀ x, Safely ops (s.write buffer i x) rest Q) :
    Safely ops s (.store buffer position value :: rest) Q := by
  have hposition : (position.evalStrict ops s >>= fun v => ExceptT.mk (some (v.toWord ops))) =
      (ExceptT.mk (some (.ok (UInt32.ofNat i))) : Strict UInt32) := by
    rw [hp.exact, hp.eval]
    rfl
  have hvalue : (value.evalStrict ops s >>= fun v => ExceptT.mk (some (v.toScalar ops))) =
      (ExceptT.mk (some (value.eval ops s >>= fun v => v.toScalar ops)) : Strict α) :=
    Strict.bind_eq hv fun _ _ => rfl
  have hoperands : Expr.storeOperands ops s position value =
      (value.eval ops s >>= fun v => v.toScalar ops).map fun x => (UInt32.ofNat i, x) := by
    unfold Expr.storeOperands
    rw [hp.eval]
    cases value.eval ops s with
    | error fault => rfl
    | ok v => cases v <;> rfl
  have hi := UInt32.toNat_ofNat_of_lt' hp.lt
  refine cons ?_ fun t ht => ?_
  · rw [execStrict, hposition, hvalue, exec, hoperands]
    cases (value.eval ops s >>= fun v => v.toScalar ops) with
    | error fault => rfl
    | ok x =>
      show s.storeStrict buffer (UInt32.ofNat i).toNat x = some (if _ then _ else _)
      unfold Invocation.storeStrict Table.contains
      rw [hi]
      cases hdata : s.outputs.find? buffer with
      | none => rfl
      | some data =>
        dsimp only
        rw [if_pos (hlt data hdata)]
        rfl
  · rw [exec, hoperands] at ht
    cases hx : (value.eval ops s >>= fun v => v.toScalar ops) with
    | error fault =>
      rw [hx] at ht
      cases ht
    | ok x =>
      rw [hx] at ht
      simp only [Except.map, hi] at ht
      split at ht
      · cases ht
        exact h x
      · cases ht

/-- A loop, through an invariant indexed by its counter. -/
theorem forLoop {var : String} {count : Nat} {body : List Stmt} (hcount : count ≤ 2 ^ 32)
    (P : Nat → Invocation α → Prop) (start : P 0 s)
    (step : ∀ k t, k < count → P k t →
      Safely ops (t.setLocal var (.word (UInt32.ofNat k))) body (P (k + 1)))
    (h : ∀ t, P count t → Safely ops t rest Q) : Safely ops s (.forLoop var count body :: rest) Q := by
  -- the last `n` rounds
  have hrounds : ∀ n k t, k + n = count → P k t →
      Invocation.iterateStrict var (fun t => execBlockStrict ops t body) n k t =
        some (Invocation.iterate var (fun t => execBlock ops t body) n k t) ∧
      ∀ u, Invocation.iterate var (fun t => execBlock ops t body) n k t = .next u → P count u := by
    intro n
    induction n with
    | zero =>
      rintro k t rfl hP
      refine ⟨rfl, fun u hu => ?_⟩
      cases hu
      exact hP
    | succ n ih =>
      intro k t hk hP
      obtain ⟨hstrict, hnext⟩ := step k t (by omega) hP
      refine ⟨?_, fun u hu => ?_⟩
      · rw [Invocation.iterateStrict, if_pos (by omega), Invocation.iterate]
        exact Strict.andThen_eq hstrict fun w hw => (ih (k + 1) w (by omega) (hnext w hw)).1
      · rw [Invocation.iterate] at hu
        cases hbody : execBlock ops (t.setLocal var (.word (UInt32.ofNat k))) body with
        | next w =>
          rw [hbody] at hu
          exact (ih (k + 1) w (by omega) (hnext w hbody)).2 u hu
        | returned w =>
          rw [hbody] at hu
          cases hu
        | failed fault w =>
          rw [hbody] at hu
          cases hu
  obtain ⟨hstrict, hnext⟩ := hrounds count 0 s (Nat.zero_add count) start
  exact cons hstrict fun t ht => h t (hnext t ht)

/-- A branch is safe if it is safe either way. -/
theorem ifThen {cond : Expr} {body : List Stmt} (hc : cond.Exact ops s)
    (htrue : cond.eval ops s = .ok (.truth true) → Safely ops s body fun t => Safely ops t rest Q)
    (hfalse : cond.eval ops s = .ok (.truth false) → Safely ops s rest Q) :
    Safely ops s (.ifThen cond body :: rest) Q := by
  have hcond : (cond.evalStrict ops s >>= fun v => ExceptT.mk (some (v.toTruth ops))) =
      (ExceptT.mk (some (cond.evalCond ops s)) : Strict Bool) := Strict.bind_eq hc fun _ _ => rfl
  have htruth : ∀ b, cond.evalCond ops s = .ok b → cond.eval ops s = .ok (.truth b) := by
    intro b hb
    obtain ⟨v, hv, hb⟩ := Except.exists_of_bind_eq_ok hb
    cases v <;> cases hb
    exact hv
  refine cons ?_ fun t ht => ?_
  · rw [execStrict, hcond, exec]
    cases hb : cond.evalCond ops s with
    | error fault => rfl
    | ok b =>
      cases b with
      | false => rfl
      | true => exact (htrue (htruth true hb)).1
  · rw [exec] at ht
    cases hb : cond.evalCond ops s with
    | error fault =>
      rw [hb] at ht
      cases ht
    | ok b =>
      rw [hb] at ht
      cases b with
      | false =>
        cases ht
        exact hfalse (htruth false hb)
      | true => exact (htrue (htruth true hb)).2 t ht

/-- A return is safe. -/
theorem ret : Safely ops s (.ret :: rest) Q := by
  refine cons rfl fun t ht => ?_
  cases ht

/-- The guard of a kernel: the rest runs below the size only. -/
theorem boundsGuard {i size : Nat} (hindex : s.index = UInt32.ofNat i) (hi : i < 2 ^ 32)
    (hsize : size < 2 ^ 32) (h : i < size → Safely ops s rest Q) :
    Safely ops s (.boundsGuard size :: rest) Q := by
  have hcond := Expr.eval_ge_word ops hi hsize (Expr.eval_index ops hindex) (Expr.eval_ofNat ops size)
  refine ifThen ((Expr.Yields.index hindex hi).binary (.ofNat hsize) trivial) (fun _ => .ret)
    fun hfalse => h ?_
  rw [hcond] at hfalse
  cases hlt : decide (size ≤ i) with
  | true =>
    rw [hlt] at hfalse
    cases hfalse
  | false => exact Nat.lt_of_not_le (of_decide_eq_false hlt)

/-- A block that runs for the first indices only. -/
theorem ifIndexLt {i len : Nat} {body : List Stmt} (hindex : s.index = UInt32.ofNat i)
    (hi : i < 2 ^ 32) (hlen : len < 2 ^ 32)
    (hbody : i < len → Safely ops s body fun t => Safely ops t rest Q) (hrest : Safely ops s rest Q) :
    Safely ops s (.ifThen (Expr.index.lt (.ofNat len)) body :: rest) Q := by
  have hcond := Expr.eval_lt_word ops hi hlen (Expr.eval_index ops hindex) (Expr.eval_ofNat ops len)
  refine ifThen ((Expr.Yields.index hindex hi).binary (.ofNat hlen) trivial) (fun htrue => hbody ?_)
    fun _ => hrest
  rw [hcond] at htrue
  cases hlt : decide (i < len) with
  | true => exact of_decide_eq_true hlt
  | false =>
    rw [hlt] at htrue
    cases htrue

end Stmt.Safely

end TensorKernels
