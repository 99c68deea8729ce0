import TensorKernels.Proofs.Inference
import TensorKernels.Proofs.Scope

/-!
# Evaluating generated expressions

Expressions of generated code are index arithmetic on words and formulas on scalars. Words are kept
in the form `UInt32.ofNat n`: sums and products commute with it, quotients and remainders do as long
as nothing wraps. An operand of a kernel stands for a tensor (`Operand.Reads`), and reading it gives
the tensor's element at the position (`Operand.eval_read`); the formulas of the element-wise operators
then have their values.
-/

set_option autoImplicit false

namespace TensorKernels

variable {α : Type} (ops : Arithmetic α)

/-- An expression depends on the locals it reads, the buffers it loads and the index. -/
theorem Expr.eval_congr {s t : Invocation α} (e : Expr) (hindex : t.index = s.index)
    (hlocals : ∀ name ∈ e.vars, t.locals.find? name = s.locals.find? name)
    (hbuffers : ∀ b ∈ e.loads, t.buffer? b = s.buffer? b) : e.eval ops t = e.eval ops s := by
  induction e with
  | float x => rfl
  | word n => rfl
  | index => simp [eval, hindex]
  | var name => simp [eval, hlocals name (by simp [vars])]
  | load buffer position ih =>
    simp only [vars, loads, List.mem_cons] at hlocals hbuffers
    simp only [eval, ih hlocals fun b hb => hbuffers b (.inr hb), hbuffers buffer (.inl rfl)]
  | unary f x ih =>
    simp only [vars, loads] at hlocals hbuffers
    simp only [eval, ih hlocals hbuffers]
  | binary f a b iha ihb =>
    simp only [vars, loads, List.mem_append] at hlocals hbuffers
    simp only [eval, iha (fun n hn => hlocals n (.inl hn)) fun n hn => hbuffers n (.inl hn),
      ihb (fun n hn => hlocals n (.inr hn)) fun n hn => hbuffers n (.inr hn)]
  | select c x y ihc ihx ihy =>
    simp only [vars, loads, List.mem_append] at hlocals hbuffers
    simp only [eval, ihc (fun n hn => hlocals n (.inl (.inl hn))) fun n hn => hbuffers n (.inl (.inl hn)),
      ihx (fun n hn => hlocals n (.inl (.inr hn))) fun n hn => hbuffers n (.inl (.inr hn)),
      ihy (fun n hn => hlocals n (.inr hn)) fun n hn => hbuffers n (.inr hn)]
  | clamp v l h ihv ihl ihh =>
    simp only [vars, loads, List.mem_append] at hlocals hbuffers
    simp only [eval, ihv (fun n hn => hlocals n (.inl (.inl hn))) fun n hn => hbuffers n (.inl (.inl hn)),
      ihl (fun n hn => hlocals n (.inl (.inr hn))) fun n hn => hbuffers n (.inl (.inr hn)),
      ihh (fun n hn => hlocals n (.inr hn)) fun n hn => hbuffers n (.inr hn)]

/-- A block without stores that sets none of its locals does not change an expression. -/
theorem Expr.eval_of_frame {sets : List String} {s t : Invocation α}
    (h : Invocation.Frame sets [] s t) (e : Expr) (hvars : ∀ name ∈ e.vars, name ∉ sets) :
    e.eval ops t = e.eval ops s :=
  e.eval_congr ops h.index (fun name hn => h.locals name (hvars name hn))
    fun b _ => h.buffer?_eq b

namespace Expr

variable {s : Invocation α}

/-! ## Words -/

/-- A count evaluates to its word. -/
theorem eval_ofNat (n : Nat) : (ofNat n).eval ops s = .ok (.word (UInt32.ofNat n)) := rfl

/-- The index evaluates to the number of the invocation. -/
theorem eval_index {i : Nat} (h : s.index = UInt32.ofNat i) :
    Expr.index.eval ops s = .ok (.word (UInt32.ofNat i)) := by
  rw [eval, h]

/-- A local evaluates to its value. -/
theorem eval_var {name : String} {v : Value α} (h : s.locals.find? name = some v) :
    (Expr.var name).eval ops s = .ok v := by
  rw [eval, h]

variable {a b : Expr} {m n : Nat}

/-- Words are added as natural numbers are. -/
theorem eval_add_word (ha : a.eval ops s = .ok (.word (UInt32.ofNat m)))
    (hb : b.eval ops s = .ok (.word (UInt32.ofNat n))) :
    (a + b).eval ops s = .ok (.word (UInt32.ofNat (m + n))) := by
  simp [eval, ha, hb, bind, Except.bind, BinaryFn.apply, BinaryFn.onWords, UInt32.ofNat_add]

/-- Words are multiplied as natural numbers are. -/
theorem eval_mul_word (ha : a.eval ops s = .ok (.word (UInt32.ofNat m)))
    (hb : b.eval ops s = .ok (.word (UInt32.ofNat n))) :
    (a * b).eval ops s = .ok (.word (UInt32.ofNat (m * n))) := by
  simp [eval, ha, hb, bind, Except.bind, BinaryFn.apply, BinaryFn.onWords, UInt32.ofNat_mul]

/-- A positive number below `2 ^ 32` is not the zero word. -/
theorem ofNat_ne_zero (hn : n < 2 ^ 32) (hpos : 0 < n) : UInt32.ofNat n ≠ 0 := by
  intro h
  have htoNat := congrArg UInt32.toNat h
  rw [UInt32.toNat_ofNat_of_lt' hn] at htoNat
  simp at htoNat
  omega

/-- Where nothing wraps around, words are divided as natural numbers are. -/
theorem eval_div_word (hm : m < 2 ^ 32) (hn : n < 2 ^ 32) (hpos : 0 < n)
    (ha : a.eval ops s = .ok (.word (UInt32.ofNat m)))
    (hb : b.eval ops s = .ok (.word (UInt32.ofNat n))) :
    (a / b).eval ops s = .ok (.word (UInt32.ofNat (m / n))) := by
  simp [div_def, eval, ha, hb, bind, Except.bind, BinaryFn.apply, BinaryFn.onWords,
    ofNat_ne_zero hn hpos, UInt32.ofNat_div hm hn]

/-- Where nothing wraps around, words have the remainders of natural numbers. -/
theorem eval_mod_word (hm : m < 2 ^ 32) (hn : n < 2 ^ 32) (hpos : 0 < n)
    (ha : a.eval ops s = .ok (.word (UInt32.ofNat m)))
    (hb : b.eval ops s = .ok (.word (UInt32.ofNat n))) :
    (a % b).eval ops s = .ok (.word (UInt32.ofNat (m % n))) := by
  simp [eval, ha, hb, bind, Except.bind, BinaryFn.apply, BinaryFn.onWords,
    ofNat_ne_zero hn hpos, UInt32.ofNat_mod hm hn]

/-- Where nothing wraps around, words compare as natural numbers do. -/
theorem eval_ge_word (hm : m < 2 ^ 32) (hn : n < 2 ^ 32)
    (ha : a.eval ops s = .ok (.word (UInt32.ofNat m)))
    (hb : b.eval ops s = .ok (.word (UInt32.ofNat n))) :
    (a.ge b).eval ops s = .ok (.truth (n ≤ m)) := by
  simp [ge, eval, ha, hb, bind, Except.bind, BinaryFn.apply, BinaryFn.onWords,
    UInt32.ofNat_le_iff_le hn hm]

/-- Where nothing wraps around, words compare as natural numbers do. -/
theorem eval_lt_word (hm : m < 2 ^ 32) (hn : n < 2 ^ 32)
    (ha : a.eval ops s = .ok (.word (UInt32.ofNat m)))
    (hb : b.eval ops s = .ok (.word (UInt32.ofNat n))) :
    (a.lt b).eval ops s = .ok (.truth (m < n)) := by
  simp [lt, eval, ha, hb, bind, Except.bind, BinaryFn.apply, BinaryFn.onWords,
    UInt32.ofNat_lt_iff_lt hm hn]

/-- A load gives the element of the buffer, or zero beyond its end. -/
theorem eval_load {buffer : String} {data : Array α} (hb : s.buffer? buffer = some data)
    (ha : a.eval ops s = .ok (.word (UInt32.ofNat m))) (hm : m < 2 ^ 32) :
    (Expr.load buffer a).eval ops s = .ok (.scalar (data.getD m ops.zero)) := by
  simp [eval, ha, hb, bind, Except.bind, Value.toWord, UInt32.toNat_ofNat_of_lt' hm]

/-! ## Scalars -/

variable {x y z : α} {c : Expr}

/-- A function of one scalar. -/
theorem eval_unary_scalar (f : UnaryFn) (ha : a.eval ops s = .ok (.scalar x)) :
    (Expr.unary f a).eval ops s = .ok (.scalar (f.apply ops x)) := by
  simp [eval, ha, bind, Except.bind, Value.toScalar]

/-- A function of two scalars. -/
theorem eval_binary_scalar (f : BinaryFn) (ha : a.eval ops s = .ok (.scalar x))
    (hb : b.eval ops s = .ok (.scalar y)) :
    (Expr.binary f a b).eval ops s = .ok (f.onScalars ops x y) := by
  simp [eval, ha, hb, bind, Except.bind, BinaryFn.apply]

/-- A selection between two scalars. -/
theorem eval_select_scalar {t : Bool} (hc : c.eval ops s = .ok (.truth t))
    (ha : a.eval ops s = .ok (.scalar x)) (hb : b.eval ops s = .ok (.scalar y)) :
    (Expr.select c a b).eval ops s = .ok (.scalar (if t then x else y)) := by
  cases t <;> simp [eval, hc, ha, hb, bind, Except.bind, Value.toTruth]

/-- A scalar kept between two others. -/
theorem eval_clamp_scalar (ha : a.eval ops s = .ok (.scalar x)) (hb : b.eval ops s = .ok (.scalar y))
    (hc : c.eval ops s = .ok (.scalar z)) :
    (Expr.clamp a b c).eval ops s = .ok (.scalar (ops.min (ops.max x y) z)) := by
  simp [eval, ha, hb, hc, bind, Except.bind, Value.toScalar]

end Expr

/-! ## Formulas of element-wise operators -/

section Formulas

variable {s : Invocation α} {e e' : Expr} {x y : α}

/-- The forward code of a function of one element computes the function. -/
theorem UnaryOp.eval_forward (f : UnaryOp) (he : e.eval ops s = .ok (.scalar x)) :
    (f.forward e).eval ops s = .ok (.scalar (f.value ops x)) := by
  cases f with
  | leakyRelu slope =>
    have hpos : (e.gt (.float 0.0)).eval ops s = .ok (.truth (ops.lt ops.zero x)) :=
      Expr.eval_binary_scalar ops .gt he rfl
    have hscaled : (Expr.float slope * e).eval ops s = .ok (.scalar (ops.mul (ops.lit slope) x)) :=
      Expr.eval_binary_scalar ops .mul rfl he
    exact Expr.eval_select_scalar ops hpos he hscaled
  | relu => exact Expr.eval_binary_scalar ops .max he rfl
  | sigmoid =>
    have hneg : (-e).eval ops s = .ok (.scalar (ops.neg x)) := Expr.eval_unary_scalar ops .neg he
    have hexp := Expr.eval_unary_scalar ops .exp hneg
    have hsum : (Expr.float 1.0 + (-e).exp).eval ops s =
        .ok (.scalar (ops.add ops.one (ops.exp (ops.neg x)))) :=
      Expr.eval_binary_scalar ops .add rfl hexp
    exact Expr.eval_binary_scalar ops .div rfl hsum
  | tanh => exact Expr.eval_unary_scalar ops .tanh he
  | exp => exact Expr.eval_unary_scalar ops .exp he
  | log => exact Expr.eval_unary_scalar ops .log he
  | sqrt => exact Expr.eval_unary_scalar ops .sqrt he

/-- The forward code of an arithmetic operator computes the operator. -/
theorem BinaryOp.eval_forward (f : BinaryOp) (he : e.eval ops s = .ok (.scalar x))
    (he' : e'.eval ops s = .ok (.scalar y)) :
    (f.forward e e').eval ops s = .ok (.scalar (f.value ops x y)) := by
  cases f
  · exact Expr.eval_binary_scalar ops .add he he'
  · exact Expr.eval_binary_scalar ops .sub he he'
  · exact Expr.eval_binary_scalar ops .mul he he'
  · exact Expr.eval_binary_scalar ops .div he he'

/-- The code that clamps a probability clamps it. -/
theorem eval_clampedProbability (he : e.eval ops s = .ok (.scalar x)) :
    (clampedProbability e).eval ops s = .ok (.scalar (ops.clampProbability x)) :=
  Expr.eval_clamp_scalar ops he rfl rfl

/-- The forward code of a loss computes the loss. -/
theorem LossOp.eval_forward (f : LossOp) (he : e.eval ops s = .ok (.scalar x))
    (he' : e'.eval ops s = .ok (.scalar y)) :
    (f.forward e e').eval ops s = .ok (.scalar (f.value ops x y)) := by
  have hp := eval_clampedProbability ops he
  have hlog := Expr.eval_unary_scalar ops .log hp
  have hleft := Expr.eval_binary_scalar ops .mul he' hlog
  cases f with
  | meanSquaredError =>
    have hdiff := Expr.eval_binary_scalar ops .sub he he'
    exact Expr.eval_binary_scalar ops .mul hdiff hdiff
  | binaryCrossEntropy =>
    have hrest : (Expr.float 1.0 - e').eval ops s = .ok (.scalar (ops.sub ops.one y)) :=
      Expr.eval_binary_scalar ops .sub rfl he'
    have hcomp : (Expr.float 1.0 - clampedProbability e).eval ops s =
        .ok (.scalar (ops.sub ops.one (ops.clampProbability x))) :=
      Expr.eval_binary_scalar ops .sub rfl hp
    have hright := Expr.eval_binary_scalar ops .mul hrest (Expr.eval_unary_scalar ops .log hcomp)
    exact Expr.eval_unary_scalar ops .neg (Expr.eval_binary_scalar ops .add hleft hright)
  | crossEntropy => exact Expr.eval_unary_scalar ops .neg hleft

end Formulas

/-! ## Operands -/

/-- The operand stands for the tensor `x` in an invocation at index `i`: a constant has one element,
and a local holds the element of the same index. -/
def Operand.Reads (s : Invocation α) (i : Nat) (o : Operand) (x : Flat α) : Prop :=
  match o.source with
  | .const c => x = ⟨[1], #[ops.lit c]⟩
  | .var name => s.locals.find? name = some (.scalar (x.entry ops i))
  | .buffer name => s.buffer? name = some x.data

/-- Reading an operand at a position gives the tensor's element. A local can only be read at the index
of the invocation. -/
theorem Operand.eval_read {s : Invocation α} {i p : Nat} {o : Operand} {x : Flat α}
    (h : o.Reads ops s i x) {position : Expr}
    (hp : position.eval ops s = .ok (.word (UInt32.ofNat p))) (hlt : p < x.shape.size)
    (hsize : x.shape.size < 2 ^ 32) (hvar : ∀ name, o.source = .var name → p = i) :
    (o.read position).eval ops s = .ok (.scalar (x.entry ops p)) := by
  unfold Operand.Reads at h
  unfold Operand.read
  cases hs : o.source with
  | const c =>
    simp only [hs] at h ⊢
    rw [h] at hlt
    obtain rfl : p = 0 := by simpa [Shape.size] using hlt
    simp [Expr.eval, Flat.entry, h]
  | var name =>
    simp only [hs] at h ⊢
    rw [Expr.eval_var ops h, hvar name hs]
  | buffer name =>
    simp only [hs] at h ⊢
    exact Expr.eval_load ops h hp (Nat.lt_trans hlt hsize)

/-- The number that the code of an access divides the index by. -/
def Access.divisor? : Access → Option Nat
  | .row _ cols => some cols
  | .col cols => some cols
  | .permuted rows _ => some rows
  | _ => none

/-- The code of an access computes the position that it designates, where it divides by a positive number
that fits in a word. -/
theorem Access.eval_index_of_divisor {s : Invocation α} {i : Nat} {a : Access} (hi : i < 2 ^ 32)
    (hs : s.index = UInt32.ofNat i) (hd : ∀ d ∈ a.divisor?, 0 < d ∧ d < 2 ^ 32) :
    a.index.eval ops s = .ok (.word (UInt32.ofNat (a.position i))) := by
  have hindex := Expr.eval_index ops hs
  cases a with
  | aligned => exact hindex
  | scalar count => rfl
  | row rows cols =>
    obtain ⟨hpos, hlt⟩ := hd cols rfl
    exact Expr.eval_mod_word ops hi hlt hpos hindex rfl
  | col cols =>
    obtain ⟨hpos, hlt⟩ := hd cols rfl
    exact Expr.eval_div_word ops hi hlt hpos hindex rfl
  | permuted rows cols =>
    obtain ⟨hpos, hlt⟩ := hd rows rfl
    have hmod := Expr.eval_mod_word ops hi hlt hpos hindex (Expr.eval_ofNat ops rows)
    have hdiv := Expr.eval_div_word ops hi hlt hpos hindex (Expr.eval_ofNat ops rows)
    exact Expr.eval_add_word ops (Expr.eval_mul_word ops hmod (Expr.eval_ofNat ops cols)) hdiv

/-- The code of an access computes the position that it designates. -/
theorem Access.eval_index {s : Invocation α} {i m n : Nat} {a : Access} (h : a.Covers m n)
    (hi : i < n) (hn : n < 2 ^ 32) (hm : m < 2 ^ 32) (hs : s.index = UInt32.ofNat i) :
    a.index.eval ops s = .ok (.word (UInt32.ofNat (a.position i))) := by
  refine eval_index_of_divisor ops (Nat.lt_trans hi hn) hs fun d hd => ?_
  cases a with
  | aligned => cases hd
  | scalar count => cases hd
  | row rows cols =>
    obtain ⟨rfl, rfl⟩ := h
    cases hd
    exact ⟨Nat.pos_of_ne_zero fun h0 => by simp [h0] at hi, hm⟩
  | col cols =>
    simp only [Covers] at h
    subst h
    cases hd
    have hm' : 0 < m := Nat.pos_of_ne_zero fun h0 => by simp [h0] at hi
    exact ⟨Nat.pos_of_ne_zero fun h0 => by simp [h0] at hi,
      Nat.lt_of_le_of_lt (Nat.le_mul_of_pos_left d hm') hn⟩
  | permuted rows cols =>
    obtain ⟨rfl, rfl⟩ := h
    cases hd
    have hcols : 0 < cols := Nat.pos_of_ne_zero fun h0 => by simp [h0] at hi
    exact ⟨Nat.pos_of_ne_zero fun h0 => by simp [h0] at hi,
      Nat.lt_of_le_of_lt (Nat.le_mul_of_pos_right d hcols) hn⟩

/-! ## Loops -/

namespace Stmt.Ends

variable {ops} {s : Invocation α} {rest : List Stmt} {Q : Invocation α → Prop}

/-- A loop that updates a scalar in every round computes a fold. -/
theorem foldLoop {acc step : String} (hne : acc ≠ step) {count : Nat} {value : Expr}
    {g : α → Nat → α} {a : α} (hacc : s.locals.find? acc = some (.scalar a))
    (hvalue : ∀ k x t, k < count → Invocation.Frame [step, acc] [] s t →
      t.locals.find? step = some (.word (UInt32.ofNat k)) → t.locals.find? acc = some (.scalar x) →
      value.eval ops t = .ok (.scalar (g x k)))
    (h : ∀ t, Invocation.Frame [step, acc] [] s t →
      t.locals.find? acc = some (.scalar ((List.range count).foldl g a)) → Ends ops t rest Q) :
    Ends ops s (.forLoop step count [.assign acc value] :: rest) Q := by
  refine forLoop (fun k t => Invocation.Frame [step, acc] [] s t ∧
    t.locals.find? acc = some (.scalar ((List.range k).foldl g a))) ⟨.refl _ _ s, hacc⟩ ?_ ?_
  · rintro k t hk ⟨hframe, hx⟩
    have hround : Invocation.Frame [step, acc] [] s (t.setLocal step (.word (UInt32.ofNat k))) :=
      (hframe.trans (.setLocal t step _)).mono (by simp) (by simp)
    have hx' : (t.setLocal step (.word (UInt32.ofNat k))).locals.find? acc =
        some (.scalar ((List.range k).foldl g a)) := by
      rw [Invocation.find?_setLocal, if_neg (Ne.symm hne), hx]
    refine assign hx' (hvalue k _ _ hk hround (by simp) hx') (.nil ⟨?_, ?_⟩)
    · exact (hround.trans (.setLocal _ acc _)).mono (by simp) (by simp)
    · simp [List.range_succ]
  · rintro t ⟨hframe, hx⟩
    exact h t hframe hx

/-- A loop that adds to a scalar in every round computes a sum from left to right. -/
theorem accumulateLoop {acc step : String} (hne : acc ≠ step) {count : Nat} {value : Expr}
    {f : Nat → α} {a : α} (hacc : s.locals.find? acc = some (.scalar a))
    (hvalue : ∀ k t, k < count → Invocation.Frame [step, acc] [] s t →
      t.locals.find? step = some (.word (UInt32.ofNat k)) →
      value.eval ops t = .ok (.scalar (f k)))
    (h : ∀ t, Invocation.Frame [step, acc] [] s t →
      t.locals.find? acc = some (.scalar ((List.range count).foldl (fun x k => ops.add x (f k)) a)) →
      Ends ops t rest Q) :
    Ends ops s (.forLoop step count [.accumulate acc value] :: rest) Q := by
  refine foldLoop hne hacc ?_ h
  intro k x t hk hframe hstep hx
  exact Expr.eval_binary_scalar ops .add (Expr.eval_var ops hx) (hvalue k t hk hframe hstep)

end Stmt.Ends

end TensorKernels
