import TensorKernels.Proofs.Evaluation
import TensorKernels.Proofs.Names

/-!
# Forward code of operators

The forward code of an operator computes one element of its result. `Op.forward_ends` says so for
every operator: where the operands stand for tensors, the code runs to its end with the element in
its local. `Op.forward_scoped` says that the code never faults, whatever the operands hold, and the
lemmas on loads and locals say what it touches.
-/

set_option autoImplicit false

namespace TensorKernels

variable {α : Type} (ops : Arithmetic α)

/-! ## What the code touches -/

/-- The operand is read from a scalar local in scope, from one of the buffers, or is a constant. -/
def Operand.Available (scope buffers : List String) (o : Operand) : Prop :=
  match o.source with
  | .const _ => True
  | .var name => name ∈ scope ∧ localKind name = .scalar
  | .buffer name => name ∈ buffers

namespace Operand.Available

variable {scope buffers : List String} {o : Operand}

/-- An operand is available in every larger scope. -/
theorem mono {scope' : List String} (h : o.Available scope buffers) (hs : scope ⊆ scope') :
    o.Available scope' buffers := by
  unfold Operand.Available at h ⊢
  cases ho : o.source with
  | const c => trivial
  | var name =>
    simp only [ho] at h
    exact ⟨hs h.1, h.2⟩
  | buffer name => simpa only [ho] using h

/-- An operand that is not given reads as a constant, which is always available. -/
theorem absent : Operand.absent.Available scope buffers := trivial

/-- Every operand of a list of available ones is available, also beyond its end. -/
theorem getD {operands : List Operand} (h : ∀ o ∈ operands, o.Available scope buffers) (i : Nat) :
    (operands.getD i .absent).Available scope buffers := by
  rw [List.getD_eq_getElem?_getD]
  cases hi : operands[i]? with
  | none => exact absent
  | some o => exact h o (List.mem_of_getElem? hi)

/-- Reading an available operand at a word gives a scalar. -/
theorem typed_read (h : o.Available scope buffers) {position : Expr}
    (hp : position.Typed localKind scope buffers .word) :
    (o.read position).Typed localKind scope buffers .scalar := by
  unfold Operand.Available at h
  unfold Operand.read
  cases ho : o.source with
  | const c => exact .float c
  | var name =>
    simp only [ho] at h
    exact .var h.1 h.2
  | buffer name =>
    simp only [ho] at h
    exact .load h hp

end Operand.Available

section Typed

variable {scope buffers : List String}

/-- The position at which an operand is read is a word. -/
theorem Access.typed_index (a : Access) : a.index.Typed localKind scope buffers .word := by
  cases a with
  | aligned => exact .index
  | scalar count => exact .ofNat 0
  | row rows cols => exact .mod .index (.ofNat cols)
  | col cols => exact .div (by decide) .index (.ofNat cols)
  | permuted rows cols =>
    exact .add (by decide) (.mul (by decide) (.mod .index (.ofNat rows)) (.ofNat cols))
      (.div (by decide) .index (.ofNat rows))

/-- The position at which a partial buffer is written is a word. -/
theorem Access.typed_partialIndex (a : Access) :
    a.partialIndex.Typed localKind scope buffers .word := by
  cases a with
  | permuted rows cols => exact Access.typed_index (.permuted rows cols)
  | aligned => exact .index
  | scalar count => exact .index
  | row rows cols => exact .index
  | col cols => exact .index

/-- The value of an available operand is a scalar. -/
theorem Operand.Available.typed_value {o : Operand} (h : o.Available scope buffers) :
    o.value.Typed localKind scope buffers .scalar := h.typed_read o.access.typed_index

variable {x y : Expr}

/-- The code of a function of one element is well typed. -/
theorem UnaryOp.typed_forward (f : UnaryOp) (hx : x.Typed localKind scope buffers .scalar) :
    (f.forward x).Typed localKind scope buffers .scalar := by
  cases f with
  | relu => exact .binary hx (.float _) rfl
  | sigmoid => exact .div (by decide) (.float _) (.add (by decide) (.float _) (.unary .exp hx.neg))
  | leakyRelu slope =>
    exact .select (.binary hx (.float _) rfl) hx (.mul (by decide) (.float _) hx)
  | tanh => exact .unary .tanh hx
  | exp => exact .unary .exp hx
  | log => exact .unary .log hx
  | sqrt => exact .unary .sqrt hx

/-- The code of an arithmetic operator is well typed. -/
theorem BinaryOp.typed_forward (f : BinaryOp) (hx : x.Typed localKind scope buffers .scalar)
    (hy : y.Typed localKind scope buffers .scalar) :
    (f.forward x y).Typed localKind scope buffers .scalar := by
  cases f
  · exact .add (by decide) hx hy
  · exact .sub hx hy
  · exact .mul (by decide) hx hy
  · exact .div (by decide) hx hy

/-- The code that clamps a probability is well typed. -/
theorem typed_clampedProbability (hx : x.Typed localKind scope buffers .scalar) :
    (clampedProbability x).Typed localKind scope buffers .scalar := .clamp hx (.float _) (.float _)

/-- The code of a loss is well typed. -/
theorem LossOp.typed_forward (f : LossOp) (hx : x.Typed localKind scope buffers .scalar)
    (hy : y.Typed localKind scope buffers .scalar) :
    (f.forward x y).Typed localKind scope buffers .scalar := by
  have hp := typed_clampedProbability hx
  cases f with
  | meanSquaredError => exact .mul (by decide) (.sub hx hy) (.sub hx hy)
  | binaryCrossEntropy =>
    exact .neg (.add (by decide) (.mul (by decide) hy (.unary .log hp))
      (.mul (by decide) (.sub (.float _) hy) (.unary .log (.sub (.float _) hp))))
  | crossEntropy => exact .neg (.mul (by decide) hy (.unary .log hp))

/-- The locals of forward code, named after the local that gets the result. -/
theorem localKind_row (out : String) : localKind (out ++ "_row") = .word :=
  localKind_append out (t := "row".toList) rfl (by decide)

/-- Column numbers are words. -/
theorem localKind_col (out : String) : localKind (out ++ "_col") = .word :=
  localKind_append out (t := "col".toList) rfl (by decide)

/-- Loop counters are words. -/
theorem localKind_k (out : String) : localKind (out ++ "_k") = .word :=
  localKind_append out (t := "k".toList) rfl (by decide)

/-- Accumulators are scalars. -/
theorem localKind_acc (out : String) : localKind (out ++ "_acc") = .scalar :=
  localKind_append out (t := "acc".toList) rfl (by decide)

/-- Running maxima are scalars. -/
theorem localKind_max (out : String) : localKind (out ++ "_max") = .scalar :=
  localKind_append out (t := "max".toList) rfl (by decide)

/-- Running sums are scalars. -/
theorem localKind_sum (out : String) : localKind (out ++ "_sum") = .scalar :=
  localKind_append out (t := "sum".toList) rfl (by decide)

/-- The code of a matrix product is well typed. -/
theorem matmulForward_typed {out : String} (hout : localKind out = .scalar) {a b : Operand}
    (ha : a.Available scope buffers) (hb : b.Available scope buffers) :
    Stmt.BlockTyped localKind scope buffers [] (matmulForward out a b) := by
  have hrow := localKind_row out
  have hcol := localKind_col out
  have hk := localKind_k out
  have hacc := localKind_acc out
  refine .letDecl (hrow ▸ .div (by decide) .index (.ofNat _)) ?_
  refine .letDecl (hcol ▸ .mod .index (.ofNat _)) ?_
  refine .varDecl (hacc ▸ .float _) ?_
  refine .forLoop hk ?_ (.letDecl (hout ▸ .var (by simp) hacc) .nil)
  refine .accumulate (by simp) hacc (.mul (by decide) ?_ ?_) .nil
  · refine (ha.mono ?_).typed_read ?_
    · intro name hn
      simp [hn]
    · exact .add (by decide) (.mul (by decide) (.var (by simp) hrow) (.ofNat _)) (.var (by simp) hk)
  · refine (hb.mono ?_).typed_read ?_
    · intro name hn
      simp [hn]
    · exact .add (by decide) (.mul (by decide) (.var (by simp) hk) (.ofNat _)) (.var (by simp) hcol)

/-- The code that finishes a fold is well typed. -/
theorem FoldOp.typed_finish (f : FoldOp) (count : Nat) (hx : x.Typed localKind scope buffers .scalar) :
    (f.finish x count).Typed localKind scope buffers .scalar := by
  cases f
  · exact hx
  · exact .div (by decide) hx (.float _)

/-- The code of a fold is well typed. -/
theorem foldForward_typed (f : FoldOp) (axis : Axis) {out : String} (hout : localKind out = .scalar)
    {o : Operand} (ho : o.Available scope buffers) :
    Stmt.BlockTyped localKind scope buffers [] (foldForward f axis out o) := by
  have hk := localKind_k out
  have hacc := localKind_acc out
  refine .varDecl (hacc ▸ .float _) ?_
  refine .forLoop hk ?_ (.letDecl (hout ▸ f.typed_finish _ (.var (by simp) hacc)) .nil)
  refine .accumulate (by simp) hacc ((ho.mono ?_).typed_read ?_) .nil
  · intro name hn
    simp [hn]
  · cases axis
    · exact .add (by decide) (.mul (by decide) .index (.ofNat _)) (.var (by simp) hk)
    · exact .add (by decide) (.mul (by decide) (.var (by simp) hk) (.ofNat _)) .index

/-- The code of a softmax is well typed. -/
theorem softmaxForward_typed {out : String} (hout : localKind out = .scalar) {o : Operand}
    (ho : o.Available scope buffers) :
    Stmt.BlockTyped localKind scope buffers [] (softmaxForward out o) := by
  have hrow := localKind_row out
  have hk := localKind_k out
  have hmax := localKind_max out
  have hsum := localKind_sum out
  have hread : ∀ scope', scope ⊆ scope' → ∀ position : Expr,
      position.Typed localKind scope' buffers .word →
      (o.read position).Typed localKind scope' buffers .scalar :=
    fun scope' hs position hp => (ho.mono hs).typed_read hp
  refine .letDecl (hrow ▸ .mul (by decide) (.div (by decide) .index (.ofNat _)) (.ofNat _)) ?_
  refine .varDecl (hmax ▸ .float _) ?_
  refine .forLoop hk ?_ ?_
  · refine .assign (by simp) (hmax ▸ .binary (.var (by simp) hmax) (hread _ ?_ _ ?_) rfl) .nil
    · intro name hn
      simp [hn]
    · exact .add (by decide) (.var (by simp) hrow) (.var (by simp) hk)
  · refine .varDecl (hsum ▸ .float _) ?_
    refine .forLoop hk ?_ ?_
    · refine .accumulate (by simp) hsum (.unary .exp (.sub (hread _ ?_ _ ?_) (.var (by simp) hmax))) .nil
      · intro name hn
        simp [hn]
      · exact .add (by decide) (.var (by simp) hrow) (.var (by simp) hk)
    · refine .letDecl (hout ▸ .div (by decide) (.unary .exp (.sub (hread _ ?_ _ .index)
        (.var (by simp) hmax))) (.var (by simp) hsum)) .nil
      intro name hn
      simp [hn]

/-- Forward code is scoped, and it touches its operands only. -/
theorem Op.forward_typed (op : Op) {out : String} (hout : localKind out = .scalar)
    {operands : List Operand} (h : ∀ o ∈ operands, o.Available scope buffers) :
    Stmt.BlockTyped localKind scope buffers [] (op.forward out operands) := by
  have hv := fun i => (Operand.Available.getD h i).typed_value
  have ho := fun i => Operand.Available.getD h i
  have hlet : ∀ {e : Expr}, e.Typed localKind scope buffers .scalar →
      Stmt.BlockTyped localKind scope buffers [] [.letDecl out e] :=
    fun he => .letDecl (hout ▸ he) .nil
  cases op with
  | unary f => exact hlet (f.typed_forward (hv 0))
  | binary f => exact hlet (f.typed_forward (hv 0) (hv 1))
  | loss f => exact hlet (f.typed_forward (hv 0) (hv 1))
  | matmul => exact matmulForward_typed hout (ho 0) (ho 1)
  | fold f axis => exact foldForward_typed f axis hout (ho 0)
  | softmax => exact softmaxForward_typed hout (ho 0)
  | reshape shape => exact hlet (hv 0)
  | transpose => exact hlet (hv 0)
  | dropout rate => exact hlet (.mul (by decide) (hv 0) (hv 1))
  | affine norm => exact hlet (.add (by decide) (.mul (by decide) (hv 0) (hv 1)) (hv 2))

end Typed

/-- Forward code declares its result. -/
theorem Op.mem_declares_forward (op : Op) (out : String) (operands : List Operand) :
    out ∈ Stmt.blockDeclares (op.forward out operands) := by
  cases op <;> simp [Op.forward, matmulForward, foldForward, softmaxForward, Stmt.blockDeclares,
    Stmt.declares]

/-- Apart from its result, forward code only sets locals with an underscore in their name. -/
theorem Op.sets_forward (op : Op) (out : String) (operands : List Operand) {name : String}
    (h : name ∈ Stmt.blockSets (op.forward out operands)) : name = out ∨ '_' ∈ name.toList := by
  cases op <;> simp only [Op.forward, matmulForward, foldForward, softmaxForward, Stmt.blockSets,
    Stmt.sets, Stmt.accumulate, List.append_nil, List.mem_cons, List.mem_append, List.not_mem_nil,
    or_false] at h <;> grind [String.toList_append]

/-- Forward code stores nothing. -/
theorem Op.blockStores_forward (op : Op) (out : String) (operands : List Operand) :
    Stmt.blockStores (op.forward out operands) = [] := by
  cases op <;> rfl

/-- Forward code reads every one of its operands. -/
theorem Op.mem_loads_forward (op : Op) (out : String) {operands : List Operand}
    (hlen : operands.length = op.arity) {o : Operand} (ho : o ∈ operands) {name : String}
    (hname : o.source = .buffer name) : name ∈ Stmt.blockLoads (op.forward out operands) := by
  have hread : ∀ position, name ∈ (o.read position).loads := by
    intro position
    simp [Operand.read, hname, Expr.loads]
  have hvalue : name ∈ o.value.loads := hread _
  cases op with
  | unary f =>
    obtain ⟨a, rfl⟩ := List.length_eq_one_iff.1 hlen
    obtain rfl := List.mem_singleton.1 ho
    cases f <;> simp [Op.forward, UnaryOp.forward, Stmt.blockLoads, Stmt.loads, Expr.loads, Expr.max,
      Expr.exp, Expr.tanh, Expr.log, Expr.sqrt, Expr.add_def, Expr.div_def, Expr.neg_def, hvalue]
  | binary f =>
    obtain ⟨a, b, rfl⟩ := List.length_eq_two.1 hlen
    rcases List.mem_pair.1 ho with rfl | rfl <;> cases f <;>
      simp [Op.forward, BinaryOp.forward, Stmt.blockLoads, Stmt.loads, Expr.loads, Expr.sub_def,
        Expr.div_def, hvalue]
  | loss f =>
    obtain ⟨a, b, rfl⟩ := List.length_eq_two.1 hlen
    rcases List.mem_pair.1 ho with rfl | rfl <;> cases f <;>
      simp [Op.forward, LossOp.forward, clampedProbability, Stmt.blockLoads, Stmt.loads, Expr.loads,
        Expr.sub_def, Expr.log, hvalue]
  | matmul =>
    obtain ⟨a, b, rfl⟩ := List.length_eq_two.1 hlen
    rcases List.mem_pair.1 ho with rfl | rfl <;>
      simp [Op.forward, matmulForward, Stmt.accumulate, Stmt.blockLoads, Stmt.loads, Expr.loads, hread]
  | fold f axis =>
    obtain ⟨a, rfl⟩ := List.length_eq_one_iff.1 hlen
    obtain rfl := List.mem_singleton.1 ho
    simp [Op.forward, foldForward, Stmt.accumulate, Stmt.blockLoads, Stmt.loads, Expr.loads, hread]
  | softmax =>
    obtain ⟨a, rfl⟩ := List.length_eq_one_iff.1 hlen
    obtain rfl := List.mem_singleton.1 ho
    simp [Op.forward, softmaxForward, Stmt.accumulate, Stmt.blockLoads, Stmt.loads, Expr.loads,
      Expr.max, hread]
  | reshape shape =>
    obtain ⟨a, rfl⟩ := List.length_eq_one_iff.1 hlen
    obtain rfl := List.mem_singleton.1 ho
    simp [Op.forward, Stmt.blockLoads, Stmt.loads, hvalue]
  | transpose =>
    obtain ⟨a, rfl⟩ := List.length_eq_one_iff.1 hlen
    obtain rfl := List.mem_singleton.1 ho
    simp [Op.forward, Stmt.blockLoads, Stmt.loads, hvalue]
  | dropout rate =>
    obtain ⟨a, b, rfl⟩ := List.length_eq_two.1 hlen
    rcases List.mem_pair.1 ho with rfl | rfl <;>
      simp [Op.forward, Stmt.blockLoads, Stmt.loads, Expr.loads, hvalue]
  | affine norm =>
    obtain ⟨a, b, c, rfl⟩ := List.length_eq_three.1 hlen
    simp only [List.mem_cons, List.not_mem_nil, or_false] at ho
    rcases ho with rfl | rfl | rfl <;>
      simp [Op.forward, Stmt.blockLoads, Stmt.loads, Expr.loads, hvalue]

/-! ## What the code computes -/

/-- The operand stands for a tensor of fewer than `2 ^ 32` elements, read through an access. -/
structure Operand.Denotes (s : Invocation α) (i : Nat) (o : Operand) (ax : Access × Flat α) : Prop where
  access : o.access = ax.1
  shape : o.shape = ax.2.shape
  reads : o.Reads ops s i ax.2
  bound : ax.2.shape.size < 2 ^ 32

variable {ops}

/-- Reads survive code that leaves the operand's local alone. -/
theorem Operand.Reads.of_frame {sets : List String} {s t : Invocation α} {i : Nat} {o : Operand}
    {x : Flat α} (h : o.Reads ops s i x) (hframe : Invocation.Frame sets [] s t)
    (hvar : ∀ name, o.source = .var name → name ∉ sets) : o.Reads ops t i x := by
  unfold Operand.Reads at h ⊢
  cases ho : o.source with
  | const c => simpa only [ho] using h
  | var name =>
    simp only [ho] at h ⊢
    rw [hframe.locals name (hvar name ho), h]
  | buffer name =>
    simp only [ho] at h ⊢
    rw [hframe.buffer?_eq, h]

section Elements

variable {s : Invocation α} {i : Nat} {out : String}

/-- The value of an operand at the current index is the element that its access designates. -/
theorem Operand.Denotes.eval_value {o : Operand} {a : Access} {x : Flat α} {n : Nat}
    (h : o.Denotes ops s i (a, x)) (hcov : a.Covers x.shape.size n) (hi : i < n) (hn : n < 2 ^ 32)
    (hs : s.index = UInt32.ofNat i) (hvar : ∀ name, o.source = .var name → a = .aligned) :
    o.value.eval ops s = .ok (.scalar (x.entry ops (a.position i))) := by
  have hacc : o.access = a := h.access
  have hindex := Access.eval_index ops hcov hi hn h.bound hs
  unfold Operand.value
  rw [hacc]
  refine Operand.eval_read ops h.reads hindex (hcov.position_lt hi) h.bound ?_
  intro name hname
  rw [hvar name hname]
  rfl

/-- Reading an operand that is not a local at a position of the tensor. -/
theorem Operand.Denotes.eval_read {o : Operand} {a : Access} {x : Flat α} {sets : List String}
    {t : Invocation α} (h : o.Denotes ops s i (a, x)) (hframe : Invocation.Frame sets [] s t)
    (hvar : ∀ name, o.source ≠ .var name) {position : Expr} {p : Nat}
    (hp : position.eval ops t = .ok (.word (UInt32.ofNat p))) (hlt : p < x.shape.size) :
    (o.read position).eval ops t = .ok (.scalar (x.entry ops p)) := by
  refine Operand.eval_read ops (h.reads.of_frame hframe fun name hn => absurd hn (hvar name)) hp hlt
    h.bound ?_
  intro name hn
  exact absurd hn (hvar name)

/-- The code of a matrix product computes one element of the product. -/
theorem matmulForward_ends {a b : Operand} {ax bx : Access × Flat α} (ha : a.Denotes ops s i ax)
    (hb : b.Denotes ops s i bx) (havar : ∀ name, a.source ≠ .var name)
    (hbvar : ∀ name, b.source ≠ .var name) (hs : s.index = UInt32.ofNat i)
    (hinner : ax.2.shape.asMatrix.2 = bx.2.shape.asMatrix.1)
    (hi : i < ax.2.shape.asMatrix.1 * bx.2.shape.asMatrix.2)
    (hsize : ax.2.shape.asMatrix.1 * bx.2.shape.asMatrix.2 < 2 ^ 32) :
    Stmt.Ends ops s (matmulForward out a b) fun t =>
      t.locals.find? out = some (.scalar (matmulElement ops ax.2 bx.2 i)) := by
  have hashape := ha.shape
  have hbshape := hb.shape
  have hasize := ax.2.shape.asMatrix_size
  have hbsize := bx.2.shape.asMatrix_size
  unfold matmulForward matmulElement
  rw [hashape, hbshape]
  generalize ax.2.shape.asMatrix.1 = m at *
  generalize ax.2.shape.asMatrix.2 = k at *
  generalize bx.2.shape.asMatrix.2 = n at *
  obtain ⟨-, hn, hn'⟩ := dims_of_lt hi hsize
  have hi' : i < 2 ^ 32 := Nat.lt_trans hi hsize
  have hdiv : i / n < m := Nat.div_lt_of_lt_mul (by rwa [Nat.mul_comm])
  have hmod : i % n < n := Nat.mod_lt i hn
  have hindex := Expr.eval_index ops hs
  refine .letDecl (Expr.eval_div_word ops hi' hn' hn hindex (Expr.eval_ofNat ops n)) ?_
  refine .letDecl (Expr.eval_mod_word ops hi' hn' hn (Expr.eval_index ops (by simpa using hs))
    (Expr.eval_ofNat ops n)) ?_
  refine .varDecl rfl ?_
  refine .accumulateLoop (f := fun j => ops.mul (ax.2.entry ops (i / n * k + j))
    (bx.2.entry ops (j * n + i % n))) (a := ops.zero) (by simp) (by simp; rfl) ?_ ?_
  · intro j t hj hframe hstep
    have hall := (((Invocation.Frame.setLocal s (out ++ "_row") _).trans
      (.setLocal _ (out ++ "_col") _)).trans (.setLocal _ (out ++ "_acc") _)).trans hframe
    have hrow : t.locals.find? (out ++ "_row") = some (.word (UInt32.ofNat (i / n))) := by
      rw [hframe.locals _ (by simp)]
      simp
    have hcol : t.locals.find? (out ++ "_col") = some (.word (UInt32.ofNat (i % n))) := by
      rw [hframe.locals _ (by simp)]
      simp
    have hrow' := Expr.eval_var ops hrow
    have hcol' := Expr.eval_var ops hcol
    have hstep' := Expr.eval_var ops hstep
    refine Expr.eval_binary_scalar ops .mul
      (ha.eval_read hall havar (p := i / n * k + j) ?_ ?_) (hb.eval_read hall hbvar (p := j * n + i % n) ?_ ?_)
    · exact Expr.eval_add_word ops (Expr.eval_mul_word ops hrow' (Expr.eval_ofNat ops k)) hstep'
    · rw [← hasize]
      exact row_add_lt hdiv hj
    · exact Expr.eval_add_word ops (Expr.eval_mul_word ops hstep' (Expr.eval_ofNat ops n)) hcol'
    · rw [← hbsize, ← hinner]
      exact row_add_lt hj hmod
  · intro t hframe hacc
    refine .letDecl (Expr.eval_var ops hacc) (.nil ?_)
    simp [Arithmetic.total]

/-- Rows times columns of a fold is the number of elements. -/
theorem foldDims_size (axis : Axis) (shape : Shape) :
    (foldDims axis shape).1 * (foldDims axis shape).2 = shape.size := by
  match shape with
  | [] => rfl
  | [n] => cases axis <;> simp [foldDims, Shape.size]
  | m :: n :: rest => exact Shape.asMatrix_size (m :: n :: rest)

/-- The number of results of a fold is the length of the axis that stays. -/
theorem size_foldShape (axis : Axis) (shape : Shape) :
    (foldShape axis shape).size =
      match axis with
      | .last => (foldDims axis shape).1
      | .first => (foldDims axis shape).2 := by
  match shape with
  | [] => cases axis <;> rfl
  | [n] => cases axis <;> rfl
  | m :: n :: rest => cases axis <;> simp [foldShape, foldDims, Shape.size]

/-- The elements that a fold adds up are elements of its operand. -/
theorem foldPosition_lt (axis : Axis) (shape : Shape) {k : Nat}
    (hi : i < (foldShape axis shape).size) (hk : k < foldCount axis shape) :
    foldPosition (foldDims axis shape).2 i k axis < shape.size := by
  rw [size_foldShape] at hi
  rw [← foldDims_size axis shape]
  cases axis with
  | last => exact row_add_lt hi hk
  | first => exact row_add_lt hk hi

/-- The code of a fold computes one element of the fold. -/
theorem foldForward_ends (f : FoldOp) (axis : Axis) {o : Operand} {ax : Access × Flat α}
    (ho : o.Denotes ops s i ax) (hvar : ∀ name, o.source ≠ .var name)
    (hs : s.index = UInt32.ofNat i) (hi : i < (foldShape axis ax.2.shape).size) :
    Stmt.Ends ops s (foldForward f axis out o) fun t =>
      t.locals.find? out = some (.scalar (foldElement ops f axis ax.2 i)) := by
  have hshape := ho.shape
  unfold foldForward foldElement
  rw [hshape]
  refine .varDecl rfl ?_
  refine .accumulateLoop (a := ops.zero)
    (f := fun k => ax.2.entry ops (foldPosition (foldDims axis ax.2.shape).2 i k axis))
    (by simp) (by simp; rfl) ?_ ?_
  · intro k t hk hframe hstep
    have hall := (Invocation.Frame.setLocal s (out ++ "_acc") _).trans hframe
    have hindex := Expr.eval_index ops (hall.index.trans hs)
    have hstep' := Expr.eval_var ops hstep
    refine ho.eval_read hall hvar ?_ (foldPosition_lt axis ax.2.shape hi hk)
    cases axis
    · exact Expr.eval_add_word ops (Expr.eval_mul_word ops hindex (Expr.eval_ofNat ops _)) hstep'
    · exact Expr.eval_add_word ops (Expr.eval_mul_word ops hstep' (Expr.eval_ofNat ops _)) hindex
  · intro t hframe hacc
    have hacc' := Expr.eval_var ops hacc
    cases f
    · refine .letDecl hacc' (.nil ?_)
      simp [Arithmetic.total, FoldOp.close]
    · refine .letDecl (Expr.eval_binary_scalar ops .div hacc' rfl) (.nil ?_)
      simp [Arithmetic.total, FoldOp.close]
      rfl

/-- The row of an element lies in the matrix. -/
theorem row_lt_size {shape : Shape} {k : Nat} (hi : i < shape.size) (hk : k < shape.asMatrix.2) :
    i / shape.asMatrix.2 * shape.asMatrix.2 + k < shape.size := by
  have hsize := shape.asMatrix_size
  rw [← hsize] at hi ⊢
  exact row_add_lt (Nat.div_lt_of_lt_mul (by rwa [Nat.mul_comm])) hk

/-- The columns of a matrix with an element are few and at least one. -/
theorem asMatrix_cols {shape : Shape} (hi : i < shape.size) (hsize : shape.size < 2 ^ 32) :
    0 < shape.asMatrix.2 ∧ shape.asMatrix.2 < 2 ^ 32 := by
  rw [← shape.asMatrix_size] at hi hsize
  exact (dims_of_lt hi hsize).2

/-- The code of a softmax computes one element of the softmax. -/
theorem softmaxForward_ends {o : Operand} {ax : Access × Flat α} (ho : o.Denotes ops s i ax)
    (hvar : ∀ name, o.source ≠ .var name) (hs : s.index = UInt32.ofNat i)
    (hi : i < ax.2.shape.size) :
    Stmt.Ends ops s (softmaxForward out o) fun t =>
      t.locals.find? out = some (.scalar (softmaxElement ops ax.2 i)) := by
  have hshape := ho.shape
  have hi' : i < 2 ^ 32 := Nat.lt_trans hi ho.bound
  obtain ⟨hpos, hcols⟩ := asMatrix_cols hi ho.bound
  unfold softmaxForward softmaxElement
  rw [hshape]
  generalize hn : ax.2.shape.asMatrix.2 = n at *
  have hrowlt : ∀ k < n, i / n * n + k < ax.2.shape.size := by
    intro k hk
    have := row_lt_size (k := k) hi (by rwa [hn])
    rwa [hn] at this
  have hindex := Expr.eval_index ops hs
  refine .letDecl (Expr.eval_mul_word ops (Expr.eval_div_word ops hi' hcols hpos hindex
    (Expr.eval_ofNat ops n)) (Expr.eval_ofNat ops n)) ?_
  refine .varDecl rfl ?_
  -- the maximum of the row
  refine .foldLoop (a := ops.lit softmaxFloor)
    (g := fun top k => ops.max top (ax.2.entry ops (i / n * n + k))) (by simp) (by simp) ?_ ?_
  · intro k x t hk hframe hstep htop
    have hall := ((Invocation.Frame.setLocal s (out ++ "_row") _).trans
      (.setLocal _ (out ++ "_max") _)).trans hframe
    have hrow : t.locals.find? (out ++ "_row") = some (.word (UInt32.ofNat (i / n * n))) := by
      rw [hframe.locals _ (by simp)]
      simp
    refine Expr.eval_binary_scalar ops .max (Expr.eval_var ops htop)
      (ho.eval_read hall hvar ?_ (hrowlt k hk))
    exact Expr.eval_add_word ops (Expr.eval_var ops hrow) (Expr.eval_var ops hstep)
  · intro t hframe htop
    have hall := ((Invocation.Frame.setLocal s (out ++ "_row") _).trans
      (.setLocal _ (out ++ "_max") _)).trans hframe
    have hrow : t.locals.find? (out ++ "_row") = some (.word (UInt32.ofNat (i / n * n))) := by
      rw [hframe.locals _ (by simp)]
      simp
    refine .varDecl rfl ?_
    -- the sum of the shifted exponentials
    refine .accumulateLoop (a := ops.zero) (f := fun k => ops.exp
      (ops.sub (ax.2.entry ops (i / n * n + k)) (rowMaximum ops ax.2 (i / n * n) n)))
      (by simp) (by simp; rfl) ?_ ?_
    · intro k u hk hframe' hstep
      have hall' := (hall.trans (.setLocal t (out ++ "_sum") _)).trans hframe'
      have hrow' : u.locals.find? (out ++ "_row") = some (.word (UInt32.ofNat (i / n * n))) := by
        rw [hframe'.locals _ (by simp)]
        simp [hrow]
      have htop' : u.locals.find? (out ++ "_max") =
          some (.scalar (rowMaximum ops ax.2 (i / n * n) n)) := by
        rw [hframe'.locals _ (by simp)]
        simp [htop, rowMaximum]
      refine Expr.eval_unary_scalar ops .exp (Expr.eval_binary_scalar ops .sub
        (ho.eval_read hall' hvar ?_ (hrowlt k hk)) (Expr.eval_var ops htop'))
      exact Expr.eval_add_word ops (Expr.eval_var ops hrow') (Expr.eval_var ops hstep)
    · intro u hframe' hsum
      have hall' := (hall.trans (.setLocal t (out ++ "_sum") _)).trans hframe'
      have htop' : u.locals.find? (out ++ "_max") =
          some (.scalar (rowMaximum ops ax.2 (i / n * n) n)) := by
        rw [hframe'.locals _ (by simp)]
        simp [htop, rowMaximum]
      have hnum := Expr.eval_unary_scalar ops .exp (Expr.eval_binary_scalar ops .sub
        (ho.eval_read hall' hvar (Expr.eval_index ops (hall'.index.trans hs)) hi)
        (Expr.eval_var ops htop'))
      refine .letDecl (Expr.eval_binary_scalar ops .div hnum (Expr.eval_var ops hsum)) (.nil ?_)
      simp [Arithmetic.total]
      rfl

variable (ops) in
/-- The element that a regular operator computes from one element of each operand. -/
def Op.pointwise (x : Nat → α) : Op → α
  | .unary f => f.value ops (x 0)
  | .binary f => f.value ops (x 0) (x 1)
  | .loss f => f.value ops (x 0) (x 1)
  | .reshape _ => x 0
  | .transpose => x 0
  | .dropout _ => ops.mul (x 0) (x 1)
  | .affine _ => ops.add (ops.mul (x 0) (x 1)) (x 2)
  | .matmul => ops.zero
  | .fold _ _ => ops.zero
  | .softmax => ops.zero

/-- An element of a regular operator is a function of one element of each operand. -/
theorem Op.element_of_regular {op : Op} (hop : op.opClass = .regular) (xs : List (Access × Flat α))
    (i : Nat) : op.element ops xs i =
      op.pointwise ops fun k => (given ops xs k).2.entry ops ((given ops xs k).1.position i) := by
  cases op with
  | matmul => cases hop
  | fold f axis => cases hop
  | softmax => cases hop
  | _ => rfl

/-- The forward code of a regular operator computes its element from those of its operands. -/
theorem Op.pointwise_ends {op : Op} (hop : op.opClass = .regular) {operands : List Operand} {x : Nat → α}
    (hx : ∀ k < op.arity, (operands.getD k .absent).value.eval ops s = .ok (.scalar (x k))) :
    Stmt.Ends ops s (op.forward out operands) fun t =>
      t.locals.find? out = some (.scalar (op.pointwise ops x)) := by
  have hlet : ∀ {e : Expr} {v : α}, e.eval ops s = .ok (.scalar v) →
      Stmt.Ends ops s [.letDecl out e] fun t => t.locals.find? out = some (.scalar v) :=
    fun he => .letDecl he (.nil (by simp))
  cases op with
  | unary f => exact hlet (f.eval_forward ops (hx 0 Nat.zero_lt_one))
  | binary f => exact hlet (f.eval_forward ops (hx 0 Nat.zero_lt_two) (hx 1 Nat.one_lt_two))
  | loss f => exact hlet (f.eval_forward ops (hx 0 Nat.zero_lt_two) (hx 1 Nat.one_lt_two))
  | reshape shape => exact hlet (hx 0 Nat.zero_lt_one)
  | transpose => exact hlet (hx 0 Nat.zero_lt_one)
  | dropout rate =>
    exact hlet (Expr.eval_binary_scalar ops .mul (hx 0 Nat.zero_lt_two) (hx 1 Nat.one_lt_two))
  | affine norm =>
    have hscaled := Expr.eval_binary_scalar ops .mul (hx 0 (show 0 < 3 by decide))
      (hx 1 (show 1 < 3 by decide))
    exact hlet (Expr.eval_binary_scalar ops .add hscaled (hx 2 (show 2 < 3 by decide)))
  | matmul => cases hop
  | fold f axis => cases hop
  | softmax => cases hop

/-- The forward code of an operator computes the element of its result at the current index. A local
may stand only for an operand that a regular operator reads in place. -/
theorem Op.forward_ends {op : Op} {operands : List Operand} {xs : List (Access × Flat α)}
    {shape : Shape} (hden : List.Forall₂ (Operand.Denotes ops s i) operands xs)
    (hlen : xs.length = op.arity)
    (hinfer : op.infer (xs.map fun ax => ax.2.shape) = .ok ⟨shape, xs.map Prod.fst⟩)
    (hmask : ∀ rate, op = .dropout rate → ∃ sh, xs.map (fun ax => ax.2.shape) = [sh, sh])
    (hvar : ∀ o ∈ operands, ∀ name, o.source = .var name →
      op.opClass = .regular ∧ o.access = .aligned)
    (hi : i < shape.size) (hsize : shape.size < 2 ^ 32) (hs : s.index = UInt32.ofNat i) :
    Stmt.Ends ops s (op.forward out operands) fun t =>
      t.locals.find? out = some (.scalar (op.element ops xs i)) := by
  -- a regular operator reads one element of each operand
  have hregular : op.opClass = .regular → Stmt.Ends ops s (op.forward out operands) fun t =>
      t.locals.find? out = some (.scalar (op.element ops xs i)) := by
    intro hop
    have hcov := Op.infer_covers hop (by simpa using hlen) hmask hinfer
    rw [List.forall₂_map_left_iff, List.forall₂_map_right_iff, List.forall₂_same] at hcov
    rw [Op.element_of_regular hop]
    refine Op.pointwise_ends hop fun k hk => ?_
    obtain ⟨hlength, hget⟩ := List.forall₂_iff_get.1 hden
    have hk' : k < xs.length := hlen ▸ hk
    have ho : k < operands.length := hlength ▸ hk'
    have hd := hget k ho hk'
    simp only [Op.given, List.getD_eq_getElem?_getD, List.getElem?_eq_getElem ho,
      List.getElem?_eq_getElem hk', Option.getD_some]
    exact hd.eval_value (hcov _ (List.getElem_mem hk')) hi hsize hs fun name hname =>
      hd.access.symm.trans (hvar _ (List.getElem_mem _) name hname).2
  have hnovar : op.opClass = .reduction → ∀ o ∈ operands, ∀ name, o.source ≠ .var name := by
    intro hop o ho name hname
    rw [(hvar o ho name hname).1] at hop
    cases hop
  cases op with
  | matmul =>
    obtain ⟨ax, bx, rfl⟩ := List.length_eq_two.1 hlen
    obtain ⟨o, tail, h₀, hrest, rfl⟩ := List.forall₂_cons_right_iff.1 hden
    obtain ⟨o', tail', h₁, hnil, rfl⟩ := List.forall₂_cons_right_iff.1 hrest
    cases hnil
    have hno := hnovar rfl
    obtain ⟨hshape, hinner⟩ := Op.infer_matmul hinfer
    have hprod : shape.size = ax.2.shape.asMatrix.1 * bx.2.shape.asMatrix.2 := by
      simp [hshape, Shape.size]
    exact matmulForward_ends h₀ h₁ (hno o (by simp)) (hno o' (by simp)) hs hinner
      (hprod ▸ hi) (hprod ▸ hsize)
  | fold f axis =>
    obtain ⟨ax, rfl⟩ := List.length_eq_one_iff.1 hlen
    obtain ⟨o, tail, h₀, hnil, rfl⟩ := List.forall₂_cons_right_iff.1 hden
    cases hnil
    have hshape : foldShape axis ax.2.shape = shape := Op.infer_fold hinfer
    exact foldForward_ends f axis h₀ (hnovar rfl o (by simp)) hs (hshape ▸ hi)
  | softmax =>
    obtain ⟨ax, rfl⟩ := List.length_eq_one_iff.1 hlen
    obtain ⟨o, tail, h₀, hnil, rfl⟩ := List.forall₂_cons_right_iff.1 hden
    cases hnil
    have hshape : ax.2.shape = shape := Op.infer_softmax hinfer
    exact softmaxForward_ends h₀ (hnovar rfl o (by simp)) hs (hshape ▸ hi)
  | _ => exact hregular rfl

end Elements

end TensorKernels
