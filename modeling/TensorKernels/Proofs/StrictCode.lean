import TensorKernels.Proofs.GradientValues
import TensorKernels.Proofs.StrictEvaluation

/-!
# Generated code is executed strictly

The code of every operator keeps its index arithmetic exact and its loads in range, whatever the buffers
hold, as long as they have the lengths of what they stand for (`Operand.Sized`): the forward code for an
index below the size of the result (`Op.forward_safely`), the seeds of gradients (`seedCode_safely`),
the gradient terms of regular operators (`Op.plain_gradients`) and the gradient code of reductions for
an index below the size of the operand (`Op.reductionGradient_safely`).
-/

set_option autoImplicit false

namespace TensorKernels

variable {α : Type} {ops : Arithmetic α} {s : Invocation α}

/-! ## Scalars and words -/

namespace Invocation.Tame

/-- A local that holds no word keeps the invocation tame. -/
theorem setLocal (hs : s.Tame) {v : Value α} (hv : ∀ i, v ≠ .word i) (name : String) :
    (s.setLocal name v).Tame := by
  intro other i hother
  rw [find?_setLocal]
  split
  · simpa using hv i
  · exact hs other i hother

/-- A word in a local that is named for words keeps the invocation tame. -/
theorem setWord (hs : s.Tame) {name : String} (hname : localKind name = .word) (n : UInt32) :
    (s.setLocal name (.word n)).Tame := by
  intro other i hother
  rw [find?_setLocal]
  split
  · next heq =>
    subst heq
    rw [hname] at hother
    cases hother
  · exact hs other i hother

end Invocation.Tame

namespace Stmt.Safely

variable {rest : List Stmt} {Q : Invocation α → Prop} {name : String} {value : Expr}

/-- A constant formula of scalars is declared safely. -/
theorem letScalar (hs : s.Tame) (hv : value.Plain ops s)
    (h : ∀ v, (s.setLocal name v).Tame → Safely ops (s.setLocal name v) rest Q) :
    Safely ops s (.letDecl name value :: rest) Q :=
  letDecl (hv.exact hs) fun v heval =>
    h v (hs.setLocal (fun i heq => hv.not_word hs i (heq ▸ heval)) name)

/-- A variable formula of scalars is declared safely. -/
theorem varScalar (hs : s.Tame) (hv : value.Plain ops s)
    (h : ∀ v, (s.setLocal name v).Tame → Safely ops (s.setLocal name v) rest Q) :
    Safely ops s (.varDecl name value :: rest) Q := letScalar hs hv h

/-- A formula of scalars is assigned safely. -/
theorem assignScalar (hs : s.Tame) (hv : value.Plain ops s)
    (h : ∀ v, (s.setLocal name v).Tame → Safely ops (s.setLocal name v) rest Q) :
    Safely ops s (.assign name value :: rest) Q :=
  assign (hv.exact hs) fun v heval =>
    h v (hs.setLocal (fun i heq => hv.not_word hs i (heq ▸ heval)) name)

/-- A formula of scalars is added safely. -/
theorem accumulate (hs : s.Tame) (hname : localKind name = .scalar) (hv : value.Plain ops s)
    (h : ∀ v, (s.setLocal name v).Tame → Safely ops (s.setLocal name v) rest Q) :
    Safely ops s (.accumulate name value :: rest) Q := assignScalar hs ⟨hname, hv⟩ h

/-- A constant index is declared safely, with its exact value. -/
theorem letWord {n : Nat} (hs : s.Tame) (hname : localKind name = .word) (hv : value.Yields ops s n)
    (h : (s.setLocal name (.word (UInt32.ofNat n))).Tame →
      Safely ops (s.setLocal name (.word (UInt32.ofNat n))) rest Q) :
    Safely ops s (.letDecl name value :: rest) Q := by
  refine letDecl hv.exact fun v heval => ?_
  rw [hv.eval] at heval
  cases heval
  exact h (hs.setWord hname _)

/-- A loop with a block that is safe in every state that differs from the first in what the loop sets. -/
theorem loop {var : String} {count : Nat} {body : List Stmt} (hs : s.Tame)
    (hvar : localKind var = .word) (hcount : count ≤ 2 ^ 32) (hstores : blockStores body = [])
    (hbody : ∀ k t, k < count → t.Tame → Invocation.Frame (var :: blockSets body) [] s t →
      t.locals.find? var = some (.word (UInt32.ofNat k)) → Safely ops t body Invocation.Tame)
    (h : ∀ t, t.Tame → Invocation.Frame (var :: blockSets body) [] s t → Safely ops t rest Q) :
    Safely ops s (.forLoop var count body :: rest) Q := by
  refine forLoop hcount (fun _ t => t.Tame ∧ Invocation.Frame (var :: blockSets body) [] s t)
    ⟨hs, .refl _ _ s⟩ ?_ fun t ht => h t ht.1 ht.2
  rintro k t hk ⟨ht, hframe⟩
  have hround : Invocation.Frame (var :: blockSets body) [] s
      (t.setLocal var (.word (UInt32.ofNat k))) :=
    (hframe.trans (.setLocal t var _)).mono (by simp) (by simp)
  refine (hbody k _ hk (ht.setWord hvar _) hround (by simp)).withFrame fun u hu htame => ⟨htame, ?_⟩
  rw [hstores] at hu
  exact (hround.trans hu).mono (by simp) (by simp)

end Stmt.Safely

/-! ## Operands -/

/-- The buffer of the operand is as long as the operand, and a local that stands for it is a scalar. -/
def Operand.Sized (s : Invocation α) (o : Operand) : Prop :=
  match o.source with
  | .const _ => True
  | .var name => localKind name = .scalar
  | .buffer name => ∀ data, s.buffer? name = some data → data.size = o.shape.size

/-- The sizes of an operand's buffer survive code that stores nothing. -/
theorem Operand.Sized.of_frame {o : Operand} (h : o.Sized s) {sets : List String} {t : Invocation α}
    (hframe : Invocation.Frame sets [] s t) : o.Sized t := by
  unfold Operand.Sized at h ⊢
  cases ho : o.source with
  | const c => trivial
  | var name => simpa only [ho] using h
  | buffer name =>
    simp only [ho] at h ⊢
    rwa [hframe.buffer?_eq]

/-- A load below the length of its buffer. -/
theorem Expr.plain_load {buffer : String} {position : Expr} {p n : Nat}
    (hdata : ∀ data, s.buffer? buffer = some data → data.size = n) (hp : position.Yields ops s p)
    (hlt : p < n) : (Expr.load buffer position).Plain ops s := by
  refine .load hp.exact fun i data hi hfound => ?_
  rw [hp.eval] at hi
  cases hi
  rwa [UInt32.toNat_ofNat_of_lt' hp.lt, hdata data hfound]

/-- Reading an operand below its size. -/
theorem Operand.Sized.plain_read {o : Operand} (h : o.Sized s) {position : Expr} {p : Nat}
    (hp : position.Yields ops s p) (hlt : p < o.shape.size) : (o.read position).Plain ops s := by
  unfold Operand.Sized at h
  unfold Operand.read
  cases ho : o.source with
  | const c => trivial
  | var name =>
    simp only [ho] at h
    exact h
  | buffer name =>
    simp only [ho] at h ⊢
    exact Expr.plain_load h hp hlt

/-- The position that an access designates. -/
theorem Access.yields_index {i m n : Nat} {a : Access} (h : a.Covers m n) (hi : i < n) (hn : n < 2 ^ 32)
    (hm : m < 2 ^ 32) (hs : s.index = UInt32.ofNat i) : a.index.Yields ops s (a.position i) := by
  have hi' : i < 2 ^ 32 := Nat.lt_trans hi hn
  have hindex : Expr.index.Yields ops s i := .index hs hi'
  cases a with
  | aligned => exact hindex
  | scalar count => exact .ofNat (by decide)
  | row rows cols =>
    obtain ⟨rfl, rfl⟩ := h
    have hpos : 0 < m := Nat.pos_of_ne_zero fun h0 => by simp [h0] at hi
    exact hindex.mod (.ofNat hm) hpos
  | col cols =>
    have hn' : n = m * cols := h
    have hpos : 0 < cols := Nat.pos_of_ne_zero fun h0 => by simp [hn', h0] at hi
    have hm' : 0 < m := Nat.pos_of_ne_zero fun h0 => by simp [hn', h0] at hi
    have hcols : cols < 2 ^ 32 := Nat.lt_of_le_of_lt (Nat.le_mul_of_pos_left cols hm') (hn' ▸ hn)
    exact hindex.div (.ofNat hcols) hpos
  | permuted rows cols =>
    obtain ⟨rfl, hn'⟩ := h
    have hpos : 0 < rows := Nat.pos_of_ne_zero fun h0 => by simp [hn', h0] at hi
    have hcols : 0 < cols := Nat.pos_of_ne_zero fun h0 => by simp [hn', h0] at hi
    have hrows : rows < 2 ^ 32 := Nat.lt_of_le_of_lt (Nat.le_mul_of_pos_right rows hcols) hm
    have hcols' : cols < 2 ^ 32 := Nat.lt_of_le_of_lt (Nat.le_mul_of_pos_left cols hpos) hm
    exact .rowMajor (hindex.mod (.ofNat hrows) hpos) (.ofNat hcols') (hindex.div (.ofNat hrows) hpos)
      (Nat.mod_lt i hpos) (Nat.div_lt_of_lt_mul (by rwa [← hn'])) hm

/-- The position at which a contribution to the operand is stored. -/
theorem Access.yields_partialIndex {i m n : Nat} {a : Access} (h : a.Covers m n) (hi : i < n)
    (hn : n < 2 ^ 32) (hm : m < 2 ^ 32) (hs : s.index = UInt32.ofNat i) :
    a.partialIndex.Yields ops s (a.stored i) := by
  cases a with
  | permuted rows cols => exact Access.yields_index h hi hn hm hs
  | _ => exact .index hs (Nat.lt_trans hi hn)

/-- The value of an operand at an index of the result. -/
theorem Operand.Sized.plain_value {o : Operand} (h : o.Sized s) {i n : Nat}
    (hcov : o.access.Covers o.shape.size n) (hi : i < n) (hn : n < 2 ^ 32)
    (hbound : o.shape.size < 2 ^ 32) (hs : s.index = UInt32.ofNat i) : o.value.Plain ops s :=
  h.plain_read (Access.yields_index hcov hi hn hbound hs) (hcov.position_lt hi)

/-! ## Formulas -/

/-- The code of a function of one element is a formula of scalars. -/
theorem UnaryOp.plain_forward (f : UnaryOp) {e : Expr} (he : e.Plain ops s) :
    (f.forward e).Plain ops s := by
  cases f with
  | relu => exact ⟨he, trivial⟩
  | sigmoid => exact ⟨trivial, trivial, he⟩
  | leakyRelu slope => exact ⟨⟨he, trivial⟩, he, trivial, he⟩
  | tanh => exact he
  | exp => exact he
  | log => exact he
  | sqrt => exact he

/-- The code of an arithmetic operator is a formula of scalars. -/
theorem BinaryOp.plain_forward (f : BinaryOp) {e e' : Expr} (he : e.Plain ops s)
    (he' : e'.Plain ops s) : (f.forward e e').Plain ops s := by
  cases f <;> exact ⟨he, he'⟩

/-- The code that clamps a probability is a formula of scalars. -/
theorem plain_clampedProbability {e : Expr} (he : e.Plain ops s) :
    (clampedProbability e).Plain ops s := ⟨he, trivial, trivial⟩

/-- The code of a loss is a formula of scalars. -/
theorem LossOp.plain_forward (f : LossOp) {e e' : Expr} (he : e.Plain ops s)
    (he' : e'.Plain ops s) : (f.forward e e').Plain ops s := by
  have hp := plain_clampedProbability he
  cases f with
  | meanSquaredError => exact ⟨⟨he, he'⟩, he, he'⟩
  | binaryCrossEntropy => exact ⟨⟨he', hp⟩, ⟨trivial, he'⟩, trivial, hp⟩
  | crossEntropy => exact ⟨he', hp⟩

/-- The rule of a function of one element is a formula of scalars. -/
theorem UnaryOp.plain_gradient (f : UnaryOp) {g x y : Expr} (hg : g.Plain ops s) (hx : x.Plain ops s)
    (hy : y.Plain ops s) : (f.gradient g x y).Plain ops s := by
  cases f with
  | relu => exact ⟨⟨hx, trivial⟩, hg, trivial⟩
  | sigmoid => exact ⟨⟨hg, hy⟩, trivial, hy⟩
  | leakyRelu slope => exact ⟨hg, ⟨hx, trivial⟩, trivial, trivial⟩
  | tanh => exact ⟨hg, trivial, hy, hy⟩
  | exp => exact ⟨hg, hy⟩
  | log => exact ⟨hg, hx⟩
  | sqrt => exact ⟨hg, trivial, hy⟩

/-- The rules of an arithmetic operator are formulas of scalars. -/
theorem BinaryOp.plain_gradients (f : BinaryOp) {g a b e : Expr} (hg : g.Plain ops s)
    (ha : a.Plain ops s) (hb : b.Plain ops s) (he : some e ∈ f.gradients g a b) : e.Plain ops s := by
  cases f <;> simp only [gradients, List.mem_cons, Option.some.injEq, List.not_mem_nil, or_false] at he <;>
    rcases he with rfl | rfl
  · exact hg
  · exact hg
  · exact hg
  · exact hg
  · exact ⟨hg, hb⟩
  · exact ⟨hg, ha⟩
  · exact ⟨hg, hb⟩
  · exact ⟨⟨hg, ha⟩, hb, hb⟩

/-- The rules of a loss are formulas of scalars. -/
theorem LossOp.plain_gradients (f : LossOp) {g p y e : Expr} (hg : g.Plain ops s) (hp : p.Plain ops s)
    (hy : y.Plain ops s) (he : some e ∈ f.gradients g p y) : e.Plain ops s := by
  have hp' := plain_clampedProbability hp
  cases f <;> simp only [gradients, List.mem_cons, Option.some.injEq, List.not_mem_nil, or_false] at he <;>
    rcases he with rfl | rfl
  · exact ⟨⟨trivial, hp, hy⟩, hg⟩
  · exact ⟨⟨trivial, hp, hy⟩, hg⟩
  · exact ⟨⟨hg, hp', hy⟩, hp', trivial, hp'⟩
  · exact ⟨hg, ⟨trivial, hp'⟩, hp'⟩
  · exact ⟨⟨hg, hy⟩, hp'⟩
  · exact ⟨hg, hp'⟩

/-- The gradient terms of a regular operator are formulas of its incoming gradient, its operands and its
result. -/
theorem Op.plain_gradients (op : Op) {g y e : Expr} {x : Nat → Expr} (hg : g.Plain ops s)
    (hx : ∀ i, (x i).Plain ops s) (hy : y.Plain ops s) (he : some e ∈ op.gradients g x y) :
    e.Plain ops s := by
  cases op with
  | unary f =>
    simp only [gradients, List.mem_cons, Option.some.injEq, List.not_mem_nil, or_false] at he
    exact he ▸ f.plain_gradient hg (hx 0) hy
  | binary f => exact f.plain_gradients hg (hx 0) (hx 1) he
  | loss f => exact f.plain_gradients hg (hx 0) (hx 1) he
  | reshape shape =>
    simp only [gradients, List.mem_cons, Option.some.injEq, List.not_mem_nil, or_false] at he
    exact he ▸ hg
  | transpose =>
    simp only [gradients, List.mem_cons, Option.some.injEq, List.not_mem_nil, or_false] at he
    exact he ▸ hg
  | dropout rate =>
    simp only [gradients, List.mem_cons, Option.some.injEq, List.not_mem_nil, or_false, reduceCtorEq]
      at he
    exact he ▸ ⟨hg, hx 1⟩
  | affine norm =>
    simp only [gradients, List.mem_cons, Option.some.injEq, List.not_mem_nil, or_false] at he
    rcases he with rfl | rfl | rfl
    · exact ⟨hg, hx 1⟩
    · exact ⟨hg, hx 0⟩
    · exact hg
  | matmul => cases he
  | fold f axis => cases he
  | softmax => cases he

/-! ## Forward code -/

section Forward

variable {i : Nat} {out : String}

/-- The code of a matrix product stays inside of its operands. -/
theorem matmulForward_safely {a b : Operand} (ha : a.Sized s) (hb : b.Sized s) (hs : s.Tame)
    (habound : a.shape.size < 2 ^ 32) (hbbound : b.shape.size < 2 ^ 32)
    (hinner : a.shape.asMatrix.2 = b.shape.asMatrix.1) (hindex : s.index = UInt32.ofNat i)
    (hi : i < a.shape.asMatrix.1 * b.shape.asMatrix.2)
    (hsize : a.shape.asMatrix.1 * b.shape.asMatrix.2 < 2 ^ 32) :
    Stmt.Safely ops s (matmulForward out a b) Invocation.Tame := by
  have hasize := a.shape.asMatrix_size
  have hbsize := b.shape.asMatrix_size
  unfold matmulForward
  dsimp only
  generalize a.shape.asMatrix.1 = m at *
  generalize a.shape.asMatrix.2 = k at *
  generalize b.shape.asMatrix.2 = n at *
  obtain ⟨⟨hm, -⟩, hn, hn'⟩ := dims_of_lt hi hsize
  have hk' : k < 2 ^ 32 := Nat.lt_of_le_of_lt (Nat.le_mul_of_pos_left k hm) (hasize ▸ habound)
  have hi' : i < 2 ^ 32 := Nat.lt_trans hi hsize
  have hdiv : i / n < m := Nat.div_lt_of_lt_mul (by rwa [Nat.mul_comm])
  refine .letWord hs (localKind_row out) ((Expr.Yields.index hindex hi').div (.ofNat hn') hn) fun h₁ => ?_
  refine .letWord h₁ (localKind_col out)
    ((Expr.Yields.index (by simpa using hindex) hi').mod (.ofNat hn') hn) fun h₂ => ?_
  refine .varScalar h₂ trivial fun v h₃ => ?_
  refine .loop h₃ (localKind_k out) (Nat.le_of_lt hk') rfl ?_ ?_
  · intro j t hj ht hframe hstep
    have hall : Invocation.Frame ([out ++ "_row"] ++ [out ++ "_col"] ++ [out ++ "_acc"] ++ _) [] s t :=
      (((Invocation.Frame.setLocal s (out ++ "_row") _).trans (.setLocal _ (out ++ "_col") _)).trans
        (.setLocal _ (out ++ "_acc") _)).trans hframe
    have hrow : (Expr.var (out ++ "_row")).Yields ops t (i / n) := by
      refine .var ?_ (Nat.lt_of_le_of_lt (Nat.div_le_self i n) hi')
      rw [hframe.locals _ (by simp [Stmt.blockSets, Stmt.sets, Stmt.accumulate])]
      simp
    have hcol : (Expr.var (out ++ "_col")).Yields ops t (i % n) := by
      refine .var ?_ (Nat.lt_of_le_of_lt (Nat.mod_le i n) hi')
      rw [hframe.locals _ (by simp [Stmt.blockSets, Stmt.sets, Stmt.accumulate])]
      simp
    have hstep : (Expr.var (out ++ "_k")).Yields ops t j := .var hstep (Nat.lt_trans hj hk')
    refine .accumulate ht (localKind_acc out) ⟨?_, ?_⟩ fun _ h => .nil h
    · refine (ha.of_frame hall).plain_read (hrow.rowMajor (.ofNat hk') hstep hdiv hj ?_) ?_
      · rwa [hasize]
      · rw [← hasize]
        exact row_add_lt hdiv hj
    · refine (hb.of_frame hall).plain_read (hstep.rowMajor (.ofNat hn') hcol hj (Nat.mod_lt i hn) ?_) ?_
      · rwa [hinner, hbsize]
      · rw [← hbsize, ← hinner]
        exact row_add_lt hj (Nat.mod_lt i hn)
  · intro t ht _
    exact .letScalar ht (localKind_acc out) fun _ h => .nil h

/-- The code that finishes a fold is a formula of scalars. -/
theorem FoldOp.plain_finish (f : FoldOp) (count : Nat) {e : Expr} (he : e.Plain ops s) :
    (f.finish e count).Plain ops s := by
  cases f
  · exact he
  · exact ⟨he, trivial⟩

/-- The dimensions of a fold are few where its operand has an element. -/
theorem foldDims_lt (axis : Axis) {shape : Shape} (hpos : 0 < shape.size) (hsize : shape.size < 2 ^ 32) :
    (foldDims axis shape).1 < 2 ^ 32 ∧ (foldDims axis shape).2 < 2 ^ 32 := by
  rw [← foldDims_size axis shape] at hpos hsize
  obtain ⟨⟨-, hrows⟩, -, hcols⟩ := dims_of_lt hpos hsize
  exact ⟨hrows, hcols⟩

/-- The code of a fold stays inside of its operand. -/
theorem foldForward_safely (f : FoldOp) (axis : Axis) {o : Operand} (ho : o.Sized s) (hs : s.Tame)
    (hbound : o.shape.size < 2 ^ 32) (hindex : s.index = UInt32.ofNat i)
    (hi : i < (foldShape axis o.shape).size) (hsize : (foldShape axis o.shape).size < 2 ^ 32) :
    Stmt.Safely ops s (foldForward f axis out o) Invocation.Tame := by
  have hcount : foldCount axis o.shape ≤ 2 ^ 32 := by
    -- an empty axis may stand beside a long one, but only the folded one is counted
    rcases Nat.eq_zero_or_pos (foldCount axis o.shape) with h0 | hpos
    · omega
    · have hlt := foldDims_lt axis (Nat.lt_of_le_of_lt (Nat.zero_le _)
        (foldPosition_lt axis o.shape hi hpos)) hbound
      unfold foldCount
      cases axis
      · exact Nat.le_of_lt hlt.2
      · exact Nat.le_of_lt hlt.1
  unfold foldForward
  refine .varScalar hs trivial fun v h₁ => ?_
  refine .loop h₁ (localKind_k out) hcount rfl ?_ ?_
  · intro k t hk ht hframe hstep
    have hlt := foldPosition_lt axis o.shape hi hk
    have hdims := foldDims_lt axis (Nat.lt_of_le_of_lt (Nat.zero_le _) hlt) hbound
    have hall : Invocation.Frame ([out ++ "_acc"] ++ _) [] s t :=
      (Invocation.Frame.setLocal s (out ++ "_acc") _).trans hframe
    have hindex : Expr.index.Yields ops t i := .index (hall.index.trans hindex) (Nat.lt_trans hi hsize)
    have hstep : (Expr.var (out ++ "_k")).Yields ops t k :=
      .var hstep (Nat.lt_of_lt_of_le hk hcount)
    refine .accumulate ht (localKind_acc out) ?_ fun _ h => .nil h
    refine (ho.of_frame hall).plain_read ?_ hlt
    have hadd := Nat.lt_trans hlt hbound
    cases axis with
    | last =>
      have hmul : i * (foldDims .last o.shape).2 < 2 ^ 32 :=
        Nat.lt_of_le_of_lt (Nat.le_add_right _ k) hadd
      exact (hindex.mul (.ofNat hdims.2) hmul).add hstep hadd
    | first =>
      have hmul : k * (foldDims .first o.shape).2 < 2 ^ 32 :=
        Nat.lt_of_le_of_lt (Nat.le_add_right _ i) hadd
      exact (hstep.mul (.ofNat hdims.2) hmul).add hindex hadd
  · intro t ht _
    exact .letScalar ht (f.plain_finish _ (localKind_acc out)) fun _ h => .nil h

/-- The code of a softmax stays inside of its operand. -/
theorem softmaxForward_safely {o : Operand} (ho : o.Sized s) (hs : s.Tame)
    (hbound : o.shape.size < 2 ^ 32) (hindex : s.index = UInt32.ofNat i) (hi : i < o.shape.size) :
    Stmt.Safely ops s (softmaxForward out o) Invocation.Tame := by
  have hi' : i < 2 ^ 32 := Nat.lt_trans hi hbound
  obtain ⟨hpos, hcols⟩ := asMatrix_cols hi hbound
  have hrowlt : ∀ k < o.shape.asMatrix.2,
      i / o.shape.asMatrix.2 * o.shape.asMatrix.2 + k < o.shape.size := fun k hk => row_lt_size hi hk
  unfold softmaxForward
  dsimp only
  generalize o.shape.asMatrix.2 = n at *
  have hrow' : i / n * n < 2 ^ 32 := Nat.lt_of_le_of_lt (Nat.div_mul_le_self i n) hi'
  -- the element of the row that a round of a loop reads
  have hread : ∀ {sets : List String} {t : Invocation α} {k : Nat}, Invocation.Frame sets [] s t →
      t.locals.find? (out ++ "_row") = some (.word (UInt32.ofNat (i / n * n))) →
      t.locals.find? (out ++ "_k") = some (.word (UInt32.ofNat k)) → k < n →
      (o.read (.var (out ++ "_row") + .var (out ++ "_k"))).Plain ops t := by
    intro sets t k hframe hrow hstep hk
    refine (ho.of_frame hframe).plain_read (.add (.var hrow hrow') (.var hstep ?_) ?_) (hrowlt k hk)
    · exact Nat.lt_trans hk hcols
    · exact Nat.lt_trans (hrowlt k hk) hbound
  refine .letWord hs (localKind_row out)
    (((Expr.Yields.index hindex hi').div (.ofNat hcols) hpos).mul (.ofNat hcols) hrow') fun h₁ => ?_
  refine .varScalar h₁ trivial fun v h₂ => ?_
  refine .loop h₂ (localKind_k out) (Nat.le_of_lt hcols) rfl ?_ ?_
  · intro k t hk ht hframe hstep
    refine .assignScalar ht ⟨localKind_max out, ?_⟩ fun _ h => .nil h
    refine hread (((Invocation.Frame.setLocal s (out ++ "_row") _).trans (.setLocal _ (out ++ "_max") _)).trans
      hframe) ?_ hstep hk
    rw [hframe.locals _ (by simp [Stmt.blockSets, Stmt.sets])]
    simp
  · intro t ht hframe
    have hrow : t.locals.find? (out ++ "_row") = some (.word (UInt32.ofNat (i / n * n))) := by
      rw [hframe.locals _ (by simp [Stmt.blockSets, Stmt.sets])]
      simp
    have hall := ((Invocation.Frame.setLocal s (out ++ "_row") _).trans
      (.setLocal _ (out ++ "_max") _)).trans hframe
    refine .varScalar ht trivial fun w h₃ => ?_
    refine .loop h₃ (localKind_k out) (Nat.le_of_lt hcols) rfl ?_ ?_
    · intro k u hk hu hframe' hstep
      refine .accumulate hu (localKind_sum out) ⟨?_, localKind_max out⟩ fun _ h => .nil h
      refine hread ((hall.trans (.setLocal t (out ++ "_sum") _)).trans hframe') ?_ hstep hk
      rw [hframe'.locals _ (by simp [Stmt.blockSets, Stmt.sets, Stmt.accumulate])]
      simp [hrow]
    · intro u hu hframe'
      have hall' := (hall.trans (.setLocal t (out ++ "_sum") w)).trans hframe'
      refine .letScalar hu ⟨⟨?_, localKind_max out⟩, localKind_sum out⟩ fun _ h => .nil h
      exact (ho.of_frame hall').plain_read (.index (hall'.index.trans hindex) hi') hi

/-- Operands that an inferred operator reads below their sizes. -/
structure Op.Reads (op : Op) (s : Invocation α) (operands : List Operand) (shape : Shape) : Prop where
  sized : ∀ o ∈ operands, o.Sized s
  bound : ∀ o ∈ operands, o.shape.size < 2 ^ 32
  boundResult : shape.size < 2 ^ 32
  length : operands.length = op.arity
  infer : op.infer (operands.map Operand.shape) = .ok ⟨shape, operands.map Operand.access⟩
  mask : ∀ rate, op = .dropout rate → ∃ sh, operands.map Operand.shape = [sh, sh]

/-- The values of the operands of a regular operator. -/
theorem Op.Reads.plain_value {op : Op} {operands : List Operand} {shape : Shape}
    (h : op.Reads s operands shape) (hop : op.opClass = .regular) (hi : i < shape.size)
    (hindex : s.index = UInt32.ofNat i) (slot : Nat) :
    (operands.getD slot .absent).value.Plain ops s := by
  have hcov := Op.infer_covers hop (by simpa using h.length) h.mask h.infer
  rw [List.forall₂_map_left_iff, List.forall₂_map_right_iff, List.forall₂_same] at hcov
  rw [List.getD_eq_getElem?_getD]
  cases ho : operands[slot]? with
  | none => trivial
  | some o =>
    have hmem := List.mem_of_getElem? ho
    exact (h.sized o hmem).plain_value (hcov o hmem) hi h.boundResult (h.bound o hmem) hindex

/-- Forward code is safe at an index of the result. -/
theorem Op.forward_safely {op : Op} {operands : List Operand} {shape : Shape}
    (h : op.Reads s operands shape) (hs : s.Tame) (hi : i < shape.size)
    (hindex : s.index = UInt32.ofNat i) :
    Stmt.Safely ops s (op.forward out operands) Invocation.Tame := by
  have hlet : ∀ {e : Expr}, e.Plain ops s →
      Stmt.Safely ops s [.letDecl out e] Invocation.Tame :=
    fun he => .letScalar hs he fun _ h => .nil h
  have hx : op.opClass = .regular → ∀ slot, (operands.getD slot .absent).value.Plain ops s :=
    fun hop => h.plain_value hop hi hindex
  cases op with
  | unary f => exact hlet (f.plain_forward (hx rfl 0))
  | binary f => exact hlet (f.plain_forward (hx rfl 0) (hx rfl 1))
  | loss f => exact hlet (f.plain_forward (hx rfl 0) (hx rfl 1))
  | reshape new => exact hlet (hx rfl 0)
  | transpose => exact hlet (hx rfl 0)
  | dropout rate => exact hlet ⟨hx rfl 0, hx rfl 1⟩
  | affine norm => exact hlet ⟨⟨hx rfl 0, hx rfl 1⟩, hx rfl 2⟩
  | matmul =>
    obtain ⟨a, b, rfl⟩ := List.length_eq_two.1 h.length
    obtain ⟨hshape, hinner⟩ := Op.infer_matmul h.infer
    have hsize : shape.size = a.shape.asMatrix.1 * b.shape.asMatrix.2 := by
      simp [hshape, Shape.size]
    exact matmulForward_safely (h.sized a (by simp)) (h.sized b (by simp)) hs (h.bound a (by simp))
      (h.bound b (by simp)) hinner hindex (hsize ▸ hi) (hsize ▸ h.boundResult)
  | fold f axis =>
    obtain ⟨o, rfl⟩ := List.length_eq_one_iff.1 h.length
    have hshape : foldShape axis o.shape = shape := Op.infer_fold h.infer
    exact foldForward_safely f axis (h.sized o (by simp)) hs (h.bound o (by simp)) hindex (hshape ▸ hi)
      (hshape ▸ h.boundResult)
  | softmax =>
    obtain ⟨o, rfl⟩ := List.length_eq_one_iff.1 h.length
    have hshape : o.shape = shape := Op.infer_softmax h.infer
    exact softmaxForward_safely (h.sized o (by simp)) hs (h.bound o (by simp)) hindex (hshape ▸ hi)

end Forward

/-! ## Seeds -/

/-- Folding a partial buffer into a variable. -/
theorem Access.foldInto_safely {a : Access} {acc source loopVar : String} {element : Expr} {j m n : Nat}
    (hs : s.Tame) (hacc : localKind acc = .scalar) (hloop : localKind loopVar = .word)
    (hvars : ∀ x ∈ element.vars, x ≠ acc ∧ x ≠ loopVar)
    (hdata : ∀ data, s.buffer? source = some data → data.size = n)
    (helement : element.Yields ops s j) (hcov : a.Covers m n) (hj : j < m) (hn : n < 2 ^ 32) :
    Stmt.Safely ops s (a.foldInto acc source element loopVar) Invocation.Tame := by
  -- a loop, by the position that it loads from in each round
  have hrounds : ∀ (count : Nat) (position : Expr) (p : Nat → Nat), count ≤ 2 ^ 32 →
      (∀ k t, k < count → element.Yields ops t j → (Expr.var loopVar).Yields ops t k →
        position.Yields ops t (p k) ∧ p k < n) →
      Stmt.Safely ops s [.forLoop loopVar count [.accumulate acc (.load source position)]]
        Invocation.Tame := by
    intro count position p hcount hposition
    refine .loop hs hloop hcount rfl ?_ fun t ht _ => .nil ht
    intro k t hk ht hframe hstep
    have helement' : element.Yields ops t j := by
      refine helement.of_frame hframe fun x hx hmem => ?_
      simp only [Stmt.blockSets, Stmt.sets, Stmt.accumulate, List.append_nil, List.mem_cons,
        List.not_mem_nil, or_false] at hmem
      rcases hmem with h | h
      · exact (hvars x hx).2 h
      · exact (hvars x hx).1 h
    obtain ⟨hp, hlt⟩ := hposition k t hk helement' (.var hstep (Nat.lt_of_lt_of_le hk hcount))
    refine .accumulate ht hacc (Expr.plain_load ?_ hp hlt) fun _ h => .nil h
    rwa [hframe.buffer?_eq]
  have hone : m = n → Stmt.Safely ops s [.accumulate acc (.load source element)] Invocation.Tame := by
    rintro rfl
    exact .accumulate hs hacc (Expr.plain_load hdata helement hj) fun _ h => .nil h
  cases a with
  | aligned => exact hone hcov
  | permuted rows cols =>
    obtain ⟨hm, hn⟩ := hcov
    exact hone (hm.trans hn.symm)
  | scalar count =>
    obtain ⟨-, rfl⟩ := hcov
    exact hrounds _ _ (fun k => k) (Nat.le_of_lt hn) fun k t hk _ hstep => ⟨hstep, hk⟩
  | row rows cols =>
    obtain ⟨rfl, rfl⟩ := hcov
    have hm : 0 < m := Nat.lt_of_le_of_lt (Nat.zero_le j) hj
    have hrows : rows ≤ rows * m := Nat.le_mul_of_pos_right rows hm
    refine hrounds _ _ (fun k => k * m + j) (by omega) fun k t hk helement hstep => ?_
    have hm' : m < 2 ^ 32 :=
      Nat.lt_of_le_of_lt (Nat.le_mul_of_pos_left m (Nat.lt_of_le_of_lt (Nat.zero_le k) hk)) hn
    exact ⟨hstep.rowMajor (.ofNat hm') helement hk hj hn, row_add_lt hk hj⟩
  | col cols =>
    obtain rfl : n = m * cols := hcov
    have hm : 0 < m := Nat.lt_of_le_of_lt (Nat.zero_le j) hj
    have hcols : cols ≤ m * cols := Nat.le_mul_of_pos_left cols hm
    refine hrounds _ _ (fun k => j * cols + k) (by omega) fun k t hk helement hstep => ?_
    exact ⟨helement.rowMajor (.ofNat (by omega)) hstep hj hk hn, row_add_lt hj hk⟩

/-- Seeding a variable with the incoming gradient at an element. -/
theorem seedCode_safely {name loopVar : String} (isRoot : Bool) {incoming : List PartialBuffer}
    {position : Expr} {j m : Nat} (hs : s.Tame) (hname : localKind name = .scalar)
    (hloop : FoldName loopVar)
    (hvars : ∀ x ∈ position.vars, x ≠ name ∧ ∀ k : Nat, x ≠ loopVar ++ toString k)
    (hposition : position.Yields ops s j) (hj : j < m)
    (hincoming : ∀ p ∈ incoming, (∀ data, s.buffer? p.name = some data → data.size = p.len) ∧
      p.access.Covers m p.len ∧ p.len < 2 ^ 32) :
    Stmt.Safely ops s (seedCode name isRoot incoming position loopVar) Invocation.Tame := by
  -- the folds of some of the buffers, whatever number their loops start with
  have hfolds : ∀ (ps : List PartialBuffer) (first : Nat) (s : Invocation α), s.Tame →
      position.Yields ops s j →
      (∀ p ∈ ps, (∀ data, s.buffer? p.name = some data → data.size = p.len) ∧
        p.access.Covers m p.len ∧ p.len < 2 ^ 32) →
      Stmt.Safely ops s ((ps.mapIdx fun k p =>
        p.access.foldInto name p.name position (loopVar ++ toString (first + k))).flatten)
        Invocation.Tame := by
    intro ps
    induction ps with
    | nil => exact fun first s hs _ _ => .nil hs
    | cons p ps ih =>
      intro first s hs hpos hps
      obtain ⟨hdata, hcov, hsize⟩ := hps p List.mem_cons_self
      rw [List.mapIdx_cons, List.flatten_cons, Nat.add_zero]
      refine .append ((Access.foldInto_safely hs hname (hloop first)
        (fun x hx => ⟨(hvars x hx).1, (hvars x hx).2 first⟩) hdata hpos hcov hj hsize).withFrame ?_)
      intro t hframe ht
      rw [Access.blockStores_foldInto] at hframe
      have hpos' : position.Yields ops t j := by
        refine hpos.of_frame hframe fun x hx hset => ?_
        rcases Access.sets_foldInto _ hset with rfl | rfl
        · exact (hvars _ hx).1 rfl
        · exact (hvars _ hx).2 first rfl
      have hrest := ih (first + 1) t ht hpos' (by
        intro q hq
        rw [hframe.buffer?_eq]
        exact hps q (List.mem_cons_of_mem _ hq))
      simpa only [Nat.add_assoc, Nat.add_comm 1] using hrest
  refine .varScalar hs trivial fun v hv => ?_
  have hstart := hfolds incoming 0 (s.setLocal name v) hv
    (hposition.of_frame (.setLocal s name v) fun x hx hmem =>
      (hvars x hx).1 (List.mem_singleton.1 hmem)) (by simpa using hincoming)
  simpa only [Nat.zero_add] using hstart

/-! ## Gradients of reductions -/

namespace ReductionFrame

variable {r : ReductionFrame} {size : Nat}

/-- The seeds of a frame are safe at the elements of a gradient of `size` elements. -/
structure SafeSeeds (ops : Arithmetic α) (s : Invocation α) (size : Nat) (r : ReductionFrame) : Prop where
  safely : ∀ {sets : List String} {t : Invocation α} {name loopVar : String} {position : Expr} {p : Nat},
    Invocation.Frame sets [] s t → t.Tame → p < size → localKind name = .scalar → FoldName loopVar →
    (∀ x ∈ position.vars, x ≠ name ∧ ∀ k : Nat, x ≠ loopVar ++ toString k) →
    position.Yields ops t p → Stmt.Safely ops t (r.seed name position loopVar) Invocation.Tame
  sets : ∀ {name loopVar x : String} {position : Expr},
    x ∈ Stmt.blockSets (r.seed name position loopVar) → x = name ∨ ∃ k : Nat, x = loopVar ++ toString k
  stores : ∀ (name loopVar : String) (position : Expr),
    Stmt.blockStores (r.seed name position loopVar) = []

/-- A loop that seeds a variable in every round and adds its product with a forward value. -/
theorem SafeSeeds.loop_safely (hr : r.SafeSeeds ops s size) {acc step each fold : String}
    (hnames : Distinct acc step each fold) (hacc : localKind acc = .scalar)
    (hstep : localKind step = .word) (heach : localKind each = .scalar) (hfold : FoldName fold)
    {count : Nat} (hcount : count ≤ 2 ^ 32) {position other : Expr} {sets : List String}
    {t : Invocation α} (hvars : ∀ x ∈ position.vars, x ≠ each ∧ ∀ k : Nat, x ≠ fold ++ toString k)
    (hframe : Invocation.Frame sets [] s t) (ht : t.Tame)
    (hround : ∀ k u sets, k < count → Invocation.Frame sets [] s u →
      (∀ x, Apart acc step each fold x → u.locals.find? x = t.locals.find? x) →
      u.locals.find? step = some (.word (UInt32.ofNat k)) →
      (∃ p, position.Yields ops u p ∧ p < size) ∧ other.Plain ops u) :
    Stmt.Safely ops t [.forLoop step count
      (r.seed each position fold ++ [.accumulate acc (.var each * other)])] fun u =>
      u.Tame ∧ ∃ sets, Invocation.Frame sets [] s u := by
  refine .forLoop hcount (fun _ u => u.Tame ∧ (∃ sets, Invocation.Frame sets [] s u) ∧
    ∀ x, Apart acc step each fold x → u.locals.find? x = t.locals.find? x)
    ⟨ht, ⟨sets, hframe⟩, fun _ _ => rfl⟩ ?_ fun u hu => .nil ⟨hu.1, hu.2.1⟩
  rintro k u hk ⟨hu, ⟨sets', hframe'⟩, hkept⟩
  -- the round starts with the counter set
  have hstart : Invocation.Frame (sets' ++ [step]) [] s (u.setLocal step (.word (UInt32.ofNat k))) :=
    hframe'.trans (.setLocal u step _)
  have hkept' : ∀ x, Apart acc step each fold x →
      (u.setLocal step (.word (UInt32.ofNat k))).locals.find? x = t.locals.find? x := by
    intro x hx
    rw [Invocation.find?_setLocal, if_neg hx.fromStep.symm]
    exact hkept x hx
  obtain ⟨⟨p, hp, hlt⟩, -⟩ := hround k _ _ hk hstart hkept' (by simp)
  refine .append ((hr.safely hstart (hu.setWord hstep _) hlt heach hfold hvars hp).withFrame ?_)
  intro w hseed hw
  rw [hr.stores] at hseed
  have hwkept : ∀ x, x ≠ each → (∀ j : Nat, x ≠ fold ++ toString j) → w.locals.find? x =
      (u.setLocal step (.word (UInt32.ofNat k))).locals.find? x := by
    intro x h₁ h₂
    refine hseed.locals x fun hmem => ?_
    rcases hr.sets hmem with h | ⟨j, h⟩
    · exact h₁ h
    · exact h₂ j h
  have hwframe := hstart.trans hseed
  rw [List.append_nil] at hwframe
  have hwapart : ∀ x, Apart acc step each fold x → w.locals.find? x = t.locals.find? x :=
    fun x hx => (hwkept x hx.fromEach hx.fromFold).trans (hkept' x hx)
  obtain ⟨-, hother⟩ := hround k w _ hk hwframe hwapart (by
    rw [hwkept step hnames.stepEach hnames.stepFold]
    simp)
  refine .accumulate hw hacc ⟨heach, hother⟩ fun v hv =>
    .nil ⟨hv, ⟨_, hwframe.trans (.setLocal w acc v)⟩, fun x hx => ?_⟩
  rw [Invocation.find?_setLocal, if_neg hx.fromAcc.symm]
  exact hwapart x hx

/-- Where every round finds its position and its forward value, the code is safe. -/
theorem SafeSeeds.productSum_safely (hr : r.SafeSeeds ops s size) (hs : s.Tame) {cols count j : Nat}
    {position other : Expr} (hpos : 0 < cols) (hcols : cols < 2 ^ 32) (hcount : count ≤ 2 ^ 32)
    (hindex : s.index = UInt32.ofNat j) (hj : j < 2 ^ 32)
    (hvars : ∀ x ∈ position.vars, x ∈ ["outer", "inner", "j"].map r.localName)
    (hround : ∀ k u sets, k < count → Invocation.Frame sets [] s u →
      (Expr.var (r.localName "outer")).Yields ops u (j / cols) →
      (Expr.var (r.localName "inner")).Yields ops u (j % cols) →
      (Expr.var (r.localName "j")).Yields ops u k →
      (∃ p, position.Yields ops u p ∧ p < size) ∧ other.Plain ops u) :
    Stmt.Safely ops s (r.productSum cols count position other).1 fun t =>
      t.Tame ∧ (r.productSum cols count position other).2.Plain ops t := by
  have hacc : localKind (r.localName "acc") = .scalar := localKind_value (by simp)
  refine .letWord hs (localKind_counter (by simp))
    ((Expr.Yields.index hindex hj).div (.ofNat hcols) hpos) fun h₁ => ?_
  refine .letWord h₁ (localKind_counter (by simp))
    ((Expr.Yields.index (by simpa using hindex) hj).mod (.ofNat hcols) hpos) fun h₂ => ?_
  refine .varScalar h₂ trivial fun v h₃ => ?_
  have hframe := (((Invocation.Frame.setLocal s (r.localName "outer")
    (.word (UInt32.ofNat (j / cols)))).trans
    (.setLocal _ (r.localName "inner") (.word (UInt32.ofNat (j % cols))))).trans
    (.setLocal _ (r.localName "acc") v))
  refine (hr.loop_safely distinct_productSum hacc (localKind_counter (by simp))
    (localKind_value (by simp)) (foldName_append r.stem "f" (by decide) (by decide)) hcount
    (fun x hx => ne_seed_of_productSum (hvars x hx)) hframe h₃ ?_).mono fun u hu => ⟨hu.1, hacc⟩
  intro k u sets hk hu hkept hstep
  refine hround k u sets hk hu (.var ?_ ?_) (.var ?_ ?_) (.var hstep (Nat.lt_of_lt_of_le hk hcount))
  · rw [hkept _ (apart_productSum (by simp))]
    simp [localName_inj]
  · exact Nat.lt_of_le_of_lt (Nat.div_le_self j cols) hj
  · rw [hkept _ (apart_productSum (by simp))]
    simp [localName_inj]
  · exact Nat.lt_of_le_of_lt (Nat.mod_le j cols) hj

end ReductionFrame

section Reductions

variable {r : ReductionFrame} {j : Nat}

/-- The gradient code of a matrix product stays inside of its buffers. -/
theorem matmulGradient_safely {slot : Nat} {a b : Operand} (haoperand : r.operands.getD 0 .absent = a)
    (hboperand : r.operands.getD 1 .absent = b)
    (hr : r.SafeSeeds ops s (a.shape.asMatrix.1 * b.shape.asMatrix.2)) (hs : s.Tame) (ha : a.Sized s)
    (hb : b.Sized s) (habound : a.shape.size < 2 ^ 32) (hbbound : b.shape.size < 2 ^ 32)
    (hbound : a.shape.asMatrix.1 * b.shape.asMatrix.2 < 2 ^ 32)
    (hinner : a.shape.asMatrix.2 = b.shape.asMatrix.1) (hindex : s.index = UInt32.ofNat j)
    (hj : j < if slot = 0 then a.shape.size else b.shape.size) :
    Stmt.Safely ops s (matmulGradient slot r).1 fun t =>
      t.Tame ∧ (matmulGradient slot r).2.Plain ops t := by
  have hasize := a.shape.asMatrix_size
  have hbsize := b.shape.asMatrix_size
  rw [matmulGradient_eq]
  simp only [haoperand, hboperand]
  generalize a.shape.asMatrix.1 = m at *
  generalize a.shape.asMatrix.2 = k at *
  generalize b.shape.asMatrix.2 = n at *
  have hkn : k * n = b.shape.size := by rw [hinner, hbsize]
  by_cases hslot : slot = 0
  · simp only [hslot, if_true] at hj ⊢
    have hj' : j < 2 ^ 32 := Nat.lt_trans hj habound
    obtain ⟨-, hkpos, hk'⟩ := dims_of_lt (hasize ▸ hj) (hasize ▸ habound)
    have hn' : n < 2 ^ 32 := Nat.lt_of_le_of_lt (Nat.le_mul_of_pos_left n hkpos) (hkn ▸ hbbound)
    have hdiv : j / k < m := Nat.div_lt_of_lt_mul (by rwa [Nat.mul_comm, hasize])
    refine hr.productSum_safely hs hkpos hk' (Nat.le_of_lt hn') hindex hj' ?_ ?_
    · intro x hx
      simp only [Expr.vars, Expr.ofNat, List.mem_append, List.mem_cons, List.not_mem_nil, or_false] at hx
      rcases hx with rfl | rfl <;> simp
    · intro i u sets hi hu houter hinner' hstep
      refine ⟨⟨_, houter.rowMajor (.ofNat hn') hstep hdiv hi hbound, row_add_lt hdiv hi⟩, ?_⟩
      refine (hb.of_frame hu).plain_read
        (hinner'.rowMajor (.ofNat hn') hstep (Nat.mod_lt j hkpos) hi (hkn ▸ hbbound)) ?_
      rw [← hkn]
      exact row_add_lt (Nat.mod_lt j hkpos) hi
  · simp only [hslot, if_false] at hj ⊢
    have hj' : j < 2 ^ 32 := Nat.lt_trans hj hbbound
    obtain ⟨-, hnpos, hn'⟩ := dims_of_lt (hkn ▸ hj) (hkn ▸ hbbound)
    have hm' : m < 2 ^ 32 := Nat.lt_of_le_of_lt (Nat.le_mul_of_pos_right m hnpos) hbound
    have hdiv : j / n < k := Nat.div_lt_of_lt_mul (by rwa [Nat.mul_comm, hkn])
    refine hr.productSum_safely hs hnpos hn' (Nat.le_of_lt hm') hindex hj' ?_ ?_
    · intro x hx
      simp only [Expr.vars, Expr.ofNat, List.mem_append, List.mem_cons, List.not_mem_nil, or_false] at hx
      rcases hx with rfl | rfl <;> simp
    · intro i u sets hi hu houter hinner' hstep
      have hmod := Nat.mod_lt j hnpos
      have hk' : k < 2 ^ 32 := Nat.lt_of_le_of_lt
        (Nat.le_mul_of_pos_left k (Nat.lt_of_le_of_lt (Nat.zero_le i) hi)) (hasize ▸ habound)
      refine ⟨⟨_, hstep.rowMajor (.ofNat hn') hinner' hi hmod hbound, row_add_lt hi hmod⟩, ?_⟩
      refine (ha.of_frame hu).plain_read (hstep.rowMajor (.ofNat hk') houter hi hdiv (hasize ▸ habound)) ?_
      rw [← hasize]
      exact row_add_lt hi hdiv

/-- The gradient code of a fold stays inside of its buffers. -/
theorem foldGradient_safely (f : FoldOp) (axis : Axis) {o : Operand}
    (hoperand : r.operands.getD 0 .absent = o) (hr : r.SafeSeeds ops s (foldShape axis o.shape).size)
    (hs : s.Tame) (hbound : o.shape.size < 2 ^ 32) (hindex : s.index = UInt32.ofNat j)
    (hj : j < o.shape.size) :
    Stmt.Safely ops s (foldGradient f axis r).1 fun t =>
      t.Tame ∧ (foldGradient f axis r).2.Plain ops t := by
  have hg : localKind (r.localName "g") = .scalar := ReductionFrame.localKind_value (by simp)
  have hsize := foldDims_size axis o.shape
  have hcols : 0 < (foldDims axis o.shape).2 :=
    Nat.pos_of_ne_zero fun h0 => by simp [← hsize, h0] at hj
  have hcols' := (foldDims_lt axis (Nat.lt_of_le_of_lt (Nat.zero_le j) hj) hbound).2
  have hindex' : Expr.index.Yields ops s j := .index hindex (Nat.lt_trans hj hbound)
  have hseed : ∀ {position : Expr} {p : Nat}, position.vars = [] → position.Yields ops s p →
      p < (foldShape axis o.shape).size →
      Stmt.Safely ops s (r.seed (r.localName "g") position (r.localName "f")) fun t =>
        t.Tame ∧ (f.finish (.var (r.localName "g")) (foldCount axis o.shape)).Plain ops t := by
    intro position p hvars hp hlt
    exact (hr.safely (.refl [] [] s) hs hlt hg (foldName_append r.stem "f" (by decide) (by decide))
      (by simp [hvars]) hp).mono fun t ht => ⟨ht, f.plain_finish _ hg⟩
  unfold foldGradient
  simp only [hoperand]
  rw [size_foldShape] at hseed
  cases axis with
  | last =>
    exact hseed rfl (hindex'.div (.ofNat hcols') hcols)
      (Nat.div_lt_of_lt_mul (by rwa [Nat.mul_comm, hsize]))
  | first => exact hseed rfl (hindex'.mod (.ofNat hcols') hcols) (Nat.mod_lt j hcols)

/-- The gradient code of a softmax stays inside of its buffers. -/
theorem softmaxGradient_safely (hr : r.SafeSeeds ops s r.shape.size) (hs : s.Tame)
    (hy : r.output.Sized s) (hshape : r.output.shape = r.shape) (hbound : r.shape.size < 2 ^ 32)
    (hindex : s.index = UInt32.ofNat j) (hj : j < r.shape.size) :
    Stmt.Safely ops s (softmaxGradient r).1 fun t =>
      t.Tame ∧ (softmaxGradient r).2.Plain ops t := by
  have hnames : ReductionFrame.Distinct (r.localName "acc") (r.localName "k") (r.localName "gk")
      (r.localName "fk") := ReductionFrame.distinct_localName (by decide) (by decide) (by decide)
  have hapart : ReductionFrame.Apart (r.localName "acc") (r.localName "k") (r.localName "gk")
      (r.localName "fk") (r.localName "row") :=
    ReductionFrame.apart_localName (by decide) (by decide) (by decide)
  have hacc : localKind (r.localName "acc") = .scalar := ReductionFrame.localKind_value (by simp)
  have hgi : localKind (r.localName "gi") = .scalar := ReductionFrame.localKind_value (by simp)
  have hj' : j < 2 ^ 32 := Nat.lt_trans hj hbound
  obtain ⟨hpos, hcols⟩ := asMatrix_cols hj hbound
  have hrowlt : j / r.shape.asMatrix.2 * r.shape.asMatrix.2 < 2 ^ 32 :=
    Nat.lt_of_le_of_lt (Nat.div_mul_le_self j _) hj'
  unfold softmaxGradient
  refine .append (.append (.letWord hs
    (ReductionFrame.localKind_counter (by simp))
    (((Expr.Yields.index hindex hj').div (.ofNat hcols) hpos).mul (.ofNat hcols) hrowlt)
    fun h₁ => .nil ?_))
  have hrow := Invocation.Frame.setLocal s (r.localName "row")
    (.word (UInt32.ofNat (j / r.shape.asMatrix.2 * r.shape.asMatrix.2)))
  refine (hr.safely hrow h₁ hj hgi (foldName_append r.stem "fi" (by decide) (by decide))
    (by simp [Expr.vars]) (.index (hrow.index.trans hindex) hj')).withFrame ?_
  intro t hseed ht
  rw [hr.stores] at hseed
  have hframe := hrow.trans hseed
  rw [List.append_nil] at hframe
  have hrow' : t.locals.find? (r.localName "row") =
      some (.word (UInt32.ofNat (j / r.shape.asMatrix.2 * r.shape.asMatrix.2))) := by
    rw [hseed.locals]
    · simp
    · intro hmem
      rcases hr.sets hmem with h | ⟨k, h⟩
      · exact absurd (ReductionFrame.localName_inj.1 h) (by decide)
      · exact ReductionFrame.localName_ne_fold (by decide) (by decide) k h
  refine .varScalar ht trivial fun v h₂ => ?_
  refine (hr.loop_safely hnames hacc
    (ReductionFrame.localKind_counter (by simp))
    (ReductionFrame.localKind_value (by simp))
    (foldName_append r.stem "fk" (by decide) (by decide)) (Nat.le_of_lt hcols) ?_
    (hframe.trans (.setLocal t (r.localName "acc") v)) h₂ ?_).mono ?_
  · intro x hx
    simp only [Expr.vars, List.mem_append, List.mem_cons, List.not_mem_nil, or_false] at hx
    rcases hx with rfl | rfl
    · exact ⟨hapart.fromEach, hapart.fromFold⟩
    · exact ⟨hnames.stepEach, hnames.stepFold⟩
  · intro k u sets hk hu hkept hstep
    have hrowu := hkept _ hapart
    rw [Invocation.find?_setLocal, if_neg hapart.fromAcc.symm, hrow'] at hrowu
    have hlt := row_lt_size hj hk
    have hrowu' : (Expr.var (r.localName "row")).Yields ops u _ := .var hrowu hrowlt
    have hposition := hrowu'.add (.var hstep (Nat.lt_trans hk hcols)) (Nat.lt_trans hlt hbound)
    exact ⟨⟨_, hposition, hlt⟩, (hy.of_frame hu).plain_read hposition (by rwa [hshape])⟩
  · rintro u ⟨hu, sets, hframe'⟩
    refine ⟨hu, ?_, hgi, hacc⟩
    exact (hy.of_frame hframe').plain_read (.index (hframe'.index.trans hindex) hj') (by rwa [hshape])

/-- The gradient code of a reduction is safe at an index of its operand. -/
theorem Op.reductionGradient_safely {op : Op} (hop : op.opClass = .reduction)
    (h : op.Reads s r.operands r.shape) (hr : r.SafeSeeds ops s r.shape.size) (hs : s.Tame)
    (hy : r.output.Sized s) (hshape : r.output.shape = r.shape) {slot : Nat} (hslot : slot < op.arity)
    (hindex : s.index = UInt32.ofNat j) (hj : j < (r.operands.getD slot .absent).shape.size) :
    Stmt.Safely ops s (op.reductionGradient slot r).1 fun t =>
      t.Tame ∧ (op.reductionGradient slot r).2.Plain ops t := by
  cases op with
  | matmul =>
    obtain ⟨a, b, hab⟩ := List.length_eq_two.1 h.length
    have hinfer := h.infer
    rw [hab] at hinfer
    obtain ⟨hresult, hinner⟩ := Op.infer_matmul hinfer
    have hsize : r.shape.size = a.shape.asMatrix.1 * b.shape.asMatrix.2 := by
      simp [hresult, Shape.size]
    refine matmulGradient_safely (by simp [hab]) (by simp [hab]) (hsize ▸ hr) hs
      (h.sized a (by simp [hab])) (h.sized b (by simp [hab])) (h.bound a (by simp [hab]))
      (h.bound b (by simp [hab])) (hsize ▸ h.boundResult) hinner hindex ?_
    have hslot : slot < 2 := hslot
    obtain rfl | rfl : slot = 0 ∨ slot = 1 := by omega
    · simpa [hab] using hj
    · simpa [hab] using hj
  | fold f axis =>
    obtain ⟨o, ho⟩ := List.length_eq_one_iff.1 h.length
    have hinfer := h.infer
    rw [ho] at hinfer
    have hresult : foldShape axis o.shape = r.shape := Op.infer_fold hinfer
    obtain rfl : slot = 0 := Nat.lt_one_iff.1 hslot
    exact foldGradient_safely f axis (by simp [ho]) (hresult ▸ hr) hs (h.bound o (by simp [ho])) hindex
      (by simpa [ho] using hj)
  | softmax =>
    obtain ⟨o, ho⟩ := List.length_eq_one_iff.1 h.length
    have hinfer := h.infer
    rw [ho] at hinfer
    have hresult : o.shape = r.shape := Op.infer_softmax hinfer
    obtain rfl : slot = 0 := Nat.lt_one_iff.1 hslot
    refine softmaxGradient_safely hr hs hy hshape h.boundResult hindex ?_
    rw [← hresult]
    simpa [ho] using hj
  | unary f => cases hop
  | binary f => cases hop
  | loss f => cases hop
  | reshape shape => cases hop
  | transpose => cases hop
  | dropout rate => cases hop
  | affine norm => cases hop

end Reductions

end TensorKernels
