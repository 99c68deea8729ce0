import TensorKernels.Layout.Backward
import TensorKernels.Proofs.ForwardCode

/-!
# Gradient code

Gradient code is scoped: a rule of a regular operator reads only the forward values that `Op.reads`
lists (`Op.gradients_typed`), and the gradient of a reduction needs its operands, its result and the
code that seeds a variable with the incoming gradient (`Op.reductionGradient_typed`).
-/

set_option autoImplicit false

namespace TensorKernels

section Typed

variable {scope buffers : List String}

/-! ## Seeds -/

/-- The kind of a local of a reduction's gradient, from the last part of its name. -/
theorem localKind_word (a w : String) (hw : '_' ∉ w.toList) :
    localKind (a ++ "_" ++ w) =
      if w.toList ∈ ["row".toList, "col".toList, "k".toList, "j".toList, "outer".toList, "inner".toList] ∨
        w.toList.head? = some 'f' then .word else .scalar := by
  rw [String.append_assoc]
  exact localKind_append a (by rw [String.toList_append]; rfl) hw

/-- Loops that fold partial buffers count with words. -/
theorem localKind_fold (a w : String) (hhead : w.toList.head? = some 'f') (hw : '_' ∉ w.toList)
    (j : Nat) : localKind (a ++ "_" ++ w ++ toString j) = .word := by
  rw [String.append_assoc, localKind_word, if_pos]
  · rw [String.toList_append, List.head?_append, hhead]
    exact .inr rfl
  · rw [String.toList_append, List.mem_append, not_or]
    exact ⟨hw, underscore_not_mem_toString j⟩

/-- Names of the loops of a seed. -/
def FoldName (loopVar : String) : Prop := ∀ j : Nat, localKind (loopVar ++ toString j) = .word

/-- A name that ends in a loop suffix is a word. -/
theorem foldName_append (a w : String) (hhead : w.toList.head? = some 'f') (hw : '_' ∉ w.toList) :
    FoldName (a ++ "_" ++ w) := localKind_fold a w hhead hw

/-- The loop variables of accumulators are words. -/
theorem foldName_gradName (id : Nat) : FoldName (gradName id ++ "_f") := by
  have h := foldName_append (gradName id) "f" (by decide) (by decide)
  rwa [String.append_assoc, show "_" ++ "f" = "_f" by decide] at h

/-- The code that folds a partial buffer into an accumulator is well typed. -/
theorem Access.foldInto_typed (access : Access) {acc source loopVar : String} {element : Expr}
    (hacc : acc ∈ scope) (hkind : localKind acc = .scalar) (hsource : source ∈ buffers)
    (helement : element.Typed localKind scope buffers .word) (hloop : localKind loopVar = .word) :
    Stmt.BlockTyped localKind scope buffers [] (access.foldInto acc source element loopVar) := by
  have hmono : element.Typed localKind (loopVar :: scope) buffers .word :=
    helement.mono (List.subset_cons_self _ _) (List.Subset.refl _)
  have hvar : (Expr.var loopVar).Typed localKind (loopVar :: scope) buffers .word :=
    .var (by simp) hloop
  -- the loops differ in the position they load from
  have hloops : ∀ {position : Expr} (count : Nat),
      position.Typed localKind (loopVar :: scope) buffers .word →
      Stmt.BlockTyped localKind scope buffers []
        [.forLoop loopVar count [.accumulate acc (.load source position)]] :=
    fun count hposition => .forLoop hloop
      (.accumulate (by simp [hacc]) hkind (.load hsource hposition) .nil) .nil
  cases access with
  | aligned => exact .accumulate hacc hkind (.load hsource helement) .nil
  | permuted rows cols => exact .accumulate hacc hkind (.load hsource helement) .nil
  | scalar count => exact hloops count hvar
  | row rows cols =>
    exact hloops rows (.add (by decide) (.mul (by decide) hvar (.ofNat cols)) hmono)
  | col cols =>
    exact hloops cols (.add (by decide) (.mul (by decide) hmono (.ofNat cols)) hvar)

/-- A seed is scoped, and it declares its variable. -/
theorem seedCode_typed {name loopVar : String} (isRoot : Bool) {incoming : List PartialBuffer}
    {position : Expr} (hname : localKind name = .scalar)
    (hincoming : ∀ p ∈ incoming, p.name ∈ buffers)
    (hposition : position.Typed localKind scope buffers .word) (hloop : FoldName loopVar) :
    Stmt.BlockTyped localKind scope buffers [] (seedCode name isRoot incoming position loopVar) ∧
      name ∈ Stmt.blockDeclares (seedCode name isRoot incoming position loopVar) := by
  refine ⟨?_, ?_⟩
  · refine .varDecl (hname ▸ .float _) (.flatten ?_)
    intro block hblock
    obtain ⟨j, hj, rfl⟩ := List.mem_mapIdx.1 hblock
    refine Access.foldInto_typed _ (by simp) hname (hincoming _ (List.getElem_mem hj)) ?_ (hloop j)
    exact hposition.mono (List.subset_cons_self _ _) (List.Subset.refl _)
  · simp [seedCode, Stmt.blockDeclares, Stmt.declares]

/-! ## Rules of regular operators -/

variable {g y : Expr} {x : Nat → Expr}

/-- The rule of a function of one element is well typed if what it reads is. -/
theorem UnaryOp.gradient_typed (f : UnaryOp) {z : Expr} (hg : g.Typed localKind scope buffers .scalar)
    (hx : .operand 0 ∈ f.reads → z.Typed localKind scope buffers .scalar)
    (hy : .output ∈ f.reads → y.Typed localKind scope buffers .scalar) :
    (f.gradient g z y).Typed localKind scope buffers .scalar := by
  have hone : (Expr.float 1.0).Typed localKind scope buffers .scalar := .float 1.0
  have hgt : ∀ hz : z.Typed localKind scope buffers .scalar,
      (z.gt (.float 0.0)).Typed localKind scope buffers .truth :=
    fun hz => .binary hz (.float 0.0) rfl
  cases f with
  | relu =>
    have hz := hx (by simp [UnaryOp.reads])
    exact .select (hgt hz) hg (.float 0.0)
  | sigmoid =>
    have hy := hy (by simp [UnaryOp.reads])
    exact .mul (by decide) (.mul (by decide) hg hy) (.sub hone hy)
  | leakyRelu slope =>
    have hz := hx (by simp [UnaryOp.reads])
    exact .mul (by decide) hg (.select (hgt hz) hone (.float slope))
  | tanh =>
    have hy := hy (by simp [UnaryOp.reads])
    exact .mul (by decide) hg (.sub hone (.mul (by decide) hy hy))
  | exp => exact .mul (by decide) hg (hy (by simp [UnaryOp.reads]))
  | log => exact .div (by decide) hg (hx (by simp [UnaryOp.reads]))
  | sqrt =>
    have hy := hy (by simp [UnaryOp.reads])
    exact .div (by decide) hg (.mul (by decide) (.float 2.0) hy)

/-- The rules of an arithmetic operator are well typed if what they read is. -/
theorem BinaryOp.gradients_typed (f : BinaryOp) {a b e : Expr}
    (hg : g.Typed localKind scope buffers .scalar)
    (ha : .operand 0 ∈ f.reads → a.Typed localKind scope buffers .scalar)
    (hb : .operand 1 ∈ f.reads → b.Typed localKind scope buffers .scalar)
    (he : some e ∈ f.gradients g a b) : e.Typed localKind scope buffers .scalar := by
  cases f with
  | add =>
    simp only [gradients, List.mem_cons, Option.some.injEq, List.not_mem_nil, or_false, or_self] at he
    exact he ▸ hg
  | sub =>
    simp only [gradients, List.mem_cons, Option.some.injEq, List.not_mem_nil, or_false] at he
    rcases he with rfl | rfl
    · exact hg
    · exact .neg hg
  | mul =>
    have ha := ha (by simp [BinaryOp.reads])
    have hb := hb (by simp [BinaryOp.reads])
    simp only [gradients, List.mem_cons, Option.some.injEq, List.not_mem_nil, or_false] at he
    rcases he with rfl | rfl
    · exact .mul (by decide) hg hb
    · exact .mul (by decide) hg ha
  | div =>
    have ha := ha (by simp [BinaryOp.reads])
    have hb := hb (by simp [BinaryOp.reads])
    simp only [gradients, List.mem_cons, Option.some.injEq, List.not_mem_nil, or_false] at he
    rcases he with rfl | rfl
    · exact .div (by decide) hg hb
    · exact .div (by decide) (.neg (.mul (by decide) hg ha)) (.mul (by decide) hb hb)

/-- The rules of a loss are well typed. -/
theorem LossOp.gradients_typed (f : LossOp) {p t e : Expr}
    (hg : g.Typed localKind scope buffers .scalar) (hp : p.Typed localKind scope buffers .scalar)
    (ht : t.Typed localKind scope buffers .scalar) (he : some e ∈ f.gradients g p t) :
    e.Typed localKind scope buffers .scalar := by
  have hone : (Expr.float 1.0).Typed localKind scope buffers .scalar := .float 1.0
  have hclamp := typed_clampedProbability hp
  cases f with
  | meanSquaredError =>
    have hd : (.float 2.0 * (p - t) * g : Expr).Typed localKind scope buffers .scalar :=
      .mul (by decide) (.mul (by decide) (.float 2.0) (.sub hp ht)) hg
    simp only [gradients, List.mem_cons, Option.some.injEq, List.not_mem_nil, or_false] at he
    rcases he with rfl | rfl
    · exact hd
    · exact .neg hd
  | binaryCrossEntropy =>
    simp only [gradients, List.mem_cons, Option.some.injEq, List.not_mem_nil, or_false] at he
    rcases he with rfl | rfl
    · exact .div (by decide) (.mul (by decide) hg (.sub hclamp ht))
        (.mul (by decide) hclamp (.sub hone hclamp))
    · exact .mul (by decide) hg (.sub (.unary .log (.sub hone hclamp)) (.unary .log hclamp))
  | crossEntropy =>
    simp only [gradients, List.mem_cons, Option.some.injEq, List.not_mem_nil, or_false] at he
    rcases he with rfl | rfl
    · exact .neg (.div (by decide) (.mul (by decide) hg ht) hclamp)
    · exact .neg (.mul (by decide) hg (.unary .log hclamp))

/-- The rule of a regular operator is scoped, where the forward values it reads are. -/
theorem Op.gradients_typed (op : Op) {e : Expr} (hg : g.Typed localKind scope buffers .scalar)
    (hx : ∀ i, .operand i ∈ op.reads → (x i).Typed localKind scope buffers .scalar)
    (hy : .output ∈ op.reads → y.Typed localKind scope buffers .scalar)
    (he : some e ∈ op.gradients g x y) : e.Typed localKind scope buffers .scalar := by
  cases op with
  | unary f =>
    obtain rfl : e = f.gradient g (x 0) y := by simpa [gradients] using he
    exact f.gradient_typed hg (hx 0) hy
  | binary f => exact f.gradients_typed hg (hx 0) (hx 1) he
  | loss f => exact f.gradients_typed hg (hx 0 (by simp [reads])) (hx 1 (by simp [reads])) he
  | reshape shape =>
    obtain rfl : e = g := by simpa [gradients] using he
    exact hg
  | transpose =>
    obtain rfl : e = g := by simpa [gradients] using he
    exact hg
  | dropout rate =>
    obtain rfl : e = g * x 1 := by simpa [gradients] using he
    exact .mul (by decide) hg (hx 1 (by simp [reads]))
  | affine norm =>
    simp only [gradients, List.mem_cons, Option.some.injEq, List.not_mem_nil, or_false] at he
    rcases he with rfl | rfl | rfl
    · exact .mul (by decide) hg (hx 1 (by simp [reads]))
    · exact .mul (by decide) hg (hx 0 (by simp [reads]))
    · exact hg
  | matmul => cases he
  | fold f axis => cases he
  | softmax => cases he

/-! ## Gradients of reductions -/

namespace ReductionFrame

/-- What a frame offers to gradient code. -/
structure Typed (buffers : List String) (r : ReductionFrame) : Prop where
  operands : ∀ o ∈ r.operands, o.Available [] buffers
  output : r.output.Available [] buffers
  seed : ∀ (scope : List String) {name loopVar : String} {position : Expr}, localKind name = .scalar →
    position.Typed localKind scope buffers .word → FoldName loopVar →
    Stmt.BlockTyped localKind scope buffers [] (r.seed name position loopVar) ∧
      name ∈ Stmt.blockDeclares (r.seed name position loopVar)

variable {r : ReductionFrame}

/-- The kind of a local of a gradient block follows from its suffix. -/
theorem localKind_localName (w : String) (hw : '_' ∉ w.toList) :
    localKind (r.localName w) =
      if w.toList ∈ ["row".toList, "col".toList, "k".toList, "j".toList, "outer".toList, "inner".toList] ∨
        w.toList.head? = some 'f' then .word else .scalar := localKind_word r.stem w hw

/-- Rows, columns and counters are words. -/
theorem localKind_counter {w : String} (hw : w ∈ ["row", "col", "k", "j", "outer", "inner"]) :
    localKind (r.localName w) = .word := by
  simp only [List.mem_cons, List.not_mem_nil, or_false] at hw
  rcases hw with rfl | rfl | rfl | rfl | rfl | rfl <;>
    exact (localKind_localName _ (by decide)).trans (by decide)

/-- Sums and seeds are scalars. -/
theorem localKind_value {w : String} (hw : w ∈ ["acc", "g", "gi", "gk"]) :
    localKind (r.localName w) = .scalar := by
  simp only [List.mem_cons, List.not_mem_nil, or_false] at hw
  rcases hw with rfl | rfl | rfl | rfl <;>
    exact (localKind_localName _ (by decide)).trans (by decide)

/-- Reading an operand in a gradient block gives a scalar. -/
theorem Typed.read (h : r.Typed buffers) (i : Nat) {position : Expr}
    (hp : position.Typed localKind scope buffers .word) :
    ((r.operands.getD i .absent).read position).Typed localKind scope buffers .scalar :=
  ((Operand.Available.getD h.operands i).mono (List.nil_subset scope)).typed_read hp

/-- Reading the result in a gradient block gives a scalar. -/
theorem Typed.readOutput (h : r.Typed buffers) {position : Expr}
    (hp : position.Typed localKind scope buffers .word) :
    (r.output.read position).Typed localKind scope buffers .scalar :=
  (h.output.mono (List.nil_subset scope)).typed_read hp

end ReductionFrame

variable {r : ReductionFrame}

/-- Code with a value: scoped, where the value may use what the code declares. -/
def CodeTyped (scope buffers : List String) (c : List Stmt × Expr) : Prop :=
  Stmt.BlockTyped localKind scope buffers [] c.1 ∧
    c.2.Typed localKind (Stmt.blockDeclares c.1 ++ scope) buffers .scalar

/-- A sum of products of the incoming gradient and a forward value, at the row and column of an index
in a matrix with `cols` columns. -/
def ReductionFrame.productSum (r : ReductionFrame) (cols count : Nat) (position other : Expr) :
    List Stmt × Expr :=
  ( [ .letDecl (r.localName "outer") (.index / .ofNat cols),
      .letDecl (r.localName "inner") (.index % .ofNat cols),
      .varDecl (r.localName "acc") (.float 0.0),
      .forLoop (r.localName "j") count
        (r.seed (r.localName "g") position (r.localName "f") ++
          [.accumulate (r.localName "acc") (.var (r.localName "g") * other)]) ],
    .var (r.localName "acc") )

/-- The two gradients of a matrix product are the same code with other positions. -/
theorem matmulGradient_eq (i : Nat) (r : ReductionFrame) :
    matmulGradient i r =
      let a := r.operands.getD 0 .absent
      let b := r.operands.getD 1 .absent
      let outer := Expr.var (r.localName "outer")
      let inner := Expr.var (r.localName "inner")
      let step := Expr.var (r.localName "j")
      let k := a.shape.asMatrix.2
      let n := b.shape.asMatrix.2
      if i = 0 then r.productSum k n (outer * .ofNat n + step) (b.read (inner * .ofNat n + step))
      else r.productSum n a.shape.asMatrix.1 (step * .ofNat n + inner) (a.read (step * .ofNat k + outer)) := by
  unfold matmulGradient
  split <;> rfl

/-- A sum of products over the incoming gradient is well typed. -/
theorem ReductionFrame.Typed.productSum (h : r.Typed buffers) (cols count : Nat) {position other : Expr}
    (hposition : position.Typed localKind (["j", "acc", "inner", "outer"].map r.localName) buffers .word)
    (hother : other.Typed localKind (["j", "acc", "inner", "outer"].map r.localName) buffers .scalar) :
    CodeTyped [] buffers (r.productSum cols count position other) := by
  have hacc : localKind (r.localName "acc") = .scalar := ReductionFrame.localKind_value (by simp)
  have hg : localKind (r.localName "g") = .scalar := ReductionFrame.localKind_value (by simp)
  obtain ⟨hseed, hdecl⟩ := h.seed _ hg hposition (foldName_append r.stem "f" (by decide) (by decide))
  have houter : localKind (r.localName "outer") = .word := ReductionFrame.localKind_counter (by simp)
  have hinner : localKind (r.localName "inner") = .word := ReductionFrame.localKind_counter (by simp)
  refine ⟨.letDecl (houter ▸ .div (by decide) .index (.ofNat cols)) ?_, ?_⟩
  · refine .letDecl (hinner ▸ .mod .index (.ofNat cols)) (.varDecl (hacc ▸ .float 0.0) ?_)
    refine .forLoop (ReductionFrame.localKind_counter (by simp))
      (.append hseed (.accumulate (by simp) hacc ?_ .nil)) .nil
    refine .mul (by decide) (.var (List.mem_append_left _ hdecl) hg) ?_
    exact hother.mono (List.subset_append_right _ _) (List.Subset.refl _)
  · exact .var (by simp [Stmt.blockDeclares, Stmt.declares, ReductionFrame.productSum]) hacc

/-- The gradient code of a matrix product is well typed. -/
theorem matmulGradient_typed (h : r.Typed buffers) (i : Nat) :
    CodeTyped [] buffers (matmulGradient i r) := by
  have hvar : ∀ w ∈ ["outer", "inner", "j"], (Expr.var (r.localName w)).Typed localKind
      (["j", "acc", "inner", "outer"].map r.localName) buffers .word := by
    intro w hw
    simp only [List.mem_cons, List.not_mem_nil, or_false] at hw
    rcases hw with rfl | rfl | rfl <;> exact .var (by simp) (ReductionFrame.localKind_counter (by simp))
  have houter := hvar "outer" (by simp)
  have hinner := hvar "inner" (by simp)
  have hj := hvar "j" (by simp)
  rw [matmulGradient_eq]
  dsimp only
  split
  · refine h.productSum _ _ (.add (by decide) (.mul (by decide) houter (.ofNat _)) hj) ?_
    exact h.read 1 (.add (by decide) (.mul (by decide) hinner (.ofNat _)) hj)
  · refine h.productSum _ _ (.add (by decide) (.mul (by decide) hj (.ofNat _)) hinner) ?_
    exact h.read 0 (.add (by decide) (.mul (by decide) hj (.ofNat _)) houter)

/-- The gradient code of a fold is well typed. -/
theorem foldGradient_typed (f : FoldOp) (axis : Axis) (h : r.Typed buffers) :
    CodeTyped [] buffers (foldGradient f axis r) := by
  have hg : localKind (r.localName "g") = .scalar := ReductionFrame.localKind_value (by simp)
  have hf : FoldName (r.localName "f") := foldName_append r.stem "f" (by decide) (by decide)
  unfold foldGradient
  cases axis with
  | last =>
    obtain ⟨hseed, hdecl⟩ := h.seed [] hg (.div (by decide) .index (.ofNat _)) hf
    exact ⟨hseed, f.typed_finish _ (.var (List.mem_append_left _ hdecl) hg)⟩
  | first =>
    obtain ⟨hseed, hdecl⟩ := h.seed [] hg (.mod .index (.ofNat _)) hf
    exact ⟨hseed, f.typed_finish _ (.var (List.mem_append_left _ hdecl) hg)⟩

/-- The gradient code of a softmax is well typed. -/
theorem softmaxGradient_typed (h : r.Typed buffers) : CodeTyped [] buffers (softmaxGradient r) := by
  have hrow : localKind (r.localName "row") = .word := ReductionFrame.localKind_counter (by simp)
  have hk : localKind (r.localName "k") = .word := ReductionFrame.localKind_counter (by simp)
  have hgi : localKind (r.localName "gi") = .scalar := ReductionFrame.localKind_value (by simp)
  have hgk : localKind (r.localName "gk") = .scalar := ReductionFrame.localKind_value (by simp)
  have hacc : localKind (r.localName "acc") = .scalar := ReductionFrame.localKind_value (by simp)
  have hfi : FoldName (r.localName "fi") := foldName_append r.stem "fi" (by decide) (by decide)
  have hfk : FoldName (r.localName "fk") := foldName_append r.stem "fk" (by decide) (by decide)
  obtain ⟨hown, hdecl⟩ := h.seed [r.localName "row"] hgi .index hfi
  unfold softmaxGradient
  dsimp only
  refine ⟨.append (.append (.letDecl ?_ .nil) ?_) (.varDecl (hacc ▸ .float 0.0) (.forLoop hk ?_ .nil)), ?_⟩
  · exact hrow ▸ .mul (by decide) (.div (by decide) .index (.ofNat _)) (.ofNat _)
  · exact hown.mono (by simp [Stmt.blockDeclares, Stmt.declares]) (List.Subset.refl _)
      (List.Subset.refl _)
  · have hposition : ∀ {scope : List String}, r.localName "row" ∈ scope → r.localName "k" ∈ scope →
        (Expr.var (r.localName "row") + .var (r.localName "k")).Typed localKind scope buffers .word :=
      fun hr hk' => .add (by decide) (.var hr hrow) (.var hk' hk)
    obtain ⟨heach, hdecl'⟩ := h.seed (r.localName "k" :: r.localName "acc" ::
      (Stmt.blockDeclares ([.letDecl (r.localName "row")
        (.index / .ofNat r.shape.asMatrix.2 * .ofNat r.shape.asMatrix.2)] ++
        r.seed (r.localName "gi") .index (r.localName "fi")) ++ [])) hgk
      (hposition (by simp [Stmt.blockDeclares, Stmt.declares]) (by simp)) hfk
    refine .append heach (.accumulate (by simp) hacc ?_ .nil)
    refine .mul (by decide) (.var (List.mem_append_left _ hdecl') hgk) (h.readOutput ?_)
    exact hposition (by simp [Stmt.blockDeclares, Stmt.declares]) (by simp)
  · refine .mul (by decide) (h.readOutput .index) (.sub (.var ?_ hgi) (.var ?_ hacc))
    · simp [Stmt.blockDeclares, Stmt.blockDeclares_append, Stmt.declares, hdecl]
    · simp [Stmt.blockDeclares, Stmt.blockDeclares_append, Stmt.declares]

/-- The gradient of a reduction is scoped. -/
theorem Op.reductionGradient_typed (op : Op) (i : Nat) (h : r.Typed buffers) :
    CodeTyped [] buffers (op.reductionGradient i r) := by
  have hnothing : CodeTyped [] buffers ([], .float 0.0) := ⟨.nil, .float 0.0⟩
  cases op with
  | matmul => exact matmulGradient_typed h i
  | fold f axis => exact foldGradient_typed f axis h
  | softmax => exact softmaxGradient_typed h
  | unary f => exact hnothing
  | binary f => exact hnothing
  | loss f => exact hnothing
  | reshape shape => exact hnothing
  | transpose => exact hnothing
  | dropout rate => exact hnothing
  | affine norm => exact hnothing

end Typed

end TensorKernels
