import TensorKernels.Proofs.ForwardCode
import TensorKernels.Proofs.GradientCode
import TensorKernels.Proofs.HostFold

/-!
# What gradient code computes

The terms of a regular operator's rule have the values of its pullbacks (`Op.eval_gradients`), where the
forward values that a term loads are there: a kernel binds no others. Folding a partial buffer into a
variable adds what is kept for one element of the operand, in order (`Access.foldInto_folds`), so a seed is
the starting value of a gradient plus the shares of all incoming buffers (`seedCode_ends`). The code of a
reduction's gradient computes the reduction's pullback (`Op.reductionGradient_ends`), where seeds give the
elements of the incoming gradient.
-/

set_option autoImplicit false

namespace TensorKernels

variable {α : Type} (ops : Arithmetic α)

/-! ## Rules of regular operators -/

section Rules

variable {s : Invocation α} {ge ye : Expr} {xe : Nat → Expr} {g y : α} {x : Nat → α}

/-- A term of a rule has its value, where the forward values that it loads are there. -/
def RuleValue (s : Invocation α) (xe : Nat → Expr) (ye : Expr) (x : Nat → α) (y : α) :
    Option Expr → Option α → Prop
  | some e, some v =>
    (∀ k, (xe k).loads ⊆ e.loads → (xe k).eval ops s = .ok (.scalar (x k))) →
    (ye.loads ⊆ e.loads → ye.eval ops s = .ok (.scalar y)) → e.eval ops s = .ok (.scalar v)
  | none, none => True
  | _, _ => False

/-- The rule of a function of one element evaluates to its pullback. -/
theorem UnaryOp.eval_gradient (f : UnaryOp) (hg : ge.eval ops s = .ok (.scalar g)) :
    RuleValue ops s xe ye x y (some (f.gradient ge (xe 0) ye)) (some (f.pullback ops g (x 0) y)) := by
  intro hx hy
  have hpos : (xe 0).eval ops s = .ok (.scalar (x 0)) →
      ((xe 0).gt (.float 0.0)).eval ops s = .ok (.truth (ops.lt ops.zero (x 0))) :=
    fun h => Expr.eval_binary_scalar ops .gt h rfl
  cases f with
  | relu =>
    have hx := hx 0 (by intro b hb; simp [UnaryOp.gradient, Expr.gt, Expr.loads, hb])
    exact Expr.eval_select_scalar ops (hpos hx) hg rfl
  | sigmoid =>
    have hy := hy (by intro b hb; simp [UnaryOp.gradient, Expr.loads, hb])
    exact Expr.eval_binary_scalar ops .mul (Expr.eval_binary_scalar ops .mul hg hy)
      (Expr.eval_binary_scalar ops .sub rfl hy)
  | leakyRelu slope =>
    have hx := hx 0 (by intro b hb; simp [UnaryOp.gradient, Expr.gt, Expr.loads, hb])
    exact Expr.eval_binary_scalar ops .mul hg (Expr.eval_select_scalar ops (hpos hx) rfl rfl)
  | tanh =>
    have hy := hy (by intro b hb; simp [UnaryOp.gradient, Expr.sub_def, Expr.loads, hb])
    exact Expr.eval_binary_scalar ops .mul hg
      (Expr.eval_binary_scalar ops .sub rfl (Expr.eval_binary_scalar ops .mul hy hy))
  | exp =>
    have hy := hy (by intro b hb; simp [UnaryOp.gradient, Expr.loads, hb])
    exact Expr.eval_binary_scalar ops .mul hg hy
  | log =>
    have hx := hx 0 (by intro b hb; simp [UnaryOp.gradient, Expr.div_def, Expr.loads, hb])
    exact Expr.eval_binary_scalar ops .div hg hx
  | sqrt =>
    have hy := hy (by intro b hb; simp [UnaryOp.gradient, Expr.div_def, Expr.loads, hb])
    exact Expr.eval_binary_scalar ops .div hg (Expr.eval_binary_scalar ops .mul rfl hy)

/-- The rules of an arithmetic operator evaluate to its pullbacks. -/
theorem BinaryOp.eval_gradients (f : BinaryOp) (hg : ge.eval ops s = .ok (.scalar g)) :
    List.Forall₂ (RuleValue ops s xe ye x y) (f.gradients ge (xe 0) (xe 1))
      (f.pullbacks ops g (x 0) (x 1)) := by
  have hneg : (-ge).eval ops s = .ok (.scalar (ops.neg g)) := Expr.eval_unary_scalar ops .neg hg
  cases f with
  | add => exact .cons (fun _ _ => hg) (.cons (fun _ _ => hg) .nil)
  | sub => exact .cons (fun _ _ => hg) (.cons (fun _ _ => hneg) .nil)
  | mul =>
    refine .cons (fun hx _ => ?_) (.cons (fun hx _ => ?_) .nil)
    · have hb := hx 1 (by intro b hb; simp [Expr.loads, hb])
      exact Expr.eval_binary_scalar ops .mul hg hb
    · have ha := hx 0 (by intro b hb; simp [Expr.loads, hb])
      exact Expr.eval_binary_scalar ops .mul hg ha
  | div =>
    refine .cons (fun hx _ => ?_) (.cons (fun hx _ => ?_) .nil)
    · have hb := hx 1 (by intro b hb; simp [Expr.div_def, Expr.loads, hb])
      exact Expr.eval_binary_scalar ops .div hg hb
    · have ha := hx 0 (by intro b hb; simp [Expr.div_def, Expr.neg_def, Expr.loads, hb])
      have hb := hx 1 (by intro b hb; simp [Expr.div_def, Expr.loads, hb])
      exact Expr.eval_binary_scalar ops .div
        (Expr.eval_unary_scalar ops .neg (Expr.eval_binary_scalar ops .mul hg ha))
        (Expr.eval_binary_scalar ops .mul hb hb)

/-- The rules of a loss evaluate to its pullbacks. -/
theorem LossOp.eval_gradients (f : LossOp) (hg : ge.eval ops s = .ok (.scalar g)) :
    List.Forall₂ (RuleValue ops s xe ye x y) (f.gradients ge (xe 0) (xe 1))
      (f.pullbacks ops g (x 0) (x 1)) := by
  cases f with
  | meanSquaredError =>
    have hd : (xe 0).eval ops s = .ok (.scalar (x 0)) → (xe 1).eval ops s = .ok (.scalar (x 1)) →
        (.float 2.0 * (xe 0 - xe 1) * ge : Expr).eval ops s =
          .ok (.scalar (ops.mul (ops.mul (ops.lit 2.0) (ops.sub (x 0) (x 1))) g)) :=
      fun hp ht => Expr.eval_binary_scalar ops .mul
        (Expr.eval_binary_scalar ops .mul rfl (Expr.eval_binary_scalar ops .sub hp ht)) hg
    refine .cons (fun hx _ => hd (hx 0 ?_) (hx 1 ?_))
      (.cons (fun hx _ => Expr.eval_unary_scalar ops .neg (hd (hx 0 ?_) (hx 1 ?_))) .nil)
    all_goals
      intro b hb
      simp [Expr.sub_def, Expr.loads, hb]
  | binaryCrossEntropy =>
    have hclamp : (xe 0).eval ops s = .ok (.scalar (x 0)) → _ := eval_clampedProbability ops
    have hrest : (xe 0).eval ops s = .ok (.scalar (x 0)) →
        (Expr.float 1.0 - clampedProbability (xe 0)).eval ops s =
          .ok (.scalar (ops.sub ops.one (ops.clampProbability (x 0)))) :=
      fun hp => Expr.eval_binary_scalar ops .sub rfl (hclamp hp)
    refine .cons (fun hx _ => ?_) (.cons (fun hx _ => ?_) .nil)
    · have hp := hx 0 (by
        intro b hb
        simp [clampedProbability, Expr.div_def, Expr.sub_def, Expr.loads, hb])
      have ht := hx 1 (by intro b hb; simp [Expr.div_def, Expr.sub_def, Expr.loads, hb])
      exact Expr.eval_binary_scalar ops .div
        (Expr.eval_binary_scalar ops .mul hg (Expr.eval_binary_scalar ops .sub (hclamp hp) ht))
        (Expr.eval_binary_scalar ops .mul (hclamp hp) (hrest hp))
    · have hp := hx 0 (by
        intro b hb
        simp [clampedProbability, Expr.sub_def, Expr.log, Expr.loads, hb])
      exact Expr.eval_binary_scalar ops .mul hg (Expr.eval_binary_scalar ops .sub
        (Expr.eval_unary_scalar ops .log (hrest hp)) (Expr.eval_unary_scalar ops .log (hclamp hp)))
  | crossEntropy =>
    have hclamp : (xe 0).eval ops s = .ok (.scalar (x 0)) → _ := eval_clampedProbability ops
    refine .cons (fun hx _ => ?_) (.cons (fun hx _ => ?_) .nil)
    · have hp := hx 0 (by
        intro b hb
        simp [clampedProbability, Expr.div_def, Expr.loads, hb])
      have ht := hx 1 (by intro b hb; simp [Expr.div_def, Expr.loads, hb])
      exact Expr.eval_unary_scalar ops .neg
        (Expr.eval_binary_scalar ops .div (Expr.eval_binary_scalar ops .mul hg ht) (hclamp hp))
    · have hp := hx 0 (by
        intro b hb
        simp [clampedProbability, Expr.log, Expr.loads, hb])
      exact Expr.eval_unary_scalar ops .neg
        (Expr.eval_binary_scalar ops .mul hg (Expr.eval_unary_scalar ops .log (hclamp hp)))

/-- The terms of a regular operator's rule have the values of its pullbacks. -/
theorem Op.eval_gradients (op : Op) (hg : ge.eval ops s = .ok (.scalar g)) :
    List.Forall₂ (RuleValue ops s xe ye x y) (op.gradients ge xe ye) (op.pullbacks ops g x y) := by
  have hscaled : ∀ k, RuleValue ops s xe ye x y (some (ge * xe k)) (some (ops.mul g (x k))) := by
    intro k hx _
    exact Expr.eval_binary_scalar ops .mul hg (hx k (by intro b hb; simp [Expr.loads, hb]))
  have hsame : RuleValue ops s xe ye x y (some ge) (some g) := fun _ _ => hg
  cases op with
  | unary f => exact .cons (f.eval_gradient ops hg) .nil
  | binary f => exact f.eval_gradients ops hg
  | loss f => exact f.eval_gradients ops hg
  | reshape shape => exact .cons hsame .nil
  | transpose => exact .cons hsame .nil
  | dropout rate => exact .cons (hscaled 1) (.cons trivial .nil)
  | affine norm => exact .cons (hscaled 1) (.cons (hscaled 0) (.cons hsame .nil))
  | matmul => exact .nil
  | fold f axis => exact .nil
  | softmax => exact .nil

end Rules

/-! ## Folds -/

section Folds

variable {ops} {s : Invocation α}

/-- Folding a partial buffer into a variable adds what is kept for one element, in order. -/
theorem Access.foldInto_folds {a : Access} {acc source loopVar : String} {element : Expr}
    {data : Array α} {v : α} {j m : Nat} (hne : acc ≠ loopVar)
    (hvars : ∀ name ∈ element.vars, name ≠ acc ∧ name ≠ loopVar)
    (hacc : s.locals.find? acc = some (.scalar v)) (hdata : s.buffer? source = some data)
    (helement : element.eval ops s = .ok (.word (UInt32.ofNat j))) (hcov : a.Covers m data.size)
    (hj : j < m) (hsize : data.size < 2 ^ 32) :
    Stmt.Ends ops s (a.foldInto acc source element loopVar) fun t =>
      t.locals.find? acc = some (.scalar
        ((a.kept j).foldl (fun x p => ops.add x (data.getD p ops.zero)) v)) := by
  -- what a loop adds, by the position that it loads from in each round
  have hloop : ∀ (count : Nat) (position : Expr) (p : Nat → Nat),
      (∀ k t, k < count → Invocation.Frame [loopVar, acc] [] s t →
        t.locals.find? loopVar = some (.word (UInt32.ofNat k)) →
        position.eval ops t = .ok (.word (UInt32.ofNat (p k))) ∧ p k < 2 ^ 32) →
      Stmt.Ends ops s [.forLoop loopVar count [.accumulate acc (.load source position)]] fun t =>
        t.locals.find? acc = some (.scalar
          (((List.range count).map p).foldl (fun x p => ops.add x (data.getD p ops.zero)) v)) := by
    intro count position p hposition
    refine .accumulateLoop (f := fun k => data.getD (p k) ops.zero) hne hacc ?_ ?_
    · intro k t hk hframe hstep
      obtain ⟨hp, hlt⟩ := hposition k t hk hframe hstep
      exact Expr.eval_load ops (by rw [hframe.buffer?_eq, hdata]) hp hlt
    · intro t _ hsum
      exact .nil (by rw [hsum, List.foldl_map])
  have helement' : ∀ t, Invocation.Frame [loopVar, acc] [] s t →
      element.eval ops t = .ok (.word (UInt32.ofNat j)) := by
    intro t hframe
    rw [Expr.eval_of_frame ops hframe element, helement]
    intro name hname hmem
    obtain ⟨hacc', hloop'⟩ := hvars name hname
    simp only [List.mem_cons, List.not_mem_nil, or_false] at hmem
    rcases hmem with rfl | rfl
    · exact hloop' rfl
    · exact hacc' rfl
  -- an access that keeps or permutes the layout has one contribution per element
  have hone : m = data.size → Stmt.Ends ops s [.accumulate acc (.load source element)] fun t =>
      t.locals.find? acc = some (.scalar (ops.add v (data.getD j ops.zero))) := by
    rintro rfl
    refine .accumulate hacc (Expr.eval_load ops hdata helement (by omega)) (.nil ?_)
    rw [Invocation.find?_setLocal, if_pos rfl]
  cases a with
  | aligned => exact hone hcov
  | permuted rows cols =>
    obtain ⟨hm, hn⟩ := hcov
    exact hone (hm.trans hn.symm)
  | scalar count =>
    obtain ⟨-, rfl⟩ := hcov
    have hrounds := hloop data.size (.var loopVar) id fun k t hk _ hstep =>
      ⟨Expr.eval_var ops hstep, Nat.lt_trans hk hsize⟩
    rwa [List.map_id] at hrounds
  | row rows cols =>
    obtain ⟨rfl, hn⟩ := hcov
    refine hloop _ _ _ ?_
    intro k t hk hframe hstep
    refine ⟨Expr.eval_add_word ops (Expr.eval_mul_word ops (Expr.eval_var ops hstep)
      (Expr.eval_ofNat ops m)) (helement' t hframe), ?_⟩
    exact Nat.lt_trans (hn ▸ row_add_lt hk hj) hsize
  | col cols =>
    have hn : data.size = m * cols := hcov
    refine hloop _ _ _ ?_
    intro k t hk hframe hstep
    refine ⟨Expr.eval_add_word ops (Expr.eval_mul_word ops (helement' t hframe)
      (Expr.eval_ofNat ops cols)) (Expr.eval_var ops hstep), ?_⟩
    exact Nat.lt_trans (hn ▸ row_add_lt hj hk) hsize

/-- Folding a partial buffer sets the accumulator and the loop variable only. -/
theorem Access.sets_foldInto (a : Access) {acc source loopVar x : String} {element : Expr}
    (h : x ∈ Stmt.blockSets (a.foldInto acc source element loopVar)) : x = acc ∨ x = loopVar := by
  cases a <;> simp only [foldInto, Stmt.blockSets, Stmt.sets, Stmt.accumulate, List.append_nil,
    List.mem_cons, List.not_mem_nil, or_false] at h
  · exact .inl h
  · exact h.symm
  · exact h.symm
  · exact h.symm
  · exact .inl h

/-- Folding a partial buffer stores nothing. -/
theorem Access.blockStores_foldInto (a : Access) (acc source loopVar : String) (element : Expr) :
    Stmt.blockStores (a.foldInto acc source element loopVar) = [] := by
  cases a <;> rfl

end Folds

/-! ## Seeds -/

section Seeds

variable {ops} [AddCommMonoid α]

variable {s : Invocation α}

/-- Folding a partial buffer into a variable adds what it holds for one element. -/
theorem Access.foldInto_ends (hops : ops.Sums) {a : Access} {acc source loopVar : String}
    {element : Expr} {data : Array α} {v : α} {j m : Nat} (hne : acc ≠ loopVar)
    (hvars : ∀ name ∈ element.vars, name ≠ acc ∧ name ≠ loopVar)
    (hacc : s.locals.find? acc = some (.scalar v)) (hdata : s.buffer? source = some data)
    (helement : element.eval ops s = .ok (.word (UInt32.ofNat j))) (hcov : a.Covers m data.size)
    (hj : j < m) (hsize : data.size < 2 ^ 32) :
    Stmt.Ends ops s (a.foldInto acc source element loopVar) fun t =>
      t.locals.find? acc = some (.scalar (v + a.folded (fun i => data.getD i ops.zero) j)) := by
  refine (Access.foldInto_folds hne hvars hacc hdata helement hcov hj hsize).mono ?_
  intro t ht
  rw [ht, hops.foldl_map_eq, Access.folded_eq_sum]

/-- A seed sets its variable and its loop variables only. -/
theorem sets_seedCode {name loopVar x : String} {isRoot : Bool} {incoming : List PartialBuffer}
    {position : Expr} (h : x ∈ Stmt.blockSets (seedCode name isRoot incoming position loopVar)) :
    x = name ∨ ∃ k : Nat, x = loopVar ++ toString k := by
  rw [seedCode, Stmt.blockSets, List.mem_append] at h
  rcases h with h | h
  · exact .inl (List.mem_singleton.1 h)
  · rw [List.flatten_eq_flatMap] at h
    obtain ⟨block, hblock, hx⟩ := Stmt.exists_of_mem_blockSets_flatMap h
    obtain ⟨k, hk, rfl⟩ := List.mem_mapIdx.1 hblock
    rcases Access.sets_foldInto _ hx with h | h
    · exact .inl h
    · exact .inr ⟨k, h⟩

/-- A seed stores nothing. -/
theorem blockStores_seedCode (name loopVar : String) (isRoot : Bool) (incoming : List PartialBuffer)
    (position : Expr) : Stmt.blockStores (seedCode name isRoot incoming position loopVar) = [] := by
  rw [seedCode, Stmt.blockStores, List.flatten_eq_flatMap]
  refine Stmt.blockStores_flatMap_eq_nil fun block hblock => ?_
  obtain ⟨k, hk, rfl⟩ := List.mem_mapIdx.1 hblock
  exact Access.blockStores_foldInto _ _ _ _ _

/-- A seed is the starting value of a gradient, plus what the incoming partial buffers hold for one
element. -/
theorem seedCode_ends (hops : ops.Sums) {name loopVar : String} (isRoot : Bool)
    {incoming : List PartialBuffer} {position : Expr} {j m : Nat} (contents : PartialBuffer → Array α)
    (hne : ∀ k : Nat, name ≠ loopVar ++ toString k)
    (hvars : ∀ x ∈ position.vars, x ≠ name ∧ ∀ k : Nat, x ≠ loopVar ++ toString k)
    (hposition : position.eval ops s = .ok (.word (UInt32.ofNat j))) (hj : j < m)
    (hincoming : ∀ p ∈ incoming, s.buffer? p.name = some (contents p) ∧
      p.access.Covers m (contents p).size ∧ (contents p).size < 2 ^ 32) :
    Stmt.Ends ops s (seedCode name isRoot incoming position loopVar) fun t =>
      t.locals.find? name = some (.scalar ((if isRoot then ops.one else ops.zero) +
        (incoming.map fun p => p.access.folded (fun i => (contents p).getD i ops.zero) j).sum)) := by
  -- the folds of some of the buffers, whatever number their loops start with
  have hfolds : ∀ (ps : List PartialBuffer) (first : Nat) (v : α) (s : Invocation α),
      s.locals.find? name = some (.scalar v) → position.eval ops s = .ok (.word (UInt32.ofNat j)) →
      (∀ p ∈ ps, s.buffer? p.name = some (contents p) ∧ p.access.Covers m (contents p).size ∧
        (contents p).size < 2 ^ 32) →
      Stmt.Ends ops s ((ps.mapIdx fun k p =>
        p.access.foldInto name p.name position (loopVar ++ toString (first + k))).flatten) fun t =>
        t.locals.find? name = some (.scalar (v +
          (ps.map fun p => p.access.folded (fun i => (contents p).getD i ops.zero) j).sum)) := by
    intro ps
    induction ps with
    | nil =>
      intro first v s hv _ _
      exact .nil (by simpa using hv)
    | cons p ps ih =>
      intro first v s hv hpos hps
      obtain ⟨hdata, hcov, hsize⟩ := hps p List.mem_cons_self
      rw [List.mapIdx_cons, List.flatten_cons, Nat.add_zero]
      refine .append (.withFrame (Access.foldInto_ends hops (hne first)
        (fun x hx => ⟨(hvars x hx).1, (hvars x hx).2 first⟩) hv hdata hpos hcov hj hsize) ?_)
      intro t hframe hv'
      rw [Access.blockStores_foldInto] at hframe
      have hpos' : position.eval ops t = .ok (.word (UInt32.ofNat j)) := by
        rw [Expr.eval_of_frame ops hframe position, hpos]
        intro x hx hset
        rcases Access.sets_foldInto _ hset with rfl | rfl
        · exact (hvars _ hx).1 rfl
        · exact (hvars _ hx).2 first rfl
      have hrest := ih (first + 1) _ t hv' hpos' (by
        intro q hq
        rw [hframe.buffer?_eq]
        exact hps q (List.mem_cons_of_mem _ hq))
      simp only [Nat.add_assoc, Nat.add_comm 1] at hrest
      refine hrest.mono ?_
      intro u hu
      rw [hu, List.map_cons, List.sum_cons, add_assoc]
  refine .varDecl (v := .scalar (if isRoot then ops.one else ops.zero)) (by cases isRoot <;> rfl) ?_
  have hstart := hfolds incoming 0 (if isRoot then ops.one else ops.zero)
    (s.setLocal name (.scalar (if isRoot then ops.one else ops.zero))) (by simp)
    (by
      rw [Expr.eval_of_frame ops (.setLocal s name _) position, hposition]
      intro x hx hmem
      exact (hvars x hx).1 (List.mem_singleton.1 hmem))
    (by simpa using hincoming)
  simpa only [Nat.zero_add] using hstart

end Seeds

/-! ## Gradients of reductions -/

section Reductions

variable {ops} {s : Invocation α}

namespace ReductionFrame

variable (ops) in
/-- The seeds of a frame give the elements of an incoming gradient `g` of `size` elements. -/
structure Seeds (s : Invocation α) (size : Nat) (g : Nat → α) (r : ReductionFrame) : Prop where
  ends : ∀ {sets : List String} {t : Invocation α} {name loopVar : String} {position : Expr} {p : Nat},
    Invocation.Frame sets [] s t → p < size → (∀ k : Nat, name ≠ loopVar ++ toString k) →
    (∀ x ∈ position.vars, x ≠ name ∧ ∀ k : Nat, x ≠ loopVar ++ toString k) →
    position.eval ops t = .ok (.word (UInt32.ofNat p)) →
    Stmt.Ends ops t (r.seed name position loopVar) fun u =>
      u.locals.find? name = some (.scalar (g p))
  sets : ∀ {name loopVar x : String} {position : Expr},
    x ∈ Stmt.blockSets (r.seed name position loopVar) → x = name ∨ ∃ k : Nat, x = loopVar ++ toString k
  stores : ∀ (name loopVar : String) (position : Expr),
    Stmt.blockStores (r.seed name position loopVar) = []

variable {r : ReductionFrame} {size : Nat} {g : Nat → α}

/-- Locals with different suffixes are different. -/
theorem localName_inj {a b : String} : r.localName a = r.localName b ↔ a = b :=
  String.append_right_inj (r.stem ++ "_")

/-- Names of loops are no other names. -/
theorem localName_ne_fold {a b : String} (ha : a.toList.head? = some 'f')
    (hb : b.toList.head? ≠ some 'f') (k : Nat) : r.localName b ≠ r.localName a ++ toString k := by
  intro h
  have hsuffix : b = a ++ toString k :=
    (String.append_right_inj (r.stem ++ "_")).1 (h.trans String.append_assoc)
  rw [hsuffix, String.toList_append, List.head?_append, ha] at hb
  exact hb rfl

/-- A variable that a loop with these names does not set: a sum, a counter, and a seed with its loops. -/
structure Apart (acc step each fold x : String) : Prop where
  fromAcc : x ≠ acc
  fromStep : x ≠ step
  fromEach : x ≠ each
  fromFold : ∀ k : Nat, x ≠ fold ++ toString k

/-- The names of a loop are different. -/
structure Distinct (acc step each fold : String) : Prop where
  accStep : acc ≠ step
  accEach : acc ≠ each
  accFold : ∀ k : Nat, acc ≠ fold ++ toString k
  stepEach : step ≠ each
  stepFold : ∀ k : Nat, step ≠ fold ++ toString k
  eachFold : ∀ k : Nat, each ≠ fold ++ toString k

/-- Locals with different suffixes, one of which names loops, are distinct. -/
theorem distinct_localName {acc step each fold : String} (hnodup : [acc, step, each].Nodup)
    (hfold : fold.toList.head? = some 'f')
    (hother : ∀ w ∈ [acc, step, each], w.toList.head? ≠ some 'f') :
    Distinct (r.localName acc) (r.localName step) (r.localName each) (r.localName fold) := by
  simp only [List.nodup_cons, List.mem_cons, List.not_mem_nil, or_false, not_or] at hnodup
  obtain ⟨⟨haccStep, haccEach⟩, hstepEach, -⟩ := hnodup
  exact ⟨mt localName_inj.1 haccStep, mt localName_inj.1 haccEach,
    localName_ne_fold hfold (hother acc (by simp)), mt localName_inj.1 hstepEach,
    localName_ne_fold hfold (hother step (by simp)), localName_ne_fold hfold (hother each (by simp))⟩

/-- A local with another suffix is apart from them. -/
theorem apart_localName {acc step each fold w : String} (hfold : fold.toList.head? = some 'f')
    (hw : w.toList.head? ≠ some 'f') (hnot : w ∉ [acc, step, each]) :
    Apart (r.localName acc) (r.localName step) (r.localName each) (r.localName fold) (r.localName w) := by
  simp only [List.mem_cons, List.not_mem_nil, or_false, not_or] at hnot
  obtain ⟨hacc, hstep, heach⟩ := hnot
  exact ⟨mt localName_inj.1 hacc, mt localName_inj.1 hstep, mt localName_inj.1 heach,
    localName_ne_fold hfold hw⟩

/-- A loop that seeds a variable in every round and adds its product with a forward value. -/
theorem Seeds.loop_ends (hr : r.Seeds ops s size g) {acc step each fold : String}
    (hnames : Distinct acc step each fold) {count : Nat} {position other : Expr} {p : Nat → Nat}
    {o : Nat → α} {a : α} {sets : List String} {t : Invocation α}
    (hvars : ∀ x ∈ position.vars, x ≠ each ∧ ∀ k : Nat, x ≠ fold ++ toString k)
    (hframe : Invocation.Frame sets [] s t) (hacc : t.locals.find? acc = some (.scalar a))
    (heval : ∀ k u sets, k < count → Invocation.Frame sets [] s u →
      (∀ x, Apart acc step each fold x → u.locals.find? x = t.locals.find? x) →
      u.locals.find? step = some (.word (UInt32.ofNat k)) →
      position.eval ops u = .ok (.word (UInt32.ofNat (p k))) ∧ p k < size ∧
        other.eval ops u = .ok (.scalar (o k))) :
    Stmt.Ends ops t [.forLoop step count
      (r.seed each position fold ++ [.accumulate acc (.var each * other)])] fun u =>
      (∃ sets, Invocation.Frame sets [] s u) ∧
      (∀ x, Apart acc step each fold x → u.locals.find? x = t.locals.find? x) ∧
      u.locals.find? acc = some (.scalar
        ((List.range count).foldl (fun v k => ops.add v (ops.mul (g (p k)) (o k))) a)) := by
  refine .forLoop (fun k u => (∃ sets, Invocation.Frame sets [] s u) ∧
    (∀ x, Apart acc step each fold x → u.locals.find? x = t.locals.find? x) ∧
    u.locals.find? acc = some (.scalar
      ((List.range k).foldl (fun v k => ops.add v (ops.mul (g (p k)) (o k))) a)))
    ⟨⟨sets, hframe⟩, fun _ _ => rfl, hacc⟩ ?_ fun u hu => .nil hu
  rintro k u hk ⟨⟨sets', hframe'⟩, hrest, hsum⟩
  -- the round starts with the counter set
  have hround : Invocation.Frame (sets' ++ [step]) [] s (u.setLocal step (.word (UInt32.ofNat k))) :=
    hframe'.trans (.setLocal u step _)
  have hrest' : ∀ x, Apart acc step each fold x →
      (u.setLocal step (.word (UInt32.ofNat k))).locals.find? x = t.locals.find? x := by
    intro x hx
    rw [Invocation.find?_setLocal, if_neg hx.fromStep.symm]
    exact hrest x hx
  obtain ⟨hposition, hlt, -⟩ := heval k _ _ hk hround hrest' (by simp)
  refine .append (.withFrame (hr.ends hround hlt hnames.eachFold hvars hposition) ?_)
  intro w hseed heach
  rw [hr.stores] at hseed
  have hkept : ∀ x, x ≠ each → (∀ j : Nat, x ≠ fold ++ toString j) → w.locals.find? x =
      (u.setLocal step (.word (UInt32.ofNat k))).locals.find? x := by
    intro x h₁ h₂
    refine hseed.locals x fun hmem => ?_
    rcases hr.sets hmem with h | ⟨j, h⟩
    · exact h₁ h
    · exact h₂ j h
  have hwframe := hround.trans hseed
  rw [List.append_nil] at hwframe
  have hw : ∀ x, Apart acc step each fold x → w.locals.find? x = t.locals.find? x :=
    fun x hx => (hkept x hx.fromEach hx.fromFold).trans (hrest' x hx)
  obtain ⟨-, -, hother⟩ := heval k w _ hk hwframe hw (by
    rw [hkept step hnames.stepEach hnames.stepFold]
    simp)
  have hsum' : w.locals.find? acc = some (.scalar
      ((List.range k).foldl (fun v k => ops.add v (ops.mul (g (p k)) (o k))) a)) := by
    rw [hkept acc hnames.accEach hnames.accFold, Invocation.find?_setLocal, if_neg hnames.accStep.symm, hsum]
  refine .accumulate hsum' (Expr.eval_binary_scalar ops .mul (Expr.eval_var ops heach) hother)
    (.nil ⟨⟨_, hwframe.trans (.setLocal w acc _)⟩, ?_, ?_⟩)
  · intro x hx
    rw [Invocation.find?_setLocal, if_neg hx.fromAcc.symm]
    exact hw x hx
  · rw [Invocation.find?_setLocal, if_pos rfl, List.range_succ, List.foldl_append]
    rfl

/-! ### Sums of products -/

/-- The locals of a sum of products are distinct. -/
theorem distinct_productSum :
    Distinct (r.localName "acc") (r.localName "j") (r.localName "g") (r.localName "f") :=
  distinct_localName (by decide) (by decide) (by decide)

/-- The loop of a sum of products leaves its row and column as they are. -/
theorem apart_productSum {w : String} (hw : w ∈ ["outer", "inner"]) :
    Apart (r.localName "acc") (r.localName "j") (r.localName "g") (r.localName "f") (r.localName w) := by
  simp only [List.mem_cons, List.not_mem_nil, or_false] at hw
  rcases hw with rfl | rfl <;> exact apart_localName (by decide) (by decide) (by decide)

/-- A seed sets neither the row nor the column nor the counter of a sum of products. -/
theorem ne_seed_of_productSum {x : String} (hx : x ∈ ["outer", "inner", "j"].map r.localName) :
    x ≠ r.localName "g" ∧ ∀ k : Nat, x ≠ r.localName "f" ++ toString k := by
  simp only [List.map_cons, List.map_nil, List.mem_cons, List.not_mem_nil, or_false] at hx
  rcases hx with rfl | rfl | rfl
  · exact ⟨(apart_productSum (by simp)).fromEach, (apart_productSum (by simp)).fromFold⟩
  · exact ⟨(apart_productSum (by simp)).fromEach, (apart_productSum (by simp)).fromFold⟩
  · exact ⟨distinct_productSum.stepEach, distinct_productSum.stepFold⟩

/-- Where every round finds its position and its forward value, the code gives the sum of their
products. -/
theorem Seeds.productSum_ends (hr : r.Seeds ops s size g) {cols count j : Nat} {position other : Expr}
    {p : Nat → Nat} {o : Nat → α} (hpos : 0 < cols) (hcols : cols < 2 ^ 32)
    (hs : s.index = UInt32.ofNat j) (hj : j < 2 ^ 32)
    (hvars : ∀ x ∈ position.vars, x ∈ ["outer", "inner", "j"].map r.localName)
    (heval : ∀ k u sets, k < count → Invocation.Frame sets [] s u →
      (Expr.var (r.localName "outer")).eval ops u = .ok (.word (UInt32.ofNat (j / cols))) →
      (Expr.var (r.localName "inner")).eval ops u = .ok (.word (UInt32.ofNat (j % cols))) →
      (Expr.var (r.localName "j")).eval ops u = .ok (.word (UInt32.ofNat k)) →
      position.eval ops u = .ok (.word (UInt32.ofNat (p k))) ∧ p k < size ∧
        other.eval ops u = .ok (.scalar (o k))) :
    Stmt.Ends ops s (r.productSum cols count position other).1 fun t =>
      (r.productSum cols count position other).2.eval ops t =
        .ok (.scalar (ops.total count fun k => ops.mul (g (p k)) (o k))) := by
  refine .letDecl (Expr.eval_div_word ops hj hcols hpos (Expr.eval_index ops hs)
    (Expr.eval_ofNat ops cols)) ?_
  refine .letDecl (Expr.eval_mod_word ops hj hcols hpos (Expr.eval_index ops (by simpa using hs))
    (Expr.eval_ofNat ops cols)) ?_
  refine .varDecl rfl ?_
  have hframe := (((Invocation.Frame.setLocal s (r.localName "outer")
    (.word (UInt32.ofNat (j / cols)))).trans
    (.setLocal _ (r.localName "inner") (.word (UInt32.ofNat (j % cols))))).trans
    (.setLocal _ (r.localName "acc") (.scalar ops.zero)))
  refine (hr.loop_ends distinct_productSum (p := p) (o := o) (a := ops.zero)
    (fun x hx => ne_seed_of_productSum (hvars x hx)) hframe (by simp) ?_).mono ?_
  · intro k u sets hk hu hkept hstep
    refine heval k u sets hk hu (Expr.eval_var ops ?_) (Expr.eval_var ops ?_) (Expr.eval_var ops hstep)
    · rw [hkept _ (apart_productSum (by simp))]
      simp [localName_inj]
    · rw [hkept _ (apart_productSum (by simp))]
      simp [localName_inj]
  · rintro u ⟨-, -, hsum⟩
    exact Expr.eval_var ops hsum

end ReductionFrame

variable {r : ReductionFrame} {size : Nat} {g : Nat → α} {j : Nat}

/-- Reading an operand that is no local, in a state with the same buffers. -/
theorem Operand.Reads.eval_read {o : Operand} {x : Flat α} (h : o.Reads ops s j x)
    (hvar : ∀ name, o.source ≠ .var name) (hbound : x.shape.size < 2 ^ 32) {sets : List String}
    {t : Invocation α} (hframe : Invocation.Frame sets [] s t) {position : Expr} {p : Nat}
    (hp : position.eval ops t = .ok (.word (UInt32.ofNat p))) (hlt : p < x.shape.size) :
    (o.read position).eval ops t = .ok (.scalar (x.entry ops p)) :=
  Operand.eval_read ops (h.of_frame hframe fun name hn => absurd hn (hvar name)) hp hlt hbound
    fun name hn => absurd hn (hvar name)

/-- The gradient code of a matrix product computes one element of its pullback. -/
theorem matmulGradient_ends {a b : Flat α} {slot : Nat}
    (hr : r.Seeds ops s (a.shape.asMatrix.1 * b.shape.asMatrix.2) g)
    (hashape : (r.operands.getD 0 .absent).shape = a.shape)
    (hbshape : (r.operands.getD 1 .absent).shape = b.shape)
    (ha : slot ≠ 0 → (r.operands.getD 0 .absent).Reads ops s j a)
    (hb : slot = 0 → (r.operands.getD 1 .absent).Reads ops s j b)
    (hvar : ∀ i name, (r.operands.getD i .absent).source ≠ .var name)
    (habound : a.shape.size < 2 ^ 32) (hbbound : b.shape.size < 2 ^ 32)
    (hinner : a.shape.asMatrix.2 = b.shape.asMatrix.1)
    (hs : s.index = UInt32.ofNat j)
    (hj : j < if slot = 0 then a.shape.size else b.shape.size) :
    Stmt.Ends ops s (matmulGradient slot r).1 fun t =>
      (matmulGradient slot r).2.eval ops t = .ok (.scalar (matmulPullback ops a b g slot j)) := by
  have hasize := a.shape.asMatrix_size
  have hbsize := b.shape.asMatrix_size
  unfold matmulPullback
  rw [matmulGradient_eq]
  simp only [hashape, hbshape]
  generalize a.shape.asMatrix.1 = m at *
  generalize hk : a.shape.asMatrix.2 = k at *
  generalize b.shape.asMatrix.2 = n at *
  by_cases hslot : slot = 0
  · simp only [hslot, if_true] at hj ⊢
    have hj' : j < 2 ^ 32 := Nat.lt_trans hj habound
    rw [← hasize] at hj habound
    obtain ⟨-, hkpos, hk'⟩ := dims_of_lt hj habound
    refine hr.productSum_ends hkpos hk' hs hj' ?_ ?_
    · intro x hx
      simp only [Expr.vars, Expr.ofNat, List.mem_append, List.mem_cons, List.not_mem_nil, or_false] at hx
      rcases hx with rfl | rfl <;> simp
    · intro t u sets ht hu houter hinner' hstep
      refine ⟨Expr.eval_add_word ops (Expr.eval_mul_word ops houter (Expr.eval_ofNat ops n)) hstep,
        row_add_lt (Nat.div_lt_of_lt_mul (by rwa [Nat.mul_comm])) ht, ?_⟩
      refine (hb hslot).eval_read (hvar 1) hbbound hu (Expr.eval_add_word ops
        (Expr.eval_mul_word ops hinner' (Expr.eval_ofNat ops n)) hstep) ?_
      rw [← hbsize, ← hinner]
      exact row_add_lt (Nat.mod_lt j hkpos) ht
  · simp only [hslot, if_false] at hj ⊢
    have hj' : j < 2 ^ 32 := Nat.lt_trans hj hbbound
    rw [← hbsize, ← hinner] at hj hbbound
    obtain ⟨-, hnpos, hn'⟩ := dims_of_lt hj hbbound
    refine hr.productSum_ends hnpos hn' hs hj' ?_ ?_
    · intro x hx
      simp only [Expr.vars, Expr.ofNat, List.mem_append, List.mem_cons, List.not_mem_nil, or_false] at hx
      rcases hx with rfl | rfl <;> simp
    · intro t u sets ht hu houter hinner' hstep
      refine ⟨Expr.eval_add_word ops (Expr.eval_mul_word ops hstep (Expr.eval_ofNat ops n)) hinner',
        row_add_lt ht (Nat.mod_lt j hnpos), ?_⟩
      refine (ha hslot).eval_read (hvar 0) habound hu (Expr.eval_add_word ops
        (Expr.eval_mul_word ops hstep (Expr.eval_ofNat ops k)) houter) ?_
      rw [← hasize]
      exact row_add_lt ht (Nat.div_lt_of_lt_mul (by rwa [Nat.mul_comm]))

/-- The gradient code of a fold computes one element of its pullback. -/
theorem foldGradient_ends (f : FoldOp) (axis : Axis) {x : Flat α}
    (hr : r.Seeds ops s (foldShape axis x.shape).size g)
    (hshape : (r.operands.getD 0 .absent).shape = x.shape) (hbound : x.shape.size < 2 ^ 32)
    (hs : s.index = UInt32.ofNat j) (hj : j < x.shape.size) :
    Stmt.Ends ops s (foldGradient f axis r).1 fun t =>
      (foldGradient f axis r).2.eval ops t = .ok (.scalar (foldPullback ops f axis x g j)) := by
  have hsize := foldDims_size axis x.shape
  obtain ⟨-, hcols, hcols'⟩ := dims_of_lt (hsize ▸ hj) (hsize ▸ hbound)
  have hindex := Expr.eval_index ops hs
  have hseed : ∀ {position : Expr}, position.vars = [] →
      position.eval ops s = .ok (.word (UInt32.ofNat (foldTarget (foldDims axis x.shape).2 j axis))) →
      foldTarget (foldDims axis x.shape).2 j axis < (foldShape axis x.shape).size →
      Stmt.Ends ops s (r.seed (r.localName "g") position (r.localName "f")) fun t =>
        (f.finish (.var (r.localName "g")) (foldCount axis x.shape)).eval ops t =
          .ok (.scalar (foldPullback ops f axis x g j)) := by
    intro position hvars heval hlt
    refine (hr.ends (.refl [] [] s) hlt (ReductionFrame.localName_ne_fold (by decide) (by decide))
      (by simp [hvars]) heval).mono ?_
    intro t hg
    cases f with
    | sum => exact Expr.eval_var ops hg
    | mean => exact Expr.eval_binary_scalar ops .div (Expr.eval_var ops hg) rfl
  unfold foldGradient
  simp only [hshape]
  rw [size_foldShape] at hseed
  cases axis with
  | last =>
    refine hseed rfl (Expr.eval_div_word ops (by omega) hcols' hcols hindex (Expr.eval_ofNat ops _)) ?_
    exact Nat.div_lt_of_lt_mul (by rwa [Nat.mul_comm, hsize])
  | first =>
    refine hseed rfl (Expr.eval_mod_word ops (by omega) hcols' hcols hindex (Expr.eval_ofNat ops _)) ?_
    exact Nat.mod_lt j hcols

/-- The gradient code of a softmax computes one element of its pullback. -/
theorem softmaxGradient_ends {y : Flat α} (hr : r.Seeds ops s y.shape.size g) (hshape : r.shape = y.shape)
    (hy : r.output.Reads ops s j y) (hvar : ∀ name, r.output.source ≠ .var name)
    (hbound : y.shape.size < 2 ^ 32) (hs : s.index = UInt32.ofNat j) (hj : j < y.shape.size) :
    Stmt.Ends ops s (softmaxGradient r).1 fun t =>
      (softmaxGradient r).2.eval ops t = .ok (.scalar (softmaxPullback ops y g j)) := by
  have hnames : ReductionFrame.Distinct (r.localName "acc") (r.localName "k") (r.localName "gk")
      (r.localName "fk") := ReductionFrame.distinct_localName (by decide) (by decide) (by decide)
  have hapart : ∀ w, w ∈ ["row", "gi"] → ReductionFrame.Apart (r.localName "acc")
      (r.localName "k") (r.localName "gk") (r.localName "fk") (r.localName w) := by
    intro w hw
    simp only [List.mem_cons, List.not_mem_nil, or_false] at hw
    rcases hw with rfl | rfl <;>
      exact ReductionFrame.apart_localName (by decide) (by decide) (by decide)
  have hj' : j < 2 ^ 32 := Nat.lt_trans hj hbound
  obtain ⟨hpos, hcols⟩ := asMatrix_cols hj hbound
  have hindex := Expr.eval_index ops hs
  unfold softmaxGradient softmaxPullback
  simp only [hshape]
  refine .append (.append (.letDecl (Expr.eval_mul_word ops (Expr.eval_div_word ops hj' hcols hpos hindex
    (Expr.eval_ofNat ops _)) (Expr.eval_ofNat ops _)) (.nil ?_)))
  have hrow := Invocation.Frame.setLocal s (r.localName "row")
    (.word (UInt32.ofNat (j / y.shape.asMatrix.2 * y.shape.asMatrix.2)))
  refine .withFrame (hr.ends hrow hj (ReductionFrame.localName_ne_fold (by decide) (by decide))
    (by simp [Expr.vars]) (Expr.eval_index ops (hrow.index.trans hs))) ?_
  intro t hseed hown
  rw [hr.stores] at hseed
  have hframe := hrow.trans hseed
  rw [List.append_nil] at hframe
  have hrow' : t.locals.find? (r.localName "row") =
      some (.word (UInt32.ofNat (j / y.shape.asMatrix.2 * y.shape.asMatrix.2))) := by
    rw [hseed.locals]
    · simp
    · intro hmem
      rcases hr.sets hmem with h | ⟨k, h⟩
      · exact absurd (ReductionFrame.localName_inj.1 h) (by decide)
      · exact ReductionFrame.localName_ne_fold (by decide) (by decide) k h
  refine .varDecl rfl ?_
  have hframe' := hframe.trans (.setLocal t (r.localName "acc") (.scalar ops.zero))
  refine (hr.loop_ends hnames (a := ops.zero)
    (p := fun k => j / y.shape.asMatrix.2 * y.shape.asMatrix.2 + k)
    (o := fun k => y.entry ops (j / y.shape.asMatrix.2 * y.shape.asMatrix.2 + k))
    ?_ hframe' (by simp) ?_).mono ?_
  · intro x hx
    simp only [Expr.vars, List.mem_append, List.mem_cons, List.not_mem_nil, or_false] at hx
    rcases hx with rfl | rfl
    · exact ⟨(hapart "row" (by simp)).fromEach, (hapart "row" (by simp)).fromFold⟩
    · exact ⟨hnames.stepEach, hnames.stepFold⟩
  · intro k u sets hk hu hkept hstep
    have hrowu := hkept _ (hapart "row" (by simp))
    rw [Invocation.find?_setLocal, if_neg (hapart "row" (by simp)).fromAcc.symm, hrow'] at hrowu
    have hposition := Expr.eval_add_word ops (Expr.eval_var ops hrowu) (Expr.eval_var ops hstep)
    have hlt := row_lt_size hj hk
    exact ⟨hposition, hlt, hy.eval_read hvar hbound hu hposition hlt⟩
  · rintro u ⟨⟨sets, hu⟩, hkept, hsum⟩
    have hownu := hkept _ (hapart "gi" (by simp))
    rw [Invocation.find?_setLocal, if_neg (hapart "gi" (by simp)).fromAcc.symm, hown] at hownu
    exact Expr.eval_binary_scalar ops .mul
      (hy.eval_read hvar hbound hu (Expr.eval_index ops (hu.index.trans hs)) hj)
      (Expr.eval_binary_scalar ops .sub (Expr.eval_var ops hownu) (Expr.eval_var ops hsum))

/-- What the gradient code of a reduction is run with: its operands `xs` and its result `y`, as far as the
code for one operand loads them, and seeds for the incoming gradient. -/
structure ReductionFrame.Feeds (ops : Arithmetic α) (s : Invocation α) (j : Nat)
    (xs : List (Access × Flat α)) (y : Flat α) (g : Nat → α) (code : List Stmt × Expr)
    (r : ReductionFrame) : Prop where
  seeds : r.Seeds ops s y.shape.size g
  shapes : ∀ i, (r.operands.getD i .absent).shape = (Op.given ops xs i).2.shape
  shape : r.shape = y.shape
  operand : ∀ i, (∀ name, (r.operands.getD i .absent).source = .buffer name →
    name ∈ Stmt.blockLoads code.1 ++ code.2.loads) →
    (r.operands.getD i .absent).Reads ops s j (Op.given ops xs i).2
  output : (∀ name, r.output.source = .buffer name → name ∈ Stmt.blockLoads code.1 ++ code.2.loads) →
    r.output.Reads ops s j y
  noLocal : ∀ i name, (r.operands.getD i .absent).source ≠ .var name
  noLocalOutput : ∀ name, r.output.source ≠ .var name
  bound : ∀ i, (Op.given ops xs i).2.shape.size < 2 ^ 32
  boundOutput : y.shape.size < 2 ^ 32

/-- The gradient code of a reduction computes an element of what the reduction hands back. -/
theorem Op.reductionGradient_ends {op : Op} (hop : op.opClass = .reduction)
    {xs : List (Access × Flat α)} {y : Flat α} (hlen : xs.length = op.arity)
    (hinfer : op.infer (xs.map fun ax => ax.2.shape) = .ok ⟨y.shape, xs.map Prod.fst⟩) {slot : Nat}
    (hslot : slot < op.arity) (hr : r.Feeds ops s j xs y g (op.reductionGradient slot r))
    (hs : s.index = UInt32.ofNat j) (hj : j < (Op.given ops xs slot).2.shape.size) :
    Stmt.Ends ops s (op.reductionGradient slot r).1 fun t =>
      (op.reductionGradient slot r).2.eval ops t =
        .ok (.scalar (op.reductionPullback ops xs y g slot j)) := by
  cases op with
  | matmul =>
    obtain ⟨ax, bx, rfl⟩ := List.length_eq_two.1 hlen
    obtain ⟨hshape, hinner⟩ := Op.infer_matmul hinfer
    have hsize : y.shape.size = ax.2.shape.asMatrix.1 * bx.2.shape.asMatrix.2 := by
      simp [hshape, Shape.size]
    refine matmulGradient_ends (hsize ▸ hr.seeds) (hr.shapes 0) (hr.shapes 1) ?_ ?_ hr.noLocal
      (hr.bound 0) (hr.bound 1) hinner hs ?_
    · intro hne
      refine hr.operand 0 fun name hname => List.mem_append_left _ ?_
      simp only [Op.reductionGradient, matmulGradient, hne, if_false, Stmt.blockLoads, Stmt.loads,
        Stmt.blockLoads_append, Stmt.accumulate, Expr.loads, Operand.read, hname]
      simp
    · intro heq
      refine hr.operand 1 fun name hname => List.mem_append_left _ ?_
      simp only [Op.reductionGradient, matmulGradient, heq, if_true, Stmt.blockLoads, Stmt.loads,
        Stmt.blockLoads_append, Stmt.accumulate, Expr.loads, Operand.read, hname]
      simp
    · have hslot : slot < 2 := hslot
      obtain rfl | rfl : slot = 0 ∨ slot = 1 := by omega
      · exact hj
      · exact hj
  | fold f axis =>
    obtain ⟨ax, rfl⟩ := List.length_eq_one_iff.1 hlen
    have hshape : foldShape axis ax.2.shape = y.shape := Op.infer_fold hinfer
    obtain rfl : slot = 0 := Nat.lt_one_iff.1 hslot
    exact foldGradient_ends f axis (hshape ▸ hr.seeds) (hr.shapes 0) (hr.bound 0) hs hj
  | softmax =>
    obtain ⟨ax, rfl⟩ := List.length_eq_one_iff.1 hlen
    have hshape : ax.2.shape = y.shape := Op.infer_softmax hinfer
    obtain rfl : slot = 0 := Nat.lt_one_iff.1 hslot
    refine softmaxGradient_ends hr.seeds hr.shape (hr.output fun name hname => ?_) hr.noLocalOutput
      hr.boundOutput hs (hshape ▸ hj)
    simp only [Op.reductionGradient, softmaxGradient, Expr.loads, Operand.read, hname]
    simp
  | unary f => cases hop
  | binary f => cases hop
  | loss f => cases hop
  | reshape shape => cases hop
  | transpose => cases hop
  | dropout rate => cases hop
  | affine norm => cases hop

end Reductions

end TensorKernels
