import Mathlib.Algebra.Order.Field.Basic
import Mathlib.Algebra.Order.Ring.Rat
import Mathlib.Tactic.FieldSimp
import Mathlib.Tactic.NormNum
import Mathlib.Tactic.Ring
import TensorKernels.Proofs.DualNumbers
import TensorKernels.Proofs.GradientValues

/-!
# Gradient rules are derivatives

The rules of regular operators are compared with the slopes that their forward code has on dual numbers,
over any ordered field. `exp`, `log`, `sqrt` and `tanh` are any functions: what matters is only how their
slopes are computed.

Each family of operators has its lemma, in which the rule applied to an incoming gradient `g` is `g` times
a slope (`UnaryOp.pullback_eq`, `BinaryOp.pullbacks_eq`, `LossOp.pullbacks_eq`). `rules_are_derivatives`
says this of the code.
-/

set_option autoImplicit false

namespace TensorKernels

variable {α : Type} (ops : Arithmetic α)

/-- The operations are those of an ordered field. Nothing is assumed of a division by zero. -/
structure Arithmetic.OrderedField [Field α] [LinearOrder α] (ops : Arithmetic α) : Prop
    extends ops.Ring where
  one : ops.one = 1
  two : ops.lit 2.0 = 2
  max : ∀ a b, ops.max a b = Max.max a b
  min : ∀ a b, ops.min a b = Min.min a b
  lt : ∀ a b, ops.lt a b = decide (a < b)

/-- The operand is the mask of a dropout. -/
def Op.isMask (slot : Nat) : Op → Bool
  | .dropout _ => slot = 1
  | _ => false

/-- The elements of operands as dual numbers, with a slope in one of them. -/
def Dual.perturb (slot : Nat) (x : Nat → α) (k : Nat) : Dual α :=
  ⟨x k, if k = slot then ops.one else ops.zero⟩

section Smooth

variable [Field α] [LinearOrder α]

/-- A function of one element has a slope at `x`: it has no kink there and divides by nothing that is
zero. -/
def UnaryOp.SmoothAt (x : α) : UnaryOp → Prop
  | .relu => x ≠ 0
  | .sigmoid => 1 + ops.exp (-x) ≠ 0
  | .log => x ≠ 0
  | .sqrt => ops.sqrt x ≠ 0
  | _ => True

/-- A quotient has slopes where the divisor `b` is not zero. -/
def BinaryOp.SmoothAt (b : α) : BinaryOp → Prop
  | .div => b ≠ 0
  | _ => True

/-- A cross entropy has slopes where the prediction `p` is not clamped and no logarithm of zero is
taken. -/
def LossOp.SmoothAt (p : α) : LossOp → Prop
  | .meanSquaredError => True
  | .binaryCrossEntropy =>
    ops.lit probabilityMargin < p ∧ p < ops.lit (1.0 - probabilityMargin) ∧ p ≠ 0 ∧ 1 - p ≠ 0
  | .crossEntropy => ops.lit probabilityMargin < p ∧ p < ops.lit (1.0 - probabilityMargin) ∧ p ≠ 0

/-- A regular operator has slopes at the elements `x` of its operands. -/
def Op.SmoothAt (x : Nat → α) : Op → Prop
  | .unary f => f.SmoothAt ops (x 0)
  | .binary f => f.SmoothAt (x 1)
  | .loss f => f.SmoothAt ops (x 0)
  | _ => True

variable {ops} (hops : ops.OrderedField)
include hops

/-- A prediction that is not clamped keeps its slope. -/
theorem Arithmetic.OrderedField.clamp_dual {p : Dual α} (hlow : ops.lit probabilityMargin < p.value)
    (hhigh : p.value < ops.lit (1.0 - probabilityMargin)) : ops.dual.clampProbability p = p := by
  simp [clampProbability, hops.lt, hops.max, hops.min, hlow.not_gt, hhigh.not_gt, max_eq_left hlow.le,
    min_eq_left hhigh.le]

/-- A probability that is away from zero and one is not clamped. -/
theorem Arithmetic.OrderedField.clamp {p : α} (hlow : ops.lit probabilityMargin < p)
    (hhigh : p < ops.lit (1.0 - probabilityMargin)) : ops.clampProbability p = p :=
  congrArg Dual.value (hops.clamp_dual (p := ⟨p, p⟩) hlow hhigh)

end Smooth

section Rules

variable {ops} [Field α] [LinearOrder α] [IsStrictOrderedRing α] (hops : ops.OrderedField)
include hops

/-- The rule of a function of one element multiplies by its slope. -/
theorem UnaryOp.pullback_eq (f : UnaryOp) {x : α} (hx : f.SmoothAt ops x) (g : α) :
    f.pullback ops g x (f.value ops x) = g * (f.value ops.dual ⟨x, ops.one⟩).slope := by
  have hzero := hops.zero
  have hone := hops.one
  cases f with
  | relu =>
    have hx : x ≠ 0 := hx
    simp only [UnaryOp.pullback, UnaryOp.value, Arithmetic.dual_zero, Arithmetic.dual_max, hops.lt, hzero, hone,
      decide_eq_true_eq]
    rcases lt_or_gt_of_ne hx with h | h
    · simp [h, h.not_gt]
    · simp [h, h.not_gt]
  | sigmoid =>
    have hx : 1 + ops.exp (-x) ≠ 0 := hx
    simp only [UnaryOp.pullback, UnaryOp.value, Arithmetic.dual_one, Arithmetic.dual_neg, Arithmetic.dual_exp,
      Arithmetic.dual_add, Arithmetic.dual_div, hops.neg, hops.add, hops.sub, hops.mul, hzero, hone,
      hops.div_eq _ hx, hops.div_eq _ (mul_ne_zero hx hx)]
    field_simp
    ring
  | leakyRelu slope =>
    by_cases h : ops.lt 0 x
    · simp [UnaryOp.pullback, UnaryOp.value, h, hops.mul, hzero]
    · simp [UnaryOp.pullback, UnaryOp.value, h, hops.add, hops.mul, hzero, hone]
  | tanh => simp [UnaryOp.pullback, UnaryOp.value, hops.sub, hops.mul, hone]
  | exp => simp [UnaryOp.pullback, UnaryOp.value, hops.mul, hone]
  | log =>
    have hx : x ≠ 0 := hx
    simp [UnaryOp.pullback, UnaryOp.value, hops.div_eq _ hx, hone, div_eq_mul_inv]
  | sqrt =>
    have hx : 2 * ops.sqrt x ≠ 0 := mul_ne_zero two_ne_zero hx
    simp [UnaryOp.pullback, UnaryOp.value, hops.mul, hops.two, hops.div_eq _ hx, hone, div_eq_mul_inv]

/-- The rule of an arithmetic operator multiplies by its slope in either operand. -/
theorem BinaryOp.pullbacks_eq (f : BinaryOp) {a b : α} (hb : f.SmoothAt b) (g : α) :
    f.pullbacks ops g a b =
      [some (g * (f.value ops.dual ⟨a, ops.one⟩ ⟨b, ops.zero⟩).slope),
        some (g * (f.value ops.dual ⟨a, ops.zero⟩ ⟨b, ops.one⟩).slope)] := by
  have hzero := hops.zero
  have hone := hops.one
  cases f with
  | add => simp [BinaryOp.pullbacks, BinaryOp.value, hops.add, hzero, hone]
  | sub => simp [BinaryOp.pullbacks, BinaryOp.value, hops.sub, hops.neg, hzero, hone]
  | mul => simp [BinaryOp.pullbacks, BinaryOp.value, hops.add, hops.mul, hzero, hone]
  | div =>
    have hb : b ≠ 0 := hb
    simp only [BinaryOp.pullbacks, BinaryOp.value, Arithmetic.dual_div, hops.sub, hops.mul, hops.neg, hzero,
      hone, hops.div_eq _ hb, hops.div_eq _ (mul_ne_zero hb hb)]
    refine congrArg₂ (fun d e => [some d, some e]) ?_ ?_
    · field_simp
      ring
    · field_simp
      ring

/-- The rule of a loss multiplies by its slope in the prediction and in the target. -/
theorem LossOp.pullbacks_eq (f : LossOp) {p y : α} (hp : f.SmoothAt ops p) (g : α) :
    f.pullbacks ops g p y =
      [some (g * (f.value ops.dual ⟨p, ops.one⟩ ⟨y, ops.zero⟩).slope),
        some (g * (f.value ops.dual ⟨p, ops.zero⟩ ⟨y, ops.one⟩).slope)] := by
  have hzero := hops.zero
  have hone := hops.one
  cases f with
  | meanSquaredError =>
    simp only [LossOp.pullbacks, LossOp.value, Arithmetic.dual_sub, Arithmetic.dual_mul, hops.add, hops.sub,
      hops.mul, hops.neg, hops.two, hzero, hone]
    refine congrArg₂ (fun d e => [some d, some e]) ?_ ?_
    · ring
    · ring
  | binaryCrossEntropy =>
    obtain ⟨hlow, hhigh, hp0, hp1⟩ := hp
    simp only [LossOp.pullbacks, LossOp.value, hops.clamp hlow hhigh,
      hops.clamp_dual (p := ⟨p, _⟩) hlow hhigh, Arithmetic.dual_one, Arithmetic.dual_sub, Arithmetic.dual_mul,
      Arithmetic.dual_add, Arithmetic.dual_neg, Arithmetic.dual_log, hops.add, hops.sub, hops.mul, hops.neg,
      hzero, hone, hops.div_eq _ hp0, hops.div_eq _ hp1, hops.div_eq _ (mul_ne_zero hp0 hp1)]
    refine congrArg₂ (fun d e => [some d, some e]) ?_ ?_
    · field_simp
      ring
    · ring
  | crossEntropy =>
    obtain ⟨hlow, hhigh, hp0⟩ := hp
    simp only [LossOp.pullbacks, LossOp.value, hops.clamp hlow hhigh,
      hops.clamp_dual (p := ⟨p, _⟩) hlow hhigh, Arithmetic.dual_mul, Arithmetic.dual_neg, Arithmetic.dual_log,
      hops.add, hops.mul, hops.neg, hzero, hone, hops.div_eq _ hp0]
    refine congrArg₂ (fun d e => [some d, some e]) ?_ ?_
    · field_simp
      ring
    · ring

/-- The rule of a regular operator multiplies by its slope in each operand, where a mask has none. -/
theorem Op.pullbacks_eq {op : Op} (hop : op.opClass = .regular) {x : Nat → α} (hx : op.SmoothAt ops x)
    (g : α) {slot : Nat} (hslot : slot < op.arity) :
    (op.pullbacks ops g x (op.pointwise ops x))[slot]? =
      some (if op.isMask slot then none
        else some (g * (op.pointwise ops.dual (Dual.perturb ops slot x)).slope)) := by
  cases op with
  | unary f =>
    obtain rfl : slot = 0 := Nat.lt_one_iff.1 hslot
    simp only [pullbacks, pointwise, f.pullback_eq hops hx]
    rfl
  | binary f =>
    have hslot : slot < 2 := hslot
    simp only [pullbacks, pointwise, f.pullbacks_eq hops hx]
    obtain rfl | rfl : slot = 0 ∨ slot = 1 := by omega
    · rfl
    · rfl
  | loss f =>
    have hslot : slot < 2 := hslot
    simp only [pullbacks, pointwise, f.pullbacks_eq hops hx]
    obtain rfl | rfl : slot = 0 ∨ slot = 1 := by omega
    · rfl
    · rfl
  | reshape shape =>
    obtain rfl : slot = 0 := Nat.lt_one_iff.1 hslot
    simp [pullbacks, pointwise, isMask, Dual.perturb, hops.one]
  | transpose =>
    obtain rfl : slot = 0 := Nat.lt_one_iff.1 hslot
    simp [pullbacks, pointwise, isMask, Dual.perturb, hops.one]
  | dropout rate =>
    have hslot : slot < 2 := hslot
    obtain rfl | rfl : slot = 0 ∨ slot = 1 := by omega
    · simp [pullbacks, pointwise, isMask, Dual.perturb, hops.add, hops.mul, hops.one, hops.zero]
    · rfl
  | affine norm =>
    have hslot : slot < 3 := hslot
    obtain rfl | rfl | rfl : slot = 0 ∨ slot = 1 ∨ slot = 2 := by omega
    all_goals simp [pullbacks, pointwise, isMask, Dual.perturb, hops.add, hops.mul, hops.one, hops.zero]
  | matmul => cases hop
  | fold f axis => cases hop
  | softmax => cases hop

end Rules

/-! ## Code -/

section Code

/-- A rule reads no operands but those of its operator. -/
theorem Op.gradients_congr (op : Op) {ge ye : Expr} {xe xe' : Nat → Expr}
    (h : ∀ k < op.arity, xe k = xe' k) : op.gradients ge xe ye = op.gradients ge xe' ye := by
  cases op <;> simp_all [gradients, arity]

/-- The pullbacks of an operator depend on its own operands only. -/
theorem Op.pullbacks_congr (op : Op) {g y : α} {x x' : Nat → α} (h : ∀ k < op.arity, x k = x' k) :
    op.pullbacks ops g x y = op.pullbacks ops g x' y := by
  cases op <;> simp_all [pullbacks, arity]

variable {ops} {s : Invocation α} {ge ye : Expr} {xe : Nat → Expr} {g y : α} {x : Nat → α}

/-- The term of a rule for one operand has the value of the pullback, where the operands and the result
are there. -/
theorem Op.eval_gradient {op : Op} (hg : ge.eval ops s = .ok (.scalar g))
    (hx : ∀ k < op.arity, (xe k).eval ops s = .ok (.scalar (x k))) (hy : ye.eval ops s = .ok (.scalar y))
    {slot : Nat} {v : Option α} (hv : (op.pullbacks ops g x y)[slot]? = some v) :
    v = none ∧ (op.gradients ge xe ye)[slot]? = some none ∨
    ∃ a e, v = some a ∧ (op.gradients ge xe ye)[slot]? = some (some e) ∧
      e.eval ops s = .ok (.scalar a) := by
  -- what is no operand may as well be zero
  let xe' : Nat → Expr := fun k => if k < op.arity then xe k else .float 0.0
  let x' : Nat → α := fun k => if k < op.arity then x k else ops.zero
  have hall : ∀ k, (xe' k).eval ops s = .ok (.scalar (x' k)) := by
    intro k
    by_cases hk : k < op.arity
    · simpa only [xe', x', if_pos hk] using hx k hk
    · simp only [xe', x', if_neg hk]
      rfl
  have hrules : List.Forall₂ (RuleValue ops s xe' ye x' y) (op.gradients ge xe' ye)
      (op.pullbacks ops g x' y) := op.eval_gradients ops hg
  have hxe' : op.gradients ge xe' ye = op.gradients ge xe ye :=
    op.gradients_congr fun k hk => if_pos hk
  have hx' : op.pullbacks ops g x' y = op.pullbacks ops g x y :=
    op.pullbacks_congr ops fun k hk => if_pos hk
  rw [hxe', hx', List.forall₂_iff_get] at hrules
  obtain ⟨hlength, hget⟩ := hrules
  obtain ⟨hlt, rfl⟩ := List.getElem?_eq_some_iff.1 hv
  rw [List.getElem?_eq_getElem (hlength ▸ hlt)]
  have hrule : RuleValue ops s xe' ye x' y (op.gradients ge xe ye)[slot] (op.pullbacks ops g x y)[slot] :=
    hget slot (hlength ▸ hlt) hlt
  generalize (op.gradients ge xe ye)[slot] = term at hrule ⊢
  generalize (op.pullbacks ops g x y)[slot] = v at hrule ⊢
  match term, v, hrule with
  | none, none, _ => exact .inl ⟨rfl, rfl⟩
  | some e, some a, hrule => exact .inr ⟨a, e, rfl, rfl, hrule (fun k _ => hall k) fun _ => hy⟩

end Code

/-- Over an ordered field, for a regular operator, an operand and elements of its operands at which it has
slopes: the forward code on dual numbers, where the operand is perturbed, gives a dual number whose value is
the result of the code on the elements themselves. From these elements, that result and an incoming gradient
`g`, the term of the operand evaluates to `g` times the slope. Only the mask of a dropout has no term. -/
theorem rules_are_derivatives [Field α] [LinearOrder α] [IsStrictOrderedRing α] {ops : Arithmetic α}
    (hops : ops.OrderedField) {op : Op} (hop : op.opClass = .regular) {x : Nat → α}
    (hx : op.SmoothAt ops x) {slot : Nat} (hslot : slot < op.arity) :
    ∃ d : Dual α,
      (∀ {t : Invocation (Dual α)} {operands : List Operand} {out : String},
        (∀ k < op.arity, (operands.getD k .absent).value.eval ops.dual t =
          .ok (.scalar (Dual.perturb ops slot x k))) →
        Stmt.Ends ops.dual t (op.forward out operands) fun u => u.locals.find? out = some (.scalar d)) ∧
      (∀ {s : Invocation α} {operands : List Operand} {out : String},
        (∀ k < op.arity, (operands.getD k .absent).value.eval ops s = .ok (.scalar (x k))) →
        Stmt.Ends ops s (op.forward out operands) fun u =>
          u.locals.find? out = some (.scalar d.value)) ∧
      ∀ {s : Invocation α} {ge ye : Expr} {xe : Nat → Expr} {g : α},
        ge.eval ops s = .ok (.scalar g) → (∀ k < op.arity, (xe k).eval ops s = .ok (.scalar (x k))) →
        ye.eval ops s = .ok (.scalar d.value) →
        ∃ term, (op.gradients ge xe ye)[slot]? = some term ∧ (term = none ↔ op.isMask slot) ∧
          ∀ e, term = some e → e.eval ops s = .ok (.scalar (g * d.slope)) := by
  have hvalue : (op.pointwise ops.dual (Dual.perturb ops slot x)).value = op.pointwise ops x :=
    op.pointwise_value ops _
  refine ⟨op.pointwise ops.dual (Dual.perturb ops slot x), ?_, ?_, ?_⟩
  · intro t operands out hz
    exact Op.pointwise_ends hop hz
  · intro s operands out hz
    rw [hvalue]
    exact Op.pointwise_ends hop hz
  · intro s ge ye xe g hg hxe hy
    rw [hvalue] at hy
    have hpull := Op.pullbacks_eq hops hop hx g hslot
    by_cases hmask : op.isMask slot
    · rw [if_pos hmask] at hpull
      obtain ⟨-, hterm⟩ | ⟨a, e, ha, -⟩ := Op.eval_gradient hg hxe hy hpull
      · exact ⟨none, hterm, by simp [hmask], by simp⟩
      · cases ha
    · rw [if_neg hmask] at hpull
      obtain ⟨ha, -⟩ | ⟨a, e, ha, hterm, heval⟩ := Op.eval_gradient hg hxe hy hpull
      · cases ha
      · cases ha
        refine ⟨some e, hterm, by simp [hmask], ?_⟩
        rintro _ ⟨⟩
        exact heval

/-- The rational numbers are an ordered field in the sense of the rules. -/
theorem Arithmetic.rationals_orderedField : Arithmetic.rationals.OrderedField where
  toRing := rationals_ring
  one := by decide
  two := by decide
  max _ _ := rfl
  min _ _ := rfl
  lt _ _ := rfl

/-- An invocation with a prediction of one half, the target one, an incoming gradient and a loss. -/
def halfAgainstOne (loss : ℚ) : Invocation ℚ :=
  ⟨0, .ofList [("g", .scalar 3), ("p", .scalar (1 / 2)), ("y", .scalar 1), ("v", .scalar loss)],
    .empty, .empty⟩

/-- The same with dual numbers, where the prediction is perturbed. -/
def halfPerturbed : Invocation (Dual ℚ) :=
  ⟨0, .ofList [("p", .scalar ⟨1 / 2, 1⟩), ("y", .scalar ⟨1, 0⟩)], .empty, .empty⟩

/-- The rule of a binary cross entropy gives its slope in the prediction. -/
theorem entropy_rule_is_derivative :
    ∃ (d : Dual ℚ) (e : Expr),
      Stmt.Ends Arithmetic.rationals.dual halfPerturbed
        ((Op.loss .binaryCrossEntropy).forward "v"
          [⟨.var "p", .aligned, [1]⟩, ⟨.var "y", .aligned, [1]⟩])
        (fun u => u.locals.find? "v" = some (.scalar d)) ∧
      ((Op.loss .binaryCrossEntropy).gradients (.var "g")
          (fun k => if k = 0 then .var "p" else .var "y") (.var "v"))[0]? = some (some e) ∧
      e.eval Arithmetic.rationals (halfAgainstOne d.value) = .ok (.scalar (3 * d.slope)) := by
  have hlow : Arithmetic.rationals.lit probabilityMargin = 1 / 10000000 := rfl
  have hhigh : Arithmetic.rationals.lit (1.0 - probabilityMargin) = 9999999 / 10000000 := rfl
  have hsmooth : Op.SmoothAt Arithmetic.rationals (fun k => if k = 0 then 1 / 2 else 1)
      (.loss .binaryCrossEntropy) := by
    simp only [Op.SmoothAt, LossOp.SmoothAt, hlow, hhigh]
    norm_num
  have hslot : 0 < (Op.loss .binaryCrossEntropy).arity := by decide
  have hcases : ∀ k < (Op.loss .binaryCrossEntropy).arity, k = 0 ∨ k = 1 := by
    simp only [Op.arity]
    omega
  obtain ⟨d, hdual, -, hterm⟩ :=
    rules_are_derivatives Arithmetic.rationals_orderedField rfl hsmooth hslot
  have hg : (Expr.var "g").eval Arithmetic.rationals (halfAgainstOne d.value) = .ok (.scalar 3) := rfl
  have hv : (Expr.var "v").eval Arithmetic.rationals (halfAgainstOne d.value) =
    .ok (.scalar d.value) := rfl
  have hx : ∀ k < (Op.loss .binaryCrossEntropy).arity,
      (if k = 0 then Expr.var "p" else .var "y").eval Arithmetic.rationals (halfAgainstOne d.value) =
        .ok (.scalar (if k = 0 then 1 / 2 else 1)) := by
    intro k hk
    obtain rfl | rfl := hcases k hk
    · rfl
    · rfl
  obtain ⟨term, hget, hnone, heval⟩ := hterm hg hx hv
  cases term with
  | none => exact absurd (hnone.1 rfl) (by decide)
  | some e =>
    refine ⟨d, e, hdual ?_, hget, heval e rfl⟩
    intro k hk
    obtain rfl | rfl := hcases k hk
    · rfl
    · rfl

end TensorKernels
