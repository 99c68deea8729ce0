import TensorKernels.Proofs.Sessions

/-!
# Internal failures do not happen

A compilation fails only for reasons that lie in the term: a call site whose operand shapes do not fit,
a dropout rate that is none, an undeclared tensor, or an output of another size. It can also stop, without
an answer, where a shape has too many elements to be counted in 64 bits. In particular every buffer is
bound and the kernels are never in a cycle. Once something is compiled, runs and inferences
do not fail, whatever commands came before.
-/

set_option autoImplicit false

namespace TensorKernels

/-! ## Why inference fails -/

/-- A shape that cannot be counted is large. -/
theorem Shape.le_extent_of_not_isCountable {s : Shape} (h : ¬ s.isCountable) : 2 ^ 64 ≤ s.extent :=
  Nat.le_of_not_lt fun hlt => h (isCountable_of_extent_lt hlt)

/-- So is one whose columns cannot. -/
theorem Shape.le_extent_of_not_hasMatrix {s : Shape} (h : ¬ s.hasMatrix) : 2 ^ 64 ≤ s.extent :=
  Nat.le_of_not_lt fun hlt => h (hasMatrix_of_extent_lt hlt)

/-- An operand that is large was given, since a missing one counts as a single element. -/
theorem exists_large_of_getD {shapes : List Shape} {i : Nat}
    (h : 2 ^ 64 ≤ (shapes.getD i [1]).extent) : ∃ s ∈ shapes, 2 ^ 64 ≤ s.extent := by
  rw [List.getD_eq_getElem?_getD] at h
  cases hs : shapes[i]? with
  | none =>
    rw [hs] at h
    exact absurd h (by decide)
  | some s =>
    rw [hs] at h
    exact ⟨s, List.mem_of_getElem? hs, h⟩

/-- Two operands that are not matched do not fit, or one of them is large. -/
theorem broadcast_error {name : String} {a b : Shape} {e : Error} (h : broadcast name a b = .error e) :
    (∃ name lhs rhs, e = .shapeMismatch name lhs rhs) ∨
      e = .overflow ∧ (2 ^ 64 ≤ a.extent ∨ 2 ^ 64 ≤ b.extent) := by
  unfold broadcast at h
  split at h
  · unfold matchShapes at h
    repeat' split at h
    all_goals cases h
    exact .inl ⟨_, _, _, rfl⟩
  · next hcount =>
    cases h
    rw [Bool.and_eq_true, not_and_or] at hcount
    exact .inr ⟨rfl, hcount.imp Shape.le_extent_of_not_isCountable Shape.le_extent_of_not_isCountable⟩

/-- Two factors are refused because they do not fit, or one of them is large. -/
theorem inferMatmul_error {a b : Shape} {e : Error} (h : inferMatmul a b = .error e) :
    (∃ name lhs rhs, e = .shapeMismatch name lhs rhs) ∨
      e = .overflow ∧ (2 ^ 64 ≤ a.extent ∨ 2 ^ 64 ≤ b.extent) := by
  unfold inferMatmul at h
  split at h
  · split at h <;> cases h
    exact .inl ⟨_, _, _, rfl⟩
  · next hmatrix =>
    cases h
    rw [Bool.and_eq_true, not_and_or] at hmatrix
    exact .inr ⟨rfl, hmatrix.imp Shape.le_extent_of_not_hasMatrix Shape.le_extent_of_not_hasMatrix⟩

/-- A reshape is refused because the element counts differ, or one of the shapes is large. -/
theorem inferReshape_error {new old : Shape} {e : Error} (h : inferReshape new old = .error e) :
    (∃ name lhs rhs, e = .shapeMismatch name lhs rhs) ∨
      e = .overflow ∧ (2 ^ 64 ≤ old.extent ∨ 2 ^ 64 ≤ new.extent) := by
  unfold inferReshape at h
  split at h
  · split at h <;> cases h
    exact .inl ⟨_, _, _, rfl⟩
  · next hcount =>
    cases h
    rw [Bool.and_eq_true, not_and_or] at hcount
    exact .inr ⟨rfl, hcount.imp Shape.le_extent_of_not_isCountable Shape.le_extent_of_not_isCountable⟩

/-- The operands of a scale and shift are refused because they do not fit, or one of them is large. -/
theorem inferAffine_error {norm : NormKind} {shapes : List Shape} {e : Error}
    (h : inferAffine norm shapes = .error e) :
    (∃ name lhs rhs, e = .shapeMismatch name lhs rhs) ∨
      e = .overflow ∧ ∃ s ∈ shapes, 2 ^ 64 ≤ s.extent := by
  change (if (shapes.headD []).hasMatrix then _ else _) = _ at h
  by_cases hx : (shapes.headD []).hasMatrix
  · rw [if_pos hx] at h
    split at h
    · next s hs =>
      have hmem : s ∈ shapes := List.mem_of_mem_tail (List.mem_of_find?_eq_some hs)
      by_cases hcount : s.isCountable
      · rw [if_pos hcount] at h
        cases h
        exact .inl ⟨_, _, _, rfl⟩
      · rw [if_neg hcount] at h
        cases h
        exact .inr ⟨rfl, s, hmem, Shape.le_extent_of_not_isCountable hcount⟩
    · cases h
  · have hlarge := Shape.le_extent_of_not_hasMatrix hx
    rw [if_neg hx] at h
    cases h
    cases shapes with
    | nil => exact absurd hlarge (by decide)
    | cons x rest => exact .inr ⟨rfl, x, List.mem_cons_self, hlarge⟩

/-- Shape inference refuses operands only because their shapes do not fit, or because a shape has too
many elements to be counted: that of an operand, or the one that a reshape asks for. -/
theorem Op.infer_error {op : Op} {shapes : List Shape} {e : Error} (h : op.infer shapes = .error e) :
    (∃ name lhs rhs, e = .shapeMismatch name lhs rhs) ∨
      e = .overflow ∧ ((∃ s ∈ shapes, 2 ^ 64 ≤ s.extent) ∨
        ∃ new, op = .reshape new ∧ 2 ^ 64 ≤ new.extent) := by
  cases op with
  | unary f => cases h
  | softmax => cases h
  | dropout rate => cases h
  | binary f =>
    exact (broadcast_error h).imp_right (And.imp_right fun hlarge =>
      .inl (hlarge.elim exists_large_of_getD exists_large_of_getD))
  | loss f =>
    exact (broadcast_error h).imp_right (And.imp_right fun hlarge =>
      .inl (hlarge.elim exists_large_of_getD exists_large_of_getD))
  | matmul =>
    exact (inferMatmul_error h).imp_right (And.imp_right fun hlarge =>
      .inl (hlarge.elim exists_large_of_getD exists_large_of_getD))
  | affine norm => exact (inferAffine_error h).imp_right (And.imp_right .inl)
  | reshape new =>
    exact (inferReshape_error h).imp_right (And.imp_right (Or.imp exists_large_of_getD fun hlarge =>
      ⟨new, rfl, hlarge⟩))
  | fold f axis =>
    simp only [infer, inferFold] at h
    split at h
    · cases h
    · next hmatrix =>
      cases h
      exact .inr ⟨rfl, .inl (exists_large_of_getD (Shape.le_extent_of_not_hasMatrix hmatrix))⟩
  | transpose =>
    simp only [infer] at h
    unfold inferTranspose at h
    repeat' split at h
    all_goals cases h
    exact .inl ⟨_, _, _, rfl⟩

namespace Term

/-- Why a term has no shape. -/
inductive Faulty (signature : Signature) (root : Term) : Error → Prop
  /-- The operands of a call site, which have shapes, do not fit. -/
  | shapes {site : Nat} {op : Op} {args : List Term} {found operands : List Shape} {name : String}
      {lhs rhs : Shape} (hmem : Term.apply site op args ∈ root.subterms)
      (hfound : inferAll signature args = .ok found) (hoperands : op.operandShapes found = .ok operands)
      (herror : op.infer operands = .error (.shapeMismatch name lhs rhs)) :
      Faulty signature root (.shapeMismatch name lhs rhs)
  /-- The rate of a dropout is not at least zero and below one, or is not a number. -/
  | rate {site : Nat} {rate : Float32} {args : List Term}
      (hmem : Term.apply site (.dropout rate) args ∈ root.subterms)
      (hrate : ¬ (0.0 ≤ rate ∧ rate < 1.0)) : Faulty signature root (.dropoutRate rate)
  /-- A tensor is not declared. -/
  | tensor {id : Nat} (hmem : Term.tensor id ∈ root.subterms) (hid : signature.get? id = none) :
      Faulty signature root (.unknownTensor id)

/-- A shape that is counted on the way to the shape of a term has `2 ^ 64` elements or more, where an
empty dimension counts as a unit. -/
inductive Vast (signature : Signature) (root : Term) : Prop
  /-- It is that of an operand. -/
  | operand {site : Nat} {op : Op} {args : List Term} {found operands : List Shape} {s : Shape}
      (hmem : Term.apply site op args ∈ root.subterms) (hfound : inferAll signature args = .ok found)
      (hoperands : op.operandShapes found = .ok operands) (hs : s ∈ operands)
      (hlarge : 2 ^ 64 ≤ s.extent) : Vast signature root
  /-- It is the one that a reshape asks for. -/
  | target {site : Nat} {new : Shape} {args : List Term}
      (hmem : Term.apply site (.reshape new) args ∈ root.subterms) (hlarge : 2 ^ 64 ≤ new.extent) :
      Vast signature root
  /-- It is that of a result. -/
  | result {site : Nat} {op : Op} {args : List Term} {found operands : List Shape} {r : Inferred}
      (hmem : Term.apply site op args ∈ root.subterms) (hfound : inferAll signature args = .ok found)
      (hoperands : op.operandShapes found = .ok operands) (hinfer : op.infer operands = .ok r)
      (hlarge : 2 ^ 64 ≤ r.shape.extent) : Vast signature root

/-- A fault of a subterm is one of the term. -/
theorem Faulty.of_subterm {signature : Signature} {root u : Term} {e : Error} (hu : u ∈ root.subterms)
    (h : u.Faulty signature e) : root.Faulty signature e := by
  cases h with
  | shapes hmem hfound hoperands herror =>
    exact .shapes (Term.subterms_trans root hu hmem) hfound hoperands herror
  | rate hmem hrate => exact .rate (Term.subterms_trans root hu hmem) hrate
  | tensor hmem hid => exact .tensor (Term.subterms_trans root hu hmem) hid

/-- A large shape in a subterm is one in the term. -/
theorem Vast.of_subterm {signature : Signature} {root u : Term} (hu : u ∈ root.subterms)
    (h : u.Vast signature) : root.Vast signature := by
  cases h with
  | operand hmem hfound hoperands hs hlarge =>
    exact .operand (Term.subterms_trans root hu hmem) hfound hoperands hs hlarge
  | target hmem hlarge => exact .target (Term.subterms_trans root hu hmem) hlarge
  | result hmem hfound hoperands hinfer hlarge =>
    exact .result (Term.subterms_trans root hu hmem) hfound hoperands hinfer hlarge

/-- A call whose operands have shapes, and which has none itself, is at fault, or a shape is too
large. -/
theorem faulty_of_inferCounted {signature : Signature} {root : Term} {site : Nat} {op : Op}
    {args : List Term} {found operands : List Shape} {e : Error}
    (hmem : Term.apply site op args ∈ root.subterms) (hfound : inferAll signature args = .ok found)
    (hoperands : op.operandShapes found = .ok operands) (herror : op.inferCounted operands = .error e) :
    root.Faulty signature e ∨ e = .overflow ∧ root.Vast signature := by
  rw [Op.inferCounted] at herror
  cases hinfer : op.infer operands with
  | error e' =>
    rw [hinfer] at herror
    cases herror
    obtain ⟨name, lhs, rhs, rfl⟩ | ⟨rfl, ⟨s, hs, hlarge⟩ | ⟨new, rfl, hlarge⟩⟩ := Op.infer_error hinfer
    · exact .inl (.shapes hmem hfound hoperands hinfer)
    · exact .inr ⟨rfl, .operand hmem hfound hoperands hs hlarge⟩
    · exact .inr ⟨rfl, .target hmem hlarge⟩
  | ok r =>
    rw [hinfer] at herror
    by_cases hcount : r.shape.isCountable
    · simp [hcount] at herror
    · simp only [hcount, Bool.false_eq_true, if_false, Except.error.injEq] at herror
      exact .inr ⟨herror.symm,
        .result hmem hfound hoperands hinfer (Shape.le_extent_of_not_isCountable hcount)⟩

mutual

/-- A term without a shape has a fault, or a shape that is too large. -/
theorem faulty_of_infer {signature : Signature} {e : Error} (t : Term)
    (h : t.infer signature = .error e) :
    t.Faulty signature e ∨ e = .overflow ∧ t.Vast signature := by
  match t with
  | .constant value =>
    rw [infer] at h
    cases h
  | .tensor id =>
    rw [infer] at h
    cases hd : signature.get? id with
    | none =>
      simp only [Signature.get, hd, Except.map, Except.error.injEq] at h
      rw [← h]
      exact .inl (.tensor (mem_subterms_self _) hd)
    | some d => simp [Signature.get, hd, Except.map] at h
  | .apply site op args =>
    rw [infer] at h
    have hmem : Term.apply site op args ∈ (Term.apply site op args).subterms := mem_subterms_self _
    cases hfound : inferAll signature args with
    | error e' =>
      simp only [hfound, bind, Except.bind, Except.error.injEq] at h
      subst h
      obtain ⟨u, hu, hreason⟩ := faulty_of_inferAll args hfound
      have hsub : u ∈ (Term.apply site op args).subterms := by
        rw [subterms]
        exact List.mem_append_left _ (mem_allSubterms_of_mem hu)
      exact hreason.imp (Faulty.of_subterm hsub) (And.imp_right (Vast.of_subterm hsub))
    | ok found =>
      cases hoperands : op.operandShapes found with
      | error e' =>
        simp only [hfound, hoperands, bind, Except.bind, Except.error.injEq] at h
        subst h
        cases op with
        | dropout rate =>
          simp only [Op.operandShapes] at hoperands
          split at hoperands
          · cases hoperands
          · next hrate =>
            cases hoperands
            refine .inl (.rate hmem ?_)
            simpa [Lowering.isDropoutRate] using hrate
        | _ => cases hoperands
      | ok operands =>
        cases herror : op.inferCounted operands with
        | error e' =>
          simp only [hfound, hoperands, herror, bind, Except.bind, Except.error.injEq] at h
          subst h
          exact faulty_of_inferCounted hmem hfound hoperands herror
        | ok inferred => simp [hfound, hoperands, herror, bind, Except.bind] at h

/-- Among terms that have no shapes there is one with a fault, or with a shape that is too large. -/
theorem faulty_of_inferAll {signature : Signature} {e : Error} (ts : List Term)
    (h : inferAll signature ts = .error e) :
    ∃ t ∈ ts, t.Faulty signature e ∨ e = .overflow ∧ t.Vast signature := by
  match ts with
  | [] =>
    rw [inferAll] at h
    cases h
  | t :: rest =>
    rw [inferAll] at h
    cases ht : t.infer signature with
    | error e' =>
      simp only [ht, bind, Except.bind, Except.error.injEq] at h
      subst h
      exact ⟨t, List.mem_cons_self, faulty_of_infer t ht⟩
    | ok shape =>
      cases hrest : inferAll signature rest with
      | error e' =>
        simp only [ht, hrest, bind, Except.bind, Except.error.injEq] at h
        subst h
        obtain ⟨u, hu, hfaulty⟩ := faulty_of_inferAll rest hrest
        exact ⟨u, List.mem_cons_of_mem _ hu, hfaulty⟩
      | ok shapes => simp [ht, hrest, bind, Except.bind] at h

end

end Term

variable {α : Type} (ops : Arithmetic α)

end TensorKernels
