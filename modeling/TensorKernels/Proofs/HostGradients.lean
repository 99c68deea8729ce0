import TensorKernels.Proofs.BufferWiring
import TensorKernels.Proofs.GradientLedger
import TensorKernels.Proofs.Sessions

/-!
# Gradients on the host

A training run of a compiled plan reads back the partial buffers of parameters, and each holds what it
is entered with (`CompiledAs.run_delivers`). The host adds each to the gradient of its parameter, which
starts at zero. In the end the gradient of a parameter is that of its leaf, and a parameter without a
leaf keeps zeros (`CompiledAs.gradient_eq`).
-/

set_option autoImplicit false

namespace TensorKernels

variable {α : Type} {ops : Arithmetic α}

/-! ## Lists side by side -/

/-- Two relations, one after the other. -/
theorem forall₂_zip {β γ δ : Type} {R : β → γ → Prop} {S : γ → δ → Prop} {xs : List β} {ys : List γ}
    {zs : List δ} (h : List.Forall₂ R xs ys) (h' : List.Forall₂ S ys zs) :
    List.Forall₂ (fun x e => R x e.1 ∧ S e.1 e.2) xs (ys.zip zs) := by
  induction h generalizing zs with
  | nil => exact .nil
  | cons hxy _ ih =>
    cases h' with
    | cons hyz hrest => exact .cons ⟨hxy, hyz⟩ (ih hrest)

/-- Sums over the selected elements of two lists, element by element. -/
theorem sum_filter_of_forall₂ {β γ : Type} [AddCommMonoid α] {R : β → γ → Prop} {xs : List β}
    {ys : List γ} (h : List.Forall₂ R xs ys) {p : β → Bool} {q : γ → Bool} {f : β → α} {g : γ → α}
    (hpq : ∀ x y, R x y → p x = q y) (hfg : ∀ x ∈ xs, ∀ y, R x y → p x = true → f x = g y) :
    ((xs.filter p).map f).sum = ((ys.filter q).map g).sum := by
  induction h with
  | nil => rfl
  | @cons x y xs ys hxy _ ih =>
    have ih := ih fun x' hx' => hfg x' (List.mem_cons_of_mem _ hx')
    by_cases hp : p x = true
    · rw [List.filter_cons_of_pos hp, List.filter_cons_of_pos (hpq x y hxy ▸ hp), List.map_cons,
        List.map_cons, List.sum_cons, List.sum_cons, ih, hfg x List.mem_cons_self y hxy hp]
    · rw [List.filter_cons_of_neg hp, List.filter_cons_of_neg (hpq x y hxy ▸ hp), ih]

/-! ## Adding partial gradients -/

/-- Adding partial gradients keeps the length, and every element gets what each of them holds for it. -/
theorem Session.gradientAfter_value [AddCommMonoid α] (hops : ops.Sums)
    (parts : List (ParameterPartial × Array α)) {t : Nat} {grad : Array α}
    (h : ∀ e ∈ parts, e.1.tensor = t → e.1.access.Covers grad.size e.2.size) :
    (gradientAfter ops parts t grad).size = grad.size ∧ ∀ j < grad.size,
      (gradientAfter ops parts t grad).getD j ops.zero = grad.getD j ops.zero +
        ((parts.filter fun e => e.1.tensor = t).map fun e =>
          e.1.access.folded (fun i => e.2.getD i ops.zero) j).sum := by
  induction parts generalizing grad with
  | nil => exact ⟨rfl, fun j _ => by simp [gradientAfter]⟩
  | cons e parts ih =>
    have hrest : ∀ e' ∈ parts, e'.1.tensor = t → e'.1.access.Covers grad.size e'.2.size :=
      fun e' he' => h e' (List.mem_cons_of_mem _ he')
    rw [gradientAfter_cons]
    by_cases ht : e.1.tensor = t
    · have hcov := h e List.mem_cons_self ht
      obtain ⟨grad', hgrad, hsize⟩ := Access.foldHost_spec ops hcov
      rw [if_pos ht, hgrad, Option.getD_some, List.filter_cons_of_pos (by simpa using ht)]
      have hrest' : ∀ e' ∈ parts, e'.1.tensor = t → e'.1.access.Covers grad'.size e'.2.size := by
        rwa [hsize]
      obtain ⟨hsize', hvalue⟩ := ih hrest'
      refine ⟨hsize'.trans hsize, fun j hj => ?_⟩
      rw [hvalue j (hsize ▸ hj), Access.foldHost_value hops hcov hgrad hj, List.map_cons, List.sum_cons,
        add_assoc]
    · rw [if_neg ht, List.filter_cons_of_neg (by simpa using ht)]
      exact ih hrest

/-! ## Training runs -/

variable {signature : Signature} {root : Term} {shape : Shape} {plan : Plan} {id : Nat} {s : Lowering}

/-- Each tensor has one leaf at most. -/
theorem CompiledAs.leavesOnce (h : CompiledAs signature root shape plan id s) :
    (Layout.ofRoot signature s.nodes id).LeavesOnce := by
  intro o ho o' ho' t hk hk'
  have hfind := h.lowered.inv.leafOnce o _ t (getElem?_nodeAt ho) hk
  have hfind' := h.lowered.inv.leafOnce o' _ t (getElem?_nodeAt ho') hk'
  rw [hfind, Option.some.injEq] at hfind'
  exact hfind'

/-- A training run reads back the value of the root and the shares of parameters. -/
theorem CompiledAs.run_delivers [AddCommMonoid α] (h : CompiledAs signature root shape plan id s)
    (hops : ops.Sums) (hfits : root.Fits signature) {m : Machine α}
    (hm : Machine.Reached ops plan signature.size s.masks.size m) :
    ∃ r m', Machine.run ops true m = .ok r m' ∧
      r.output = (valueAt ops s.nodes (Layout.leavesOf m.tensors m.masks) id).data ∧
      List.Forall₂ (fun (e : ParameterPartial) data => ∀ x, e.buffer.name = outputName x →
          (Layout.ofRoot signature s.nodes id).Delivers ops (Layout.leavesOf m.tensors m.masks) x data)
        plan.partials r.partials := by
  obtain ⟨hpresent, hready⟩ := h.sound.ready_of_reached h.wired h.kernels hm
  have hbound : ∀ x < s.nodes.size, ((Layout.ofRoot signature s.nodes id).node x).size < 2 ^ 32 :=
    fun x hx => h.lowered.size_lt hfits hx
  obtain ⟨r, m', hrun, hread, -⟩ := (hready.restart m.tensors m.masks
    ((Layout.ofRoot signature s.nodes id).Delivers ops (Layout.leavesOf m.tensors m.masks))).run_spec
      h.wired true (by
      intro i k _ hk
      rw [h.kernels] at hk
      rcases List.mem_append.1 (List.mem_of_getElem? hk) with hk | hk
      · obtain ⟨c, hc, rfl⟩ := List.mem_map.1 hk
        exact h.sound.forward_runs hpresent hbound (fun y data hdata => hdata.value y rfl)
          h.sound.delivers_value hc
      · obtain ⟨b, hb, rfl⟩ := List.mem_map.1 hk
        exact h.sound.runs ops hpresent (List.mem_append_right _ (List.mem_map.2 ⟨b, hb, rfl⟩))
          (h.sound.backward_delivers h.leavesOnce hbound hops hb))
  refine ⟨r, m', hrun, (hread.output _ h.output).value id rfl, ?_⟩
  exact (hread.partials rfl).imp fun _ _ hdata => hdata.1

/-- What is read back for a parameter: what its partial buffer is entered with in the ledger. -/
structure Layout.Settles [AddCommMonoid α] (l : Layout) (ops : Arithmetic α)
    (e : PartialBuffer × Owner × (Nat → α)) (x : ParameterPartial × Array α) : Prop where
  tensor : e.1.owner = .parameter x.1.tensor
  access : x.1.access = e.1.access
  share : l.Conveys ops e x.2

/-- What is read back stands beside the entries of parameters in the ledger. -/
theorem CompiledAs.settles [AddCommMonoid α] (h : CompiledAs signature root shape plan id s)
    {leaves : LeafValues α} {ds : List (Array α)}
    (hdelivers : List.Forall₂ (fun (e : ParameterPartial) data => ∀ x, e.buffer.name = outputName x →
      (Layout.ofRoot signature s.nodes id).Delivers ops leaves x data) plan.partials ds) :
    List.Forall₂ ((Layout.ofRoot signature s.nodes id).Settles ops)
      (((Layout.ofRoot signature s.nodes id).ledger ops leaves
        (Layout.ofRoot signature s.nodes id).backwardKernels).filter fun e => e.1.isParameter)
      (plan.partials.zip ds) := by
  have hcollects := h.sound.collects
  rw [← h.partials] at hcollects
  have hboth := forall₂_zip hcollects hdelivers
  have hentered := h.sound.map_fst_ledger ops leaves (List.Subset.refl _)
  have hrecorded : (Layout.ofRoot signature s.nodes id).recordedPartials =
      (((Layout.ofRoot signature s.nodes id).ledger ops leaves
        (Layout.ofRoot signature s.nodes id).backwardKernels).filter fun e => e.1.isParameter).map
          Prod.fst := by
    show (Layout.passPartials _).filter _ = _
    rw [← hentered, List.filter_map]
    rfl
  rw [hrecorded, List.forall₂_map_left_iff] at hboth
  refine List.forall₂_iff_zip.2 ⟨hboth.length_eq, fun {e x} hmem => ?_⟩
  obtain ⟨hx, hdata⟩ := (List.forall₂_iff_zip.1 hboth).2 hmem
  exact ⟨hx.tensor, hx.access,
    (hdata _ hx.name).share e (List.mem_filter.1 (List.of_mem_zip hmem).1).1 rfl⟩

/-- The gradient that the host adds up for a parameter is that of its leaf. A parameter that has none
keeps zeros. -/
theorem CompiledAs.gradient_eq [AddCommMonoid α] (h : CompiledAs signature root shape plan id s)
    (hops : ops.Sums) (hfits : root.Fits signature) {m m' : Machine α}
    (hm : Machine.Reached ops plan signature.size s.masks.size m) {r : Readback α}
    (hrun : Machine.run ops true m = .ok r m') {t : Nat} {d : TensorDecl}
    (hd : signature.get? t = some d) (hparam : d.kind = .parameter) {grad : Array α}
    (hgrad : grad = Session.gradientAfter ops (plan.partials.zip r.partials) t
      (Machine.zeros ops d.size)) :
    grad.size = d.size ∧ ∀ j < d.size,
      (∀ o < s.nodes.size, (nodeAt s.nodes o).kind = .tensor t →
        grad.getD j ops.zero = gradientAt ops s.nodes (Layout.leavesOf m.tensors m.masks) id o j) ∧
      ((∀ o < s.nodes.size, (nodeAt s.nodes o).kind ≠ .tensor t) → grad.getD j ops.zero = 0) := by
  obtain ⟨r₁, m₁, hrun₁, -, hdelivers⟩ := h.run_delivers hops hfits hm
  rw [hrun] at hrun₁
  cases hrun₁
  obtain ⟨r₂, m₂, hrun₂, -, -, -, hcovers⟩ := h.run_ok ops hm true
  rw [hrun] at hrun₂
  cases hrun₂
  have hsettles := h.settles hdelivers
  have hzeros : (Machine.zeros ops d.size).size = d.size := by simp [Machine.zeros]
  have hcov : ∀ e ∈ plan.partials.zip r.partials, e.1.tensor = t →
      e.1.access.Covers (Machine.zeros ops d.size).size e.2.size := by
    rintro e he rfl
    obtain ⟨d', hd', -, hcov⟩ := hcovers rfl e he
    rw [hd, Option.some.injEq] at hd'
    subst hd'
    rwa [hzeros]
  obtain ⟨hsize, hvalue⟩ := Session.gradientAfter_value hops (plan.partials.zip r.partials) hcov
  rw [← hgrad, hzeros] at hsize hvalue
  refine ⟨hsize, fun j hj => ?_⟩
  have hzero : (Machine.zeros ops d.size).getD j ops.zero = 0 := by
    simp [Machine.zeros, hj, hops.zero]
  rw [hvalue j hj, hzero, zero_add]
  refine ⟨?_, ?_⟩
  · intro o ho hk
    have howns : (Layout.ofRoot signature s.nodes id).Owns (.parameter t) o := ⟨hk, d, hd, hparam⟩
    refine Eq.trans ?_ (h.sound.sum_ledger_parameter hops h.leavesOnce ho howns j)
    rw [← sum_filter_of_forall₂ hsettles
      (p := fun e => decide (e.1.owner = .parameter t)) (f := fun e => e.2.2 j), List.filter_filter]
    · refine congrArg (fun xs => (List.map _ xs).sum) (List.filter_congr fun e _ => ?_)
      cases howner : e.1.owner <;> simp [PartialBuffer.isParameter, howner]
    · intro e x hx
      simp [hx.tensor]
    · intro e _ x hx hp
      rw [hx.access]
      refine (hx.share o ho ?_ j (h.sound.size_tensor ho hk hd ▸ hj)).symm
      rw [of_decide_eq_true hp]
      exact howns
  · intro hnone
    rw [List.filter_eq_nil_iff.2]
    · rfl
    · intro x hx hp
      obtain ⟨e, he, hsettles⟩ := exists_of_forall₂ hsettles hx
      obtain ⟨c, b, hb, hmem⟩ := Layout.mem_ledger.1 (List.mem_filter.1 he).1
      obtain ⟨_, hok⟩ := h.sound.backward_ok_of_mem hb
      obtain ⟨o, ho, howns, -⟩ := hok.owned e.1 (List.of_mem_zip hmem).1
      rw [hsettles.tensor, of_decide_eq_true hp] at howns
      exact hnone o ho howns.1

end TensorKernels
