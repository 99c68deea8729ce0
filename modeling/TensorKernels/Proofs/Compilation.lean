import TensorKernels.Proofs.Building
import TensorKernels.Proofs.Wiring

/-!
# What a compilation returns

Compiling a built term fails exactly where its shape cannot be inferred, where the elements of the output
cannot be counted, or where there are not as many: all later checks pass. Otherwise the plan is that of the layout of the
lowered root (`CompiledAs`), and the masks are those of the term's dropout sites.
-/

set_option autoImplicit false

namespace TensorKernels

/-- The plan is that of a lowered root. -/
structure CompiledAs (signature : Signature) (root : Term) (shape : Shape) (plan : Plan) (id : Nat)
    (s : Lowering) : Prop where
  lowered : Lowering.RootLowered signature root shape id s
  sound : (Layout.ofRoot signature s.nodes id).Sound s.masks
  wired : plan.Wired
  kernels : plan.kernels = (Layout.ofRoot signature s.nodes id).kernelList
  forwardCount : plan.forwardCount = (Layout.ofRoot signature s.nodes id).order.length
  output : plan.output.name = Layout.exportName id
  partials : plan.partials = (Layout.ofRoot signature s.nodes id).parameterPartials
  lowering : Lowering.lowerRoot root shape (.start signature) = .ok id s

/-- Why a term cannot be compiled: its shape cannot be inferred, or has another number of elements than
the output, or the elements of the output cannot be counted. -/
def Term.Refused (signature : Signature) (root : Term) (shape : Shape) (e : Error) : Prop :=
  root.infer signature = .error e ∨
    (∃ found, root.infer signature = .ok found ∧ found.size ≠ shape.size ∧
      e = .shapeMismatch "output" found shape) ∨
    e = .overflow ∧ ¬ shape.isCountable

/-- A term is refused, or it is compiled. -/
theorem compile_cases (signature : Signature) {root : Term} (hroot : root.Built) (shape : Shape) :
    (∃ e, (compile signature root shape).plan = .error e ∧ root.Refused signature shape e ∧
      ∀ m ∈ (compile signature root shape).masks, Lowering.isDropoutRate m.rate) ∨
    ∃ plan id s, (compile signature root shape).plan = .ok plan ∧
      (compile signature root shape).masks = s.masks ∧ CompiledAs signature root shape plan id s := by
  have hspec := Lowering.lowerRoot_spec signature hroot shape
  unfold compile
  simp only [EStateM.run]
  cases hl : Lowering.lowerRoot root shape (.start signature) with
  | error e s =>
    rw [hl] at hspec
    exact .inl ⟨e, rfl, hspec⟩
  | ok id s =>
    rw [hl] at hspec
    have hsound := Layout.ofRoot_sound hspec
    obtain ⟨plan, hplan, hwired, hkernels, hcount, houtput, hpartials⟩ := hsound.plan_ok
    exact .inr ⟨plan, id, s, hplan, rfl, hspec, hsound, hwired, hkernels, hcount, houtput, hpartials,
      hl⟩

/-- A compiled term is not refused. -/
theorem CompiledAs.not_refused {signature : Signature} {root : Term} {shape : Shape} {plan : Plan}
    {id : Nat} {s : Lowering} (h : CompiledAs signature root shape plan id s) (e : Error) :
    ¬ root.Refused signature shape e := by
  have harena : Arena signature s.masks s.nodes := h.sound.arena
  obtain ⟨base, hbase, hsize, -⟩ := h.lowered.stands
  have hinfer := hbase.infer_eq harena
  rintro (herror | ⟨found, hfound, hne, -⟩ | ⟨-, hnot⟩)
  · rw [hinfer] at herror
    cases herror
  · rw [hinfer, Except.ok.injEq] at hfound
    exact hne (hfound ▸ hsize)
  · exact hnot h.lowered.countable

/-- A plan that was compiled is that of a lowered root. -/
theorem compiledAs_of_ok {signature : Signature} {root : Term} (hroot : root.Built) {shape : Shape}
    {plan : Plan} (h : (compile signature root shape).plan = .ok plan) :
    ∃ id s, (compile signature root shape).masks = s.masks ∧
      CompiledAs signature root shape plan id s := by
  rcases compile_cases signature hroot shape with ⟨e, he, -⟩ | ⟨plan', id, s, hplan', hmasks, hcompiled⟩
  · rw [h] at he
    cases he
  · rw [h, Except.ok.injEq] at hplan'
    exact ⟨id, s, hmasks, hplan' ▸ hcompiled⟩

/-- A term with a shape of as many elements as the output is compiled. -/
theorem exists_plan {signature : Signature} {root : Term} (hroot : root.Built) {shape : Shape}
    (hshape : shape.isCountable) {found : Shape} (hfound : root.infer signature = .ok found)
    (hsize : found.size = shape.size) : ∃ plan, (compile signature root shape).plan = .ok plan := by
  rcases compile_cases signature hroot shape with
    ⟨e, -, herror | ⟨found', hfound', hne, -⟩ | ⟨-, hnot⟩, -⟩ | ⟨plan, -, -, hplan, -⟩
  · rw [hfound] at herror
    cases herror
  · rw [hfound, Except.ok.injEq] at hfound'
    exact absurd (hfound' ▸ hsize) hne
  · exact absurd hshape hnot
  · exact ⟨plan, hplan⟩

/-- The layer is compiled. -/
theorem exists_layer_plan : ∃ plan, (compile layerSignature layerTerm [2, 2]).plan = .ok plan :=
  exists_plan layerTerm_built rfl layerTerm_infer rfl

end TensorKernels
