import TensorKernels.Proofs.HostGradients
import TensorKernels.Proofs.MaskOwnership
import TensorKernels.Proofs.TensorValues
import TensorKernels.Proofs.TermGradients

/-!
# Gradients of training runs

A training run of a session returns, for every parameter, the gradient that reverse accumulation over
the compiled term gives (`Term.adjoint`), with the values and the masks of the same run
(`gradients_eq_adjoint`). The run goes through kernels, partial buffers and the host, and no
contribution is lost or counted twice on the way: `CompiledAs.gradient_eq` follows it back to the leaves
of the lowered term, and `CompiledAs.gradientAt_leaf` from there to the term itself.
-/

set_option autoImplicit false

namespace TensorKernels

variable {α : Type} (ops : Arithmetic α)

/-! ## What a run should give -/

namespace Program

/-- The assignment is that of one training run: it has the values of the session's tensors and the masks
that are drawn for the run, and it is what the machine holds after it. -/
structure RunsOn (p : Program) (env : Assignment α) (s s' : Session α) : Prop where
  tensor : ∀ t v, s.values t = some v → env.tensor t = v
  drawn : ∃ next g, s.masks.toList.mapM (Mask.refresh ops) s.generator = .ok next g ∧ p.Uses env next
  held : ∃ c, s'.compiled = some c ∧ c.machine.Carries p.signature p.root env

variable [AddCommMonoid α]

/-- The gradient of a tensor: of a parameter that of the root, and of an input zeros. -/
def gradient (p : Program) (env : Assignment α) (t : Nat) (d : TensorDecl) : Array α :=
  match d.kind with
  | .parameter => Array.ofFn fun j : Fin d.size => p.root.adjoint ops p.signature env (.tensor t) j
  | .input => Machine.zeros ops d.size

/-- The gradients of all parameters with their names, in order of declaration. -/
def gradients (p : Program) (env : Assignment α) (signature : Signature) : List (String × Array α) :=
  (signature.decls.zipIdx.filter fun e => e.1.kind = .parameter).map fun e =>
    (e.1.name, p.gradient ops env e.2 e.1)

/-- Every parameter is named once. -/
theorem nodup_gradients (p : Program) (env : Assignment α) (signature : Signature) :
    ((p.gradients ops env signature).map Prod.fst).Nodup := by
  have hnames : signature.decls.map TensorDecl.name =
      signature.decls.zipIdx.map fun e => e.1.name := by
    rw [← Function.comp_def, ← List.map_map, List.zipIdx_map_fst]
  have hnodup := signature.nodup
  rw [hnames] at hnodup
  unfold gradients
  rw [List.map_map]
  exact hnodup.sublist (List.filter_sublist.map _)

variable {ops}

/-- A tensor that does not occur in the root has no gradient. -/
theorem gradient_eq_zeros (hops : ops.Sums) {p : Program} (hroot : p.root.Built) {env : Assignment α}
    {t : Nat} (hmem : Term.tensor t ∉ p.root.subterms) (d : TensorDecl) :
    p.gradient ops env t d = Machine.zeros ops d.size := by
  unfold gradient
  cases d.kind with
  | input => rfl
  | parameter =>
    refine Array.ext (by simp [Machine.zeros]) fun j _ _ => ?_
    rw [Array.getElem_ofFn, hroot.adjoint_eq_zero ops hops hmem]
    simp [Machine.zeros, hops.zero]

end Program

/-! ## Runs of the machine -/

variable {ops} {p : Program} {plan : Plan} {id : Nat} {lowered : Lowering}

/-- A tensor of a compiled root is declared. -/
theorem CompiledAs.declared (h : CompiledAs p.signature p.root p.shape plan id lowered) {t : Nat}
    (hmem : Term.tensor t ∈ p.root.subterms) : ∃ d, p.signature.get? t = some d := by
  obtain ⟨o, ho, hk⟩ := h.lowered.exists_leaf_iff.2 hmem
  have harena : Arena p.signature lowered.masks lowered.nodes := h.sound.arena
  have hok := harena o _ (getElem?_nodeAt ho)
  simp only [NodeOk, hk] at hok
  obtain ⟨-, -, d, hd, -⟩ := hok
  exact ⟨d, hd⟩

/-- What the host adds up after a run is the gradient of the tensor, also where the tensor was declared
after the compilation. -/
theorem CompiledAs.gradientAfter_eq [AddCommMonoid α]
    (h : CompiledAs p.signature p.root p.shape plan id lowered) (hroot : p.root.Built) (hops : ops.Sums)
    (hfits : p.root.Fits p.signature) {m m' : Machine α}
    (hm : Machine.Reached ops plan p.signature.size lowered.masks.size m) {env : Assignment α}
    (hcarries : m.Carries p.signature p.root env) {r : Readback α}
    (hrun : Machine.run ops true m = .ok r m') {t : Nat} {d : TensorDecl}
    (hd : ∀ d', p.signature.get? t = some d' → d' = d) :
    Session.gradientAfter ops (plan.partials.zip r.partials) t (Machine.zeros ops d.size) =
      p.gradient ops env t d := by
  obtain ⟨r', m'', hrun', -, -, -, hcovers⟩ := h.run_ok ops hm true
  rw [hrun] at hrun'
  cases hrun'
  cases hget : p.signature.get? t with
  | none =>
    have hmem : Term.tensor t ∉ p.root.subterms := by
      intro hmem
      obtain ⟨d', hd'⟩ := h.declared hmem
      rw [hget] at hd'
      cases hd'
    rw [Program.gradient_eq_zeros hops hroot hmem]
    refine Session.gradientAfter_of_ne (fun e he heq => ?_) _
    obtain ⟨d', hd', -⟩ := hcovers rfl e he
    rw [heq, hget] at hd'
    cases hd'
  | some d' =>
    obtain rfl := hd d' hget
    cases hkind : d'.kind with
    | input =>
      rw [Session.gradientAfter_input (hcovers rfl) hget hkind, Program.gradient, hkind]
    | parameter =>
      obtain ⟨hsize, hvalue⟩ := h.gradient_eq hops hfits hm hrun hget hkind rfl
      have hgradient : p.gradient ops env t d' =
          Array.ofFn fun j : Fin d'.size => p.root.adjoint ops p.signature env (.tensor t) j := by
        rw [Program.gradient, hkind]
      rw [hgradient]
      refine Array.ext (by rw [hsize, Array.size_ofFn]) fun j hj _ => ?_
      have hj' : j < d'.size := hsize ▸ hj
      obtain ⟨hleaf, hnone⟩ := hvalue j hj'
      rw [Array.getElem_ofFn, Array.getElem_eq_getD ops.zero]
      -- a leaf of the tensor, or none
      by_cases hmem : Term.tensor t ∈ p.root.subterms
      · obtain ⟨o, ho, hk⟩ := h.lowered.exists_leaf_iff.2 hmem
        rw [hleaf o ho hk]
        refine h.gradientAt_leaf ops hroot hops ?_ ?_ ho hk (h.sound.size_tensor ho hk hget ▸ hj')
        · intro t' d'' hd''
          simp [Layout.leavesOf, hcarries.tensor t' d'' hd'']
        · intro i site hsite
          simp [Layout.leavesOf, hcarries.mask i site hsite]
      · rw [hnone fun o ho hk => hmem (h.lowered.exists_leaf_iff.1 ⟨o, ho, hk⟩),
          hroot.adjoint_eq_zero ops hops hmem]

/-! ## Runs of a session -/

namespace Session

variable {s : Session α} {c : Compiled α}

/-- The machine that is run has the values of the tensors, and the masks that were drawn for the run. If
there are fewer of those than dropout sites then it has kept the others. -/
theorem Loaded.exists_assignment (hloaded : s.Loaded ops p c) (hcoherent : s.Coherent ops)
    (next : List (Mask α)) : ∃ env, (s.loaded next c.machine).Carries p.signature p.root env ∧
      (∀ t v, s.values t = some v → env.tensor t = v) ∧ p.Uses env next := by
  obtain ⟨id, lowered, -, hcompiled⟩ := compiledAs_of_ok hloaded.built hloaded.plan
  have hreached := reached_loaded ops hloaded.reached s next
  rw [← hcompiled.lowered.inv.count] at hreached
  obtain ⟨hpresent, -⟩ := hcompiled.sound.ready_of_reached hcompiled.wired hcompiled.kernels hreached
  let env : Assignment α :=
    { tensor := fun t => (s.values t).getD #[]
      mask := fun site =>
        ((s.loaded next c.machine).masks.find? (p.root.dropoutSites.idxOf site)).getD #[] }
  have hmask : ∀ (i : Nat) site, p.root.dropoutSites[i]? = some site →
      env.mask site = ((s.loaded next c.machine).masks.find? i).getD #[] := by
    intro i site hsite
    show ((s.loaded next c.machine).masks.find? (p.root.dropoutSites.idxOf site)).getD #[] = _
    rw [hcompiled.idxOf_site hsite]
  refine ⟨env, ⟨?_, ?_⟩, ?_, ?_⟩
  · intro t d hd
    obtain ⟨st, hst, -⟩ := hcoherent.exists_tensor (hloaded.get?_eq hd)
    have hvalue : s.values t = some st.value := by
      rw [values, hst]
      rfl
    show _ = some ((s.values t).getD #[])
    rw [hloaded.find?_eq_of_values next hvalue, hvalue]
    rfl
  · intro i site hsite
    have hi : i < lowered.masks.size := by
      rw [hcompiled.lowered.inv.count]
      exact (List.getElem?_eq_some_iff.1 hsite).1
    obtain ⟨data, hdata⟩ := Option.isSome_iff_exists.1
      (hpresent.mask i _ (Array.getElem?_eq_getElem hi))
    rw [hmask i site hsite, hdata]
    rfl
  · intro t v hv
    show (s.values t).getD #[] = v
    rw [hv]
    rfl
  · intro i site k hsite hk
    rw [hmask i site hsite, loaded_mask hk s c.machine]
    rfl

/-- The gradients of the parameters, from those of all tensors. -/
theorem gradients_of_grad [AddCommMonoid α] {env : Assignment α}
    (h : ∀ (t : Nat) d, s.signature.get? t = some d →
      (s.tensors[t]?).map TensorState.grad = some (p.gradient ops env t d)) :
    s.gradients = p.gradients ops env s.signature := by
  have hzip : (s.signature.decls.zip s.tensors.toList).map (fun e => (e.1, e.2.grad)) =
      s.signature.decls.zipIdx.map fun e => (e.1, p.gradient ops env e.2 e.1) := by
    refine List.ext_getElem? fun t => ?_
    rw [List.getElem?_map, List.getElem?_map, List.getElem?_zipIdx, List.zip, List.getElem?_zipWith]
    cases hd : s.signature.decls[t]? with
    | none => simp
    | some d =>
      obtain ⟨st, hst, hgrad⟩ := Option.map_eq_some_iff.1 (h t d hd)
      simp [hst, hgrad]
  have hfilter : s.gradients =
      (((s.signature.decls.zip s.tensors.toList).map fun e => (e.1, e.2.grad)).filter
        fun e => e.1.kind = .parameter).map fun e => (e.1.name, e.2) := by
    rw [List.filter_map, List.map_map, ← List.filterMap_eq_map, List.filterMap_filter]
    refine List.filterMap_congr fun e _ => ?_
    by_cases hkind : e.1.kind = .parameter <;> simp [hkind]
  rw [hfilter, hzip, List.filter_map, List.map_map]
  rfl

variable {h : History} {next : List (Mask α)} {g : Generator} {r : Readback α} {m : Machine α}

/-- The machine holds after a run what it was run on. -/
theorem Ran.carries {training : Bool} (hran : s.Ran ops training c next g r m) {env : Assignment α}
    (hcarries : (s.loaded next c.machine).Carries p.signature p.root env) :
    m.Carries p.signature p.root env := by
  refine ⟨?_, ?_⟩
  · rw [hran.tensors]
    exact hcarries.tensor
  · rw [hran.masks]
    exact hcarries.mask

section

variable [AddCommMonoid α] {env : Assignment α}

/-- After a training run every tensor has its gradient. -/
theorem Ran.grad_eq (hran : s.Ran ops true c next g r m) (hloaded : s.Loaded ops p c)
    (hcoherent : s.Coherent ops) (hops : ops.Sums) (hfits : p.root.Fits p.signature)
    (hcarries : (s.loaded next c.machine).Carries p.signature p.root env) {t : Nat} {d : TensorDecl}
    (hd : s.signature.get? t = some d) :
    ((s.trained ops g next c r m).tensors[t]?).map TensorState.grad =
      some (p.gradient ops env t d) := by
  obtain ⟨id, lowered, -, hcompiled⟩ := compiledAs_of_ok hloaded.built hloaded.plan
  have hreached := reached_loaded ops hloaded.reached s next
  rw [← hcompiled.lowered.inv.count] at hreached
  obtain ⟨st, hst, hsuits⟩ := hcoherent.exists_tensor hd
  have hsame : ∀ d', p.signature.get? t = some d' → d' = d := by
    intro d' hd'
    have := hloaded.get?_eq hd'
    rw [hd, Option.some.injEq] at this
    exact this.symm
  rw [grad_trained hst, hsuits.grad, hran.plan]
  exact congrArg some
    (hcompiled.gradientAfter_eq hloaded.built hops hfits hreached hcarries hran.run hsame)

end

end Session

/-- After any commands, failing or not, a training run of what is compiled returns the gradient of every
parameter under its name, and each is that of reverse accumulation over the compiled term, element by
element, with the values of tensors and the masks of the same run. Addition is only assumed to be that of
a commutative monoid with zero as its neutral element, and nothing is assumed of the other operations.
A parameter that does not occur in the term has zeros, and so has every input. -/
theorem gradients_eq_adjoint [AddCommMonoid α] (hops : ops.Sums) (config : Config)
    (environment : Environment) (normal : NormalSampler) (entropy : UInt64) (log : Log)
    {commands : List (Command α)}
    (hbuilt : ∀ c ∈ commands, c.Built) {s : Session α} {h : History}
    (hfollow : Session.follow ops commands
      { Session.start config environment normal entropy with log := log } .start = (s, h))
    {c : Compiled α} (hc : s.compiled = some c) :
    ∃ p, h.program = some p ∧ (compile p.signature p.root p.shape).plan = .ok c.machine.plan ∧
      (p.root.Fits p.signature → ∃ env value result s',
        Session.run ops s = .ok result s' ∧ p.RunsOn ops env s s' ∧
        p.root.eval ops p.signature env = .ok value ∧ result.output = value.data ∧
        result.gradients = p.gradients ops env s.signature ∧
        (result.gradients.map Prod.fst).Nodup ∧
        (∀ (t : Nat) d, s.signature.get? t = some d →
          (s'.tensors[t]?).map TensorState.grad = some (p.gradient ops env t d)) ∧
        ∀ (t : Nat) d, Term.tensor t ∉ p.root.subterms →
          p.gradient ops env t d = Machine.zeros ops d.size) := by
  have hinv := (Session.Inv.start ops config environment normal entropy log).follow hbuilt
  rw [hfollow] at hinv
  obtain ⟨p, hp, hloaded⟩ := hinv.loaded c hc
  refine ⟨p, hp, hloaded.plan, fun hfits => ?_⟩
  obtain ⟨next, g, r, m, hran, hrun, -⟩ := hinv.run hc
  obtain ⟨env, hcarries, htensor, huses⟩ := hloaded.exists_assignment hinv.coherent next
  obtain ⟨value, hvalue, houtput⟩ := hran.output_eq hloaded hinv.coherent hfits hcarries
  rw [← hloaded.shape] at houtput
  have hgrad : ∀ (t : Nat) d, s.signature.get? t = some d →
      ((s.trained ops g next c r m).tensors[t]?).map TensorState.grad = some (p.gradient ops env t d) :=
    fun t d hd => hran.grad_eq hloaded hinv.coherent hops hfits hcarries hd
  have hgradients : (s.trained ops g next c r m).gradients = p.gradients ops env s.signature :=
    Session.gradients_of_grad hgrad
  refine ⟨env, value, _, _, hrun,
    ⟨htensor, ⟨next, g, hran.drawn, huses⟩, ⟨_, rfl, hran.carries hcarries⟩⟩, hvalue, houtput,
    hgradients, ?_, hgrad, fun t d hmem => Program.gradient_eq_zeros hops hloaded.built hmem d⟩
  show ((s.trained ops g next c r m).gradients.map Prod.fst).Nodup
  rw [hgradients]
  exact p.nodup_gradients ops env s.signature

/-! ## The gradients of a layer -/

namespace Session

variable (ops)

/-- Tensors of a signature that are not declared yet can be declared, and that is all that changes. -/
theorem follow_declare (decls : List TensorDecl) {signature : Signature} {s : Session α} (h : History)
    (hdecls : s.signature.decls ++ decls = signature.decls) :
    (follow ops (decls.map .declare) s h).1.signature.decls = signature.decls ∧
      (follow ops (decls.map .declare) s h).2 = h := by
  induction decls generalizing s with
  | nil => exact ⟨(List.append_nil _).symm.trans hdecls, rfl⟩
  | cons d decls ih =>
    have hvalid : isTensorName d.name := signature.valid d (by rw [← hdecls]; simp)
    have hfresh : d.name ∉ s.signature.decls.map TensorDecl.name := by
      have hnodup := signature.nodup
      rw [← hdecls, List.map_append, List.nodup_append] at hnodup
      exact fun hmem => hnodup.2.2 _ hmem _ (by simp) rfl
    have hcount : d.shape.isCountable := signature.countable d (by rw [← hdecls]; simp)
    have hdeclare : ∃ next, s.signature.declare d = .ok next ∧
        next.decls = s.signature.decls ++ [d] := by
      unfold Signature.declare
      rw [dif_pos hvalid, dif_neg hfresh, dif_pos hcount]
      exact ⟨_, rfl, rfl⟩
    obtain ⟨next, hnext, hdecls'⟩ := hdeclare
    have hstep := declare_eq ops d s
    rw [hnext] at hstep
    have hafter : (s.after ops (.declare d)).signature.decls = s.signature.decls ++ [d] := by
      rw [after, Command.exec, finalState_bind_pure, hstep]
      exact hdecls'
    exact ih (by rw [hafter, ← hdecls]; simp)

/-- Whatever can be inferred can be compiled in a session: its tensors are declared, and then the term is
compiled. -/
theorem exists_follow_compile (signature : Signature) {root : Term} (hroot : root.Built) {shape : Shape}
    (hcount : shape.isCountable) {found : Shape} (hinfer : root.infer signature = .ok found)
    (hsize : found.size = shape.size) (config : Config) (environment : Environment) (normal : NormalSampler) (entropy : UInt64) :
    ∃ s c, follow ops (signature.decls.map .declare ++ [.compile root shape])
        (Session.start config environment normal entropy) .start =
          (s, ⟨some ⟨signature, root, shape⟩, none⟩) ∧
      s.compiled = some c ∧ s.signature = signature := by
  rw [follow_append]
  obtain ⟨hdecls, hhistory⟩ := follow_declare ops signature.decls History.start
    (rfl : (Session.start config environment normal entropy : Session α).signature.decls ++ _ = _)
  generalize follow ops (signature.decls.map .declare) (Session.start config environment normal entropy)
    History.start = declared at hdecls hhistory
  obtain ⟨s, h⟩ := declared
  have hsignature : s.signature = signature := by
    cases hs : s.signature
    cases signature
    rw [hs] at hdecls
    cases hdecls
    rfl
  obtain ⟨plan, hplan⟩ := exists_plan hroot hcount hinfer hsize
  have hstep := compileTerm_eq ops root shape s
  rw [hsignature, hplan] at hstep
  have hexec : ∃ s' c, (Command.compile root shape).exec ops s = .ok .done s' ∧
      s'.compiled = some c ∧ s'.signature = signature := by
    rw [Command.exec, bind_of_ok hstep]
    exact ⟨_, _, rfl, rfl, rfl⟩
  obtain ⟨s', c, hexec, hc, hsignature'⟩ := hexec
  refine ⟨s', c, ?_, hc, hsignature'⟩
  show (s.after ops (.compile root shape), h.next ops (.compile root shape) s) = _
  rw [History.next_compile hexec, after, hexec, hsignature]
  rfl

end Session

/-- The layer with its tensors. -/
def layerProgram : Program := ⟨layerSignature, layerTerm, [2, 2]⟩

/-- Commands that compile the layer. -/
def layerCommands : List (Command Nat) :=
  layerSignature.decls.map .declare ++ [.compile layerTerm [2, 2]]

/-- The weights and the bias of the layer get their gradients, though the affine part is used twice. -/
theorem layer_gradients_eq_adjoint :
    ∃ s env value result s', Session.follow .naturals layerCommands
        (Session.start ⟨.cpu, none, 10⟩ .empty Session.steadySampler 0) .start = (s, ⟨some layerProgram, none⟩) ∧
      Session.run .naturals s = .ok result s' ∧ layerProgram.RunsOn .naturals env s s' ∧
      layerTerm.eval .naturals layerSignature env = .ok value ∧ result.output = value.data ∧
      result.gradients =
        [("w", Array.ofFn fun j : Fin 6 => layerTerm.adjoint .naturals layerSignature env (.tensor 1) j),
          ("b", Array.ofFn fun j : Fin 2 =>
            layerTerm.adjoint .naturals layerSignature env (.tensor 2) j)] := by
  obtain ⟨s, c, hfollow, hc, hsignature⟩ := Session.exists_follow_compile .naturals layerSignature
    layerTerm_built (show Shape.isCountable [2, 2] from rfl) layerTerm_infer rfl ⟨.cpu, none, 10⟩ .empty
    Session.steadySampler 0
  have hbuilt : ∀ c ∈ layerCommands, c.Built := by
    intro c hmem
    rcases List.mem_append.1 hmem with hmem | hmem
    · obtain ⟨d, -, rfl⟩ := List.mem_map.1 hmem
      trivial
    · rw [List.mem_singleton] at hmem
      rw [hmem]
      exact layerTerm_built
  obtain ⟨p, hp, -, hgradients⟩ := gradients_eq_adjoint Arithmetic.naturals_sums ⟨.cpu, none, 10⟩
    .empty Session.steadySampler 0 [] hbuilt hfollow hc
  cases hp
  obtain ⟨env, value, result, s', hrun, hruns, hvalue, houtput, hresult, -⟩ := hgradients layerTerm_fits
  refine ⟨s, env, value, result, s', hfollow, hrun, hruns, hvalue, houtput, ?_⟩
  rw [hresult, hsignature]
  rfl

end TensorKernels
