import TensorKernels.Proofs.Forgetting
import TensorKernels.Proofs.MaskOwnership
import TensorKernels.Proofs.TensorValues

/-!
# Inferences leave no trace

An inference copies the marked tensors to the machine and removes their marks, disables every mask, in the
session and in the machine, and runs the forward kernels. `Session.View` is a session without all this: no
marks, no values of masks, and of the machine only its plan. An inference keeps the view
(`Session.Inv.view_infer`), and the answer to a command and the view after it depend on the view before it
only (`Session.Inv.observe_exec`). So inferences can be inserted anywhere in a script, and no other answer
changes (`inferences_leave_no_trace`).

There is one exception. An `output` that fails keeps the plan and replaces the masks. If there are then
fewer masks than the plan has dropout sites, a run uses for the other sites whatever mask the machine was
given last, and that may be the disabled one of an inference (`stale_mask_of_inserted_inference`).
-/

set_option autoImplicit false

namespace TensorKernels

/-! ## Views -/

/-- A session without the marks of its tensors, the values of its masks and the contents of its
machine. -/
structure View (α : Type) where
  config : Config
  environment : Environment
  normal : NormalSampler
  signature : Signature
  /-- The value and the gradient of every tensor. -/
  contents : Array (Array α × Array α)
  /-- The rates and lengths of the masks. -/
  sites : Array MaskSite
  generator : Generator
  /-- The plan that is loaded, with the shape of its output. -/
  program : Option (Plan × Shape)
  log : Log

namespace Session

variable {α : Type}

/-- The view of a session. -/
def view (s : Session α) : View α where
  config := s.config
  environment := s.environment
  normal := s.normal
  signature := s.signature
  contents := s.tensors.map fun t => (t.value, t.grad)
  sites := sitesOf s.masks
  generator := s.generator
  program := s.compiled.map fun c => (c.machine.plan, c.outputShape)
  log := s.log

/-- The answer or the error of an operation, and the view of the session that it leaves. -/
def observe {β : Type} : EStateM.Result Error (Session α) β → Except Error β × View α
  | .ok b s => (.ok b, s.view)
  | .error e s => (.error e, s.view)

/-- What is observed of the state is its view. -/
theorem observe_snd {β : Type} (r : EStateM.Result Error (Session α) β) :
    (observe r).2 = (finalState r).view := by
  cases r <;> rfl

/-- Outcomes that look the same are both successes or both failures. -/
theorem observe_cases {β : Type} {r r' : EStateM.Result Error (Session α) β}
    (h : observe r' = observe r) :
    (∃ b s s', r = .ok b s ∧ r' = .ok b s') ∨ ∃ e s s', r = .error e s ∧ r' = .error e s' := by
  have hanswer := congrArg Prod.fst h
  cases r with
  | ok b s =>
    cases r' with
    | ok b' s' =>
      cases hanswer
      exact .inl ⟨b, s, s', rfl, rfl⟩
    | error e' s' => cases hanswer
  | error e s =>
    cases r' with
    | ok b' s' => cases hanswer
    | error e' s' =>
      cases hanswer
      exact .inr ⟨e, s, s', rfl, rfl⟩

/-- Changing an answer keeps what is observed alike. -/
theorem observe_reply {β γ : Type} {x : SessionM α β} {s s' : Session α} (f : β → γ)
    (h : observe (x s') = observe (x s)) :
    observe ((do return f (← x)) s') = observe ((do return f (← x)) s) := by
  have hbind : ∀ s, observe ((do return f (← x) : SessionM α γ) s) =
      ((observe (x s)).1.map f, (observe (x s)).2) := by
    intro s
    simp only [bind, EStateM.bind]
    cases x s <;> rfl
  rw [hbind, hbind, h]

section Updates

variable (s : Session α)

/-- The view after the tensors were replaced. -/
theorem view_tensors (tensors : Array (TensorState α)) :
    ({ s with tensors := tensors } : Session α).view =
      { s.view with contents := tensors.map fun t => (t.value, t.grad) } := rfl

/-- The view after one tensor was changed. -/
theorem view_modify (id : Nat) {f : TensorState α → TensorState α}
    {f' : Array α × Array α → Array α × Array α}
    (hf : ∀ t, ((f t).value, (f t).grad) = f' (t.value, t.grad)) :
    ({ s with tensors := s.tensors.modify id f } : Session α).view =
      { s.view with contents := s.view.contents.modify id f' } := by
  have hcontents : (s.tensors.modify id f).map (fun t => (t.value, t.grad)) =
      (s.tensors.map fun t => (t.value, t.grad)).modify id f' := by
    refine Array.ext_getElem? fun i => ?_
    rw [Array.getElem?_map, Array.getElem?_modify, Array.getElem?_modify, Array.getElem?_map]
    split
    · rw [Option.map_map, Option.map_map]
      exact Option.map_congr fun t _ => hf t
    · rfl
  rw [view_tensors, hcontents]
  rfl

/-- Marks are not part of the view. -/
theorem view_unmarked (tensors : Array (TensorState α)) :
    ((tensors.map fun t => { t with dirty := false }).map fun t => (t.value, t.grad)) =
      tensors.map fun t => (t.value, t.grad) := by
  rw [Array.map_map]
  rfl

/-- The view after a program was installed. -/
theorem view_installed (ops : Arithmetic α) (plan : Plan) (shape : Shape) :
    (installed ops plan shape s).view =
      { s.view with program := some (plan, shape), log := s.log ++ s.planLog plan } := by
  have h := view_unmarked s.tensors
  unfold installed view
  rw [h]
  rfl

/-- The view after a run: the masks are those that were drawn. -/
theorem view_ran (g : Generator) (next : List (Mask α)) (c : Compiled α) (m : Machine α) :
    (s.ran g next c m).view =
      { s.view with
        sites := sitesOf next.toArray
        generator := g
        program := some (m.plan, c.outputShape) } := by
  have h := view_unmarked s.tensors
  unfold ran uploaded withMasks flushed view
  rw [h]
  rfl

/-- The view after a training run: gradients are those of its partial buffers. -/
theorem view_trained (ops : Arithmetic α) (g : Generator) (next : List (Mask α)) (c : Compiled α)
    (r : Readback α) (m : Machine α) :
    (s.trained ops g next c r m).view =
      { s.view with
        contents := s.view.contents.mapIdx fun i e =>
          (e.1, gradientAfter ops (m.plan.partials.zip r.partials) i (e.2.map fun _ => ops.zero))
        sites := sitesOf next.toArray
        generator := g
        program := some (m.plan, c.outputShape) } := by
  have hcontents : ((cleared ops s.flushed.tensors).mapIdx fun i t =>
      { t with grad := gradientAfter ops (m.plan.partials.zip r.partials) i t.grad }).map
        (fun t => (t.value, t.grad)) =
      (s.tensors.map fun t => (t.value, t.grad)).mapIdx fun i e =>
        (e.1, gradientAfter ops (m.plan.partials.zip r.partials) i (e.2.map fun _ => ops.zero)) := by
    refine Array.ext_getElem? fun i => ?_
    simp only [cleared, flushed, Array.getElem?_map, Array.getElem?_mapIdx, Option.map_map]
    rfl
  unfold trained
  rw [view_tensors, hcontents, view_ran]
  rfl

/-- The gradients of parameters can be seen. -/
theorem gradients_eq : s.gradients =
    (s.view.signature.decls.zip s.view.contents.toList).filterMap fun (d, e) =>
      if d.kind = .parameter then some (d.name, e.2) else none := by
  show _ = (s.signature.decls.zip (s.tensors.map fun t => (t.value, t.grad)).toList).filterMap _
  rw [Array.toList_map, List.zip_map_right, List.filterMap_map]
  rfl

end Updates

/-! ## Commands that do not run anything -/

section Commands

variable {ops : Arithmetic α} {s s' : Session α}

/-- Declaring a tensor is observed alike in sessions with one view. -/
theorem observe_declare (hv : s'.view = s.view) (d : TensorDecl) :
    observe (declare ops d s') = observe (declare ops d s) := by
  rw [declare_eq, declare_eq, show s'.signature.declare d = s.signature.declare d from
    congrArg (fun v : View α => v.signature.declare d) hv]
  cases s.signature.declare d with
  | error e => exact congrArg (Prod.mk _) hv
  | ok signature =>
    have hsize : s'.tensors.size = s.tensors.size := by
      simpa [view] using congrArg (fun v => v.contents.size) hv
    have hview : ∀ (s : Session α) (t : TensorState α),
        ({ s with signature := signature, tensors := s.tensors.push t } : Session α).view =
          { s.view with
            signature := signature
            contents := s.view.contents.push (t.value, t.grad) } := by
      intro s t
      simp [view]
    show (Except.ok s'.tensors.size, _) = (Except.ok s.tensors.size, _)
    rw [hsize, hview, hview, hv]

/-- Setting a tensor is observed alike in sessions with one view. -/
theorem observe_setTensor (hv : s'.view = s.view) (id : Nat) (data : Array α) :
    observe (setTensor id data s') = observe (setTensor id data s) := by
  rw [setTensor_eq, setTensor_eq, show s'.signature.accept id data = s.signature.accept id data from
    congrArg (fun v : View α => v.signature.accept id data) hv]
  cases s.signature.accept id data with
  | error e => exact congrArg (Prod.mk _) hv
  | ok data =>
    have hview : ∀ s : Session α,
        ({ s with tensors := s.tensors.modify id fun t => { t with value := data, dirty := true } } :
          Session α).view = { s.view with contents := s.view.contents.modify id fun e => (data, e.2) } :=
      fun s => view_modify s id fun _ => rfl
    refine congrArg (Prod.mk _) ?_
    rw [hview, hview, hv]

/-- Sampling a tensor is observed alike in sessions with one view. -/
theorem observe_initTensor (hv : s'.view = s.view) (id : Nat) (i : Initializer α) :
    observe (initTensor ops id i s') = observe (initTensor ops id i s) := by
  have hdrawn : ∀ g, ({ s' with generator := g } : Session α).view =
      ({ s with generator := g } : Session α).view := by
    intro g
    exact congrArg (fun v : View α => { v with generator := g }) hv
  rw [initTensor_eq, initTensor_eq, show s'.signature.get id = s.signature.get id from
    congrArg (fun v : View α => v.signature.get id) hv]
  cases s.signature.get id with
  | error e => exact congrArg (Prod.mk _) hv
  | ok d =>
    have hsample : i.sample ops s'.normal d.name d.shape s'.generator =
        i.sample ops s.normal d.name d.shape s.generator :=
      congrArg (fun v : View α => i.sample ops v.normal d.name d.shape v.generator) hv
    simp only [hsample]
    cases i.sample ops s.normal d.name d.shape s.generator with
    | error e g => exact congrArg (Prod.mk _) (hdrawn g)
    | ok data g => exact observe_setTensor (hdrawn g) id data

variable (ops) in
/-- What a step of gradient descent leaves of a value and a gradient. -/
def descended (rate : α) (d : TensorDecl) (e : Array α × Array α) : Array α × Array α :=
  ((descend ops rate d ⟨e.1, e.2, true⟩).value, e.2)

/-- A step of descent, on value and gradient alone. -/
theorem contents_descend (rate : α) (d : TensorDecl) (t : TensorState α) :
    ((descend ops rate d t).value, (descend ops rate d t).grad) =
      descended ops rate d (t.value, t.grad) := by
  unfold descended descend
  cases d.kind <;> rfl

/-- A step of descent is observed alike in sessions with one view. -/
theorem observe_learn (hv : s'.view = s.view) (id : Nat) (rate : α) :
    observe (learn ops id rate s') = observe (learn ops id rate s) := by
  rw [learn_eq, learn_eq, show s'.signature.get id = s.signature.get id from
    congrArg (fun v : View α => v.signature.get id) hv]
  cases s.signature.get id with
  | error e => exact congrArg (Prod.mk _) hv
  | ok d =>
    refine congrArg (Prod.mk _) ?_
    rw [view_modify s' id (contents_descend rate d), view_modify s id (contents_descend rate d), hv]

/-- Steps of descent are observed alike in sessions with one view. -/
theorem observe_learnAll (hv : s'.view = s.view) (rate : α) :
    observe (learnAll ops rate s') = observe (learnAll ops rate s) := by
  have hview : ∀ s : Session α, (finalState (learnAll ops rate s)).view =
      { s.view with
        contents :=
          (List.zipWith (descended ops rate) s.view.signature.decls s.view.contents.toList).toArray } := by
    intro s
    show ({ s with tensors := _ } : Session α).view = _
    rw [view_tensors, List.map_toArray, List.map_zipWith]
    simp only [contents_descend, view, Array.toList_map, List.zipWith_map_right]
  refine congrArg (Prod.mk _) ?_
  exact (hview s').trans ((congrArg (fun v : View α => { v with contents :=
    (List.zipWith (descended ops rate) v.signature.decls v.contents.toList).toArray }) hv).trans
      (hview s).symm)

/-- Compiling a term is observed alike in sessions with one view. -/
theorem observe_compileTerm (hv : s'.view = s.view) (root : Term) (shape : Shape) :
    observe (compileTerm ops root shape s') = observe (compileTerm ops root shape s) := by
  have hunloaded : ∀ (masks : Array (Mask α)) (log : Log),
      ({ s' with compiled := none, masks := masks, log := s'.log ++ log } : Session α).view =
        ({ s with compiled := none, masks := masks, log := s.log ++ log } : Session α).view := by
    intro masks log
    exact congrArg (fun v : View α =>
      { v with program := none, sites := sitesOf masks, log := v.log ++ log }) hv
  rw [compileTerm_eq, compileTerm_eq, show compile s'.signature root shape = compile s.signature root shape
    from congrArg (fun v : View α => compile v.signature root shape) hv]
  cases (compile s.signature root shape).plan with
  | error e => exact congrArg (Prod.mk _) (hunloaded _ _)
  | ok plan =>
    refine congrArg (Prod.mk _) ?_
    have hconfig : s'.config = s.config := congrArg View.config hv
    have henvironment : s'.environment = s.environment := congrArg View.environment hv
    rw [view_installed, view_installed, hunloaded]
    simp only [planLog, hconfig, henvironment, show s'.log = s.log from congrArg View.log hv]

/-- Compiling an output is observed alike in sessions with one view. -/
theorem observe_compileOutput (hv : s'.view = s.view) (root : Term) :
    observe (compileOutput ops root s') = observe (compileOutput ops root s) := by
  rw [compileOutput_eq, compileOutput_eq,
    show Lowering.lower root (.start s'.signature) = Lowering.lower root (.start s.signature) from
      congrArg (fun v : View α => Lowering.lower root (.start v.signature)) hv]
  cases Lowering.lower root (.start s.signature) with
  | error e lowered =>
    exact congrArg (fun v : View α =>
      ((Except.error e : Except Error Shape), { v with sites := sitesOf (freshMasks ops lowered.masks) })) hv
  | ok id lowered =>
    have h : observe (compileTerm ops root (lowered.node id).shape s') =
        observe (compileTerm ops root (lowered.node id).shape s) := observe_compileTerm hv root _
    rcases observe_cases h with ⟨_, t, t', hx, hx'⟩ | ⟨e, t, t', hx, hx'⟩
    · rw [hx, hx'] at h
      simp only [hx, hx']
      exact congrArg (Prod.mk _) (Prod.mk.inj h).2
    · rw [hx, hx'] at h
      simp only [hx, hx']
      exact congrArg (Prod.mk _) (Prod.mk.inj h).2

end Commands

/-! ## Runs -/

section Runs

variable {ops : Arithmetic α} {h : History} {s s' : Session α} {c c' : Compiled α}

/-- The next mask depends on the rate and the length only. -/
theorem nextMask_eq (training : Bool) (m : Mask α) :
    nextMask ops training m = nextMask ops training (Mask.ones ops m.rate m.value.size) := by
  cases training with
  | false => simp [nextMask, Mask.disable, Mask.ones]
  | true =>
    funext g
    show m.refresh ops g = (Mask.ones ops m.rate m.value.size).refresh ops g
    unfold Mask.refresh
    rw [Mask.size_ones]
    rfl

/-- So sessions with the same view draw the same masks. -/
theorem mapM_nextMask_congr (hv : s'.view = s.view) (training : Bool) :
    s'.masks.toList.mapM (nextMask ops training) s'.generator =
      s.masks.toList.mapM (nextMask ops training) s.generator := by
  have hmapM : ∀ masks : Array (Mask α), masks.toList.mapM (nextMask ops training) =
      (sitesOf masks).toList.mapM fun k => nextMask ops training (Mask.ones ops k.rate k.size) := by
    intro masks
    rw [sitesOf, Array.toList_map, List.mapM_map]
    exact congrArg (fun f => List.mapM f masks.toList) (funext fun m => nextMask_eq training m)
  rw [hmapM, hmapM, show s'.generator = s.generator from congrArg View.generator hv,
    show sitesOf s'.masks = sitesOf s.masks from congrArg View.sites hv]

end Runs

end Session

/-- There are masks for all dropout sites of what is compiled: no `output` failed since, or the last one
that failed met at least as many sites. -/
def History.Covered (h : History) : Prop :=
  ∀ p sites, h.program = some p → h.refused = some sites → p.root.dropoutSites.length ≤ sites.size

/-- A history without a refused output is covered. -/
theorem History.covered_of_refused {h : History} (hnone : h.refused = none) : h.Covered := by
  intro p sites _ hsites
  rw [hnone] at hsites
  cases hsites

namespace Session

section Runs

variable {α : Type} {ops : Arithmetic α} {h : History} {s s' : Session α} {c c' : Compiled α}

/-- A covered session has a mask for every dropout site of its program. -/
theorem Inv.size_masks (hs : s.Inv ops h) (hcovered : h.Covered) {p : Program} (hp : h.program = some p)
    (hloaded : s.Loaded ops p c) : p.root.dropoutSites.length ≤ s.masks.size := by
  have hsize : (h.refused.getD (p.root.maskSites p.signature)).size = s.masks.size := by
    rw [← hs.masks p hp, sitesOf, Array.size_map]
  rw [← hsize]
  cases hrefused : h.refused with
  | some sites => exact hcovered p sites hp hrefused
  | none =>
    obtain ⟨id, lowered, hmasks, hcompiled⟩ := compiledAs_of_ok hloaded.built hloaded.plan
    rw [Option.getD_none, ← compile_masks p.signature p.root p.shape, hmasks,
      hcompiled.lowered.inv.count]

/-- With everything copied, the machines of sessions with the same view have the same leaves. -/
theorem Inv.sameLeaves (hs : s.Inv ops h) (hs' : s'.Inv ops h) (hv : s'.view = s.view)
    (hcovered : h.Covered) (hc : s.compiled = some c) (hc' : s'.compiled = some c')
    {next : List (Mask α)} (hnext : next.length = s.masks.size) :
    Machine.SameLeaves c.machine.plan (s.loaded next c.machine) (s'.loaded next c'.machine) := by
  obtain ⟨p, hp, hloaded⟩ := hs.loaded c hc
  obtain ⟨p', hp', hloaded'⟩ := hs'.loaded c' hc'
  rw [hp, Option.some.injEq] at hp'
  subst hp'
  obtain ⟨id, lowered, -, hcompiled⟩ := compiledAs_of_ok hloaded.built hloaded.plan
  refine ⟨?_, ?_⟩
  · intro k hk b hb t ht
    obtain ⟨d, hd, -⟩ := hcompiled.sound.tensor_input (hcompiled.kernels ▸ hk) hb ht
    obtain ⟨st, hst, -⟩ := hs.coherent.exists_tensor (hloaded.get?_eq hd)
    have hcontents : (s'.tensors[t]?).map (fun t => (t.value, t.grad)) = some (st.value, st.grad) := by
      have := congrArg (fun v : View α => v.contents[t]?) hv
      simpa only [view, Array.getElem?_map, hst, Option.map_some] using this
    obtain ⟨st', hst', hsame⟩ := Option.map_eq_some_iff.1 hcontents
    rw [loaded_tensor hst (hloaded.current t _ hst) next,
      loaded_tensor hst' (hloaded'.current t _ hst') next, (Prod.mk.inj hsame).1]
  · intro k hk b hb i hi
    obtain ⟨site, hsite, -⟩ := hcompiled.sound.mask_input (hcompiled.kernels ▸ hk) hb hi
    have hlt : i < next.length := by
      have hle := hs.size_masks hcovered hp hloaded
      rw [← hcompiled.lowered.inv.count] at hle
      have := lt_size_of_getElem? hsite
      omega
    rw [loaded_mask (List.getElem?_eq_getElem hlt), loaded_mask (List.getElem?_eq_getElem hlt)]

/-- Sessions with the same view draw the same masks and read back the same. -/
theorem Inv.ran_congr (hs : s.Inv ops h) (hs' : s'.Inv ops h) (hv : s'.view = s.view)
    (hcovered : h.Covered) (hc : s.compiled = some c) (hc' : s'.compiled = some c') {training : Bool}
    {next next' : List (Mask α)} {g g' : Generator} {r r' : Readback α} {m m' : Machine α}
    (hran : s.Ran ops training c next g r m) (hran' : s'.Ran ops training c' next' g' r' m') :
    next' = next ∧ g' = g ∧ r' = r ∧ m'.plan = m.plan ∧ c'.outputShape = c.outputShape := by
  have hprogram : (c'.machine.plan, c'.outputShape) = (c.machine.plan, c.outputShape) := by
    have := congrArg View.program hv
    simpa only [view, hc, hc', Option.map_some, Option.some.injEq] using this
  obtain ⟨hplan, hshape⟩ := Prod.mk.inj hprogram
  have hdrawn := hran'.drawn
  rw [mapM_nextMask_congr hv, hran.drawn] at hdrawn
  obtain ⟨rfl, rfl⟩ : next = next' ∧ g = g' := by
    cases hdrawn
    exact ⟨rfl, rfl⟩
  refine ⟨rfl, rfl, ?_, hran'.plan.trans (hplan.trans hran.plan.symm), hshape⟩
  obtain ⟨p, hp, hloaded⟩ := hs.loaded c hc
  obtain ⟨p', hp', hloaded'⟩ := hs'.loaded c' hc'
  rw [hp, Option.some.injEq] at hp'
  subst hp'
  obtain ⟨id, lowered, -, hcompiled⟩ := compiledAs_of_ok hloaded.built hloaded.plan
  have hreached := reached_loaded ops hloaded.reached s next
  have hreached' := reached_loaded ops hloaded'.reached s' next
  rw [← hcompiled.lowered.inv.count] at hreached hreached'
  rw [hplan] at hreached'
  have hlength : next.length = s.masks.size := by
    rw [← hran.same.length_eq, Array.length_toList]
  obtain ⟨r₀, m₀, m₀', hrun, hrun'⟩ := hcompiled.run_eq_of_reached hreached hreached'
    (hs.sameLeaves hs' hv hcovered hc hc' hlength) training
  rw [hran.run] at hrun
  rw [hran'.run] at hrun'
  cases hrun
  cases hrun'
  rfl

/-- Of two sessions with one view, both have a program or neither has. -/
theorem compiled_of_view (hv : s'.view = s.view) :
    (s.compiled = none ∧ s'.compiled = none) ∨
      ∃ c c', s.compiled = some c ∧ s'.compiled = some c' := by
  have hprogram := congrArg View.program hv
  cases hc : s.compiled with
  | none =>
    cases hc' : s'.compiled with
    | none => exact .inl ⟨rfl, rfl⟩
    | some c' => simp [view, hc, hc'] at hprogram
  | some c =>
    cases hc' : s'.compiled with
    | none => simp [view, hc, hc'] at hprogram
    | some c' => exact .inr ⟨c, c', rfl, rfl⟩

/-- A training run is observed alike in sessions with one view. -/
theorem Inv.observe_run (hs : s.Inv ops h) (hs' : s'.Inv ops h) (hv : s'.view = s.view)
    (hcovered : h.Covered) : observe (Session.run ops s') = observe (Session.run ops s) := by
  rcases compiled_of_view hv with ⟨hc, hc'⟩ | ⟨c, c', hc, hc'⟩
  · rw [run_of_idle hc, run_of_idle hc']
    exact congrArg (Prod.mk _) hv
  · obtain ⟨next, g, r, m, hran, hrun, -⟩ := hs.run hc
    obtain ⟨next', g', r', m', hran', hrun', -⟩ := hs'.run hc'
    obtain ⟨rfl, rfl, rfl, hplan, hshape⟩ := hs.ran_congr hs' hv hcovered hc hc' hran hran'
    have hview : (s'.trained ops g' next' c' r' m').view = (s.trained ops g' next' c r' m).view := by
      rw [view_trained, view_trained, hv, hplan, hshape]
    rw [hrun, hrun']
    show (Except.ok (TrainingRun.mk _ _), _) = (Except.ok (TrainingRun.mk _ _), _)
    rw [gradients_eq, gradients_eq, hview, hshape]

/-- An inference is observed alike in sessions with one view. -/
theorem Inv.observe_infer (hs : s.Inv ops h) (hs' : s'.Inv ops h) (hv : s'.view = s.view)
    (hcovered : h.Covered) : observe (Session.infer ops s') = observe (Session.infer ops s) := by
  rcases compiled_of_view hv with ⟨hc, hc'⟩ | ⟨c, c', hc, hc'⟩
  · rw [infer_of_idle hc, infer_of_idle hc']
    exact congrArg (Prod.mk _) hv
  · obtain ⟨next, g, r, m, hran, hinfer, -⟩ := hs.infer hc
    obtain ⟨next', g', r', m', hran', hinfer', -⟩ := hs'.infer hc'
    obtain ⟨rfl, rfl, rfl, hplan, hshape⟩ := hs.ran_congr hs' hv hcovered hc hc' hran hran'
    rw [hinfer, hinfer']
    show (Except.ok _, _) = (Except.ok _, _)
    rw [view_ran, view_ran, hv, hplan, hshape]

/-- An inference keeps the view. -/
theorem Inv.view_infer (hs : s.Inv ops h) : (s.after ops .infer).view = s.view := by
  rw [after, Command.exec, finalState_bind_pure]
  cases hc : s.compiled with
  | none => rw [infer_of_idle hc]; rfl
  | some c =>
    obtain ⟨next, g, r, m, hran, hinfer, -⟩ := hs.infer hc
    obtain ⟨-, rfl⟩ := hran.disabled
    have hprogram : s.view.program = some (c.machine.plan, c.outputShape) := by simp [view, hc]
    rw [hinfer]
    show (s.ran s.generator next c m).view = s.view
    rw [view_ran, ← hran.sites_eq, hran.plan, ← hprogram]
    rfl

end Runs

end Session

/-! ## Commands and scripts -/

/-- Whether a command runs what is compiled. -/
def Command.Runs {α : Type} : Command α → Prop
  | .run | .infer => True
  | _ => False

section Scripts

variable {α : Type} {ops : Arithmetic α} {h : History} {s s' : Session α}

/-- The answer to a command and the view after it depend on the view before it. -/
theorem Session.Inv.observe_exec (hs : s.Inv ops h) (hs' : s'.Inv ops h) (hv : s'.view = s.view)
    {c : Command α} (hcovered : c.Runs → h.Covered) :
    Session.observe (c.exec ops s') = Session.observe (c.exec ops s) := by
  cases c with
  | declare d => exact observe_reply _ (observe_declare hv d)
  | set id data => exact observe_reply _ (observe_setTensor hv id data)
  | init id i => exact observe_reply _ (observe_initTensor hv id i)
  | compile root shape => exact observe_reply _ (observe_compileTerm hv root shape)
  | output root => exact observe_reply _ (observe_compileOutput hv root)
  | run => exact observe_reply _ (hs.observe_run hs' hv (hcovered trivial))
  | infer => exact observe_reply _ (hs.observe_infer hs' hv (hcovered trivial))
  | learn id rate => exact observe_reply _ (observe_learn hv id rate)
  | learnAll rate => exact observe_reply _ (observe_learnAll hv rate)

/-- So does the history. -/
theorem History.next_congr (hv : s'.view = s.view) {c : Command α}
    (hexec : Session.observe (c.exec ops s') = Session.observe (c.exec ops s)) :
    h.next ops c s' = h.next ops c s := by
  have hsignature : s'.signature = s.signature := congrArg View.signature hv
  unfold History.next
  rw [hsignature]
  rcases Session.observe_cases hexec with ⟨r, t, t', hx, hx'⟩ | ⟨e, t, t', hx, hx'⟩
  · rw [hx, hx']
    cases c with
    | output root => cases r <;> rfl
    | _ => rfl
  · rw [hx, hx']
    cases c <;> rfl

/-- A script in which inferences are inserted: the commands are those of the script, and `none` stands for
an inserted inference. -/
abbrev Woven (α : Type) := List (Option (Command α))

namespace Woven

/-- The script with the inferences. -/
def full (w : Woven α) : List (Command α) := w.map fun c => c.getD .infer

/-- The script without them. -/
def plain (w : Woven α) : List (Command α) := w.filterMap fun c => c

/-- Of the answers to the full script, those to the commands of the plain one. -/
def kept {β : Type} (w : Woven α) (answers : List β) : List β :=
  (w.zip answers).filterMap fun e => e.1.map fun _ => e.2

end Woven

namespace Session

/-- A script runs its first command, and then the rest. -/
theorem script_cons (c : Command α) (rest : List (Command α)) (s : Session α) :
    script ops (c :: rest) s =
      ((observe (c.exec ops s)).1 :: (script ops rest (s.after ops c)).1,
        (script ops rest (s.after ops c)).2) := by
  rw [script, after]
  cases c.exec ops s <;> rfl

/-- Scripts one after the other. -/
theorem script_append (before rest : List (Command α)) (s : Session α) :
    script ops (before ++ rest) s =
      ((script ops before s).1 ++ (script ops rest (script ops before s).2).1,
        (script ops rest (script ops before s).2).2) := by
  induction before generalizing s with
  | nil => rfl
  | cons c before ih =>
    rw [List.cons_append, script_cons, ih, script_cons]
    rfl

/-- Without an `output` nothing is refused. -/
theorem refused_follow {commands : List (Command α)}
    (hcommands : ∀ root, .output root ∉ commands) (s : Session α)
    {h : History} (hnone : h.refused = none) : (follow ops commands s h).2.refused = none := by
  induction commands generalizing s h with
  | nil => exact hnone
  | cons c rest ih =>
    refine ih (fun root hmem => hcommands root (List.mem_cons_of_mem _ hmem)) _ ?_
    cases c with
    | compile root shape =>
      unfold History.next
      cases (Command.compile root shape).exec ops s <;> rfl
    | output root => exact absurd List.mem_cons_self (hcommands root)
    | _ => exact hnone

/-- Scripts with and without inserted inferences, side by side. -/
theorem Inv.script_woven {w : Woven α} (hs : s.Inv ops h) (hs' : s'.Inv ops h) (hv : s'.view = s.view)
    (hbuilt : ∀ c ∈ w.plain, c.Built)
    (hcovered : ∀ before c rest, w.plain = before ++ c :: rest → c.Runs →
      (Session.follow ops before s h).2.Covered) :
    w.kept (script ops w.full s').1 = (script ops w.plain s).1 ∧
      (script ops w.full s').2.view = (script ops w.plain s).2.view := by
  induction w generalizing s s' h with
  | nil => exact ⟨rfl, hv⟩
  | cons x w ih =>
    cases x with
    | none =>
      -- an inserted inference keeps the view and the history
      have hinfer : (s'.after ops .infer).Inv ops h :=
        hs'.step (show (Command.infer : Command α).Built from trivial)
      obtain ⟨hanswers, hview⟩ := ih hs hinfer (hs'.view_infer.trans hv) hbuilt hcovered
      have hfull : Woven.full (none :: w) = .infer :: Woven.full w := rfl
      rw [hfull, script_cons]
      exact ⟨hanswers, hview⟩
    | some c =>
      have hplain : Woven.plain (some c :: w) = c :: Woven.plain w := rfl
      have hfull : Woven.full (some c :: w) = c :: Woven.full w := rfl
      have hmem : c ∈ Woven.plain (some c :: w) := hplain ▸ List.mem_cons_self
      have hexec := hs.observe_exec hs' hv (hcovered [] c (Woven.plain w) hplain)
      have hviews : (s'.after ops c).view = (s.after ops c).view := by
        rw [after, after, ← observe_snd, ← observe_snd, hexec]
      have hstep' := hs'.step (hbuilt c hmem)
      rw [History.next_congr hv hexec] at hstep'
      obtain ⟨hanswers, hview⟩ := ih (hs.step (hbuilt c hmem)) hstep' hviews
        (fun c' hc' => hbuilt c' (hplain ▸ List.mem_cons_of_mem _ hc'))
        (fun before c' rest heq hruns =>
          hcovered (c :: before) c' rest (by rw [hplain, heq]; rfl) hruns)
      rw [hfull, hplain, script_cons, script_cons, hexec]
      exact ⟨congrArg (List.cons _) hanswers, hview⟩

end Session

/-- Inferences can be inserted anywhere in a script of a new session, and the answers to all other commands
stay the same, with the same values, gradients, errors and random draws, as does what is left in the end:
the values and gradients of tensors, the state of the generator and what is compiled. This needs that,
where the script runs or infers something, it has a mask for every dropout site: that no `output` failed
since the compilation, or that the last one that failed met at least as many sites. -/
theorem inferences_leave_no_trace (ops : Arithmetic α) (config : Config) (environment : Environment)
    (normal : NormalSampler) (entropy : UInt64) (log : Log) {s₀ : Session α}
    (hs₀ : s₀ = { Session.start config environment normal entropy with log := log }) {w : Woven α}
    (hbuilt : ∀ c ∈ w.plain, c.Built)
    (hcovered : ∀ before c rest, w.plain = before ++ c :: rest → c.Runs →
      (Session.follow ops before s₀ .start).2.Covered) :
    w.kept (Session.script ops w.full s₀).1 = (Session.script ops w.plain s₀).1 ∧
      (Session.script ops w.full s₀).2.view = (Session.script ops w.plain s₀).2.view := by
  have hstart := Session.Inv.start ops config environment normal entropy log
  rw [← hs₀] at hstart
  exact hstart.script_woven hstart rfl hbuilt hcovered

/-- A sample with inferences in between. -/
def Session.sampleWoven : Woven Float32 :=
  [none, some (.declare sampleDecl), none, some (.compile sampleTerm [4]), none, some .run, none, none,
    some .run, some .infer, some (.learnAll 0.5)]

/-- The sample without its inferences. -/
theorem sampleWoven_plain : Session.sampleWoven.plain =
    Session.sampleCommands ++ [.run, .run, .infer, .learnAll 0.5] := rfl

/-- The inferences of the sample leave no trace. -/
theorem inferences_in_sample_leave_no_trace :
    Session.sampleWoven.kept (Session.script .binary32 Session.sampleWoven.full
        (Session.start ⟨.cpu, none, 10⟩ .empty Session.steadySampler 0)).1 =
      (Session.script .binary32 Session.sampleWoven.plain
        (Session.start ⟨.cpu, none, 10⟩ .empty Session.steadySampler 0)).1 ∧
    (Session.script .binary32 Session.sampleWoven.full
        (Session.start ⟨.cpu, none, 10⟩ .empty Session.steadySampler 0)).2.view =
      (Session.script .binary32 Session.sampleWoven.plain
        (Session.start ⟨.cpu, none, 10⟩ .empty Session.steadySampler 0)).2.view := by
  refine inferences_leave_no_trace .binary32 ⟨.cpu, none, 10⟩ .empty Session.steadySampler 0 [] rfl ?_ ?_
  · intro c hc
    rw [sampleWoven_plain] at hc
    rcases List.mem_append.1 hc with hc | hc
    · exact Session.sampleCommands_built c (List.mem_append_left _ hc)
    · simp only [List.mem_cons, List.not_mem_nil, or_false] at hc
      rcases hc with rfl | rfl | rfl | rfl <;> trivial
  · intro before c rest heq _
    refine History.covered_of_refused (Session.refused_follow ?_ _ rfl)
    intro root hmem
    have hplain : Command.output root ∈ Session.sampleWoven.plain :=
      heq ▸ List.mem_append_left _ hmem
    simp [sampleWoven_plain, Session.sampleCommands] at hplain

end Scripts

/-! ## A stale mask -/

/-- Drawn elements are dropped or scaled. -/
theorem Mask.mem_refresh {α : Type} {ops : Arithmetic α} {m m' : Mask α} {g g' : Generator}
    (h : m.refresh ops g = .ok m' g') {x : α} (hx : x ∈ m'.value) : x = ops.lit m.scale ∨ x = ops.lit 0.0 := by
  unfold Mask.refresh at h
  split at h
  · cases h
    obtain ⟨kept, -, rfl⟩ := Array.mem_map.1 hx
    cases kept
    · exact .inr rfl
    · exact .inl rfl
  · cases h

namespace Session

/-- A run gives the value of what is compiled, on the tensors and masks that the machine has. -/
theorem Inv.run_value {α : Type} {ops : Arithmetic α} {h : History} {s : Session α} (hs : s.Inv ops h)
    {c : Compiled α} (hc : s.compiled = some c) {p : Program} (hp : h.program = some p)
    (hfits : p.root.Fits p.signature) {env : Assignment α}
    (hcarries : ∀ next g, s.masks.toList.mapM (nextMask ops true) s.generator = .ok next g →
      (s.loaded next c.machine).Carries p.signature p.root env) :
    ∃ value t s', p.root.eval ops p.signature env = .ok value ∧ Session.run ops s = .ok t s' ∧
      t.output = value.data := by
  obtain ⟨p', hp', hloaded⟩ := hs.loaded c hc
  rw [hp, Option.some.injEq] at hp'
  subst hp'
  obtain ⟨next, g, r, m, hran, hrun, -⟩ := hs.run hc
  obtain ⟨value, hvalue, houtput⟩ :=
    hran.output_eq hloaded hs.coherent hfits (hcarries next g hran.drawn)
  refine ⟨value, _, _, hvalue, hrun, ?_⟩
  show r.output.take c.outputShape.size = _
  rw [hloaded.shape, houtput]

section Stale

variable {s : Session Float32}

/-- Four ones for the parameter of the sample. -/
def staleValue : Array Float32 := #[1.0, 1.0, 1.0, 1.0]

/-- The sample is compiled, and its parameter is all ones. -/
structure Primed (s : Session Float32) : Prop where
  inv : s.Inv .binary32 ⟨some sampleProgram, none⟩
  signature : s.signature = sampleProgram.signature
  value : s.values 0 = some staleValue

/-- The machine has a mask for the dropout. -/
structure Stale (mask : Array Float32) (s : Session Float32) : Prop extends Primed s where
  mask : ∃ c, s.compiled = some c ∧ c.machine.masks.find? 0 = some mask

/-- The elements of the sample term can be counted in 32-bit words. -/
theorem sampleTerm_fits : sampleTerm.Fits sampleProgram.signature := by
  intro u hu shape h
  simp only [sampleTerm, Term.subterms, Term.allSubterms, List.append_nil, List.cons_append,
    List.nil_append, List.mem_cons, List.not_mem_nil, or_false] at hu
  rcases hu with rfl | rfl
  all_goals
    cases h
    decide

/-- The sample declares one tensor. -/
theorem sample_declared {t : Nat} {d : TensorDecl} (hd : sampleProgram.signature.get? t = some d) :
    t = 0 := by
  cases t with
  | zero => rfl
  | succ t => cases hd

/-- A primed session has a program. -/
theorem Primed.exists_compiled (hs : Primed s) : ∃ c, s.compiled = some c := by
  cases hc : s.compiled with
  | none => cases hs.inv.idle hc
  | some c => exact ⟨c, rfl⟩

/-- A primed session has one mask, of four elements. -/
theorem Primed.exists_mask (hs : Primed s) : ∃ k, s.masks = #[k] ∧ k.rate = 0.5 ∧ k.value.size = 4 := by
  have hsites : s.masks.map (fun k => MaskSite.mk k.rate k.value.size) = #[⟨0.5, 4⟩] :=
    hs.inv.masks sampleProgram rfl
  obtain ⟨k, hk, hsite⟩ := Array.map_eq_singleton_iff.1 hsites
  exact ⟨k, hk, congrArg MaskSite.rate hsite, congrArg MaskSite.size hsite⟩

/-- A run of the sample leaves the next mask on the machine. -/
theorem Primed.stale_of_ran (hs : Primed s) {c : Compiled Float32} {training : Bool}
    {k : Mask Float32} {g : Generator} {r : Readback Float32} {m : Machine Float32}
    (hran : s.Ran .binary32 training c [k] g r m) {s' : Session Float32}
    (hinv : s'.Inv .binary32 ⟨some sampleProgram, none⟩) (hsignature : s'.signature = s.signature)
    (hvalues : s'.values = s.values)
    (hcompiled : s'.compiled = some { c with machine := m }) : Stale k.value s' := by
  refine ⟨⟨hinv, hsignature.trans hs.signature, hvalues ▸ hs.value⟩, _, hcompiled, ?_⟩
  show m.masks.find? 0 = some k.value
  rw [hran.masks]
  exact loaded_mask rfl s c.machine

/-- A training run leaves a drawn mask on the machine. -/
theorem Primed.run (hs : Primed s) : ∃ mask, Stale mask (s.after .binary32 .run) ∧
    (mask.getD 0 0.0 = (Mask.ones .binary32 0.5 4).scale ∨ mask.getD 0 0.0 = 0.0) := by
  obtain ⟨c, hc⟩ := hs.exists_compiled
  obtain ⟨k, hmasks, hrate, hsize⟩ := hs.exists_mask
  obtain ⟨next, g, r, m, hran, hrun, hinv⟩ := hs.inv.run hc
  have hdrawn := hran.drawn
  rw [hmasks, show (#[k] : Array (Mask Float32)).toList = [k] from rfl, List.mapM_cons] at hdrawn
  obtain ⟨k', g', hrefresh⟩ : ∃ k' g', k.refresh .binary32 s.generator = .ok k' g' :=
    Mask.refresh_ok .binary32 (hs.inv.rates k (by simp [hmasks])) s.generator
  rw [bind_of_ok (show nextMask .binary32 true k s.generator = _ from hrefresh)] at hdrawn
  cases hdrawn
  have hafter : s.after .binary32 .run = s.trained .binary32 g [k'] c r m := by
    rw [after, Command.exec, finalState_bind_pure, hrun]
    rfl
  refine ⟨k'.value, ?_, ?_⟩
  · rw [hafter]
    exact hs.stale_of_ran hran hinv rfl (hafter ▸ hs.inv.values_after .run) rfl
  · have hpos : 0 < k'.value.size := by
      rw [(Mask.size_refresh .binary32 hrefresh).1, hsize]
      decide
    rw [Array.getD_eq_getD_getElem?, Array.getElem?_eq_getElem hpos, Option.getD_some]
    have hx := Mask.mem_refresh hrefresh (Array.getElem_mem hpos)
    rwa [Mask.scale, Mask.keep, hrate] at hx

/-- An inference leaves the disabled mask on the machine. -/
theorem Primed.infer (hs : Primed s) :
    Stale (Array.replicate 4 1.0) (s.after .binary32 .infer) := by
  obtain ⟨c, hc⟩ := hs.exists_compiled
  obtain ⟨k, hmasks, hrate, hsize⟩ := hs.exists_mask
  obtain ⟨next, g, r, m, hran, hinfer, hinv⟩ := hs.inv.infer hc
  obtain ⟨hnext, rfl⟩ := hran.disabled
  obtain rfl : next = [k.disable .binary32] := by rw [hnext, hmasks]; rfl
  have hafter : s.after .binary32 .infer = s.ran s.generator [k.disable .binary32] c m := by
    rw [after, Command.exec, finalState_bind_pure, hinfer]
    rfl
  rw [hafter, ← hsize]
  exact hs.stale_of_ran hran hinv rfl (hafter ▸ hs.inv.values_after .infer) rfl

/-- After an `output` that fails, a run multiplies with the mask of the machine. -/
theorem Stale.run {mask : Array Float32} (hs : Stale mask s) :
    ∃ t, (script .binary32 [.output (.tensor 7), .run] s).1 =
        [.error (.unknownTensor 7), .ok (.trained t)] ∧
      t.output[0]? = some (1.0 * mask.getD 0 0.0) := by
  obtain ⟨st, hst, hvalue⟩ := Option.map_eq_some_iff.1 hs.value
  obtain ⟨c, hc, hmask⟩ := hs.mask
  let s' : Session Float32 := { s with masks := #[] }
  have hexec : (Command.output (.tensor 7)).exec .binary32 s = .error (.unknownTensor 7) s' :=
    exec_output_stray hs.signature
  have hinv : s'.Inv .binary32 ⟨some sampleProgram, some #[]⟩ := by
    have hbuilt : (Command.output (.tensor 7) : Command Float32).Built :=
      sampleCommands_built _ (List.mem_append_right _ List.mem_cons_self)
    have hinv := hs.inv.step hbuilt
    rw [History.next_output_error hexec, after, hexec, hs.signature] at hinv
    exact hinv
  let env : Assignment Float32 := ⟨fun _ => staleValue, fun _ => mask⟩
  obtain ⟨p, hp, hloaded⟩ := hinv.loaded c hc
  have hcarries : (s'.loaded [] c.machine).Carries sampleProgram.signature sampleTerm env := by
    refine ⟨?_, ?_⟩
    · intro t d hd
      have hst : s'.tensors[0]? = some st := hst
      rw [sample_declared hd, loaded_tensor hst (hloaded.current 0 st hst) [], hvalue]
    · intro i site hsite
      cases i with
      | zero =>
        rw [loaded, writeMasks_eq, writeTensors_eq]
        exact hmask
      | succ i => cases hsite
  obtain ⟨value, t, s'', heval, hrun, houtput⟩ := hinv.run_value hc rfl sampleTerm_fits (by
    intro next g hdrawn
    cases hdrawn
    exact hcarries)
  have hexec' : (Command.run : Command Float32).exec .binary32 s' = .ok (.trained t) s'' := bind_of_ok hrun
  cases heval
  refine ⟨t, ?_, ?_⟩
  · rw [script_cons, script_cons, after, hexec]
    show [_, (observe ((Command.run : Command Float32).exec .binary32 s')).1] = _
    rw [hexec']
    rfl
  · rw [houtput]
    rfl

/-- Commands that compile the sample, set its parameter to ones and run it. -/
def staleCommands : List (Command Float32) := sampleCommands ++ [.set 0 staleValue, .run]

/-- After the commands, the machine has a mask whose first element was either scaled or dropped. -/
theorem staleCommands_spec : ∃ mask,
    Stale mask (script .binary32 staleCommands (Session.start ⟨.cpu, none, 10⟩ .empty steadySampler 0)).2 ∧
      (mask.getD 0 0.0 = (Mask.ones .binary32 0.5 4).scale ∨ mask.getD 0 0.0 = 0.0) := by
  obtain ⟨-, hsignature, hhistory⟩ := sample_spec
  have hbuilt : ∀ c ∈ sampleCommands, c.Built := fun c hc =>
    sampleCommands_built c (List.mem_append_left _ hc)
  have hinv : sample.1.Inv .binary32 sample.2 :=
    (Inv.start .binary32 ⟨.cpu, none, 10⟩ .empty steadySampler 0 []).follow hbuilt
  have hexec : (Command.set 0 staleValue).exec .binary32 sample.1 = .ok .done
      { sample.1 with
        tensors := sample.1.tensors.modify 0 fun t => { t with value := staleValue, dirty := true } } := by
    have haccept : sample.1.signature.accept 0 staleValue = .ok staleValue := by
      rw [hsignature]
      rfl
    have h := setTensor_eq 0 staleValue sample.1
    rw [haccept] at h
    exact bind_of_ok h
  have hprimed : Primed (sample.1.after .binary32 (.set 0 staleValue)) := by
    refine ⟨?_, ?_, ?_⟩
    · rw [← hhistory]
      exact hinv.step (show (Command.set 0 staleValue).Built from trivial)
    · rw [after, hexec]
      exact hsignature
    · rw [hinv.values_after (.set 0 staleValue)]
      simp only [Command.assigned, hexec, if_true]
  obtain ⟨mask, hstale, hmask⟩ := hprimed.run
  refine ⟨mask, ?_, hmask⟩
  rw [script_eq_follow _ _ _ .start, staleCommands, follow_append]
  exact hstale

end Stale
end Session

open Session in
/-- An inserted inference changes the answer to a later run: after an `output` that fails, the run
multiplies with the mask of the machine, which is the disabled one after the inference and otherwise
the one that was drawn before. -/
theorem stale_mask_of_inserted_inference :
    (∀ c ∈ staleCommands ++ [.output (.tensor 7), .run], c.Built) ∧
    (script .binary32 (staleCommands ++ [.output (.tensor 7), .run])
        (Session.start ⟨.cpu, none, 10⟩ .empty Session.steadySampler 0)).1.getLast? ≠
      (script .binary32 (staleCommands ++ [.infer, .output (.tensor 7), .run])
        (Session.start ⟨.cpu, none, 10⟩ .empty Session.steadySampler 0)).1.getLast? := by
  obtain ⟨mask, hstale, hmask⟩ := staleCommands_spec
  obtain ⟨t, hplain, houtput⟩ := hstale.run
  obtain ⟨t', hfull, houtput'⟩ := hstale.infer.run
  refine ⟨?_, ?_⟩
  · intro c hc
    simp only [staleCommands, List.mem_append, List.mem_cons, List.not_mem_nil, or_false] at hc
    rcases hc with (hc | rfl | rfl) | rfl | rfl
    · exact sampleCommands_built c (List.mem_append_left _ hc)
    · trivial
    · trivial
    · exact sampleCommands_built _ (List.mem_append_right _ List.mem_cons_self)
    · trivial
  · rw [script_append, script_append, script_cons .infer, hplain, hfull, List.getLast?_append,
      List.getLast?_append]
    intro heq
    obtain rfl : t = t' := by simpa using heq
    rw [houtput, Option.some.injEq] at houtput'
    have hbits := congrArg Float32.toBits houtput'
    rcases hmask with hmask | hmask
    · rw [hmask] at hbits
      exact absurd hbits (by decide +kernel)
    · rw [hmask] at hbits
      exact absurd hbits (by decide +kernel)

end TensorKernels
