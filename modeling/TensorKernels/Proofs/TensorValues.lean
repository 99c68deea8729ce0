import TensorKernels.Proofs.Sessions

/-!
# Which values a run computes with

A session keeps the value of a tensor twice: its own, and the copy of the machine, which is renewed
before a run where the tensor is marked. `Command.assigned` says, without marks and machines, which
values a command leaves: those that it gives, if it succeeds and is one that gives values, and
otherwise those that were there. `Session.recorded` follows these values through any commands. The
session always has the recorded values (`Session.Inv.values_follow`), and so has the machine that is run
(`runs_use_recorded_values`).
-/

set_option autoImplicit false

namespace TensorKernels

variable {α : Type} (ops : Arithmetic α)

namespace Session

/-- The values of the tensors, by number. -/
def values (s : Session α) (t : Nat) : Option (Array α) := (s.tensors[t]?).map TensorState.value

/-- What an initializer gives for a tensor, where both can be had. -/
def sampled (s : Session α) (id : Nat) (i : Initializer α) : Option (Array α) :=
  (s.signature.get? id).bind fun d =>
    match i.sample ops s.normal d.name d.shape s.generator with
    | .ok data _ => some data
    | .error _ _ => none

/-- One step against the gradient from a value of a parameter; an input stays. -/
def stepped (s : Session α) (rate : α) (id : Nat) (value : Array α) : Array α :=
  match s.signature.get? id, s.tensors[id]? with
  | some ⟨_, _, .parameter⟩, some t =>
    Array.zipWith (fun v g => ops.sub v (ops.mul rate g)) value t.grad
  | _, _ => value

end Session

/-- The values that a command leaves, from those before it. -/
def Command.assigned (c : Command α) (s : Session α) (values : Nat → Option (Array α)) :
    Nat → Option (Array α) :=
  match c, c.exec ops s with
  | .declare d, .ok _ _ => fun t =>
    if t = s.signature.size then some (Array.replicate d.size ops.zero) else values t
  | .set id data, .ok _ _ => fun t => if t = id then some data else values t
  | .init id i, .ok _ _ => fun t => if t = id then s.sampled ops id i else values t
  | .learn id rate, .ok _ _ => fun t =>
    if t = id then (values t).map (s.stepped ops rate t) else values t
  | .learnAll rate, .ok _ _ => fun t => (values t).map (s.stepped ops rate t)
  | _, _ => values

namespace Session

/-- The values after commands: for each tensor those of the last command that gave it some. -/
def recorded : List (Command α) → Session α → (Nat → Option (Array α)) → Nat → Option (Array α)
  | [], _, values => values
  | c :: rest, s, values => recorded rest (s.after ops c) (c.assigned ops s values)

/-- An operation leaves the new values if it succeeds, and the old ones if it fails. -/
def Gives {β : Type} (x : SessionM α β) (s : Session α) (new : Nat → Option (Array α)) : Prop :=
  match x s with
  | .ok _ s' => s'.values = new
  | .error _ s' => s'.values = s.values

section

variable {ops} {s : Session α}

/-- Changing the answer of an operation does not change the values that it leaves. -/
theorem Gives.reply {β : Type} {x : SessionM α β} {new : Nat → Option (Array α)} (h : Gives x s new)
    (f : β → Reply α) : Gives (do return f (← x)) s new := by
  unfold Gives at h ⊢
  simp only [bind, EStateM.bind]
  cases hx : x s with
  | ok b s' =>
    rw [hx] at h
    exact h
  | error e s' =>
    rw [hx] at h
    exact h

/-! ## Operations that give values -/

/-- The values after one tensor was changed. -/
theorem values_modify (s : Session α) (id : Nat) (f : TensorState α → TensorState α) :
    ({ s with tensors := s.tensors.modify id f } : Session α).values = fun t =>
      if t = id then (s.tensors[id]?).map fun st => (f st).value else s.values t := by
  funext t
  show ((s.tensors.modify id f)[t]?).map TensorState.value = _
  rw [Array.getElem?_modify]
  by_cases ht : t = id
  · rw [if_pos ht, if_pos ht.symm, ht, Option.map_map]
    rfl
  · rw [if_neg ht, if_neg fun h => ht h.symm]
    rfl

/-- A declaration gives the new tensor zeros. -/
theorem Coherent.gives_declare (h : s.Coherent ops) (d : TensorDecl) :
    Gives (declare ops d) s fun t =>
      if t = s.signature.size then some (Array.replicate d.size ops.zero) else s.values t := by
  unfold Gives
  rw [declare_eq]
  cases s.signature.declare d with
  | error e => rfl
  | ok signature =>
    funext t
    show ((s.tensors.push _)[t]?).map TensorState.value = _
    rw [Array.getElem?_push, h.count]
    by_cases ht : t = s.signature.size
    · rw [if_pos ht, if_pos ht]
      rfl
    · rw [if_neg ht, if_neg ht]
      rfl

/-- A declared tensor has a state. -/
theorem Coherent.getElem?_of_get (h : s.Coherent ops) {id : Nat} {d : TensorDecl}
    (hd : s.signature.get? id = some d) : ∃ st, s.tensors[id]? = some st := by
  have hlt : id < s.tensors.size := by
    rw [h.count]
    exact (List.getElem?_eq_some_iff.1 hd).1
  exact ⟨_, Array.getElem?_eq_getElem hlt⟩

/-- Setting a tensor gives it the value. -/
theorem Coherent.gives_setTensor (h : s.Coherent ops) (id : Nat) (data : Array α) :
    Gives (setTensor id data) s fun t => if t = id then some data else s.values t := by
  unfold Gives
  rw [setTensor_eq]
  cases hd : s.signature.get? id with
  | none =>
    simp only [Signature.accept, Signature.get, hd]
  | some d =>
    obtain ⟨st, hst⟩ := h.getElem?_of_get hd
    by_cases hsize : data.size = d.size
    · simp only [Signature.accept, Signature.get, hd, if_pos hsize]
      rw [values_modify, hst]
      rfl
    · simp only [Signature.accept, Signature.get, hd, if_neg hsize]

/-- Sampling a tensor gives it what was drawn. -/
theorem Coherent.gives_initTensor (h : s.Coherent ops) (id : Nat) (i : Initializer α) :
    Gives (initTensor ops id i) s fun t => if t = id then s.sampled ops id i else s.values t := by
  unfold Gives
  rw [initTensor_eq]
  cases hd : s.signature.get? id with
  | none => simp only [Signature.get, hd]
  | some d =>
    simp only [Signature.get, hd]
    cases hsample : i.sample ops s.normal d.name d.shape s.generator with
    | error e g => rfl
    | ok data g =>
      have hsampled : s.sampled ops id i = some data := by
        simp only [sampled, hd, Option.bind_some, hsample]
      rw [hsampled]
      exact (h.edits_generator g).coherent.gives_setTensor id data

/-- A step of gradient descent leaves the stepped value. -/
theorem Coherent.value_descend (h : s.Coherent ops) {id : Nat} {d : TensorDecl} {st : TensorState α}
    (hd : s.signature.get? id = some d) (hst : s.tensors[id]? = some st) (rate : α) :
    (descend ops rate d st).value = s.stepped ops rate id st.value := by
  have hsuits := h.suits id d st hd hst
  obtain ⟨name, shape, kind⟩ := d
  cases kind with
  | input => simp only [descend, stepped, hd]
  | parameter =>
    simp only [descend, stepped, hd, hst]
    refine Array.ext (by simp [hsuits.value, hsuits.grad]) ?_
    intro i hi hi'
    have hlt : i < st.grad.size := by
      rw [Array.size_mapIdx] at hi
      rw [hsuits.grad, ← hsuits.value]
      exact hi
    rw [Array.getElem_mapIdx, Array.getElem_zipWith, Array.getElem?_eq_getElem hlt]
    rfl

/-- A step of descent gives one tensor its next value. -/
theorem Coherent.gives_learn (h : s.Coherent ops) (id : Nat) (rate : α) :
    Gives (learn ops id rate) s fun t =>
      if t = id then (s.values t).map (s.stepped ops rate t) else s.values t := by
  unfold Gives
  rw [learn_eq]
  cases hd : s.signature.get? id with
  | none => simp only [Signature.get, hd]
  | some d =>
    obtain ⟨st, hst⟩ := h.getElem?_of_get hd
    simp only [Signature.get, hd]
    rw [values_modify]
    funext t
    by_cases ht : t = id
    · subst ht
      simp only [if_true, values, hst, Option.map_some, h.value_descend hd hst]
    · rw [if_neg ht, if_neg ht]

/-- Steps of descent give every tensor its next value. -/
theorem Coherent.gives_learnAll (h : s.Coherent ops) (rate : α) :
    Gives (learnAll ops rate) s fun t => (s.values t).map (s.stepped ops rate t) := by
  funext t
  show ((List.zipWith (descend ops rate) s.signature.decls s.tensors.toList).toArray[t]?).map
    TensorState.value = _
  rw [List.getElem?_toArray, List.getElem?_zipWith, Array.getElem?_toList, values]
  cases hd : s.signature.decls[t]? with
  | none =>
    have hnone : s.tensors[t]? = none := by
      rw [Array.getElem?_eq_none_iff, h.count]
      exact List.getElem?_eq_none_iff.1 hd
    rw [hnone]
    rfl
  | some d =>
    obtain ⟨st, hst⟩ := h.getElem?_of_get hd
    simp only [hst, Option.map_some, h.value_descend hd hst]

/-! ## Operations that give none -/

/-- A change of everything but the values leaves the values as they are. -/
theorem values_map (s : Session α) {f : TensorState α → TensorState α}
    (hf : ∀ st, (f st).value = st.value) :
    ({ s with tensors := s.tensors.map f } : Session α).values = s.values := by
  funext t
  show ((s.tensors.map f)[t]?).map TensorState.value = _
  rw [Array.getElem?_map, Option.map_map]
  exact Option.map_congr fun st _ => hf st

/-- Compiling a term leaves all values as they are. -/
theorem gives_compileTerm (s : Session α) (root : Term) (shape : Shape) :
    Gives (Session.compileTerm ops root shape) s s.values := by
  unfold Gives
  rw [compileTerm_eq]
  cases (compile s.signature root shape).plan with
  | error e => rfl
  | ok plan => exact values_map _ fun _ => rfl

/-- Compiling an output leaves all values as they are. -/
theorem gives_compileOutput (s : Session α) (root : Term) :
    Gives (Session.compileOutput ops root) s s.values := by
  unfold Gives
  rw [compileOutput_eq]
  cases Lowering.lower root (.start s.signature) with
  | error e lowered => rfl
  | ok id lowered =>
    have h : Gives (Session.compileTerm ops root (lowered.node id).shape) s s.values :=
      gives_compileTerm s root (lowered.node id).shape
    unfold Gives at h
    cases hcompile : Session.compileTerm ops root (lowered.node id).shape s with
    | error e s' =>
      rw [hcompile] at h
      simp only [hcompile]
      exact h
    | ok _ s' =>
      rw [hcompile] at h
      simp only [hcompile]
      exact h

variable {h : History}

/-- A training run leaves all values as they are. -/
theorem Inv.gives_run (hs : s.Inv ops h) : Gives (Session.run ops) s s.values := by
  unfold Gives
  cases hcompiled : s.compiled with
  | none => rw [run_of_idle hcompiled]
  | some c =>
    obtain ⟨next, g, r, m, -, hrun, -⟩ := hs.run hcompiled
    rw [hrun]
    funext t
    show (((cleared ops s.flushed.tensors).mapIdx fun i t => _)[t]?).map TensorState.value = _
    rw [Array.getElem?_mapIdx, Option.map_map, cleared, flushed, Array.getElem?_map,
      Array.getElem?_map, Option.map_map, Option.map_map]
    rfl

/-- An inference leaves all values as they are. -/
theorem Inv.gives_infer (hs : s.Inv ops h) : Gives (Session.infer ops) s s.values := by
  unfold Gives
  cases hcompiled : s.compiled with
  | none => rw [infer_of_idle hcompiled]
  | some c =>
    obtain ⟨next, g, r, m, -, hinfer, -⟩ := hs.infer hcompiled
    rw [hinfer]
    exact values_map _ fun _ => rfl

/-! ## One command, and any -/

/-- A command leaves the assigned values, whether or not it fails. -/
theorem Inv.values_after (hs : s.Inv ops h) (c : Command α) :
    (s.after ops c).values = c.assigned ops s s.values := by
  have hgives : ∀ new, Gives (c.exec ops) s new →
      (∀ r s', c.exec ops s = .ok r s' → c.assigned ops s s.values = new) →
      (s.after ops c).values = c.assigned ops s s.values := by
    intro new hnew hassigned
    unfold Gives at hnew
    cases hexec : c.exec ops s with
    | ok r s' =>
      rw [hexec] at hnew
      rw [hassigned r s' hexec, after, hexec]
      exact hnew
    | error e s' =>
      have hkept : c.assigned ops s s.values = s.values := by
        cases c <;> simp only [Command.assigned, hexec]
      rw [hexec] at hnew
      rw [hkept, after, hexec]
      exact hnew
  cases c with
  | declare d =>
    refine hgives _ ((hs.coherent.gives_declare d).reply _) fun r s' hexec => ?_
    simp only [Command.assigned, hexec]
  | set id data =>
    refine hgives _ ((hs.coherent.gives_setTensor id data).reply _) fun r s' hexec => ?_
    simp only [Command.assigned, hexec]
  | init id i =>
    refine hgives _ ((hs.coherent.gives_initTensor id i).reply _) fun r s' hexec => ?_
    simp only [Command.assigned, hexec]
  | learn id rate =>
    refine hgives _ ((hs.coherent.gives_learn id rate).reply _) fun r s' hexec => ?_
    simp only [Command.assigned, hexec]
  | learnAll rate =>
    refine hgives _ ((hs.coherent.gives_learnAll rate).reply _) fun r s' hexec => ?_
    simp only [Command.assigned, hexec]
  | compile root shape =>
    refine hgives _ ((gives_compileTerm s root shape).reply _) fun r s' hexec => ?_
    simp only [Command.assigned]
  | output root =>
    refine hgives _ ((gives_compileOutput s root).reply _) fun r s' hexec => ?_
    simp only [Command.assigned]
  | run =>
    refine hgives _ (hs.gives_run.reply _) fun r s' hexec => ?_
    simp only [Command.assigned]
  | infer =>
    refine hgives _ (hs.gives_infer.reply _) fun r s' hexec => ?_
    simp only [Command.assigned]

/-- Commands leave the recorded values. -/
theorem Inv.values_follow (hs : s.Inv ops h) {commands : List (Command α)}
    (hbuilt : ∀ c ∈ commands, c.Built) :
    (Session.follow ops commands s h).1.values = recorded ops commands s s.values := by
  induction commands generalizing s h with
  | nil => rfl
  | cons c rest ih =>
    rw [Session.follow, recorded, ← hs.values_after c]
    exact ih (hs.step (hbuilt c List.mem_cons_self)) fun c' hc' => hbuilt c' (List.mem_cons_of_mem _ hc')

/-! ## Runs -/

/-- With every marked tensor copied, the machine has the values of the session. -/
theorem Loaded.find?_eq_of_values {p : Program} {c : Compiled α} (hloaded : s.Loaded ops p c)
    (next : List (Mask α)) {t : Nat} {v : Array α} (hv : s.values t = some v) :
    (s.loaded next c.machine).tensors.find? t = some v := by
  obtain ⟨st, hst, rfl⟩ := Option.map_eq_some_iff.1 hv
  exact hloaded.tensors_eq next hst

/-- The gradients after a training run come from what the machine read back. -/
theorem grad_trained {g : Generator} {next : List (Mask α)} {c : Compiled α} {r : Readback α}
    {m : Machine α} {t : Nat} {st : TensorState α} (hst : s.tensors[t]? = some st) :
    ((s.trained ops g next c r m).tensors[t]?).map TensorState.grad =
      some (gradientAfter ops (m.plan.partials.zip r.partials) t
        (Array.replicate st.grad.size ops.zero)) := by
  show (((cleared ops s.flushed.tensors).mapIdx fun i t => _)[t]?).map TensorState.grad = _
  rw [Array.getElem?_mapIdx, Option.map_map, cleared, flushed, Array.getElem?_map,
    Array.getElem?_map, Option.map_map, Option.map_map, hst, Option.map_some, Option.some.injEq]
  show gradientAfter ops _ t (st.grad.map fun _ => ops.zero) = _
  rw [Array.map_const']

end

end Session

/-- After any commands, failing or not, a tensor has the value of the last command that gave it one,
and if it is not marked then the machine of what is compiled has that value too. An inference and a
training run are runs of the session's own machine, which has the values of all tensors then, with the
masks disabled or drawn anew; they return what the machine reads back. No compilation, run or inference
changes the value of a tensor. -/
theorem runs_use_recorded_values (config : Config) (environment : Environment)
    (normal : NormalSampler) (entropy : UInt64)
    (log : Log) {commands : List (Command α)} (hbuilt : ∀ c ∈ commands, c.Built) {s₀ s : Session α}
    (hs₀ : s₀ = { Session.start config environment normal entropy with log := log })
    (hs : s = (Session.script ops commands s₀).2) :
    s.values = Session.recorded ops commands s₀ (fun _ => none) ∧
    (∀ c, s.compiled = some c →
      (∀ (t : Nat) st, s.tensors[t]? = some st → st.dirty = false →
        c.machine.tensors.find? t = some st.value) ∧
      (∀ next t v, s.values t = some v → (s.loaded next c.machine).tensors.find? t = some v) ∧
      (∃ next r s', next = s.masks.toList.map (Mask.disable ops) ∧ s.Executes ops false c next r s' ∧
        Session.infer ops s = .ok (r.output.take c.outputShape.size) s') ∧
      ∃ next g r s', s.masks.toList.mapM (Mask.refresh ops) s.generator = .ok next g ∧
        s.Executes ops true c next r s' ∧
        Session.run ops s = .ok ⟨r.output.take c.outputShape.size, s'.gradients⟩ s' ∧
        ∀ (t : Nat) st, s.tensors[t]? = some st → (s'.tensors[t]?).map TensorState.grad =
          some (Session.gradientAfter ops (c.machine.plan.partials.zip r.partials) t
            (Array.replicate st.grad.size ops.zero))) ∧
    (∀ root shape, (s.after ops (.compile root shape)).values = s.values) ∧
    (∀ root, (s.after ops (.output root)).values = s.values) ∧
    (s.after ops .run).values = s.values ∧ (s.after ops .infer).values = s.values := by
  have hstart := Session.Inv.start ops config environment normal entropy log
  rw [← hs₀] at hstart
  have hinv := hstart.follow hbuilt
  rw [← Session.script_eq_follow, ← hs] at hinv
  refine ⟨?_, ?_, ?_, ?_, ?_, ?_⟩
  · rw [hs, Session.script_eq_follow ops commands s₀ .start, hstart.values_follow hbuilt, hs₀]
    rfl
  · intro c hc
    obtain ⟨p, -, hloaded⟩ := hinv.loaded c hc
    refine ⟨hloaded.current, fun next _ _ => hloaded.find?_eq_of_values next, ?_, ?_⟩
    · obtain ⟨next, g, r, m, hran, hinfer, -⟩ := hinv.infer hc
      exact ⟨next, r, _, hran.disabled.1, hran.executes, hinfer⟩
    · obtain ⟨next, g, r, m, hran, hrun, -⟩ := hinv.run hc
      refine ⟨next, g, r, _, hran.drawn, hran.executes_trained, hrun, ?_⟩
      intro t st hst
      rw [Session.grad_trained hst, hran.plan]
  · exact fun root shape => hinv.values_after (.compile root shape)
  · exact fun root => hinv.values_after (.output root)
  · exact hinv.values_after .run
  · exact hinv.values_after .infer

/-- A value that is given after the compilation is used by the next inference: it runs the compiled
machine with that value written to it, and returns what that run reads back. -/
theorem value_given_after_compile_used :
    let s := (Session.script .binary32 (Session.sampleCommands ++ [.set 0 #[1, 2, 3, 4]])
      (Session.start ⟨.cpu, none, 10⟩ .empty Session.steadySampler 0)).2
    s.values 0 = some #[1, 2, 3, 4] ∧ ∃ c next r s', s.compiled = some c ∧
      (s.loaded next c.machine).tensors.find? 0 = some #[1, 2, 3, 4] ∧
      s.Executes .binary32 false c next r s' ∧
      Session.infer .binary32 s = .ok (r.output.take c.outputShape.size) s' := by
  intro s
  have hsample : ∀ c ∈ Session.sampleCommands, c.Built := fun c hc =>
    Session.sampleCommands_built c (List.mem_append_left _ hc)
  have hbuilt : ∀ c ∈ Session.sampleCommands ++ [.set 0 #[1, 2, 3, 4]], c.Built := by
    intro c hc
    rcases List.mem_append.1 hc with hc | hc
    · exact hsample c hc
    · rw [List.mem_singleton] at hc
      rw [hc]
      trivial
  -- the tensor is declared, so that the value is accepted and what is compiled stays
  obtain ⟨⟨c, hc⟩, hsignature, -⟩ := Session.sample_spec
  have hcoherent : Session.sample.1.Coherent .binary32 :=
    ((Session.Inv.start .binary32 ⟨.cpu, none, 10⟩ .empty Session.steadySampler 0 []).follow hsample).coherent
  have hset := Session.setTensor_eq 0 #[1, 2, 3, 4] Session.sample.1
  rw [hsignature] at hset
  have hgives := hcoherent.gives_setTensor 0 #[1, 2, 3, 4]
  have hs : s = finalState ((Command.set 0 #[1, 2, 3, 4]).exec .binary32 Session.sample.1) := by
    show (Session.script .binary32 _ _).2 = _
    rw [Session.script_eq_follow .binary32 _ _ .start, Session.follow_append]
    rfl
  rw [Command.exec, Session.finalState_bind_pure, hset] at hs
  unfold Session.Gives at hgives
  rw [hset] at hgives
  have hvalue : s.values 0 = some #[1, 2, 3, 4] := by
    rw [hs]
    exact congrFun hgives 0
  have hcompiled : s.compiled = some c := by
    rw [hs]
    exact hc
  obtain ⟨-, hruns, -⟩ := runs_use_recorded_values .binary32 ⟨.cpu, none, 10⟩ .empty
    Session.steadySampler 0 [] hbuilt rfl (rfl : s = _)
  obtain ⟨-, hvalues, ⟨next, r, s', -, hexecutes, hinfer⟩, -⟩ := hruns c hcompiled
  exact ⟨hvalue, c, next, r, s', hcompiled, hvalues next 0 _ hvalue, hexecutes, hinfer⟩

end TensorKernels
