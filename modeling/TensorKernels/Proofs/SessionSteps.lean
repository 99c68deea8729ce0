import TensorKernels.Proofs.HostFold
import TensorKernels.Proofs.Refinement
import TensorKernels.Session.Command

/-!
# What the operations of a session do

Every operation of a session as an equation: whether it succeeds, and the session it leaves. A training
run draws all masks in order, runs the machine, and adds every partial gradient to the gradient of its
parameter; `Session.run_eq` puts these together.
-/

set_option autoImplicit false

namespace TensorKernels

namespace Session

variable {α : Type} (ops : Arithmetic α)

/-! ## Tensors and compilation -/

/-- A tensor is declared, or refused and nothing has changed. -/
theorem declare_eq (d : TensorDecl) (s : Session α) :
    declare ops d s =
      match s.signature.declare d with
      | .error e => .error e s
      | .ok signature =>
        .ok s.tensors.size
          { s with
            signature := signature
            tensors := s.tensors.push ⟨Machine.zeros ops d.size, Machine.zeros ops d.size, true⟩ } := by
  unfold declare
  simp only [bind, EStateM.bind, run_get]
  cases s.signature.declare d <;> rfl

/-- A value is taken over and marked for upload, or refused and nothing has changed. -/
theorem setTensor_eq (id : Nat) (data : Array α) (s : Session α) :
    setTensor id data s =
      match s.signature.accept id data with
      | .error e => .error e s
      | .ok data =>
        .ok () { s with tensors := s.tensors.modify id fun t => { t with value := data, dirty := true } } := by
  unfold setTensor
  simp only [bind, EStateM.bind, run_get]
  cases s.signature.accept id data <;> rfl

/-- A tensor is sampled; a refused sample has at most used up random numbers. -/
theorem initTensor_eq (id : Nat) (i : Initializer α) (s : Session α) :
    initTensor ops id i s =
      match s.signature.get id with
      | .error e => .error e s
      | .ok d =>
        match i.sample ops s.normal d.name d.shape s.generator with
        | .error e g => .error e { s with generator := g }
        | .ok data g => setTensor id data { s with generator := g } := by
  unfold initTensor declaration
  simp only [bind, EStateM.bind, run_get]
  cases s.signature.get id with
  | error e => rfl
  | ok d =>
    simp only [lift, pure, EStateM.pure, draw]
    cases i.sample ops s.normal d.name d.shape s.generator <;> rfl

/-- A step of descent changes one tensor, or is refused and nothing has changed. -/
theorem learn_eq (id : Nat) (rate : α) (s : Session α) :
    learn ops id rate s =
      match s.signature.get id with
      | .error e => .error e s
      | .ok d => .ok () { s with tensors := s.tensors.modify id (descend ops rate d) } := by
  unfold learn declaration
  simp only [bind, EStateM.bind, run_get]
  cases s.signature.get id <;> rfl

/-- The session with a plan loaded. -/
def installed (plan : Plan) (shape : Shape) (s : Session α) : Session α :=
    { s with
      compiled := some
        { machine := Machine.start ops plan (s.tensors.toList.map TensorState.value)
            (s.masks.toList.map Mask.value)
          outputShape := shape }
      tensors := s.tensors.map fun t => { t with dirty := false }
      log := s.log ++ s.planLog plan }

/-- Compiling replaces the masks and the program; a compilation that fails leaves no program. -/
theorem compileTerm_eq (root : Term) (shape : Shape) (s : Session α) :
    compileTerm ops root shape s =
      match (compile s.signature root shape).plan with
      | .error e => .error e { s with
          compiled := none
          masks := freshMasks ops (compile s.signature root shape).masks
          log := s.log ++ (compile s.signature root shape).log }
      | .ok plan => .ok () (installed ops plan shape { s with
          compiled := none
          masks := freshMasks ops (compile s.signature root shape).masks
          log := s.log ++ (compile s.signature root shape).log }) := by
  unfold compileTerm
  simp only [bind, EStateM.bind, run_get, run_modify]
  cases (compile s.signature root shape).plan <;> rfl

/-- Compiling without a given shape first lowers the term for its shape, and keeps the masks if that
fails. -/
theorem compileOutput_eq (root : Term) (s : Session α) :
    compileOutput ops root s =
      match Lowering.lower root (.start s.signature) with
      | .error e lowered => .error e { s with masks := freshMasks ops lowered.masks }
      | .ok id lowered =>
        match compileTerm ops root (lowered.node id).shape s with
        | .error e s' => .error e s'
        | .ok _ s' => .ok (lowered.node id).shape s' := by
  unfold compileOutput
  simp only [bind, EStateM.bind, run_get, EStateM.run]
  cases Lowering.lower root (.start s.signature) with
  | error e lowered => rfl
  | ok id lowered =>
    simp only [EStateM.bind]
    cases compileTerm ops root (lowered.node id).shape s <;> rfl

/-! ## Copies to the machine -/

/-- The machine with the values of tensors written one after the other. -/
def writeTensors (written : List (TensorState α × Nat)) (m : Machine α) : Machine α :=
  written.foldl (fun m e => m.writeTensor e.2 e.1.value) m

/-- The session with every changed tensor copied to its machine. -/
def flushed (s : Session α) : Session α :=
  { s with
    compiled := s.compiled.map fun c =>
      { c with machine := writeTensors (s.tensors.toList.zipIdx.filter fun e => e.1.dirty) c.machine }
    tensors := s.tensors.map fun t => { t with dirty := false } }

/-- Uploading tensors flushes those that have changed. -/
theorem uploadTensors_eq (s : Session α) : uploadTensors s = .ok () s.flushed := rfl

/-- A mask for the next run: drawn anew for training and disabled otherwise. -/
def nextMask (training : Bool) (m : Mask α) : EStateM Error Generator (Mask α) :=
  if training then m.refresh ops else pure (m.disable ops)

/-- The machine with the values of masks written one after the other. -/
def writeMasks (written : List (Mask α × Nat)) (m : Machine α) : Machine α :=
  written.foldl (fun m e => m.writeMask e.2 e.1.value) m

/-- The session with masks that were drawn and written to its machine. -/
def withMasks (s : Session α) (g : Generator) (masks : Array (Mask α)) (written : List (Mask α × Nat)) :
    Session α :=
  { s with
    generator := g
    masks := masks
    compiled := s.compiled.map fun c => { c with machine := writeMasks written c.machine } }

/-- Writing no masks changes nothing. -/
theorem withMasks_self (s : Session α) : s.withMasks s.generator s.masks [] = s := by
  obtain ⟨cfg, env, normal, sig, ts, masks, gen, compiled, log⟩ := s
  cases compiled <;> rfl

/-- Masks written one after the other, as one write. -/
theorem withMasks_withMasks (s : Session α) (g g' : Generator) (masks masks' : Array (Mask α))
    (w w' : List (Mask α × Nat)) :
    (s.withMasks g masks w).withMasks g' masks' w' = s.withMasks g' masks' (w ++ w') := by
  obtain ⟨cfg, env, normal, sig, ts, masks, gen, compiled, log⟩ := s
  cases compiled <;> simp [withMasks, writeMasks]

/-- Drawing changes the generator only. -/
theorem draw_eq {β : Type} {d : EStateM Error Generator β} {s : Session α} {b : β} {g : Generator}
    (h : d s.generator = .ok b g) : draw d s = .ok b { s with generator := g } := by
  simp only [draw, h]

/-- Uploading a mask replaces it by its next value, here and in the machine. -/
theorem uploadMask_eq (training : Bool) {i : Nat} {s : Session α} {m m' : Mask α} {g : Generator}
    (hm : s.masks[i]? = some m) (hnext : nextMask ops training m s.generator = .ok m' g) :
    uploadMask ops training i s = .ok () (s.withMasks g (s.masks.setIfInBounds i m') [(m', i)]) := by
  unfold uploadMask
  rw [bind_of_ok (rfl : (get : SessionM α (Session α)) s = .ok s s)]
  simp only [hm]
  cases training with
  | true => exact (bind_of_ok (draw_eq hnext)).trans rfl
  | false =>
    cases hnext
    rfl

/-- All masks are drawn in order, each from what the one before left of the generator. -/
theorem uploadMasks_eq (training : Bool) (before rest : List (Mask α)) {next : List (Mask α)}
    {s : Session α} {g : Generator} (hs : s.masks = (before ++ rest).toArray)
    (hnext : rest.mapM (nextMask ops training) s.generator = .ok next g) :
    (List.range' before.length rest.length).forM (uploadMask ops training) s =
      .ok () (s.withMasks g (before ++ next).toArray (next.zipIdx before.length)) := by
  induction rest generalizing before next s with
  | nil =>
    cases hnext
    rw [List.append_nil] at hs
    show EStateM.Result.ok () s = .ok () (s.withMasks s.generator (before ++ []).toArray [])
    rw [List.append_nil, ← hs, withMasks_self]
  | cons m rest ih =>
    rw [List.mapM_cons] at hnext
    cases hm : nextMask ops training m s.generator with
    | error e g' => simp [bind, EStateM.bind, hm] at hnext
    | ok m' g' =>
      rw [bind_of_ok hm] at hnext
      cases hrest : rest.mapM (nextMask ops training) g' with
      | error e g'' => simp [bind, EStateM.bind, hrest] at hnext
      | ok next' g'' =>
        rw [bind_of_ok hrest] at hnext
        cases hnext
        have hget : s.masks[before.length]? = some m := by simp [hs]
        have hset : s.masks.setIfInBounds before.length m' = (before ++ [m'] ++ rest).toArray := by
          simp [hs]
        have hstep := uploadMask_eq ops training hget hm
        show (uploadMask ops training before.length >>= fun _ =>
          (List.range' (before.length + 1) rest.length).forM (uploadMask ops training)) s = _
        rw [bind_of_ok hstep]
        have h := @ih (before ++ [m']) next'
          (s.withMasks g' (s.masks.setIfInBounds before.length m') [(m', before.length)]) hset hrest
        rw [List.length_append] at h
        rw [show before.length + 1 = before.length + [m'].length from rfl, h, withMasks_withMasks]
        simp

/-- The session with everything copied to its machine. -/
def uploaded (s : Session α) (g : Generator) (next : List (Mask α)) : Session α :=
  s.flushed.withMasks g next.toArray next.zipIdx

/-- The current program of a session that has one. -/
theorem current_eq {s : Session α} {c : Compiled α} (hc : s.compiled = some c) :
    current s = .ok c s := by
  unfold current
  rw [bind_of_ok (rfl : (get : SessionM α (Session α)) s = .ok s s)]
  simp only [hc]
  rfl

/-- Uploading draws the next masks and loads them with the changed tensors. -/
theorem upload_eq (training : Bool) {s : Session α} {c : Compiled α} {next : List (Mask α)}
    {g : Generator} (hc : s.compiled = some c)
    (hnext : s.masks.toList.mapM (nextMask ops training) s.generator = .ok next g) :
    upload ops training s = .ok () (s.uploaded g next) := by
  have hmasks := @uploadMasks_eq α ops training [] s.masks.toList next s.flushed g (by simp [flushed]) hnext
  unfold upload
  rw [bind_of_ok (current_eq hc), bind_of_ok (uploadTensors_eq s),
    bind_of_ok (rfl : (get : SessionM α (Session α)) s.flushed = .ok s.flushed s.flushed),
    List.range_eq_range']
  exact hmasks

/-! ## Runs -/

/-- The machine with the changed tensors and the next masks of a session. -/
def loaded (s : Session α) (next : List (Mask α)) (m : Machine α) : Machine α :=
  writeMasks next.zipIdx (writeTensors (s.tensors.toList.zipIdx.filter fun e => e.1.dirty) m)

/-- After an upload the program is the same, on the loaded machine. -/
theorem uploaded_compiled {s : Session α} {c : Compiled α} (hc : s.compiled = some c) (g : Generator)
    (next : List (Mask α)) :
    (s.uploaded g next).compiled = some { c with machine := s.loaded next c.machine } := by
  simp [uploaded, withMasks, flushed, loaded, hc]

/-- The session after its machine has run. -/
def ran (s : Session α) (g : Generator) (next : List (Mask α)) (c : Compiled α) (m : Machine α) :
    Session α :=
  { s.uploaded g next with compiled := some { c with machine := m } }

/-- Running the machine changes the machine only. -/
theorem runMachine_eq (backward : Bool) {s : Session α} {c : Compiled α} {r : Readback α}
    {m : Machine α} (hc : s.compiled = some c)
    (hrun : Machine.run ops backward c.machine = .ok r m) :
    runMachine ops backward s = .ok r { s with compiled := some { c with machine := m } } := by
  simp only [runMachine, hc, hrun]

/-- An inference returns the output of a forward run on the loaded machine. -/
theorem infer_eq {s : Session α} {c : Compiled α} {next : List (Mask α)} {g : Generator}
    {r : Readback α} {m : Machine α} (hc : s.compiled = some c)
    (hnext : s.masks.toList.mapM (nextMask ops false) s.generator = .ok next g)
    (hrun : Machine.run ops false (s.loaded next c.machine) = .ok r m) :
    infer ops s = .ok (r.output.take c.outputShape.size) (s.ran g next c m) := by
  unfold infer
  rw [bind_of_ok (upload_eq ops false hc hnext),
    bind_of_ok (runMachine_eq ops false (uploaded_compiled hc g next) hrun),
    bind_of_ok (current_eq rfl)]
  rfl

/-- Adds one partial gradient to the gradient of its parameter. -/
def addTo (tensors : Array (TensorState α)) (e : ParameterPartial × Array α) :
    Option (Array (TensorState α)) :=
  (tensors[e.1.tensor]?).bind fun t =>
    (e.1.access.foldHost ops e.2 t.grad).map fun grad =>
      tensors.modify e.1.tensor fun t => { t with grad := grad }

/-- A partial gradient is added to its parameter. -/
theorem addPartial_eq {s : Session α} {e : ParameterPartial × Array α}
    {tensors : Array (TensorState α)} (h : addTo ops s.tensors e = some tensors) :
    addPartial ops e.1 e.2 s = .ok () { s with tensors := tensors } := by
  obtain ⟨t, ht, hfold⟩ := Option.bind_eq_some_iff.1 h
  obtain ⟨grad, hgrad, rfl⟩ := Option.map_eq_some_iff.1 hfold
  have htensor : tensor e.1.tensor s = .ok t s := by
    unfold tensor
    rw [bind_of_ok (rfl : (get : SessionM α (Session α)) s = .ok s s)]
    simp only [ht]
    rfl
  unfold addPartial
  rw [bind_of_ok htensor]
  simp only [hgrad]
  rfl

/-- Partial gradients are added to their parameters one by one. -/
theorem addPartials_eq {s : Session α} {parts : List (ParameterPartial × Array α)}
    {tensors : Array (TensorState α)} (h : parts.foldlM (addTo ops) s.tensors = some tensors) :
    (parts.forM fun e => addPartial ops e.1 e.2) s = .ok () { s with tensors := tensors } := by
  induction parts generalizing s with
  | nil =>
    cases h
    rfl
  | cons e parts ih =>
    rw [List.foldlM_cons] at h
    obtain ⟨tensors', hstep, hrest⟩ := Option.bind_eq_some_iff.1 h
    show ((fun e : ParameterPartial × Array α => addPartial ops e.1 e.2) e >>= fun _ =>
      parts.forM fun e => addPartial ops e.1 e.2) s = _
    rw [bind_of_ok (addPartial_eq ops hstep)]
    exact @ih { s with tensors := tensors' } hrest

/-- The tensors with their gradients at zero. -/
def cleared (tensors : Array (TensorState α)) : Array (TensorState α) :=
  tensors.map fun t => { t with grad := t.grad.map fun _ => ops.zero }

/-- A training run returns the output and the gradients that its partial buffers add up to. -/
theorem run_eq {s : Session α} {c : Compiled α} {next : List (Mask α)} {g : Generator}
    {r : Readback α} {m : Machine α} {tensors : Array (TensorState α)} (hc : s.compiled = some c)
    (hnext : s.masks.toList.mapM (nextMask ops true) s.generator = .ok next g)
    (hrun : Machine.run ops true (s.loaded next c.machine) = .ok r m)
    (hparts : (m.plan.partials.zip r.partials).foldlM (addTo ops) (cleared ops s.flushed.tensors) =
      some tensors) :
    run ops s = .ok
      ⟨r.output.take c.outputShape.size, ({ s.ran g next c m with tensors := tensors }).gradients⟩
      { s.ran g next c m with tensors := tensors } := by
  have hadd : ((m.plan.partials.zip r.partials).forM fun e => addPartial ops e.1 e.2)
      { s.ran g next c m with tensors := cleared ops s.flushed.tensors } =
        .ok () { s.ran g next c m with tensors := tensors } := addPartials_eq ops hparts
  unfold run
  rw [bind_of_ok (upload_eq ops true hc hnext),
    bind_of_ok (runMachine_eq ops true (uploaded_compiled hc g next) hrun),
    bind_of_ok (current_eq rfl)]
  exact (bind_of_ok (rfl : (modify fun s : Session α => { s with
    tensors := cleared ops s.tensors } : SessionM α Unit) (s.ran g next c m) = .ok () _)).trans
      ((bind_of_ok hadd).trans rfl)

/-! ## The machine before a run -/

/-- Writing tensors inserts their values by number. -/
theorem writeTensors_eq (written : List (TensorState α × Nat)) (m : Machine α) :
    writeTensors written m = { m with
      tensors := (written.map fun e => (e.2, e.1.value)).foldl (fun t e => t.insert e.1 e.2) m.tensors } := by
  induction written generalizing m with
  | nil => rfl
  | cons e written ih => exact ih (m.writeTensor e.2 e.1.value)

/-- Writing masks inserts their values by number. -/
theorem writeMasks_eq (written : List (Mask α × Nat)) (m : Machine α) :
    writeMasks written m = { m with
      masks := (written.map fun e => (e.2, e.1.value)).foldl (fun t e => t.insert e.1 e.2) m.masks } := by
  induction written generalizing m with
  | nil => rfl
  | cons e written ih => exact ih (m.writeMask e.2 e.1.value)

/-- Numbered entries have distinct numbers. -/
theorem nodup_zipIdx_keys {β γ : Type} (l : List β) (p : β × Nat → Bool) (f : β → γ) :
    (((l.zipIdx.filter p).map fun e => (e.2, f e.1)).map Prod.fst).Nodup := by
  rw [List.map_map]
  have hnodup : (l.zipIdx.map Prod.snd).Nodup := by
    rw [List.zipIdx_map_snd]
    exact List.nodup_range'
  exact hnodup.sublist (List.filter_sublist.map _)

/-- The machine has the current value of every tensor. -/
theorem loaded_tensor {s : Session α} {m : Machine α} {t : Nat} {st : TensorState α}
    (hst : s.tensors[t]? = some st) (hclean : st.dirty = false → m.tensors.find? t = some st.value)
    (next : List (Mask α)) : (s.loaded next m).tensors.find? t = some st.value := by
  have hmem : (st, t) ∈ s.tensors.toList.zipIdx := List.mem_zipIdx_iff_getElem?.2 (by simpa using hst)
  rw [loaded, writeMasks_eq, writeTensors_eq]
  show Table.find? _ t = _
  rw [Table.find?_foldl_insert _ (nodup_zipIdx_keys _ _ _)]
  cases hdirty : st.dirty with
  | true =>
    rw [Table.lookup_eq_some_of_mem (nodup_zipIdx_keys _ _ _)
      (List.mem_map.2 ⟨(st, t), List.mem_filter.2 ⟨hmem, hdirty⟩, rfl⟩)]
    rfl
  | false =>
    have hnone : Table.lookup t ((s.tensors.toList.zipIdx.filter fun e => e.1.dirty).map
        fun e => (e.2, e.1.value)) = none := by
      cases hl : Table.lookup t ((s.tensors.toList.zipIdx.filter fun e => e.1.dirty).map
        fun e => (e.2, e.1.value)) with
      | none => rfl
      | some v =>
        -- only the entry of the tensor itself has its position, and that one is clean
        obtain ⟨⟨st', t'⟩, he, heq⟩ := List.mem_map.1 (Table.mem_of_lookup_eq_some hl)
        cases heq
        obtain ⟨hmem', hdirty'⟩ := List.mem_filter.1 he
        have hsame : st = st' := by
          rw [List.mem_zipIdx_iff_getElem?] at hmem hmem'
          exact Option.some.inj (hmem.symm.trans hmem')
        rw [← hsame, hdirty] at hdirty'
        cases hdirty'
    rw [hnone, hclean hdirty]
    rfl

/-- The machine has the next masks. -/
theorem loaded_mask {next : List (Mask α)} {i : Nat} {k : Mask α} (hk : next[i]? = some k)
    (s : Session α) (m : Machine α) : (s.loaded next m).masks.find? i = some k.value := by
  have hkeys : ((next.zipIdx.map fun e => (e.2, e.1.value)).map Prod.fst).Nodup := by
    have := nodup_zipIdx_keys next (fun _ => true) Mask.value
    rwa [List.filter_true] at this
  rw [loaded, writeMasks_eq]
  show Table.find? _ i = _
  rw [Table.find?_foldl_insert _ hkeys,
    Table.lookup_eq_some_of_mem hkeys
      (List.mem_map.2 ⟨(k, i), List.mem_zipIdx_iff_getElem?.2 hk, rfl⟩)]
  rfl

/-- Loading values keeps a machine among those that runs reach. -/
theorem reached_loaded {plan : Plan} {tensorCount maskCount : Nat} {m : Machine α}
    (h : Machine.Reached ops plan tensorCount maskCount m) (s : Session α) (next : List (Mask α)) :
    Machine.Reached ops plan tensorCount maskCount (s.loaded next m) := by
  have htensors : ∀ (written : List (TensorState α × Nat)) (m : Machine α),
      Machine.Reached ops plan tensorCount maskCount m →
      Machine.Reached ops plan tensorCount maskCount (writeTensors written m) := by
    intro written
    induction written with
    | nil => exact fun _ h => h
    | cons e written ih => exact fun m h => ih _ (h.writeTensor e.2 e.1.value)
  have hmasks : ∀ (written : List (Mask α × Nat)) (m : Machine α),
      Machine.Reached ops plan tensorCount maskCount m →
      Machine.Reached ops plan tensorCount maskCount (writeMasks written m) := by
    intro written
    induction written with
    | nil => exact fun _ h => h
    | cons e written ih => exact fun m h => ih _ (h.writeMask e.2 e.1.value)
  exact hmasks _ _ (htensors _ _ h)

/-! ## Gradients after a run -/

/-- The gradient of a tensor after partial gradients were added. -/
def gradientAfter (parts : List (ParameterPartial × Array α)) (t : Nat) (grad : Array α) : Array α :=
  (parts.filter fun e => e.1.tensor = t).foldl
    (fun grad e => (e.1.access.foldHost ops e.2 grad).getD grad) grad

/-- The gradient after one more partial buffer. -/
theorem gradientAfter_cons (e : ParameterPartial × Array α) (parts : List (ParameterPartial × Array α))
    (t : Nat) (grad : Array α) :
    gradientAfter ops (e :: parts) t grad = gradientAfter ops parts t
      (if e.1.tensor = t then (e.1.access.foldHost ops e.2 grad).getD grad else grad) := by
  unfold gradientAfter
  by_cases ht : e.1.tensor = t
  · rw [List.filter_cons_of_pos (by simpa using ht), if_pos ht]
    rfl
  · rw [List.filter_cons_of_neg (by simpa using ht), if_neg ht]

/-- Adding partial gradients succeeds where shapes fit, and changes every tensor's gradient on its own.
-/
theorem foldlM_addTo (parts : List (ParameterPartial × Array α)) (tensors : Array (TensorState α))
    (h : ∀ e ∈ parts, ∃ t, tensors[e.1.tensor]? = some t ∧ e.1.access.Covers t.grad.size e.2.size) :
    parts.foldlM (addTo ops) tensors =
        some (tensors.mapIdx fun i t => { t with grad := gradientAfter ops parts i t.grad }) ∧
      ∀ (i : Nat) t, tensors[i]? = some t → (gradientAfter ops parts i t.grad).size = t.grad.size := by
  induction parts generalizing tensors with
  | nil =>
    refine ⟨?_, fun i t _ => rfl⟩
    show some tensors = some (tensors.mapIdx fun i t => t)
    rw [Option.some.injEq]
    refine Array.ext_getElem? fun i => ?_
    simp
  | cons e parts ih =>
    obtain ⟨t, ht, hcov⟩ := h e List.mem_cons_self
    obtain ⟨grad, hgrad, hsize⟩ := Access.foldHost_spec ops hcov
    have hadd : addTo ops tensors e =
        some (tensors.modify e.1.tensor fun t => { t with grad := grad }) := by
      simp only [addTo, ht, Option.bind_some, hgrad, Option.map_some]
    -- what the later partials meet: only the gradient of this parameter changed, and not its length
    have hget : ∀ i : Nat, (tensors.modify e.1.tensor fun t => { t with grad := grad })[i]? =
        if e.1.tensor = i then some { t with grad := grad } else tensors[i]? := by
      intro i
      rw [Array.getElem?_modify]
      split
      · next he => rw [← he, ht]; rfl
      · rfl
    obtain ⟨hfold, hsizes⟩ := ih (tensors.modify e.1.tensor fun t => { t with grad := grad }) (by
      intro e' he'
      obtain ⟨t', ht', hcov'⟩ := h e' (List.mem_cons_of_mem _ he')
      rw [hget]
      by_cases hi : e.1.tensor = e'.1.tensor
      · rw [← hi, ht, Option.some.injEq] at ht'
        rw [if_pos hi]
        refine ⟨_, rfl, ?_⟩
        rw [← ht', ← hsize] at hcov'
        exact hcov'
      · rw [if_neg hi]
        exact ⟨t', ht', hcov'⟩)
    refine ⟨?_, ?_⟩
    · rw [List.foldlM_cons, hadd]
      show List.foldlM (addTo ops) _ parts = _
      rw [hfold, Option.some.injEq]
      refine Array.ext_getElem? fun i => ?_
      rw [Array.getElem?_mapIdx, Array.getElem?_mapIdx, hget]
      by_cases hi : e.1.tensor = i
      · subst hi
        rw [if_pos rfl, ht]
        simp only [Option.map_some, gradientAfter_cons, if_true, hgrad, Option.getD_some]
      · simp only [if_neg hi, gradientAfter_cons]
    · intro i t' ht'
      by_cases hi : e.1.tensor = i
      · subst hi
        rw [ht, Option.some.injEq] at ht'
        subst ht'
        have := hsizes e.1.tensor { t with grad := grad } (by rw [hget, if_pos rfl])
        rw [gradientAfter_cons, if_pos rfl, hgrad]
        exact this.trans hsize
      · have := hsizes i t' (by rw [hget, if_neg hi, ht'])
        rw [gradientAfter_cons, if_neg hi]
        exact this

end Session

end TensorKernels
