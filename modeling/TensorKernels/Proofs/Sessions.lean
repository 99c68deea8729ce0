import TensorKernels.Proofs.DropoutRate
import TensorKernels.Proofs.SessionSteps

/-!
# All histories of a session

What is true of a session after any commands, whether or not they fail. A `History` notes beside a
session what is compiled, and which dropout sites an `output` met that failed since: such a failure
keeps the plan but replaces the masks.

Commands other than compilations and runs only edit tensors (`Session.Edits`), and an edited tensor is
marked, so that it is copied to the machine before the next run. `Session.Inv` is kept by every command
(`Session.Inv.step`), and from it a run and an inference of whatever is compiled cannot fail.
-/

set_option autoImplicit false

namespace TensorKernels

/-! ## Masks of a lowering -/

/-- The state that a computation leaves, whether or not it fails. -/
def finalState {ε σ β : Type} : EStateM.Result ε σ β → σ
  | .ok _ s => s
  | .error _ s => s

/-- The dropout sites that a lowering of a term meets, whether or not it succeeds. -/
def Term.maskSites (signature : Signature) (root : Term) : Array MaskSite :=
  (finalState (Lowering.lower root (.start signature))).masks

/-- A compilation leaves the masks of its lowering. -/
theorem compile_masks (signature : Signature) (root : Term) (shape : Shape) :
    (compile signature root shape).masks = root.maskSites signature := by
  have hcompile : (compile signature root shape).masks =
      (finalState (Lowering.lowerRoot root shape (.start signature))).masks := by
    unfold compile
    simp only [EStateM.run]
    cases Lowering.lowerRoot root shape (.start signature) <;> rfl
  rw [hcompile, Lowering.lowerRoot_eq, Term.maskSites]
  cases Lowering.lower root (.start signature) with
  | error e s => rfl
  | ok id s =>
    dsimp only
    split
    · rfl
    · split
      · rfl
      · split
        · rfl
        · rw [Lowering.addOp_eq]
          cases Op.inferCounted (.reshape shape) ([id].map fun o => (s.node o).shape) <;> rfl

/-- Every rate that a lowering meets is one, up to where it fails. -/
theorem Term.Built.maskSites_rates {root : Term} (h : root.Built) (signature : Signature) :
    ∀ m ∈ root.maskSites signature, Lowering.isDropoutRate m.rate := by
  have hspec := Lowering.lower_spec h.universe root root.mem_subterms_self (.start signature) []
    (Lowering.start_inv _ signature) (by intro x hx; cases hx)
  unfold maskSites
  cases hl : Lowering.lower root (.start signature) with
  | error e s =>
    rw [hl] at hspec
    exact hspec.2
  | ok id s =>
    rw [hl] at hspec
    exact hspec.1.inv.rates

/-! ## Histories -/

variable {α : Type} (ops : Arithmetic α)

/-- What is compiled: a term with the tensors that were declared then, and the shape of its output. -/
structure Program where
  signature : Signature
  root : Term
  shape : Shape

/-- What happened to a session, as far as compilations go. -/
structure History where
  /-- What is compiled. -/
  program : Option Program
  /-- The dropout sites met by the last `output` that failed since the last compilation. -/
  refused : Option (Array MaskSite)

/-- Nothing happened. -/
def History.start : History := ⟨none, none⟩

/-- The history after a command on a session. -/
def History.next (c : Command α) (s : Session α) (h : History) : History :=
  match c, c.exec ops s with
  | .compile root shape, .ok _ _ => ⟨some ⟨s.signature, root, shape⟩, none⟩
  | .compile _ _, .error _ _ => ⟨none, none⟩
  | .output root, .ok (.shape shape) _ => ⟨some ⟨s.signature, root, shape⟩, none⟩
  | .output root, .error _ _ => ⟨h.program, some (root.maskSites s.signature)⟩
  | _, _ => h

section

variable {ops} {h : History} {s s' : Session α} {root : Term} {shape : Shape} {r : Reply α} {e : Error}

/-- A compilation that succeeds makes its program the current one. -/
theorem History.next_compile (hexec : (Command.compile root shape).exec ops s = .ok r s') :
    h.next ops (.compile root shape) s = ⟨some ⟨s.signature, root, shape⟩, none⟩ := by
  simp only [History.next, hexec]

/-- A compilation that fails leaves no program. -/
theorem History.next_compile_error (hexec : (Command.compile root shape).exec ops s = .error e s') :
    h.next ops (.compile root shape) s = ⟨none, none⟩ := by
  simp only [History.next, hexec]

/-- An output that is compiled is the current program. -/
theorem History.next_output (hexec : (Command.output root).exec ops s = .ok (.shape shape) s') :
    h.next ops (.output root) s = ⟨some ⟨s.signature, root, shape⟩, none⟩ := by
  simp only [History.next, hexec]

/-- An output that is refused keeps the program, and its masks are those that were made. -/
theorem History.next_output_error (hexec : (Command.output root).exec ops s = .error e s') :
    h.next ops (.output root) s = ⟨h.program, some (root.maskSites s.signature)⟩ := by
  simp only [History.next, hexec]

end

/-- The terms of a command were built. -/
def Command.Built : Command α → Prop
  | .compile root _ => root.Built
  | .output root => root.Built
  | _ => True

namespace Session

/-- The session after a command, whether or not it fails. -/
def after (c : Command α) (s : Session α) : Session α := finalState (c.exec ops s)

/-- The session and the history after commands. -/
def follow : List (Command α) → Session α → History → Session α × History
  | [], s, h => (s, h)
  | c :: rest, s, h => follow rest (s.after ops c) (h.next ops c s)

/-- A script leaves the session that is followed. -/
theorem script_eq_follow (commands : List (Command α)) (s : Session α) (h : History) :
    (script ops commands s).2 = (follow ops commands s h).1 := by
  induction commands generalizing s h with
  | nil => rfl
  | cons c rest ih =>
    rw [script, follow, ← ih, after]
    cases c.exec ops s <;> rfl

end Session

/-! ## What holds of a session after any commands -/

/-- The values of a tensor fit its declaration, and an input has no gradient. -/
structure TensorState.Suits (d : TensorDecl) (t : TensorState α) : Prop where
  value : t.value.size = d.size
  grad : t.grad.size = d.size
  input : d.kind = .input → t.grad = Machine.zeros ops d.size

namespace Session

/-- Every declared tensor has values that fit. -/
structure Coherent (s : Session α) : Prop where
  count : s.tensors.size = s.signature.size
  suits : ∀ (id : Nat) d t, s.signature.get? id = some d → s.tensors[id]? = some t → t.Suits ops d

variable {ops} in
/-- Every declared tensor has a state that fits its declaration. -/
theorem Coherent.exists_tensor {s : Session α} (h : s.Coherent ops) {id : Nat} {d : TensorDecl}
    (hd : s.signature.get? id = some d) : ∃ t, s.tensors[id]? = some t ∧ t.Suits ops d := by
  have hlt : id < s.tensors.size := by
    rw [h.count]
    exact (List.getElem?_eq_some_iff.1 hd).1
  have ht := Array.getElem?_eq_getElem hlt
  exact ⟨_, ht, h.suits id d _ hd ht⟩

/-- The machine runs the plan of a program, and has the values of the tensors that are not marked. -/
structure Loaded (p : Program) (s : Session α) (c : Compiled α) : Prop where
  built : p.root.Built
  plan : (compile p.signature p.root p.shape).plan = .ok c.machine.plan
  declared : p.signature.decls <+: s.signature.decls
  shape : c.outputShape = p.shape
  reached : Machine.Reached ops c.machine.plan p.signature.size p.root.dropoutSites.length c.machine
  current : ∀ (t : Nat) st, s.tensors[t]? = some st → st.dirty = false →
    c.machine.tensors.find? t = some st.value

/-- The dropout sites that masks were made for. -/
def sitesOf (masks : Array (Mask α)) : Array MaskSite := masks.map fun m => ⟨m.rate, m.value.size⟩

/-- What holds of a session with a history. -/
structure Inv (h : History) (s : Session α) : Prop where
  coherent : s.Coherent ops
  rates : ∀ m ∈ s.masks, Lowering.isDropoutRate m.rate
  loaded : ∀ c, s.compiled = some c → ∃ p, h.program = some p ∧ s.Loaded ops p c
  idle : s.compiled = none → h.program = none
  masks : ∀ p, h.program = some p →
    sitesOf s.masks = h.refused.getD (p.root.maskSites p.signature)

/-- A new session has nothing yet. -/
theorem Inv.start (config : Config) (environment : Environment) (normal : NormalSampler)
    (entropy : UInt64) (log : Log) :
    Inv ops .start ({ Session.start config environment normal entropy with log := log } : Session α) := by
  refine ⟨⟨rfl, ?_⟩, ?_, ?_, fun _ => rfl, ?_⟩
  · intro id d t _ ht
    simp [Session.start] at ht
  · intro m hm
    simp [Session.start] at hm
  · intro c hc
    cases hc
  · intro p hp
    cases hp

/-! ## Edits of tensors -/

/-- Only tensors were declared or changed, and those that were changed are marked. -/
structure Edits (s s' : Session α) : Prop where
  coherent : s'.Coherent ops
  declared : s.signature.decls <+: s'.signature.decls
  compiled : s'.compiled = s.compiled
  masks : s'.masks = s.masks
  clean : ∀ (t : Nat) st', s'.tensors[t]? = some st' → st'.dirty = false →
    ∃ st, s.tensors[t]? = some st ∧ st.dirty = false ∧ st.value = st'.value

variable {ops}

/-- Edits keep the invariant of sessions. -/
theorem Inv.edit {h : History} {s s' : Session α} (hs : s.Inv ops h) (he : s.Edits ops s') :
    s'.Inv ops h := by
  refine ⟨he.coherent, ?_, ?_, ?_, ?_⟩
  · rw [he.masks]
    exact hs.rates
  · intro c hc
    rw [he.compiled] at hc
    obtain ⟨p, hp, hloaded⟩ := hs.loaded c hc
    refine ⟨p, hp, hloaded.built, hloaded.plan, hloaded.declared.trans he.declared, hloaded.shape,
      hloaded.reached, ?_⟩
    intro t st' hst' hclean
    obtain ⟨st, hst, hclean₀, hvalue⟩ := he.clean t st' hst' hclean
    rw [← hvalue]
    exact hloaded.current t st hst hclean₀
  · rw [he.compiled]
    exact hs.idle
  · rw [he.masks]
    exact hs.masks

/-- Using up random numbers is an edit. -/
theorem Coherent.edits_generator {s : Session α} (h : s.Coherent ops) (g : Generator) :
    s.Edits ops { s with generator := g } :=
  ⟨⟨h.count, h.suits⟩, List.prefix_refl _, rfl, rfl, fun _ st hst hclean => ⟨st, hst, hclean, rfl⟩⟩

/-- Changing one tensor is an edit if its values still fit and a changed value is marked. -/
theorem Coherent.edits_modify {s : Session α} (h : s.Coherent ops) {id : Nat}
    {f : TensorState α → TensorState α}
    (hf : ∀ d t, s.signature.get? id = some d → t.Suits ops d → (f t).Suits ops d)
    (hmark : ∀ t, (f t).dirty = false → t.dirty = false ∧ t.value = (f t).value) :
    s.Edits ops { s with tensors := s.tensors.modify id f } := by
  refine ⟨⟨?_, ?_⟩, List.prefix_refl _, rfl, rfl, ?_⟩
  · show (s.tensors.modify id f).size = _
    rw [Array.size_modify]
    exact h.count
  · intro id' d t' hd ht'
    have ht' : (s.tensors.modify id f)[id']? = some t' := ht'
    rw [Array.getElem?_modify] at ht'
    split at ht'
    · next he =>
      subst he
      obtain ⟨t, ht, rfl⟩ := Option.map_eq_some_iff.1 ht'
      exact hf d t hd (h.suits id d t hd ht)
    · exact h.suits id' d t' hd ht'
  · intro id' t' ht' hclean
    have ht' : (s.tensors.modify id f)[id']? = some t' := ht'
    rw [Array.getElem?_modify] at ht'
    split at ht'
    · obtain ⟨t, ht, rfl⟩ := Option.map_eq_some_iff.1 ht'
      exact ⟨t, ht, hmark t hclean⟩
    · exact ⟨t', ht', hclean, rfl⟩

/-- Edits compose. -/
theorem Edits.trans {s s' s'' : Session α} (h : s.Edits ops s') (h' : s'.Edits ops s'') :
    s.Edits ops s'' := by
  refine ⟨h'.coherent, h.declared.trans h'.declared, h'.compiled.trans h.compiled,
    h'.masks.trans h.masks, ?_⟩
  intro t st'' hst'' hclean''
  obtain ⟨st', hst', hclean', hvalue'⟩ := h'.clean t st'' hst'' hclean''
  obtain ⟨st, hst, hclean, hvalue⟩ := h.clean t st' hst' hclean'
  exact ⟨st, hst, hclean, hvalue.trans hvalue'⟩

/-- Doing nothing is an edit. -/
theorem Coherent.edits_refl {s : Session α} (h : s.Coherent ops) : s.Edits ops s :=
  h.edits_generator s.generator

/-- Declaring a tensor is an edit. -/
theorem Coherent.edits_declare {s : Session α} (h : s.Coherent ops) (d : TensorDecl) :
    s.Edits ops (finalState (declare ops d s)) := by
  rw [declare_eq]
  cases hd : s.signature.declare d with
  | error e => exact h.edits_refl
  | ok signature =>
    have hdecls : signature.decls = s.signature.decls ++ [d] := by
      unfold Signature.declare at hd
      split at hd
      · split at hd
        · cases hd
        · split at hd
          · cases hd
            rfl
          · cases hd
      · cases hd
    have hcount : s.tensors.size = s.signature.decls.length := h.count
    refine ⟨⟨?_, ?_⟩, ?_, rfl, rfl, ?_⟩
    · show (s.tensors.push _).size = signature.decls.length
      rw [Array.size_push, hdecls, List.length_append, hcount]
      rfl
    · intro id d' t hd' ht
      have hd' : signature.decls[id]? = some d' := hd'
      have ht : (s.tensors.push _)[id]? = some t := ht
      rw [Array.getElem?_push] at ht
      rw [hdecls] at hd'
      by_cases hid : id = s.tensors.size
      · rw [if_pos hid, Option.some.injEq] at ht
        rw [hid, hcount, List.getElem?_concat_length, Option.some.injEq] at hd'
        subst ht hd'
        exact ⟨by simp [Machine.zeros], by simp [Machine.zeros], fun _ => rfl⟩
      · rw [if_neg hid] at ht
        have hlt := lt_size_of_getElem? ht
        rw [List.getElem?_append_left (hcount ▸ hlt)] at hd'
        exact h.suits id d' t hd' ht
    · show s.signature.decls <+: signature.decls
      rw [hdecls]
      exact List.prefix_append _ _
    · intro id t ht hclean
      have ht : (s.tensors.push _)[id]? = some t := ht
      rw [Array.getElem?_push] at ht
      split at ht
      · -- a new tensor is marked
        cases ht
        cases hclean
      · exact ⟨t, ht, hclean, rfl⟩

/-- Setting a tensor is an edit. -/
theorem Coherent.edits_setTensor {s : Session α} (h : s.Coherent ops) (id : Nat) (data : Array α) :
    s.Edits ops (finalState (setTensor id data s)) := by
  rw [setTensor_eq]
  cases hdata : s.signature.accept id data with
  | error e => exact h.edits_refl
  | ok data' =>
    refine h.edits_modify ?_ ?_
    · intro d t hd ht
      refine ⟨?_, ht.grad, ht.input⟩
      simp only [Signature.accept, Signature.get, hd] at hdata
      split at hdata
      · next hsize =>
        cases hdata
        exact hsize
      · cases hdata
    · intro t hclean
      cases hclean

/-- Sampling a tensor is an edit. -/
theorem Coherent.edits_initTensor {s : Session α} (h : s.Coherent ops) (id : Nat) (i : Initializer α) :
    s.Edits ops (finalState (initTensor ops id i s)) := by
  rw [initTensor_eq]
  cases s.signature.get id with
  | error e => exact h.edits_refl
  | ok d =>
    cases hsample : i.sample ops s.normal d.name d.shape s.generator with
    | error e g =>
      simp only [hsample]
      exact h.edits_generator g
    | ok data g =>
      simp only [hsample]
      have hg := h.edits_generator g
      exact hg.trans (hg.coherent.edits_setTensor id data)

/-- A step of descent keeps the values fitting. -/
theorem suits_descend {d : TensorDecl} {t : TensorState α} (rate : α) (h : t.Suits ops d) :
    (descend ops rate d t).Suits ops d := by
  unfold descend
  cases d.kind with
  | input => exact h
  | parameter => exact ⟨by simpa using h.value, h.grad, h.input⟩

/-- A tensor that a step of descent leaves unmarked has not changed. -/
theorem descend_marked {d : TensorDecl} {t : TensorState α} {rate : α}
    (hclean : (descend ops rate d t).dirty = false) :
    t.dirty = false ∧ t.value = (descend ops rate d t).value := by
  unfold descend at hclean ⊢
  cases hk : d.kind with
  | input =>
    rw [hk] at hclean
    exact ⟨hclean, rfl⟩
  | parameter =>
    rw [hk] at hclean
    cases hclean

/-- A step of descent is an edit. -/
theorem Coherent.edits_learn {s : Session α} (h : s.Coherent ops) (id : Nat) (rate : α) :
    s.Edits ops (finalState (learn ops id rate s)) := by
  rw [learn_eq]
  cases hd : s.signature.get id with
  | error e => exact h.edits_refl
  | ok d =>
    have hget : s.signature.get? id = some d := by
      unfold Signature.get at hd
      cases hfound : s.signature.get? id with
      | none => simp [hfound] at hd
      | some d' =>
        simp only [hfound, Except.ok.injEq] at hd
        rw [hd]
    refine h.edits_modify ?_ fun t hclean => descend_marked hclean
    intro d' t hd' ht
    rw [hget, Option.some.injEq] at hd'
    subst hd'
    exact suits_descend rate ht

/-- Steps of descent for all parameters are an edit. -/
theorem Coherent.edits_learnAll {s : Session α} (h : s.Coherent ops) (rate : α) :
    s.Edits ops (finalState (learnAll ops rate s)) := by
  have hget : ∀ (id : Nat) (t' : TensorState α),
      (List.zipWith (descend ops rate) s.signature.decls s.tensors.toList).toArray[id]? = some t' →
      ∃ d t, s.signature.get? id = some d ∧ s.tensors[id]? = some t ∧ descend ops rate d t = t' := by
    intro id t' ht'
    rw [List.getElem?_toArray, List.getElem?_zipWith] at ht'
    cases hd : s.signature.decls[id]? with
    | none => simp [hd] at ht'
    | some d =>
      cases ht : s.tensors.toList[id]? with
      | none => simp [hd, ht] at ht'
      | some t =>
        simp only [hd, ht, Option.some.injEq] at ht'
        exact ⟨d, t, hd, by simpa using ht, ht'⟩
  refine ⟨⟨?_, ?_⟩, List.prefix_refl _, rfl, rfl, ?_⟩
  · have hcount : s.tensors.size = s.signature.decls.length := h.count
    show (List.zipWith (descend ops rate) s.signature.decls s.tensors.toList).toArray.size =
      s.signature.decls.length
    simp [hcount]
  · intro id d t' hd ht'
    obtain ⟨d', t, hd', ht, rfl⟩ := hget id t' ht'
    have hd : s.signature.get? id = some d := hd
    rw [hd, Option.some.injEq] at hd'
    subst hd'
    exact suits_descend rate (h.suits id d t hd ht)
  · intro id t' ht' hclean
    obtain ⟨d, t, -, ht, rfl⟩ := hget id t' ht'
    exact ⟨t, ht, descend_marked hclean⟩

/-! ## Compilations -/

/-- Fresh masks belong to the sites that they were made for. -/
theorem sitesOf_freshMasks (sites : Array MaskSite) : sitesOf (freshMasks ops sites) = sites := by
  unfold sitesOf freshMasks
  rw [Array.map_map]
  simp [Function.comp_def, Mask.ones]

/-- Fresh masks have the rates of their sites. -/
theorem freshMasks_rates {sites : Array MaskSite} (h : ∀ m ∈ sites, Lowering.isDropoutRate m.rate) :
    ∀ m ∈ freshMasks ops sites, Lowering.isDropoutRate m.rate := by
  intro m hm
  obtain ⟨site, hsite, rfl⟩ := Array.mem_map.1 hm
  exact h site hsite

/-- A compilation loads the new program, or leaves nothing compiled. -/
theorem Inv.compileTerm {h : History} {s : Session α} (hs : s.Inv ops h) {root : Term}
    (hroot : root.Built) (shape : Shape) :
    (∃ s', Session.compileTerm ops root shape s = .ok () s' ∧
      s'.Inv ops ⟨some ⟨s.signature, root, shape⟩, none⟩) ∨
    ∃ e s', Session.compileTerm ops root shape s = .error e s' ∧
      root.Refused s.signature shape e ∧ s'.Inv ops ⟨none, none⟩ := by
  have hrates : ∀ m ∈ freshMasks ops (compile s.signature root shape).masks,
      Lowering.isDropoutRate m.rate := by
    rw [compile_masks]
    exact freshMasks_rates (hroot.maskSites_rates s.signature)
  rw [compileTerm_eq]
  rcases compile_cases s.signature hroot shape with ⟨e, he, hrefused, -⟩ |
    ⟨plan, id, lowered, hplan, hmasks, hcompiled⟩
  · rw [he]
    refine .inr ⟨e, _, rfl, hrefused, ⟨hs.coherent.count, hs.coherent.suits⟩, hrates, ?_, ?_, ?_⟩
    · intro c hc
      cases hc
    · exact fun _ => rfl
    · intro p hp
      cases hp
  · rw [hplan]
    refine .inl ⟨_, rfl, ?_⟩
    have hcount : (freshMasks ops (compile s.signature root shape).masks).size =
        root.dropoutSites.length := by
      rw [freshMasks, Array.size_map, hmasks]
      exact hcompiled.lowered.inv.count
    have hget : ∀ (t : Nat) (st : TensorState α),
        (s.tensors.map fun t => { t with dirty := false })[t]? = some st →
        ∃ st₀, s.tensors[t]? = some st₀ ∧ st = { st₀ with dirty := false } := by
      intro t st hst
      rw [Array.getElem?_map] at hst
      obtain ⟨st₀, hst₀, rfl⟩ := Option.map_eq_some_iff.1 hst
      exact ⟨st₀, hst₀, rfl⟩
    refine ⟨⟨?_, ?_⟩, hrates, ?_, ?_, ?_⟩
    · show (s.tensors.map _).size = _
      rw [Array.size_map]
      exact hs.coherent.count
    · intro t d st hd hst
      obtain ⟨st₀, hst₀, rfl⟩ := hget t st hst
      have hsuits := hs.coherent.suits t d st₀ hd hst₀
      exact ⟨hsuits.value, hsuits.grad, hsuits.input⟩
    · intro c hc
      cases hc
      refine ⟨_, rfl, hroot, hplan, List.prefix_refl _, rfl, ?_, ?_⟩
      · refine .start ?_ ?_
        · rw [List.length_map, Array.length_toList]
          exact hs.coherent.count
        · rw [List.length_map, Array.length_toList]
          exact hcount
      · intro t st hst _
        obtain ⟨st₀, hst₀, rfl⟩ := hget t st hst
        show (Machine.byPosition (s.tensors.toList.map TensorState.value)).find? t = _
        rw [Machine.find?_byPosition, List.getElem?_map, Array.getElem?_toList, hst₀]
        rfl
    · intro hnone
      cases hnone
    · intro p hp
      cases hp
      show sitesOf (freshMasks ops (compile s.signature root shape).masks) = _
      rw [sitesOf_freshMasks, compile_masks]
      rfl

/-- An `output` loads the program, or replaces the masks and keeps what is compiled. -/
theorem Inv.compileOutput {h : History} {s : Session α} (hs : s.Inv ops h) {root : Term}
    (hroot : root.Built) :
    (∃ shape s', Session.compileOutput ops root s = .ok shape s' ∧
      s'.Inv ops ⟨some ⟨s.signature, root, shape⟩, none⟩) ∨
    ∃ e s', Session.compileOutput ops root s = .error e s' ∧
      s'.Inv ops ⟨h.program, some (root.maskSites s.signature)⟩ := by
  have hspec := Lowering.lower_spec hroot.universe root root.mem_subterms_self (.start s.signature) []
    (Lowering.start_inv _ s.signature) (by intro x hx; cases hx)
  rw [compileOutput_eq]
  cases hl : Lowering.lower root (.start s.signature) with
  | error e lowered =>
    have hsites : lowered.masks = root.maskSites s.signature := by rw [Term.maskSites, hl]; rfl
    refine .inr ⟨e, _, rfl, ⟨hs.coherent.count, hs.coherent.suits⟩, ?_, ?_, hs.idle, ?_⟩
    · show ∀ m ∈ freshMasks ops lowered.masks, _
      rw [hsites]
      exact freshMasks_rates (hroot.maskSites_rates s.signature)
    · intro c hc
      obtain ⟨p, hp, hloaded⟩ := hs.loaded c hc
      exact ⟨p, hp, hloaded.built, hloaded.plan, hloaded.declared, hloaded.shape, hloaded.reached,
        hloaded.current⟩
    · intro p _
      show sitesOf (freshMasks ops lowered.masks) = _
      rw [sitesOf_freshMasks, hsites]
      rfl
  | ok id lowered =>
    rw [hl] at hspec
    obtain ⟨hlow, hid⟩ := hspec
    have hinfer : root.infer s.signature = .ok (lowered.node id).shape := by
      have := hid.infer_eq hlow.inv.arena
      rwa [hlow.continues.signature] at this
    -- a term that was lowered is not refused with its own shape
    rcases hs.compileTerm hroot (lowered.node id).shape with ⟨s', hs', hinv⟩ | ⟨e, s', -, hrefused, -⟩
    · refine .inl ⟨_, s', ?_, hinv⟩
      simp only [hs']
    · rcases hrefused with herror | ⟨found, hfound, hne, -⟩ | ⟨-, hnot⟩
      · rw [hinfer] at herror
        cases herror
      · rw [hinfer, Except.ok.injEq] at hfound
        exact absurd (by rw [hfound]) hne
      · exact absurd (Term.isCountable_of_infer hinfer) hnot

/-! ## Runs -/

variable (ops) in
/-- Masks of valid rates can be drawn and disabled, and keep their rates and lengths. -/
theorem mapM_nextMask (training : Bool) {masks : List (Mask α)}
    (h : ∀ m ∈ masks, Lowering.isDropoutRate m.rate) (g : Generator) :
    ∃ next g', masks.mapM (nextMask ops training) g = .ok next g' ∧
      List.Forall₂ (fun m m' => m'.rate = m.rate ∧ m'.value.size = m.value.size) masks next := by
  induction masks generalizing g with
  | nil => exact ⟨[], g, rfl, .nil⟩
  | cons m masks ih =>
    have hstep : ∃ m' g', nextMask ops training m g = .ok m' g' ∧
        m'.rate = m.rate ∧ m'.value.size = m.value.size := by
      cases training with
      | false => exact ⟨m.disable ops, g, rfl, rfl, by simp⟩
      | true =>
        obtain ⟨m', g', hm'⟩ := Mask.refresh_ok ops (h m List.mem_cons_self) g
        have hsame := Mask.size_refresh ops hm'
        exact ⟨m', g', hm', hsame.2, hsame.1⟩
    obtain ⟨m', g', hm', hsame⟩ := hstep
    obtain ⟨next, g'', hnext, hrest⟩ := ih (fun k hk => h k (List.mem_cons_of_mem _ hk)) g'
    refine ⟨m' :: next, g'', ?_, .cons hsame hrest⟩
    rw [List.mapM_cons, bind_of_ok hm', bind_of_ok hnext]
    rfl

/-- Masks are disabled without a draw. -/
theorem mapM_disable (masks : List (Mask α)) (g : Generator) :
    masks.mapM (nextMask ops false) g = .ok (masks.map (Mask.disable ops)) g := by
  induction masks with
  | nil => rfl
  | cons m masks ih =>
    rw [List.mapM_cons,
      bind_of_ok (rfl : nextMask ops false m g = .ok (m.disable ops) g), bind_of_ok ih]
    rfl

end Session

/-- The partial gradient has one contribution for every element that reads a parameter. -/
def ParameterPartial.Covers (signature : Signature) (e : ParameterPartial) (data : Array α) : Prop :=
  ∃ d, signature.get? e.tensor = some d ∧ d.kind = .parameter ∧ e.access.Covers d.size data.size

/-- Whatever its buffers hold, the machine of a compiled plan can be run. A run leaves the values of
tensors and masks alone, and reads back partial gradients that can be added to those of parameters. -/
theorem CompiledAs.run_ok {signature : Signature} {root : Term} {shape : Shape} {plan : Plan} {id : Nat}
    {s : Lowering} (h : CompiledAs signature root shape plan id s) {m : Machine α}
    (hm : Machine.Reached ops plan signature.size s.masks.size m) (backward : Bool) :
    ∃ r m', Machine.run ops backward m = .ok r m' ∧ m'.plan = plan ∧ m'.tensors = m.tensors ∧
      m'.masks = m.masks ∧
      (backward = true → ∀ e ∈ plan.partials.zip r.partials, e.1.Covers signature e.2) := by
  obtain ⟨hpresent, hready⟩ := h.sound.ready_of_reached h.wired h.kernels hm
  obtain ⟨r, m', hrun, hread, hready'⟩ := hready.run_spec h.wired backward fun i k _ hk =>
    h.sound.runs_scoped ops hpresent (h.kernels ▸ List.mem_of_getElem? hk)
  refine ⟨r, m', hrun, hready'.plan, hready'.tensors, hready'.masks, ?_⟩
  rintro hbackward ⟨e, data⟩ he
  have hsize := ((List.forall₂_iff_zip.1 (hread.partials hbackward)).2 he).2
  obtain ⟨p, hp, howner, hbuffer, haccess⟩ :=
    Layout.mem_parameterPartials.1 (h.partials ▸ (List.of_mem_zip he).1)
  obtain ⟨k, hk, hb⟩ := h.sound.partial_writes hp
  have hlen : data.size = p.len := by
    refine hsize p.len ⟨k, ?_, p.outputBinding, hb, ?_, rfl⟩
    · rw [hbuffer, h.kernels]
      exact hk
    · rw [hbuffer]
      rfl
  obtain ⟨c, b, hback, hpb⟩ := Layout.mem_passPartials.1 hp
  obtain ⟨_, hok⟩ := h.sound.backward_ok_of_mem hback
  obtain ⟨o, ho, howns, hcov⟩ := hok.owned p hpb
  rw [howner] at howns
  obtain ⟨hkind, d, hd, hparam⟩ := howns
  refine ⟨d, hd, hparam, ?_⟩
  rw [haccess, hlen, ← h.sound.size_tensor ho hkind hd]
  exact hcov

namespace Session

/-- One run of the machine of what is compiled, after everything was copied to it. -/
structure Ran (training : Bool) (s : Session α) (c : Compiled α) (next : List (Mask α)) (g : Generator)
    (r : Readback α) (m : Machine α) : Prop where
  drawn : s.masks.toList.mapM (nextMask ops training) s.generator = .ok next g
  run : Machine.run ops training (s.loaded next c.machine) = .ok r m
  plan : m.plan = c.machine.plan
  tensors : m.tensors = (s.loaded next c.machine).tensors
  masks : m.masks = (s.loaded next c.machine).masks
  same : List.Forall₂ (fun m m' => m'.rate = m.rate ∧ m'.value.size = m.value.size) s.masks.toList next

variable {ops} in
/-- A run keeps the sites of the masks. -/
theorem Ran.sites_eq {training : Bool} {s : Session α} {c : Compiled α} {next : List (Mask α)}
    {g : Generator} {r : Readback α} {m : Machine α} (h : s.Ran ops training c next g r m) :
    sitesOf s.masks = sitesOf next.toArray := by
  have hmap : ∀ {masks next : List (Mask α)},
      List.Forall₂ (fun m m' => m'.rate = m.rate ∧ m'.value.size = m.value.size) masks next →
      masks.map (fun m => MaskSite.mk m.rate m.value.size) =
        next.map fun m => MaskSite.mk m.rate m.value.size := by
    intro masks next hsame
    induction hsame with
    | nil => rfl
    | cons hm _ ih => rw [List.map_cons, List.map_cons, ih, hm.1, hm.2]
  unfold sitesOf
  rw [← Array.toList_inj, Array.toList_map, Array.toList_map]
  exact hmap h.same

variable {ops} in
/-- A run outside of training disables the masks, and draws nothing. -/
theorem Ran.disabled {s : Session α} {c : Compiled α} {next : List (Mask α)} {g : Generator}
    {r : Readback α} {m : Machine α} (h : s.Ran ops false c next g r m) :
    next = s.masks.toList.map (Mask.disable ops) ∧ g = s.generator := by
  have hdrawn := h.drawn
  rw [mapM_disable] at hdrawn
  cases hdrawn
  exact ⟨rfl, rfl⟩

/-- The session's own machine is run: the tensors that changed and the masks of the run are written to it
first, and afterwards it is kept in the session, with these masks. -/
structure Executes (training : Bool) (s : Session α) (c : Compiled α) (next : List (Mask α))
    (r : Readback α) (s' : Session α) : Prop where
  run : ∃ m, Machine.run ops training (s.loaded next c.machine) = .ok r m ∧
    s'.compiled = some { c with machine := m }
  masks : s'.masks = next.toArray

/-- The session after a training run: every partial gradient was added to that of its parameter. -/
def trained (s : Session α) (g : Generator) (next : List (Mask α)) (c : Compiled α) (r : Readback α)
    (m : Machine α) : Session α :=
  { s.ran g next c m with
    tensors := (cleared ops s.flushed.tensors).mapIdx fun i t =>
      { t with grad := gradientAfter ops (m.plan.partials.zip r.partials) i t.grad } }

variable {ops}

/-- An inference runs the session's own machine. -/
theorem Ran.executes {training : Bool} {s : Session α} {c : Compiled α} {next : List (Mask α)}
    {g : Generator} {r : Readback α} {m : Machine α} (h : s.Ran ops training c next g r m) :
    s.Executes ops training c next r (s.ran g next c m) :=
  ⟨⟨m, h.run, rfl⟩, rfl⟩

/-- So does a training run. -/
theorem Ran.executes_trained {s : Session α} {c : Compiled α} {next : List (Mask α)} {g : Generator}
    {r : Readback α} {m : Machine α} (h : s.Ran ops true c next g r m) :
    s.Executes ops true c next r (s.trained ops g next c r m) :=
  ⟨⟨m, h.run, rfl⟩, rfl⟩

/-- A tensor that was declared when the term was compiled is still declared. -/
theorem Loaded.get?_eq {p : Program} {s : Session α} {c : Compiled α} (h : s.Loaded ops p c) {t : Nat}
    {d : TensorDecl} (hd : p.signature.get? t = some d) : s.signature.get? t = some d := by
  obtain ⟨tail, htail⟩ := h.declared
  show s.signature.decls[t]? = some d
  rw [← htail, List.getElem?_append_left (List.getElem?_eq_some_iff.1 hd).1]
  exact hd

/-- With every marked tensor copied, the machine has the values of all of them. -/
theorem Loaded.tensors_eq {p : Program} {s : Session α} {c : Compiled α} (h : s.Loaded ops p c)
    (next : List (Mask α)) {t : Nat} {st : TensorState α} (hst : s.tensors[t]? = some st) :
    (s.loaded next c.machine).tensors.find? t = some st.value :=
  loaded_tensor hst (h.current t st hst) next

/-- Whatever is compiled can be run, and what is read back can be added to the gradients. -/
theorem Inv.ran {h : History} {s : Session α} (hs : s.Inv ops h) {c : Compiled α}
    (hc : s.compiled = some c) (training : Bool) :
    ∃ next g r m, s.Ran ops training c next g r m ∧
      (training = true → ∀ e ∈ m.plan.partials.zip r.partials, e.1.Covers s.signature e.2) := by
  obtain ⟨p, -, hloaded⟩ := hs.loaded c hc
  obtain ⟨id, lowered, -, hcompiled⟩ := compiledAs_of_ok hloaded.built hloaded.plan
  obtain ⟨next, g, hnext, hsame⟩ := mapM_nextMask ops training
    (fun m hm => hs.rates m (Array.mem_toList_iff.1 hm)) s.generator
  have hreached := reached_loaded ops hloaded.reached s next
  rw [← hcompiled.lowered.inv.count] at hreached
  obtain ⟨r, m, hrun, hplan, htensors, hmasks, hparts⟩ := hcompiled.run_ok ops hreached training
  refine ⟨next, g, r, m, ⟨hnext, hrun, hplan, htensors, hmasks, hsame⟩, ?_⟩
  intro htraining e he
  rw [hplan] at he
  obtain ⟨d, hd, hparam, hcov⟩ := hparts htraining e he
  exact ⟨d, hloaded.get?_eq hd, hparam, hcov⟩

/-- A run keeps what holds of a session, if it keeps the values of tensors. -/
theorem Inv.of_ran {h : History} {s : Session α} (hs : s.Inv ops h) {c : Compiled α}
    (hc : s.compiled = some c) {training : Bool} {next : List (Mask α)} {g : Generator} {r : Readback α}
    {m : Machine α} (hran : s.Ran ops training c next g r m) {tensors : Array (TensorState α)}
    (hsize : tensors.size = s.tensors.size)
    (hkept : ∀ (id : Nat) t, tensors[id]? = some t →
      ∃ st, s.tensors[id]? = some st ∧ st.value = t.value)
    (hsuits : ∀ (id : Nat) d t, s.signature.get? id = some d → tensors[id]? = some t → t.Suits ops d) :
    Inv ops h { s.ran g next c m with tensors := tensors } := by
  refine ⟨⟨hsize.trans hs.coherent.count, hsuits⟩, ?_, ?_, ?_, ?_⟩
  · intro k hk
    have hk : k ∈ next := by simpa [Session.ran, uploaded, withMasks] using hk
    obtain ⟨k₀, hk₀, hrate, -⟩ := exists_of_forall₂ hran.same hk
    rw [hrate]
    exact hs.rates k₀ (Array.mem_toList_iff.1 hk₀)
  · intro c' hc'
    cases hc'
    obtain ⟨p, hp, hloaded⟩ := hs.loaded c hc
    refine ⟨p, hp, hloaded.built, ?_, hloaded.declared, hloaded.shape, ?_, ?_⟩
    · rw [hran.plan]
      exact hloaded.plan
    · rw [hran.plan]
      exact (reached_loaded ops hloaded.reached s next).run hran.run
    · intro t st hst _
      obtain ⟨st₀, hst₀, hvalue⟩ := hkept t st hst
      rw [hran.tensors, ← hvalue]
      exact hloaded.tensors_eq next hst₀
  · intro hnone
    cases hnone
  · intro p hp
    rw [← hs.masks p hp]
    show sitesOf next.toArray = sitesOf s.masks
    exact hran.sites_eq.symm

/-- After an upload a tensor is what it was, unmarked. -/
theorem getElem?_flushed {s : Session α} {id : Nat} {t : TensorState α}
    (ht : s.flushed.tensors[id]? = some t) :
    ∃ st, s.tensors[id]? = some st ∧ t = { st with dirty := false } := by
  unfold flushed at ht
  rw [Array.getElem?_map] at ht
  obtain ⟨st, hst, rfl⟩ := Option.map_eq_some_iff.1 ht
  exact ⟨st, hst, rfl⟩

/-- After gradients were cleared a tensor has its value, unmarked, and gradients of zero. -/
theorem getElem?_cleared {s : Session α} {id : Nat} {t : TensorState α}
    (ht : (cleared ops s.flushed.tensors)[id]? = some t) :
    ∃ st, s.tensors[id]? = some st ∧
      t = { st with grad := st.grad.map fun _ => ops.zero, dirty := false } := by
  unfold cleared at ht
  rw [Array.getElem?_map] at ht
  obtain ⟨t', ht', rfl⟩ := Option.map_eq_some_iff.1 ht
  obtain ⟨st, hst, rfl⟩ := getElem?_flushed ht'
  exact ⟨st, hst, rfl⟩

/-- An inference of whatever is compiled does not fail. -/
theorem Inv.infer {h : History} {s : Session α} (hs : s.Inv ops h) {c : Compiled α}
    (hc : s.compiled = some c) :
    ∃ next g r m, s.Ran ops false c next g r m ∧
      Session.infer ops s = .ok (r.output.take c.outputShape.size) (s.ran g next c m) ∧
      (s.ran g next c m).Inv ops h := by
  obtain ⟨next, g, r, m, hran, -⟩ := hs.ran hc false
  refine ⟨next, g, r, m, hran, infer_eq ops hc hran.drawn hran.run, ?_⟩
  have hsize : s.flushed.tensors.size = s.tensors.size := by simp [flushed]
  refine hs.of_ran hc hran hsize ?_ ?_
  · intro id t ht
    obtain ⟨st, hst, rfl⟩ := getElem?_flushed ht
    exact ⟨st, hst, rfl⟩
  · intro id d t hd ht
    obtain ⟨st, hst, rfl⟩ := getElem?_flushed ht
    have hsuits := hs.coherent.suits id d st hd hst
    exact ⟨hsuits.value, hsuits.grad, hsuits.input⟩

/-- A tensor that no partial gradient is for keeps its gradient. -/
theorem gradientAfter_of_ne {parts : List (ParameterPartial × Array α)} {id : Nat}
    (h : ∀ e ∈ parts, e.1.tensor ≠ id) (grad : Array α) : gradientAfter ops parts id grad = grad := by
  have hnone : (parts.filter fun e => e.1.tensor = id) = [] := by
    rw [List.filter_eq_nil_iff]
    intro e he heq
    exact h e he (of_decide_eq_true heq)
  unfold gradientAfter
  rw [hnone]
  rfl

/-- No partial gradient is added to an input. -/
theorem gradientAfter_input {signature : Signature} {parts : List (ParameterPartial × Array α)}
    (h : ∀ e ∈ parts, e.1.Covers signature e.2) {id : Nat} {d : TensorDecl}
    (hd : signature.get? id = some d) (hinput : d.kind = .input) (grad : Array α) :
    gradientAfter ops parts id grad = grad := by
  refine gradientAfter_of_ne (fun e he heq => ?_) grad
  obtain ⟨d', hd', hparam, -⟩ := h e he
  rw [heq, hd, Option.some.injEq] at hd'
  rw [← hd', hinput] at hparam
  cases hparam

/-- A training run of whatever is compiled does not fail. -/
theorem Inv.run {h : History} {s : Session α} (hs : s.Inv ops h) {c : Compiled α}
    (hc : s.compiled = some c) :
    ∃ next g r m, s.Ran ops true c next g r m ∧
      Session.run ops s = .ok
        ⟨r.output.take c.outputShape.size, (s.trained ops g next c r m).gradients⟩
        (s.trained ops g next c r m) ∧
      (s.trained ops g next c r m).Inv ops h := by
  obtain ⟨next, g, r, m, hran, hparts⟩ := hs.ran hc true
  have hcovers := hparts rfl
  -- all gradients have their lengths when the partial ones are added
  have hclear : ∀ (id : Nat) d, s.signature.get? id = some d → ∃ t,
      (cleared ops s.flushed.tensors)[id]? = some t ∧ t.grad.size = d.size := by
    intro id d hd
    obtain ⟨st, hst, hsuits⟩ := hs.coherent.exists_tensor hd
    refine ⟨{ st with grad := st.grad.map fun _ => ops.zero, dirty := false },
      by simp only [cleared, flushed, Array.getElem?_map, hst, Option.map_some], ?_⟩
    rw [Array.size_map]
    exact hsuits.grad
  obtain ⟨hfold, hsizes⟩ := foldlM_addTo ops (m.plan.partials.zip r.partials)
    (cleared ops s.flushed.tensors) (by
      intro e he
      obtain ⟨d, hd, -, hcov⟩ := hcovers e he
      obtain ⟨t, ht, hsize⟩ := hclear e.1.tensor d hd
      exact ⟨t, ht, by rwa [hsize]⟩)
  refine ⟨next, g, r, m, hran, run_eq ops hc hran.drawn hran.run hfold, ?_⟩
  refine hs.of_ran hc hran (by simp [cleared, flushed]) ?_ ?_
  · intro id t ht
    rw [Array.getElem?_mapIdx] at ht
    obtain ⟨t', ht', rfl⟩ := Option.map_eq_some_iff.1 ht
    obtain ⟨st, hst, rfl⟩ := getElem?_cleared ht'
    exact ⟨st, hst, rfl⟩
  · intro id d t hd ht
    rw [Array.getElem?_mapIdx] at ht
    obtain ⟨t', ht', rfl⟩ := Option.map_eq_some_iff.1 ht
    have hsize := hsizes id t' ht'
    obtain ⟨st, hst, rfl⟩ := getElem?_cleared ht'
    have hsuits := hs.coherent.suits id d st hd hst
    refine ⟨hsuits.value, ?_, ?_⟩
    · rw [hsize, Array.size_map]
      exact hsuits.grad
    · intro hinput
      show gradientAfter ops _ id (st.grad.map fun _ => ops.zero) = _
      rw [gradientAfter_input hcovers hd hinput, hsuits.input hinput]
      simp [Machine.zeros]

/-! ## Steps and histories -/

/-- Changing an answer does not change the state that is left. -/
theorem finalState_bind_pure {ε σ β γ : Type} (x : EStateM ε σ β) (f : β → γ) (s : σ) :
    finalState ((x >>= fun b => pure (f b)) s) = finalState (x s) := by
  simp only [bind, EStateM.bind]
  cases x s <;> rfl

/-- A session without a program says so. -/
theorem current_error {s : Session α} (hc : s.compiled = none) : current s = .error .notCompiled s := by
  simp [current, bind, EStateM.bind, run_get, run_throw, hc]

/-- A training run without a program fails, and changes nothing. -/
theorem run_of_idle {s : Session α} (hc : s.compiled = none) :
    Session.run ops s = .error .notCompiled s :=
  bind_of_error (bind_of_error (current_error hc))

/-- An inference without a program fails, and changes nothing. -/
theorem infer_of_idle {s : Session α} (hc : s.compiled = none) :
    Session.infer ops s = .error .notCompiled s :=
  bind_of_error (bind_of_error (current_error hc))

/-- Every command keeps what holds of a session, whether or not it fails. -/
theorem Inv.step {h : History} {s : Session α} (hs : s.Inv ops h) {c : Command α} (hc : c.Built) :
    (s.after ops c).Inv ops (h.next ops c s) := by
  unfold after
  cases c with
  | declare d =>
    rw [Command.exec, finalState_bind_pure]
    exact hs.edit (hs.coherent.edits_declare d)
  | set id data =>
    rw [Command.exec, finalState_bind_pure]
    exact hs.edit (hs.coherent.edits_setTensor id data)
  | init id i =>
    rw [Command.exec, finalState_bind_pure]
    exact hs.edit (hs.coherent.edits_initTensor id i)
  | learn id rate =>
    rw [Command.exec, finalState_bind_pure]
    exact hs.edit (hs.coherent.edits_learn id rate)
  | learnAll rate =>
    rw [Command.exec, finalState_bind_pure]
    exact hs.edit (hs.coherent.edits_learnAll rate)
  | compile root shape =>
    rcases hs.compileTerm hc shape with ⟨s', hs', hinv⟩ | ⟨e, s', hs', -, hinv⟩
    · have hexec : (Command.compile root shape).exec ops s = .ok .done s' := by
        rw [Command.exec, bind_of_ok hs']
        rfl
      rw [History.next_compile hexec, hexec]
      exact hinv
    · have hexec : (Command.compile root shape).exec ops s = .error e s' := by
        rw [Command.exec, bind_of_error hs']
      rw [History.next_compile_error hexec, hexec]
      exact hinv
  | output root =>
    rcases hs.compileOutput hc with ⟨shape, s', hs', hinv⟩ | ⟨e, s', hs', hinv⟩
    · have hexec : (Command.output root).exec ops s = .ok (.shape shape) s' := by
        rw [Command.exec, bind_of_ok hs']
        rfl
      rw [History.next_output hexec, hexec]
      exact hinv
    · have hexec : (Command.output root).exec ops s = .error e s' := by
        rw [Command.exec, bind_of_error hs']
      rw [History.next_output_error hexec, hexec]
      exact hinv
  | run =>
    rw [Command.exec, finalState_bind_pure]
    cases hcompiled : s.compiled with
    | none =>
      rw [run_of_idle hcompiled]
      exact hs
    | some c =>
      obtain ⟨next, g, r, m, -, hrun, hinv⟩ := hs.run hcompiled
      rw [hrun]
      exact hinv
  | infer =>
    rw [Command.exec, finalState_bind_pure]
    cases hcompiled : s.compiled with
    | none =>
      rw [infer_of_idle hcompiled]
      exact hs
    | some c =>
      obtain ⟨next, g, r, m, -, hinfer, hinv⟩ := hs.infer hcompiled
      rw [hinfer]
      exact hinv

/-- Commands keep what holds of a session. -/
theorem Inv.follow {h : History} {s : Session α} (hs : s.Inv ops h) {commands : List (Command α)}
    (hbuilt : ∀ c ∈ commands, c.Built) :
    (Session.follow ops commands s h).1.Inv ops (Session.follow ops commands s h).2 := by
  induction commands generalizing s h with
  | nil => exact hs
  | cons c rest ih =>
    exact ih (hs.step (hbuilt c List.mem_cons_self)) fun c' hc' => hbuilt c' (List.mem_cons_of_mem _ hc')

/-! ## A failing `output`

A dropout is compiled, and then an undeclared tensor is not. -/

/-- Draws the deviation itself where a normal variate is asked for. -/
def steadySampler : NormalSampler := fun deviation => return deviation

/-- A parameter of four elements. -/
def sampleDecl : TensorDecl := ⟨"w", [4], .parameter⟩

/-- A dropout on the parameter. -/
def sampleTerm : Term := .apply 0 (.dropout 0.5) [.tensor 0]

/-- The dropout, compiled where only the parameter is declared. -/
def sampleProgram : Program := ⟨⟨[sampleDecl], by decide, by decide, by decide⟩, sampleTerm, [4]⟩

/-- Commands that compile the dropout. -/
def sampleCommands : List (Command Float32) := [.declare sampleDecl, .compile sampleTerm [4]]

/-- The session and the history after the compilation. -/
def sample : Session Float32 × History :=
  follow .binary32 sampleCommands (Session.start ⟨.cpu, none, 10⟩ .empty steadySampler 0) .start

/-- The session and the history after the failure. -/
def stray : Session Float32 × History :=
  follow .binary32 [.output (.tensor 7)] sample.1 sample.2

/-- The sample term is built. -/
theorem sampleTerm_built : sampleTerm.Built := by
  have h := Build.known_leaves [.tensor 0] (by simp [Term.site?])
  have h := h.apply (.dropout 0.5) [.tensor 0] (by simp [Term.allSubterms, Term.subterms]) rfl
  exact h.built (Term.mem_allSubterms_of_mem List.mem_cons_self)

/-- The commands of the sample compile built terms only. -/
theorem sampleCommands_built : ∀ c ∈ sampleCommands ++ [.output (.tensor 7)], c.Built := by
  intro c hc
  simp only [sampleCommands, List.cons_append, List.nil_append, List.mem_cons, List.not_mem_nil,
    or_false] at hc
  rcases hc with rfl | rfl | rfl
  · trivial
  · exact sampleTerm_built
  · exact (Build.known_leaves [.tensor 7] (by simp [Term.site?])).built
      (Term.mem_allSubterms_of_mem List.mem_cons_self)

/-- After the commands of the sample, its program is compiled. -/
theorem sample_spec : (∃ c, sample.1.compiled = some c) ∧
    sample.1.signature = sampleProgram.signature ∧ sample.2 = ⟨some sampleProgram, none⟩ := by
  have hdeclare : Signature.empty.declare sampleDecl = .ok sampleProgram.signature := by
    have hcount : Shape.isCountable [4] = true := rfl
    simp [Signature.declare, isTensorName, Signature.empty, isNameChar, sampleDecl, sampleProgram, hcount]
  obtain ⟨plan, hplan⟩ := exists_plan sampleTerm_built (show Shape.isCountable [4] from rfl)
    (rfl : sampleTerm.infer sampleProgram.signature = .ok [4]) rfl
  let s₀ : Session Float32 := Session.start ⟨.cpu, none, 10⟩ .empty steadySampler 0
  let s₁ : Session Float32 := { s₀ with
    signature := sampleProgram.signature
    tensors := s₀.tensors.push
      ⟨Machine.zeros .binary32 sampleDecl.size, Machine.zeros .binary32 sampleDecl.size, true⟩ }
  have hexec₁ : (Command.declare sampleDecl).exec .binary32 s₀ = .ok (.declared 0) s₁ := by
    have h : Session.declare .binary32 sampleDecl s₀ = .ok 0 s₁ := by
      rw [declare_eq, show s₀.signature.declare sampleDecl = _ from hdeclare]
      rfl
    rw [Command.exec, bind_of_ok h]
    rfl
  obtain ⟨s₂, hexec₂, hcompiled, hsignature⟩ : ∃ s₂,
      (Command.compile sampleTerm [4]).exec .binary32 s₁ = .ok .done s₂ ∧
      (∃ c, s₂.compiled = some c) ∧ s₂.signature = sampleProgram.signature := by
    have h := compileTerm_eq .binary32 sampleTerm [4] s₁
    rw [show (compile s₁.signature sampleTerm [4]).plan = _ from hplan] at h
    exact ⟨_, (bind_of_ok h).trans rfl, ⟨_, rfl⟩, rfl⟩
  have hstep₁ : sample = follow .binary32 [.compile sampleTerm [4]] s₁ .start := by
    show follow .binary32 _ (finalState ((Command.declare sampleDecl).exec .binary32 s₀)) _ = _
    rw [hexec₁]
    rfl
  have hstep₂ : sample = (s₂, ⟨some sampleProgram, none⟩) := by
    rw [hstep₁, follow, after, History.next_compile hexec₂, hexec₂]
    rfl
  rw [hstep₂]
  exact ⟨hcompiled, hsignature, rfl⟩

/-- An `output` of an undeclared tensor fails, and leaves no mask. -/
theorem exec_output_stray {s : Session Float32} (hsignature : s.signature = sampleProgram.signature) :
    (Command.output (.tensor 7)).exec .binary32 s =
      .error (.unknownTensor 7) { s with masks := #[] } := by
  have hlower : Lowering.lower (.tensor 7) (.start s.signature) =
      .error (.unknownTensor 7) (.start s.signature) := by
    rw [hsignature]
    rfl
  have hfresh : freshMasks .binary32 (Lowering.start s.signature).masks = #[] := by
    simp [freshMasks, Lowering.start]
  have h := compileOutput_eq .binary32 (.tensor 7) s
  simp only [hlower, hfresh] at h
  exact bind_of_error h

/-- The plan of the dropout stays compiled, without a mask. -/
theorem stray_spec : (∃ c, stray.1.compiled = some c) ∧ stray.1.masks = #[] ∧
    stray.2 = ⟨some sampleProgram, some #[]⟩ := by
  obtain ⟨hcompiled, hsignature, hhistory⟩ := sample_spec
  have hexec : (Command.output (.tensor 7)).exec .binary32 sample.1 =
      .error (.unknownTensor 7) { sample.1 with masks := #[] } := exec_output_stray hsignature
  have hstep : stray = ({ sample.1 with masks := #[] }, ⟨some sampleProgram, some #[]⟩) := by
    rw [stray, follow, after, History.next_output_error hexec, hexec, hsignature, hhistory]
    rfl
  rw [hstep]
  exact ⟨hcompiled, rfl, rfl⟩

/-- Commands one after the other. -/
theorem follow_append (before rest : List (Command α)) (s : Session α) (h : History) :
    follow ops (before ++ rest) s h =
      follow ops rest (follow ops before s h).1 (follow ops before s h).2 := by
  induction before generalizing s h with
  | nil => rfl
  | cons c before ih => exact ih _ _

end Session

end TensorKernels
