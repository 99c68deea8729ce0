import TensorKernels.Proofs.Dataflow
import TensorKernels.Proofs.StorePlaces

/-!
# What one kernel does to a machine

On a machine with all leaves and all buffers (`Machine.Complete`), running the kernel at a position
replaces the outputs of that kernel by what its dispatch makes of them on the data that it is fed, and
changes no other output (`Machine.Complete.runKernel`). The data is that of the leaves and, through the
copies, of outputs of earlier kernels; what the kernel's own input buffers held before does not matter.

A dispatch replaces every element that some invocation stores to by a value that depends on the inputs
only, and keeps the others (`Kernel.Emits.dispatch_alike`, `Kernel.Emits.dispatch_skips`).
-/

set_option autoImplicit false

namespace TensorKernels

variable {α : Type} (ops : Arithmetic α)

/-! ## Elements that are stored -/

namespace Kernel

/-- No invocation ever stores to the element of the buffer. -/
def Skips (k : Kernel) (name : String) (j : Nat) : Prop :=
  ∀ inputs outputs : Buffers α, (∀ b ∈ k.inputs.names, (inputs.find? b).isSome) →
    (∀ b ∈ k.outputs.names, (outputs.find? b).isSome) → ∀ i < k.invocations,
      (name, j) ∉ (k.writes ops inputs outputs i).map Write.place

variable {k : Kernel} {outlets : List Outlet} {inputs outputs outputs' : Buffers α}

/-- The stores of all invocations to one buffer. -/
def writesTo (k : Kernel) (inputs outputs : Buffers α) (name : String) : List (Write α) :=
  ((List.range k.invocations).flatMap (k.writes ops inputs outputs)).filter fun w => w.buffer = name

/-- No write goes to a place exactly if no invocation writes there. -/
theorem lastAt_writesTo_eq_none {name : String} {j : Nat} :
    Write.lastAt (k.writesTo ops inputs outputs name) j = none ↔
      ∀ i < k.invocations, (name, j) ∉ (k.writes ops inputs outputs i).map Write.place := by
  rw [Write.lastAt_eq_none]
  constructor
  · intro h i hi hmem
    obtain ⟨w, hw, hplace⟩ := List.mem_map.1 hmem
    cases hplace
    refine h (List.mem_map_of_mem (List.mem_filter.2 ⟨List.mem_flatMap.2 ⟨i, ?_, hw⟩, by simp⟩))
    exact List.mem_range.2 hi
  · intro h hmem
    obtain ⟨w, hw, rfl⟩ := List.mem_map.1 hmem
    obtain ⟨hmem, hname⟩ := List.mem_filter.1 hw
    obtain ⟨i, hi, hwrite⟩ := List.mem_flatMap.1 hmem
    obtain rfl : w.buffer = name := by simpa using hname
    exact h i (List.mem_range.1 hi) (List.mem_map_of_mem hwrite)

/-- Where invocations store does not depend on what the buffers hold. -/
theorem Emits.skips_of_none (h : k.Emits ops outlets)
    (hinputs : ∀ b ∈ k.inputs.names, (inputs.find? b).isSome)
    (houtputs : ∀ b ∈ k.outputs.names, (outputs.find? b).isSome) {name : String} {j : Nat}
    (hnone : Write.lastAt (k.writesTo ops inputs outputs name) j = none) : k.Skips ops name j := by
  intro inputs' outputs' hinputs' houtputs' i hi
  rw [h.places inputs' outputs' hinputs' houtputs', ← h.places inputs outputs hinputs houtputs]
  exact (lastAt_writesTo_eq_none ops).1 hnone i hi

/-- A dispatch ends without a fault, and in each output every element has the value of the last store to
it, or what it had. -/
theorem Typed.dispatch_eq (h : k.Typed) (hinputs : ∀ b ∈ k.inputs.names, (inputs.find? b).isSome)
    (hfor : outputs.For k.outputs) (hbound : ∀ b, outputs'.contains b = outputs.contains b) :
    ∃ final, k.dispatch ops inputs outputs' = (none, final) ∧
      ∀ name, final.find? name = (outputs'.find? name).map fun data =>
        (k.writesTo ops inputs outputs name).foldl Write.setIn data :=
  ⟨_, h.invokeAll_eq ops hinputs hfor.isSome_find? (List.range k.invocations) hbound,
    fun name => Buffers.find?_applyWrites _ _ name⟩

/-- On the same inputs, dispatches from outputs that agree where nothing is stored end in the same
outputs. -/
theorem Emits.dispatch_alike (h : k.Emits ops outlets)
    (hinputs : ∀ b ∈ k.inputs.names, (inputs.find? b).isSome) (hfor : outputs.For k.outputs)
    (hfor' : outputs'.For k.outputs)
    (hskipped : ∀ b ∈ k.outputs.entries, ∀ j, k.Skips ops b.name j → ∀ data data',
      outputs.find? b.name = some data → outputs'.find? b.name = some data' → data'[j]? = data[j]?) :
    ∃ final final', k.dispatch ops inputs outputs = (none, final) ∧
      k.dispatch ops inputs outputs' = (none, final') ∧
      ∀ b ∈ k.outputs.entries, final'.find? b.name = final.find? b.name := by
  obtain ⟨final, hdispatch, hfinal⟩ := h.typed.dispatch_eq ops hinputs hfor fun _ => rfl
  obtain ⟨final', hdispatch', hfinal'⟩ := h.typed.dispatch_eq ops hinputs hfor (hfor'.contains_eq hfor)
  refine ⟨final, final', hdispatch, hdispatch', ?_⟩
  intro b hb
  obtain ⟨data, hdata, hsize⟩ := hfor.found b hb
  obtain ⟨data', hdata', hsize'⟩ := hfor'.found b hb
  rw [hfinal, hfinal', hdata, hdata']
  refine congrArg some (Array.ext_getElem? fun j => ?_)
  by_cases hj : j < b.len
  · rw [Write.getElem?_foldl_setIn _ (hsize' ▸ hj), Write.getElem?_foldl_setIn _ (hsize ▸ hj)]
    cases hlast : Write.lastAt (k.writesTo ops inputs outputs b.name) j with
    | some x => rfl
    | none =>
      have hskips := h.skips_of_none ops hinputs hfor.isSome_find? hlast
      exact hskipped b hb j hskips data data' hdata hdata'
  · rw [Array.getElem?_eq_none (by rw [Write.size_foldl_setIn]; omega),
      Array.getElem?_eq_none (by rw [Write.size_foldl_setIn]; omega)]

/-- An element that nothing is stored to is kept. -/
theorem Emits.dispatch_skips (h : k.Emits ops outlets)
    (hinputs : ∀ b ∈ k.inputs.names, (inputs.find? b).isSome) (hfor : outputs.For k.outputs)
    {final : Buffers α} (hdispatch : k.dispatch ops inputs outputs = (none, final)) {name : String}
    {j : Nat} (hskips : k.Skips ops name j) {data data' : Array α}
    (hdata : outputs.find? name = some data) (hdata' : final.find? name = some data') :
    data'[j]? = data[j]? := by
  obtain ⟨final', hdispatch', hfinal⟩ := h.typed.dispatch_eq ops hinputs hfor fun _ => rfl
  rw [hdispatch, Prod.mk.injEq] at hdispatch'
  obtain ⟨-, rfl⟩ := hdispatch'
  rw [hfinal, hdata, Option.map_some, Option.some.injEq] at hdata'
  subst hdata'
  by_cases hj : j < data.size
  · have hnone : Write.lastAt (k.writesTo ops inputs outputs name) j = none :=
      (lastAt_writesTo_eq_none ops).2 (hskips inputs outputs hinputs hfor.isSome_find?)
    rw [Write.getElem?_foldl_setIn _ hj, hnone]
    rfl
  · rw [Array.getElem?_eq_none (by rw [Write.size_foldl_setIn]; omega), Array.getElem?_eq_none (by omega)]

end Kernel

/-! ## The data that a kernel is fed -/

/-- The copy that fills an input of the kernel at a position. -/
def Plan.copyTo? (p : Plan) (n : Nat) (name : String) : Option Copy :=
  (p.copies[n]?.getD []).find? fun c => c.target = name

/-- Every owned input is filled by a copy of its own. -/
theorem Plan.Wired.exists_copyTo? {p : Plan} (hp : p.Wired) {n : Nat} {k : Kernel}
    (hk : p.kernels[n]? = some k) {cs : List Copy} (hcs : p.copies[n]? = some cs) {b : Binding}
    (hb : b ∈ Plan.ownedInputs k) :
    ∃ c, p.copyTo? n b.name = some c ∧ (b, c) ∈ (Plan.ownedInputs k).zip cs ∧
      Plan.Supplies p.kernels n b c := by
  obtain ⟨cs', hcs', hsupplies⟩ := hp.copies n k hk
  rw [hcs, Option.some.injEq] at hcs'
  subst hcs'
  have hnodup : ((Plan.ownedInputs k).map Binding.name).Nodup :=
    k.inputs.nodup.sublist (List.filter_sublist.map _)
  rw [Plan.copyTo?, hcs, Option.getD_some]
  clear hcs
  -- the copies are made in the order of the inputs, whose names differ
  generalize Plan.ownedInputs k = bs at hsupplies hb hnodup
  induction hsupplies with
  | nil => cases hb
  | @cons b' c' bs cs hfirst hrest ih =>
    rw [List.map_cons, List.nodup_cons] at hnodup
    rcases List.mem_cons.1 hb with rfl | hb
    · exact ⟨c', List.find?_cons_of_pos (by simpa using hfirst.target), List.mem_cons_self, hfirst⟩
    · obtain ⟨c, hfind, hzip, hsupplies⟩ := ih hb hnodup.2
      have hne : b'.name ≠ b.name := fun heq => hnodup.1 (heq ▸ List.mem_map_of_mem hb)
      refine ⟨c, ?_, List.mem_cons_of_mem _ hzip, hsupplies⟩
      rw [List.find?_cons_of_neg (by simpa [hfirst.target] using hne)]
      exact hfind

namespace Machine

variable {p : Plan} {n : Nat} {k : Kernel} {m m' : Machine α}

/-- The data behind an input of the kernel at a position. -/
def source? (m : Machine α) (n : Nat) (b : Binding) : Option (Array α) :=
  match b.source with
  | .tensor t => m.tensors.find? t
  | .mask i => m.masks.find? i
  | .ownBuffer => m.buffer? n b.name

/-- The data behind an input once the copies before the kernel are made. -/
def fed? (m : Machine α) (n : Nat) (b : Binding) : Option (Array α) :=
  match b.source with
  | .tensor t => m.tensors.find? t
  | .mask i => m.masks.find? i
  | .ownBuffer => (m.plan.copyTo? n b.name).bind fun c => m.buffer? c.fromKernel c.source

/-- The inputs that a kernel runs on. -/
def feeds (m : Machine α) (n : Nat) (k : Kernel) : Buffers α :=
  ⟨k.inputs.entries.map fun b => (b.name, (m.fed? n b).getD #[])⟩

/-- The outputs that a kernel runs on. -/
def held (m : Machine α) (n : Nat) (k : Kernel) : Buffers α :=
  .ofList (k.outputs.entries.map fun b => (b.name, (m.buffer? n b.name).getD (zeros ops b.len)))

/-- The machine is for the plan: all buffers have their lengths, and all leaves that are read are
there. -/
structure Complete (p : Plan) (m : Machine α) : Prop where
  plan : m.plan = p
  length : m.owned.length = p.kernels.length
  sized : ∀ i k, p.kernels[i]? = some k → ∀ b, b ∈ Plan.ownedInputs k ∨ b ∈ k.outputs.entries →
    ∃ data, m.buffer? i b.name = some data ∧ data.size = b.len
  tensor : ∀ k ∈ p.kernels, ∀ b ∈ k.inputs.entries, ∀ t, b.source = .tensor t →
    (m.tensors.find? t).isSome
  mask : ∀ k ∈ p.kernels, ∀ b ∈ k.inputs.entries, ∀ i, b.source = .mask i → (m.masks.find? i).isSome

/-- A complete machine is ready before every kernel. -/
theorem Complete.ready (h : m.Complete p) (n : Nat) :
    m.Ready p m.tensors m.masks (fun _ _ => True) n where
  plan := h.plan
  tensors := rfl
  masks := rfl
  length := h.length
  sized := h.sized
  written i _ k hk b hb x _ := by
    obtain ⟨data, hdata, -⟩ := h.sized i k hk b (.inr hb)
    exact ⟨data, hdata, trivial⟩

/-- A machine that is ready on the leaves of a complete one is complete. -/
theorem Complete.of_ready (h : m.Complete p) (hready : m'.Ready p m.tensors m.masks (fun _ _ => True) n) :
    m'.Complete p where
  plan := hready.plan
  length := hready.length
  sized := hready.sized
  tensor := hready.tensors ▸ h.tensor
  mask := hready.masks ▸ h.mask

/-- On a complete machine every well-typed kernel runs. -/
theorem Complete.runs (h : m.Complete p) (hk : k ∈ p.kernels) (htyped : k.Typed) :
    Runs ops m.tensors m.masks (fun _ _ => True) k := by
  obtain ⟨kinds, hbody⟩ := htyped
  exact ⟨h.tensor k hk, h.mask k hk, (Kernel.Meets.of_typed ops hbody).mono ops
    (fun _ _ _ _ => trivial) fun _ _ _ _ _ _ => trivial⟩

/-- The outputs that a complete machine holds for a kernel have the sizes of its bindings. -/
theorem Complete.held_for (h : m.Complete p) (hk : p.kernels[n]? = some k) :
    (m.held ops n k).For k.outputs := by
  have hn : n < m.owned.length := h.length ▸ (List.getElem?_eq_some_iff.1 hk).1
  have hbs : m.owned[n]? = some m.owned[n] := List.getElem?_eq_getElem hn
  have hheld : m.held ops n k = outputBuffers ops m.owned[n] k := by
    unfold held outputBuffers buffer?
    simp only [hbs, Option.bind_some]
  rw [hheld]
  exact outputBuffers_for ops hbs fun b hb => h.sized n k hk b (.inr hb)

/-- The outputs that a complete machine holds for a kernel are its buffers. -/
theorem Complete.find?_held (h : m.Complete p) (hk : p.kernels[n]? = some k) {b : Binding}
    (hb : b ∈ k.outputs.entries) : (m.held ops n k).find? b.name = m.buffer? n b.name := by
  have hnodup : ((k.outputs.entries.map fun b =>
      (b.name, (m.buffer? n b.name).getD (zeros ops b.len))).map Prod.fst).Nodup := by
    rw [List.map_map]
    exact k.outputs.nodup
  obtain ⟨data, hdata, -⟩ := h.sized n k hk b (.inr hb)
  rw [held, Table.find?_ofList hnodup,
    Table.lookup_eq_some_of_mem hnodup (List.mem_map.2 ⟨b, hb, rfl⟩), hdata]
  rfl

/-- Every input of a kernel is fed. -/
theorem isSome_find?_feeds (m : Machine α) (n : Nat) (k : Kernel) :
    ∀ b ∈ k.inputs.names, ((m.feeds n k).find? b).isSome := by
  intro name hname
  obtain ⟨b, hb, rfl⟩ := List.mem_map.1 hname
  have hnodup : ((k.inputs.entries.map fun b => (b.name, (m.fed? n b).getD #[])).map Prod.fst).Nodup := by
    rw [List.map_map]
    exact k.inputs.nodup
  exact Option.isSome_of_eq_some
    (Table.lookup_eq_some_of_mem hnodup (List.mem_map.2 ⟨b, hb, rfl⟩))

/-! ## One kernel -/

/-- Steps that succeed and leave the state alone, one after the other. -/
theorem mapM_eq_map {σ β γ : Type} {g : β → EStateM Error σ γ} {f : β → γ} {s : σ} {bs : List β}
    (h : ∀ b ∈ bs, g b s = .ok (f b) s) : bs.mapM g s = .ok (bs.map f) s := by
  induction bs with
  | nil => rfl
  | cons b bs ih =>
    rw [List.mapM_cons, bind_of_ok (h b List.mem_cons_self),
      bind_of_ok (ih fun x hx => h x (List.mem_cons_of_mem _ hx))]
    rfl

/-- An input with a source is read from it. -/
theorem inputBuffer_eq {b : Binding} {data : Array α} (h : m.source? n b = some data) :
    inputBuffer n k b m = .ok (b.name, data) m := by
  unfold source? at h
  cases hs : b.source with
  | tensor t =>
    rw [hs] at h
    simp [inputBuffer, hs, show m.tensors.find? t = some data from h, bind, EStateM.bind, run_get, pure,
      EStateM.pure]
  | mask i =>
    rw [hs] at h
    simp [inputBuffer, hs, show m.masks.find? i = some data from h, bind, EStateM.bind, run_get, pure,
      EStateM.pure]
  | ownBuffer =>
    rw [hs] at h
    obtain ⟨bs, hbs, hfind⟩ := exists_owned h
    simp [inputBuffer, hs, hbs, hfind, bind, EStateM.bind, run_get, pure, EStateM.pure]

/-- The machine after the copies before a kernel: the inputs have the data that the kernel is fed, and
nothing but inputs of the kernel has changed. -/
structure Filled (p : Plan) (n : Nat) (k : Kernel) (m m₁ : Machine α) : Prop where
  plan : m₁.plan = p
  length : m₁.owned.length = p.kernels.length
  inputs : ∀ b ∈ k.inputs.entries, ∃ data, m.fed? n b = some data ∧
    (m₁.withoutOutputs n k).source? n b = some data
  outputs : ∀ b ∈ k.outputs.entries, m₁.buffer? n b.name = m.buffer? n b.name
  others : ∀ i name, i ≠ n → m₁.buffer? i name = m.buffer? i name

/-- The copies before a kernel of a wired plan can be made. -/
theorem Complete.copies (h : m.Complete p) (hp : p.Wired) (hk : p.kernels[n]? = some k) :
    ∃ cs m₁, p.copies[n]? = some cs ∧ cs.forM (copy n) m = .ok () m₁ ∧ Filled p n k m m₁ := by
  have hmem : k ∈ p.kernels := List.mem_of_getElem? hk
  obtain ⟨cs, hcs, hsupplies⟩ := hp.copies n k hk
  obtain ⟨m₁, hcopies, h₁, hfilled, hcopied, hother⟩ := (h.ready n).copies_spec hk hsupplies
    (List.Subset.refl _) (k.inputs.nodup.sublist (List.filter_sublist.map _))
  refine ⟨cs, m₁, hcs, hcopies, h₁.plan, h₁.length, ?_, ?_, ?_⟩
  · intro b hb
    unfold source? fed?
    cases hs : b.source with
    | tensor t =>
      obtain ⟨data, hdata⟩ := Option.isSome_iff_exists.1 (h.tensor k hmem b hb t hs)
      exact ⟨data, hdata, by rw [← hdata, ← h₁.tensors]; rfl⟩
    | mask i =>
      obtain ⟨data, hdata⟩ := Option.isSome_iff_exists.1 (h.mask k hmem b hb i hs)
      exact ⟨data, hdata, by rw [← hdata, ← h₁.masks]; rfl⟩
    | ownBuffer =>
      have hown : b ∈ Plan.ownedInputs k := List.mem_filter.2 ⟨hb, by simp [hs]⟩
      obtain ⟨c, hcopy, hzip, -⟩ := hp.exists_copyTo? hk hcs hown
      obtain ⟨data, hdata, -⟩ := hfilled b hown
      refine ⟨data, ?_, ?_⟩
      · rw [h.plan, hcopy, Option.bind_some, ← hcopied _ hzip, hdata]
      · -- an input is no output, so it is not taken out
        rw [buffer?_withoutOutputs, if_neg, hdata]
        rintro ⟨-, hname⟩
        obtain ⟨b', hb', heq⟩ := List.mem_map.1 hname
        exact hp.apart k hmem b hb b' hb' heq.symm
  · intro b hb
    refine hother n b.name fun hand => ?_
    obtain ⟨b', hb', heq⟩ := List.mem_map.1 hand.2
    exact hp.apart k hmem b' (List.mem_filter.1 hb').1 b hb heq
  · intro i name hi
    exact hother i name fun hand => hi hand.1.symm

section Filled

variable {m₁ : Machine α}

/-- After the copies, the inputs of a kernel are its feeds. -/
theorem Filled.mapM_inputBuffer (h : Filled p n k m m₁) :
    k.inputs.entries.mapM (inputBuffer n k) (m₁.withoutOutputs n k) =
      .ok (m.feeds n k).entries (m₁.withoutOutputs n k) := by
  refine mapM_eq_map fun b hb => inputBuffer_eq ?_
  obtain ⟨data, hfed, hsource⟩ := h.inputs b hb
  rw [hsource, hfed]
  rfl

/-- After the copies, the outputs of a kernel are what it held before. -/
theorem Filled.outputBuffers_eq (h : Filled p n k m m₁) {bs : Buffers α} (hbs : m₁.owned[n]? = some bs) :
    outputBuffers ops bs k = m.held ops n k := by
  unfold outputBuffers held
  refine congrArg Table.ofList (List.map_congr_left fun b hb => ?_)
  have hkept := h.outputs b hb
  rw [buffer?, hbs, Option.bind_some] at hkept
  rw [hkept]

end Filled

/-- Running a kernel leaves buffers with distinct names. -/
theorem nodup_keys_of_dispatch {final : Buffers α}
    (hdispatch : k.dispatch ops (m.feeds n k) (m.held ops n k) = (none, final)) : final.keys.Nodup := by
  have hkeys := Kernel.keys_invokeAll ops k.body (m.feeds n k) (List.range k.invocations) (m.held ops n k)
  rw [show Kernel.invokeAll ops k.body (m.feeds n k) (List.range k.invocations) (m.held ops n k) =
    (none, final) from hdispatch] at hkeys
  rw [hkeys]
  exact Table.nodup_keys_ofList _

/-- What running the kernel at a position changes. -/
structure Stepped (n : Nat) (k : Kernel) (m m' : Machine α) : Prop where
  tensors : m'.tensors = m.tensors
  masks : m'.masks = m.masks
  outputs : ∃ final, k.dispatch ops (m.feeds n k) (m.held ops n k) = (none, final) ∧
    ∀ b ∈ k.outputs.entries, m'.buffer? n b.name = final.find? b.name
  others : ∀ i name, i ≠ n → m'.buffer? i name = m.buffer? i name

/-- A kernel of a wired plan runs on every machine for the plan. -/
theorem Complete.runKernel (h : m.Complete p) (hp : p.Wired) (hk : p.kernels[n]? = some k)
    (htyped : k.Typed) :
    ∃ m', runKernel ops n m = .ok () m' ∧ m'.Complete p ∧ Stepped ops n k m m' := by
  obtain ⟨cs, m₁, hcs, hcopies, hfilled⟩ := h.copies hp hk
  have hn : n < m₁.owned.length := hfilled.length ▸ (List.getElem?_eq_some_iff.1 hk).1
  have hbs : m₁.owned[n]? = some m₁.owned[n] := List.getElem?_eq_getElem hn
  obtain ⟨final, hdispatch, hfinal⟩ :=
    htyped.dispatch_eq ops (isSome_find?_feeds m n k) (h.held_for ops hk) fun _ => rfl
  have hkeys := nodup_keys_of_dispatch ops hdispatch
  have hrun : Machine.runKernel ops n m = .ok () ((m₁.withoutOutputs n k).withOutputs n final) :=
    runKernel_eq (by rw [h.plan, hcs]) hcopies (by rw [hfilled.plan, hk]) hbs hfilled.mapM_inputBuffer
      (by rw [hfilled.outputBuffers_eq ops hbs]; exact hdispatch)
  obtain ⟨m', hrun', hready'⟩ :=
    (h.ready n).runKernel_spec hp hk (h.runs ops (List.mem_of_getElem? hk) htyped)
  rw [hrun] at hrun'
  cases hrun'
  have hn' : n < (m₁.withoutOutputs n k).owned.length := by
    simpa [Machine.withoutOutputs] using hn
  refine ⟨_, hrun, h.of_ready hready', hready'.tensors, hready'.masks, ⟨final, hdispatch, ?_⟩, ?_⟩
  · intro b hb
    have hsome : (final.find? b.name).isSome := by
      rw [hfinal, Option.isSome_map]
      exact (h.held_for ops hk).isSome_find? b.name (List.mem_map_of_mem hb)
    obtain ⟨data, hdata⟩ := Option.isSome_iff_exists.1 hsome
    rw [buffer?_withOutputs hkeys hn', if_pos rfl, hdata]
    rfl
  · intro i name hi
    rw [buffer?_withOutputs hkeys hn', if_neg fun heq => hi heq.symm, buffer?_withoutOutputs,
      if_neg fun hand => hi hand.1.symm, hfilled.others i name hi]

end Machine

end TensorKernels
