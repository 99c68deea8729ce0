import TensorKernels.Proofs.Building
import TensorKernels.Proofs.Compilation

/-!
# Buffers are wired without ambiguity

Kernels find their buffers by name, and names are put together from the names of tensors, which may
hold any letters, digits and underscores. Nothing goes wrong: an output name belongs to one kernel of
the plan (`Layout.Sound.writer_unique`), since the name of a value tells its node and the name of a
partial buffer tells the context that writes it. So the copy into an input has one possible source,
the bindings of a kernel are in bijection with its slots, and the host finds every partial buffer of a
parameter.
-/

set_option autoImplicit false

namespace TensorKernels

/-! ## Slots -/

namespace Kernel

/-- The bindings of a kernel in the order of their slots. -/
def slots (k : Kernel) : List Binding := k.inputs.entries ++ k.outputs.entries

/-- How a kernel may use the buffer at a slot. -/
def slotMode (k : Kernel) (slot : Nat) : String :=
  if slot < k.inputs.size then "read" else "read_write"

/-- The header of a shader declares one buffer per slot. -/
theorem wgsl_header (k : Kernel) : ∃ rest, k.wgsl = "// " ++ k.label ++ "\n" ++
    String.join (k.slots.mapIdx fun slot b => bindingText slot (k.slotMode slot) b.name) ++ rest := by
  have hinputs : k.inputs.names.mapIdx (fun i name => bindingText i "read" name) =
      k.inputs.entries.mapIdx fun slot b => bindingText slot (k.slotMode slot) b.name := by
    refine List.ext_getElem (by simp [Bindings.names]) ?_
    intro i h₁ h₂
    have hi : i < k.inputs.size := by simpa [Bindings.size] using h₂
    simp [Bindings.names, slotMode, hi]
  have houtputs : k.outputs.names.mapIdx (fun i name => bindingText (k.inputs.size + i) "read_write" name) =
      k.outputs.entries.mapIdx fun i b =>
        bindingText (i + k.inputs.entries.length) (k.slotMode (i + k.inputs.entries.length)) b.name := by
    refine List.ext_getElem (by simp [Bindings.names]) ?_
    intro i h₁ h₂
    have hmode : k.slotMode (i + k.inputs.entries.length) = "read_write" :=
      if_neg (Nat.not_lt.2 (Nat.le_add_left _ i))
    simp [Bindings.names, Bindings.size, Nat.add_comm _ i, hmode]
  refine ⟨"\n@compute @workgroup_size(" ++ toString workgroupSize ++ ")\n" ++
    "fn main(@builtin(global_invocation_id) gid: vec3<u32>) \x7b\n    let index = gid.x;\n" ++
    Stmt.blockText 1 k.body ++ "\x7d\n", ?_⟩
  unfold wgsl slots
  rw [hinputs, houtputs, List.mapIdx_append, String.join_append]
  simp only [String.append_assoc]

end Kernel

namespace Layout

variable {l : Layout} {masks : Array MaskSite}

/-! ## Output names -/

/-- A forward kernel writes the exports of its own nodes, and nothing else. -/
theorem Sound.forward_output_name (h : l.Sound masks) {c : Nat} {name : String}
    (hname : name ∈ (l.forwardKernel c).trimmed.outputs.names) :
    ∃ id, l.home id = some c ∧ name = exportName id := by
  obtain ⟨b, hb, rfl⟩ := Bindings.mem_names.1 hname
  obtain ⟨id, hid, rfl⟩ := forward_outputs (Kernel.mem_trimmed_outputs.1 hb).1
  exact ⟨id, (h.mem_members c id).1 (exports_subset _ hid), rfl⟩

/-- A backward kernel writes its partial buffers, and nothing else. -/
theorem Sound.backward_output_name (h : l.Sound masks) {c : Nat} {b : BackwardKernel}
    (hb : (c, some b) ∈ l.backwardKernels) {name : String}
    (hname : name ∈ b.kernel.trimmed.outputs.names) : ∃ p ∈ b.partials, name = outputName p.name := by
  obtain ⟨_, hok⟩ := h.backward_ok_of_mem hb
  obtain ⟨x, hx, rfl⟩ := Bindings.mem_names.1 hname
  have hx := (Kernel.mem_trimmed_outputs.1 hx).1
  rw [hok.outputs] at hx
  obtain ⟨p, hp, rfl⟩ := List.mem_map.1 hx
  exact ⟨p, hp, rfl⟩

/-- No two kernels write a buffer of the same name. -/
theorem Sound.outputs_disjoint (h : l.Sound masks) :
    l.kernelList.Pairwise fun k k' => ∀ name ∈ k.outputs.names, name ∉ k'.outputs.names := by
  unfold kernelList
  rw [List.pairwise_append, List.pairwise_map, List.pairwise_map]
  refine ⟨?_, ?_, ?_⟩
  · -- a value is written by the context of its node
    refine h.order_nodup.imp ?_
    intro c c' hne name hname hname'
    obtain ⟨id, hid, rfl⟩ := h.forward_output_name hname
    obtain ⟨id', hid', heq⟩ := h.forward_output_name hname'
    obtain rfl := exportName_injective heq
    exact hne (Option.some.inj (hid.symm.trans hid'))
  · -- the name of a partial buffer tells its context
    unfold backwardList
    rw [List.pairwise_filterMap]
    refine (List.pairwise_map.1 h.nodup_backwardKernels).imp_of_mem ?_
    rintro ⟨c, ob⟩ ⟨c', ob'⟩ hmem hmem' hne b hb b' hb' name hname hname'
    obtain rfl : ob = some b := hb
    obtain rfl : ob' = some b' := hb'
    obtain ⟨p, hp, rfl⟩ := h.backward_output_name hmem hname
    obtain ⟨p', hp', heq⟩ := h.backward_output_name hmem' hname'
    exact hne (h.kernel_unique hmem hp hmem' hp' (outputName_injective heq)).1
  · rintro k hk k' hk' name hname hname'
    obtain ⟨c, -, rfl⟩ := List.mem_map.1 hk
    obtain ⟨b, hb, rfl⟩ := List.mem_map.1 hk'
    obtain ⟨c', hc'⟩ := mem_backwardList.1 hb
    obtain ⟨id, -, rfl⟩ := h.forward_output_name hname
    obtain ⟨p, hp, heq⟩ := h.backward_output_name hc' hname'
    obtain ⟨base, c'', j, hj⟩ := h.partial_name (mem_passPartials.2 ⟨c', b, hc', hp⟩)
    have heq := outputName_injective heq
    rw [hj] at heq
    exact PartialBuffer.candidate_ne_varName base c'' j id heq.symm

/-- The kernel that writes a buffer is determined by the buffer's name. -/
theorem Sound.writer_unique (h : l.Sound masks) {i j : Nat} {k k' : Kernel}
    (hk : l.kernelList[i]? = some k) (hk' : l.kernelList[j]? = some k') {name : String}
    (hname : name ∈ k.outputs.names) (hname' : name ∈ k'.outputs.names) : i = j := by
  obtain ⟨hi, rfl⟩ := List.getElem?_eq_some_iff.1 hk
  obtain ⟨hj, rfl⟩ := List.getElem?_eq_some_iff.1 hk'
  have hpair := List.pairwise_iff_getElem.1 h.outputs_disjoint
  rcases Nat.lt_trichotomy i j with hlt | heq | hlt
  · exact absurd hname' (hpair i j hi hj hlt name hname)
  · exact heq
  · exact absurd hname (hpair j i hj hi hlt name hname')

/-! ## Slots of a kernel -/

/-- A tensor or a mask is bound under one name. -/
theorem Sound.eq_of_source (h : l.Sound masks) {k k' : Kernel} (hk : k ∈ l.kernelList)
    (hk' : k' ∈ l.kernelList) {b b' : Binding} (hb : b ∈ k.inputs.entries)
    (hb' : b' ∈ k'.inputs.entries) (hsource : b.source = b'.source) (hshared : b.source ≠ .ownBuffer) :
    b = b' := by
  rcases h.kernelList_inputs hk hb with ⟨o, ho, hbind, -⟩ | ⟨p, -, rfl⟩
  · rcases h.kernelList_inputs hk' hb' with ⟨o', ho', hbind', -⟩ | ⟨p', -, rfl⟩
    · refine h.binding?_unique ho ho' hbind hbind' ?_
      rcases h.binding?_cases ho hbind with ⟨op, -, rfl⟩ | ⟨i, m, -, hm, rfl⟩ | ⟨t, d, -, hd, rfl⟩
      · exact absurd rfl hshared
      · rcases h.binding?_cases ho' hbind' with
          ⟨op', -, rfl⟩ | ⟨i', m', -, hm', rfl⟩ | ⟨t', d', -, hd', rfl⟩ <;> cases hsource
        rfl
      · rcases h.binding?_cases ho' hbind' with
          ⟨op', -, rfl⟩ | ⟨i', m', -, hm', rfl⟩ | ⟨t', d', -, hd', rfl⟩ <;> cases hsource
        rw [hd, Option.some.injEq] at hd'
        rw [hd']
    · exact absurd hsource hshared
  · exact absurd rfl hshared

/-- The slots of a kernel, inputs before outputs, have distinct names. -/
theorem Sound.nodup_slots (h : l.Sound masks) {k : Kernel} (hk : k ∈ l.kernelList) :
    (k.slots.map Binding.name).Nodup := by
  unfold Kernel.slots
  rw [List.map_append, List.nodup_append]
  refine ⟨k.inputs.nodup, k.outputs.nodup, ?_⟩
  intro name hname name' hname'
  obtain ⟨b, hb, rfl⟩ := List.mem_map.1 hname
  obtain ⟨b', hb', rfl⟩ := List.mem_map.1 hname'
  exact h.connected.apart k hk b hb b' hb'

/-- A slot is determined by its buffer. -/
theorem Sound.slot_unique (h : l.Sound masks) {k : Kernel} (hk : k ∈ l.kernelList) {s s' : Nat}
    {b b' : Binding} (hs : k.slots[s]? = some b) (hs' : k.slots[s']? = some b')
    (hsame : b.name = b'.name ∨ (b.source = b'.source ∧ b.source ≠ .ownBuffer)) : s = s' := by
  have hname : b.name = b'.name := by
    rcases hsame with hname | ⟨hsource, hshared⟩
    · exact hname
    · -- outputs are owned, so both are inputs
      have hinput : ∀ {s : Nat} {b : Binding}, k.slots[s]? = some b → b.source ≠ .ownBuffer →
          b ∈ k.inputs.entries := by
        intro s b hb hne
        rcases List.mem_append.1 (List.mem_of_getElem? hb) with hb | hb
        · exact hb
        · exact absurd (h.connected.owns k hk b hb) hne
      rw [h.eq_of_source hk hk (hinput hs hshared) (hinput hs' (hsource ▸ hshared)) hsource hshared]
  have hlt := (List.getElem?_eq_some_iff.1 hs).1
  have hget : (k.slots.map Binding.name)[s]? = (k.slots.map Binding.name)[s']? := by
    rw [List.getElem?_map, List.getElem?_map, hs, hs', Option.map_some, Option.map_some, hname]
  exact (List.getElem?_inj (by simpa using hlt) (h.nodup_slots hk)).1 hget

end Layout

/-! ## Partial buffers of parameters -/

/-- Whether a partial buffer is part of a parameter's gradient. -/
def PartialBuffer.isParameter (p : PartialBuffer) : Bool :=
  match p.owner with
  | .node _ => false
  | .parameter _ => true

/-- The partial buffers of parameters that the backward kernels record, in the order in which they do. -/
def Layout.recordedPartials (l : Layout) : List PartialBuffer :=
  (l.backwardKernels.flatMap fun e => e.2.elim [] BackwardKernel.partials).filter
    PartialBuffer.isParameter

namespace Plan

/-- The host adds up a partial buffer where its kernel writes it. -/
structure Collects (kernels : List Kernel) (p : PartialBuffer) (e : ParameterPartial) : Prop where
  tensor : p.owner = .parameter e.tensor
  access : e.access = p.access
  name : e.buffer.name = outputName p.name
  written : ∃ k, kernels[e.buffer.kernel]? = some k ∧ p.outputBinding ∈ k.outputs.entries

/-- A copy fills an owned input of the kernel at a position. Its source is the only buffer of that name
that any kernel writes, and stands in an earlier kernel, the one that wiring selects. -/
structure Fills (kernels : List Kernel) (i : Nat) (b : Binding) (c : Copy) : Prop where
  target : c.target = b.name
  source : c.source = outputName b.name
  len : c.len = b.len
  earlier : c.fromKernel < i
  selected : lastWriter (kernels.take i) (outputName b.name) = some c.fromKernel
  written : ∃ k, kernels[c.fromKernel]? = some k ∧
    ∃ b' ∈ k.outputs.entries, b'.name = outputName b.name ∧ b'.len = c.len
  only : ∀ j k, kernels[j]? = some k → outputName b.name ∈ k.outputs.names → j = c.fromKernel

/-- Every name means one buffer. -/
structure Unambiguous (p : Plan) : Prop where
  /-- An output name belongs to one kernel. -/
  writer : ∀ (i j : Nat) k k' name, p.kernels[i]? = some k → p.kernels[j]? = some k' →
    name ∈ k.outputs.names → name ∈ k'.outputs.names → i = j
  /-- No two bindings of a kernel have the same name. -/
  names : ∀ k ∈ p.kernels, (k.inputs.names ++ k.outputs.names).Nodup
  /-- The header of a shader declares the buffers slot by slot, -/
  header : ∀ k ∈ p.kernels, ∃ rest, k.wgsl = "// " ++ k.label ++ "\n" ++
    String.join (k.slots.mapIdx fun slot b => Kernel.bindingText slot (k.slotMode slot) b.name) ++ rest
  /-- and slots with the same name, tensor or mask are the same. -/
  slots : ∀ k ∈ p.kernels, ∀ (s s' : Nat) b b', k.slots[s]? = some b → k.slots[s']? = some b' →
    b.name = b'.name ∨ (b.source = b'.source ∧ b.source ≠ .ownBuffer) → s = s'
  /-- Every owned input is filled from the only kernel that writes it. -/
  copies : ∀ (i : Nat) k, p.kernels[i]? = some k →
    ∃ cs, p.copies[i]? = some cs ∧ List.Forall₂ (Fills p.kernels i) (ownedInputs k) cs

end Plan

namespace Layout

variable {l : Layout} {masks : Array MaskSite}

/-- Each recorded partial buffer of a parameter has its entry on the host. -/
theorem Sound.collects (h : l.Sound masks) :
    List.Forall₂ (Plan.Collects l.kernelList) l.recordedPartials l.parameterPartials := by
  have hwritten : ∀ p ∈ l.backwardKernels.flatMap fun e => e.2.elim [] BackwardKernel.partials, ∃ k,
      l.kernelList[l.order.length + l.backwardContexts.idxOf p.context]? = some k ∧
        p.outputBinding ∈ k.outputs.entries := fun p hp => h.partial_writes hp
  unfold recordedPartials parameterPartials
  dsimp only
  generalize (l.backwardKernels.flatMap fun e => e.2.elim [] BackwardKernel.partials) = ps at hwritten ⊢
  induction ps with
  | nil => exact .nil
  | cons p ps ih =>
    have ih := ih fun q hq => hwritten q (List.mem_cons_of_mem _ hq)
    cases howner : p.owner with
    | node id =>
      rw [List.filter_cons_of_neg (by simp [PartialBuffer.isParameter, howner]),
        List.filterMap_cons_none (by simp [howner])]
      exact ih
    | parameter t =>
      rw [List.filter_cons_of_pos (by simp [PartialBuffer.isParameter, howner]),
        List.filterMap_cons_some (b := ⟨t, ⟨l.order.length + l.backwardContexts.idxOf p.context,
          outputName p.name⟩, p.access⟩) (by simp [howner])]
      exact .cons ⟨howner, rfl, rfl, hwritten p List.mem_cons_self⟩ ih

/-- A copy that supplies an input takes it from the only kernel that writes it. -/
theorem Sound.fills (h : l.Sound masks) {i : Nat} {b : Binding} {c : Copy}
    (hc : Plan.Supplies l.kernelList i b c) : Plan.Fills l.kernelList i b c := by
  obtain ⟨k, hk, b', hb', hname, hlen⟩ := hc.written
  have hwrites : outputName b.name ∈ k.outputs.names := Bindings.mem_names.2 ⟨b', hb', hname⟩
  have honly : ∀ j k', l.kernelList[j]? = some k' → outputName b.name ∈ k'.outputs.names →
      j = c.fromKernel := fun j k' hk' hname' => h.writer_unique hk' hk hname' hwrites
  have hmem : k ∈ l.kernelList.take i := by
    refine List.mem_of_getElem? (i := c.fromKernel) ?_
    rw [List.getElem?_take_of_lt hc.earlier]
    exact hk
  obtain ⟨j, k', hselected, hj, hname'⟩ := Plan.lastWriter_spec ⟨k, hmem, hwrites⟩
  have hj : l.kernelList[j]? = some k' := by
    rw [List.getElem?_take] at hj
    split at hj
    · exact hj
    · cases hj
  refine ⟨hc.target, hc.source, hc.len, hc.earlier, ?_, ⟨k, hk, b', hb', hname, ?_⟩, honly⟩
  · rw [hselected, honly j k' hj hname']
  · rw [hlen, hc.len]

end Layout

/-- Whatever names the tensors have, the buffers of a compiled plan are wired without ambiguity, and the
host collects every partial buffer of a parameter. -/
theorem compiled_unambiguous (signature : Signature) {root : Term} (hroot : root.Built) {shape : Shape}
    {plan : Plan} (h : (compile signature root shape).plan = .ok plan) :
    plan.Unambiguous ∧ ∃ id s,
      (Lowering.lowerRoot root shape).run (.start signature) = .ok id s ∧
      List.Forall₂ (Plan.Collects plan.kernels)
        (Layout.ofRoot signature s.nodes id).recordedPartials plan.partials := by
  obtain ⟨id, s, -, hcompiled⟩ := compiledAs_of_ok hroot h
  have hsound := hcompiled.sound
  have hkernels := hcompiled.kernels
  refine ⟨⟨?_, ?_, fun k _ => k.wgsl_header, ?_, ?_⟩, id, s, hcompiled.lowering, ?_⟩
  · intro i j k k' name hk hk'
    rw [hkernels] at hk hk'
    exact hsound.writer_unique hk hk'
  · intro k hk
    rw [hkernels] at hk
    have hnodup := hsound.nodup_slots hk
    rwa [Kernel.slots, List.map_append] at hnodup
  · intro k hk s s' b b'
    rw [hkernels] at hk
    exact hsound.slot_unique hk
  · intro i k hk
    obtain ⟨cs, hcs, hsupplies⟩ := hcompiled.wired.copies i k hk
    rw [hkernels] at hsupplies ⊢
    exact ⟨cs, hcs, hsupplies.imp fun _ _ hc => hsound.fills hc⟩
  · rw [hkernels, hcompiled.partials]
    exact hsound.collects

/-- The tensors of the layer under names that look like those of partial buffers, locals and outputs. -/
def lookalikeSignature : Signature where
  decls := [⟨"x_output", [2, 3], .input⟩, ⟨"w_k1", [3, 2], .parameter⟩, ⟨"v3", [2], .parameter⟩]
  valid := by decide
  nodup := by decide
  countable := by decide

/-- The wiring of the layer is not misled by such names. -/
theorem layer_unambiguous_of_lookalikes :
    layerTerm.Built ∧ ∃ plan, (compile lookalikeSignature layerTerm [2, 2]).plan = .ok plan ∧
      plan.Unambiguous ∧ ∃ id s,
        (Lowering.lowerRoot layerTerm [2, 2]).run (.start lookalikeSignature) = .ok id s ∧
        List.Forall₂ (Plan.Collects plan.kernels)
          (Layout.ofRoot lookalikeSignature s.nodes id).recordedPartials plan.partials := by
  have hinfer : layerTerm.infer lookalikeSignature = .ok [2, 2] := rfl
  obtain ⟨plan, hplan⟩ := exists_plan layerTerm_built (show Shape.isCountable [2, 2] from rfl)
    hinfer rfl
  exact ⟨layerTerm_built, plan, hplan, compiled_unambiguous lookalikeSignature layerTerm_built hplan⟩

end TensorKernels
