import TensorKernels.Proofs.Contexts
import TensorKernels.Proofs.Dispatch
import TensorKernels.Proofs.Names
import TensorKernels.Proofs.Values

/-!
# Bindings of a layout

A kernel reads a node through the node's binding. The name of a binding determines the binding
(`Layout.Sound.binding?_unique`), so looking a buffer up by name finds the right one. A kernel whose
code touches only bound names passes its check and loses nothing that it needs
(`Kernel.checked_eq_ok`).
-/

set_option autoImplicit false

namespace TensorKernels

namespace Bindings

/-- A registration adds at most the binding itself. -/
theorem mem_entries_register {bs : Bindings} {b c : Binding} :
    c ∈ (bs.register b).entries → c ∈ bs.entries ∨ c = b := by
  unfold register
  split
  · exact .inl
  · intro h
    simpa using h

/-- Registrations add at most the bindings of the list. -/
theorem mem_entries_registerAll {l : List Binding} {bs : Bindings} {c : Binding}
    (h : c ∈ (bs.registerAll l).entries) : c ∈ bs.entries ∨ c ∈ l := by
  unfold registerAll at h
  induction l generalizing bs with
  | nil => exact .inl h
  | cons b l ih =>
    rcases ih h with h | h
    · rcases mem_entries_register h with h | rfl
      · exact .inl h
      · exact .inr (by simp)
    · exact .inr (by simp [h])

/-- Registrations keep all names. -/
theorem names_subset_registerAll (l : List Binding) (bs : Bindings) :
    bs.names ⊆ (bs.registerAll l).names := by
  unfold registerAll
  induction l generalizing bs with
  | nil => exact List.Subset.refl _
  | cons b l ih =>
    refine List.Subset.trans ?_ (ih (bs.register b))
    rw [names_register]
    split
    · exact List.Subset.refl _
    · exact List.subset_append_left _ _

/-- After registrations, every name of the list is bound. -/
theorem mem_names_registerAll {l : List Binding} {bs : Bindings} {b : Binding} (h : b ∈ l) :
    b.name ∈ (bs.registerAll l).names := by
  induction l generalizing bs with
  | nil => cases h
  | cons c l ih =>
    rcases List.mem_cons.1 h with rfl | h
    · refine names_subset_registerAll l (bs.register b) ?_
      rw [names_register]
      split
      · assumption
      · simp
    · exact ih h

/-- A name is bound if some binding has it. -/
theorem mem_names {bs : Bindings} {name : String} :
    name ∈ bs.names ↔ ∃ b ∈ bs.entries, b.name = name := by
  simp [names]

end Bindings

/-- Only the empty list has no least string. -/
theorem leastString_eq_none {l : List String} : leastString l = none ↔ l = [] := by
  cases l with
  | nil => simp [leastString]
  | cons s l =>
    simp only [leastString]
    split
    · simp
    · split <;> simp

namespace Kernel

/-- The kernel without the bindings that its body does not touch. -/
def trimmed (k : Kernel) : Kernel :=
  { k with
    inputs := k.inputs.filter fun b => k.loads.contains b.name
    outputs := k.outputs.filter fun b => k.stores.contains b.name }

/-- A kernel whose body touches only bound names passes its check. -/
theorem checked_eq_ok {k : Kernel} (hloads : k.loads ⊆ k.inputs.names)
    (hstores : k.stores ⊆ k.outputs.names) : k.checked = .ok k.trimmed := by
  have hl : k.missingLoad = none := by
    unfold missingLoad
    rw [leastString_eq_none, List.filter_eq_nil_iff]
    intro name hn
    have := (Bindings.contains_iff k.inputs name).2 (hloads hn)
    simp [this]
  have hs : k.missingStore = none := by
    unfold missingStore
    rw [leastString_eq_none, List.filter_eq_nil_iff]
    intro name hn
    have := (Bindings.contains_iff k.outputs name).2 (hstores hn)
    simp [this]
  unfold checked
  rw [hl, hs]
  rfl

/-- Trimming keeps the body. -/
@[simp] theorem trimmed_body (k : Kernel) : k.trimmed.body = k.body := rfl

/-- Trimming keeps the size. -/
@[simp] theorem trimmed_size (k : Kernel) : k.trimmed.size = k.size := rfl

/-- Trimming keeps the label. -/
@[simp] theorem trimmed_label (k : Kernel) : k.trimmed.label = k.label := rfl

/-- The inputs that are left are those that the body loads. -/
theorem mem_trimmed_inputs {k : Kernel} {b : Binding} :
    b ∈ k.trimmed.inputs.entries ↔ b ∈ k.inputs.entries ∧ b.name ∈ k.loads := by
  simp [trimmed, Bindings.filter]

/-- The outputs that are left are those that the body stores. -/
theorem mem_trimmed_outputs {k : Kernel} {b : Binding} :
    b ∈ k.trimmed.outputs.entries ↔ b ∈ k.outputs.entries ∧ b.name ∈ k.stores := by
  simp [trimmed, Bindings.filter]

/-- What the body reads keeps its binding. -/
theorem loads_subset_trimmed {k : Kernel} (h : k.loads ⊆ k.inputs.names) :
    k.loads ⊆ k.trimmed.inputs.names := by
  intro name hname
  obtain ⟨b, hb, rfl⟩ := Bindings.mem_names.1 (h hname)
  exact Bindings.mem_names.2 ⟨b, mem_trimmed_inputs.2 ⟨hb, hname⟩, rfl⟩

/-- What the body writes keeps its binding. -/
theorem stores_subset_trimmed {k : Kernel} (h : k.stores ⊆ k.outputs.names) :
    k.stores ⊆ k.trimmed.outputs.names := by
  intro name hname
  obtain ⟨b, hb, rfl⟩ := Bindings.mem_names.1 (h hname)
  exact Bindings.mem_names.2 ⟨b, mem_trimmed_outputs.2 ⟨hb, hname⟩, rfl⟩

/-- Dropping what the body does not touch keeps the body scoped. -/
theorem trimmed_typed {kinds : String → ValueKind} {k : Kernel}
    (h : Stmt.BlockTyped kinds [] k.inputs.names k.outputs.names k.body) :
    Stmt.BlockTyped kinds [] k.trimmed.inputs.names k.trimmed.outputs.names k.trimmed.body :=
  ⟨h.inScope, loads_subset_trimmed h.loads, stores_subset_trimmed h.stores⟩

end Kernel

/-! ## Names of bindings -/

/-- Tensors with one binding name have one name. -/
theorem TensorDecl.bindingName_injective {d e : TensorDecl} (h : d.bindingName = e.bindingName) :
    d.name = e.name := by
  unfold bindingName at h
  cases hd : d.kind <;> cases he : e.kind <;> simp only [hd, he] at h
  · exact (String.append_right_inj "param_").1 h
  · have := congrArg (fun s : String => s.toList.head?) h
    simp [String.toList_append] at this
  · have := congrArg (fun s : String => s.toList.head?) h
    simp [String.toList_append] at this
  · exact (String.append_right_inj "input_").1 h

/-- The name of a tensor's buffer starts like no other name. -/
theorem TensorDecl.head?_bindingName (d : TensorDecl) :
    d.bindingName.toList.head? = some 'p' ∨ d.bindingName.toList.head? = some 'i' := by
  unfold bindingName
  cases d.kind <;> simp [String.toList_append]

/-- Names of masks start with an `m`. -/
theorem head?_maskName (i : Nat) : (Node.maskName i).toList.head? = some 'm' := by
  simp [Node.maskName, String.toList_append]

/-- Names of values start with a `v`. -/
theorem head?_varName (i : Nat) : (Node.varName i).toList.head? = some 'v' := by
  rw [toList_varName]
  rfl

/-- A tensor is determined by its name. -/
theorem Signature.eq_of_name {s : Signature} {t t' : Nat} {d d' : TensorDecl}
    (h : s.get? t = some d) (h' : s.get? t' = some d') (hname : d.name = d'.name) : t = t' := by
  have ht : (s.decls.map TensorDecl.name)[t]? = some d.name := by
    rw [List.getElem?_map]
    unfold Signature.get? at h
    rw [h]
    rfl
  have ht' : (s.decls.map TensorDecl.name)[t']? = some d.name := by
    rw [List.getElem?_map, hname]
    unfold Signature.get? at h'
    rw [h']
    rfl
  exact (List.getElem?_inj (List.getElem?_eq_some_iff.1 ht).1 s.nodup).1 (ht.trans ht'.symm)

namespace Layout

variable {l : Layout} {masks : Array MaskSite}

/-- A computed node is read through a buffer named after it. -/
theorem binding?_op {id : Nat} {op : Op} (hk : (l.node id).kind = .op op) :
    l.binding? id = some ⟨Node.varName id, (l.node id).size, .ownBuffer⟩ := by
  simp [binding?, Node.binding?, hk]

/-- A mask is read through its own buffer. -/
theorem binding?_mask {id i : Nat} (hk : (l.node id).kind = .mask i) :
    l.binding? id = some ⟨Node.maskName i, (l.node id).size, .mask i⟩ := by
  simp [binding?, Node.binding?, hk]

/-- A tensor is read through the buffer that all kernels share. -/
theorem binding?_tensor {id t : Nat} {d : TensorDecl} (hk : (l.node id).kind = .tensor t)
    (hd : l.signature.get? t = some d) :
    l.binding? id = some ⟨d.bindingName, d.size, .tensor t⟩ := by
  simp [binding?, Node.binding?, hk, hd]

/-- The leaf of a tensor has as many elements as were declared. -/
theorem Sound.size_tensor (h : l.Sound masks) {id t : Nat} (hid : id < l.nodes.size)
    (hk : (l.node id).kind = .tensor t) {d : TensorDecl} (hd : l.signature.get? t = some d) :
    (l.node id).size = d.size := by
  have hok := h.arena id _ (getElem?_nodeAt hid)
  simp only [NodeOk, show (nodeAt l.nodes id).kind = .tensor t from hk] at hok
  obtain ⟨-, -, d', hd', hshape⟩ := hok
  rw [hd, Option.some.injEq] at hd'
  subst hd'
  exact congrArg Shape.size hshape.symm

/-- What the binding of a node looks like. -/
theorem Sound.binding?_cases (h : l.Sound masks) {id : Nat} (hid : id < l.nodes.size) {b : Binding}
    (hb : l.binding? id = some b) :
    (∃ op, (l.node id).kind = .op op ∧ b = ⟨Node.varName id, (l.node id).size, .ownBuffer⟩) ∨
      (∃ i m, (l.node id).kind = .mask i ∧ masks[i]? = some m ∧ b = ⟨Node.maskName i, m.size, .mask i⟩) ∨
      (∃ t d, (l.node id).kind = .tensor t ∧ l.signature.get? t = some d ∧
        b = ⟨d.bindingName, d.size, .tensor t⟩) := by
  have hok := h.arena id _ (getElem?_nodeAt hid)
  unfold NodeOk at hok
  cases hk : (l.node id).kind with
  | op op =>
    rw [binding?_op hk, Option.some.injEq] at hb
    exact .inl ⟨op, rfl, hb.symm⟩
  | mask i =>
    have hk' : (nodeAt l.nodes id).kind = .mask i := hk
    simp only [hk'] at hok
    obtain ⟨-, -, -, m, hm, hsize⟩ := hok
    rw [binding?_mask hk, Option.some.injEq] at hb
    refine .inr (.inl ⟨i, m, rfl, hm, ?_⟩)
    rw [← hb, hsize]
    rfl
  | tensor t =>
    have hk' : (nodeAt l.nodes id).kind = .tensor t := hk
    simp only [hk'] at hok
    obtain ⟨-, -, d, hd, -⟩ := hok
    rw [binding?_tensor hk hd, Option.some.injEq] at hb
    exact .inr (.inr ⟨t, d, rfl, hd, hb.symm⟩)
  | constant x =>
    simp [binding?, Node.binding?, hk] at hb

/-- The name of a binding determines it. -/
theorem Sound.binding?_unique (h : l.Sound masks) {id id' : Nat} (hid : id < l.nodes.size)
    (hid' : id' < l.nodes.size) {b b' : Binding} (hb : l.binding? id = some b)
    (hb' : l.binding? id' = some b') (hname : b.name = b'.name) : b = b' := by
  have hhead := congrArg (fun s : String => s.toList.head?) hname
  rcases h.binding?_cases hid hb with ⟨op, -, rfl⟩ | ⟨i, m, -, hm, rfl⟩ | ⟨t, d, -, hd, rfl⟩ <;>
    rcases h.binding?_cases hid' hb' with
      ⟨op', -, rfl⟩ | ⟨i', m', -, hm', rfl⟩ | ⟨t', d', -, hd', rfl⟩ <;>
    simp only [head?_varName, head?_maskName] at hhead
  · obtain rfl := Node.varName_injective hname
    rfl
  · cases hhead
  · rcases d'.head?_bindingName with hc | hc <;> rw [hc] at hhead <;> cases hhead
  · cases hhead
  · obtain rfl := Node.maskName_injective hname
    rw [hm] at hm'
    cases hm'
    rfl
  · rcases d'.head?_bindingName with hc | hc <;> rw [hc] at hhead <;> cases hhead
  · rcases d.head?_bindingName with hc | hc <;> rw [hc] at hhead <;> cases hhead
  · rcases d.head?_bindingName with hc | hc <;> rw [hc] at hhead <;> cases hhead
  · obtain rfl := Signature.eq_of_name hd hd' (TensorDecl.bindingName_injective hname)
    rw [hd] at hd'
    cases hd'
    rfl

/-- A node is read from the buffer of its binding, or it is a constant. -/
theorem Sound.source_eq (h : l.Sound masks) {id : Nat} (hid : id < l.nodes.size) :
    (∃ x, (l.node id).kind = .constant x ∧ (l.node id).source l.signature id = .const x) ∨
      ∃ b, l.binding? id = some b ∧ (l.node id).source l.signature id = .buffer b.name := by
  have hok := h.arena id _ (getElem?_nodeAt hid)
  unfold NodeOk at hok
  cases hk : (l.node id).kind with
  | op op =>
    exact .inr ⟨_, binding?_op hk, by simp [Node.source, Node.binding?, hk]⟩
  | mask i =>
    exact .inr ⟨_, binding?_mask hk, by simp [Node.source, Node.binding?, hk]⟩
  | tensor t =>
    have hk' : (nodeAt l.nodes id).kind = .tensor t := hk
    simp only [hk'] at hok
    obtain ⟨-, -, d, hd, -⟩ := hok
    exact .inr ⟨_, binding?_tensor hk hd, by simp [Node.source, Node.binding?, hk, hd]⟩
  | constant x => exact .inl ⟨x, rfl, by simp [Node.source, hk]⟩

end Layout

end TensorKernels
