import TensorKernels.Proofs.Building
import TensorKernels.Proofs.Compilation
import TensorKernels.Proofs.Values

/-!
# Plans compute the value of their term

The plan of a compiled term, run on a machine that holds values for the tensors and masks, ends without
a failure, and the output it reads back is the value of the term. The property that is handed from
kernel to kernel is that the buffer of a node holds the node's value; what backward kernels write does
not matter for the output. Nothing is assumed about the buffers that the kernels own: the machine may
have run before.
-/

set_option autoImplicit false

namespace TensorKernels

variable {α : Type} (ops : Arithmetic α)

/-! ## Machines -/

namespace Machine

/-- Values by position are found at their position. -/
theorem find?_byPosition (values : List (Array α)) (i : Nat) :
    (byPosition values).find? i = values[i]? := by
  have hgen : ∀ (values : List (Array α)) (k : Nat),
      Table.lookup i (values.mapIdx fun j v => (k + j, v)) =
        if k ≤ i then values[i - k]? else none := by
    intro values
    induction values with
    | nil => simp [Table.lookup]
    | cons v values ih =>
      intro k
      rw [List.mapIdx_cons, Table.lookup, Nat.add_zero]
      have hstep : (values.mapIdx fun j v => (k + (j + 1), v)) =
          values.mapIdx fun j v => (k + 1 + j, v) := by
        refine List.mapIdx_eq_mapIdx_iff.2 ?_
        intro j _
        rw [show k + (j + 1) = k + 1 + j by omega]
      rw [hstep, ih (k + 1)]
      by_cases hk : k = i
      · subst hk
        simp
      · rw [if_neg hk]
        by_cases hle : k ≤ i
        · rw [if_pos hle, if_pos (by omega), show i - k = (i - (k + 1)) + 1 by omega]
          rfl
        · rw [if_neg hle, if_neg (by omega)]
  have := hgen values 0
  simpa [byPosition, Table.find?] using this

/-- The machines that a plan can be run on: started, written to and run in any order. -/
inductive Reached (plan : Plan) (tensorCount maskCount : Nat) : Machine α → Prop
  | start {tensors masks : List (Array α)} (ht : tensors.length = tensorCount)
      (hm : masks.length = maskCount) : Reached plan tensorCount maskCount (start ops plan tensors masks)
  | writeTensor {m : Machine α} (id : Nat) (data : Array α)
      (h : Reached plan tensorCount maskCount m) : Reached plan tensorCount maskCount (m.writeTensor id data)
  | writeMask {m : Machine α} (index : Nat) (data : Array α)
      (h : Reached plan tensorCount maskCount m) : Reached plan tensorCount maskCount (m.writeMask index data)
  | run {m m' : Machine α} {r : Readback α} {backward : Bool} (h : Reached plan tensorCount maskCount m)
      (hrun : run ops backward m = .ok r m') : Reached plan tensorCount maskCount m'

/-- The buffers of a started machine hold zeros. -/
theorem buffer?_start {p : Plan} (hp : p.Wired) (tensors masks : List (Array α)) {i : Nat} {k : Kernel}
    (hk : p.kernels[i]? = some k) {b : Binding} (hb : b ∈ Plan.ownedInputs k ∨ b ∈ k.outputs.entries) :
    (start ops p tensors masks).buffer? i b.name = some (zeros ops b.len) := by
  have hmem : k ∈ p.kernels := List.mem_of_getElem? hk
  have hown : b ∈ (k.inputs.entries ++ k.outputs.entries).filter fun b => b.source = .ownBuffer := by
    rw [List.mem_filter, List.mem_append, decide_eq_true_eq]
    rcases hb with hb | hb
    · obtain ⟨hin, hsource⟩ := List.mem_filter.1 hb
      exact ⟨.inl hin, by simpa using hsource⟩
    · exact ⟨.inr hb, hp.owns k hmem b hb⟩
  have hnodup : ((k.inputs.entries ++ k.outputs.entries).map Binding.name).Nodup := by
    rw [List.map_append, List.nodup_append]
    refine ⟨k.inputs.nodup, k.outputs.nodup, ?_⟩
    intro x hx y hy hxy
    obtain ⟨b, hb, rfl⟩ := List.mem_map.1 hx
    obtain ⟨b', hb', rfl⟩ := List.mem_map.1 hy
    exact hp.apart k hmem b hb b' hb' hxy
  have hkeys : ((((k.inputs.entries ++ k.outputs.entries).filter fun b => b.source = .ownBuffer).map
      fun b => (b.name, zeros ops b.len)).map Prod.fst).Nodup := by
    rw [List.map_map]
    exact hnodup.sublist (List.filter_sublist.map _)
  unfold buffer? Machine.start
  rw [List.getElem?_map, hk, Option.map_some, Option.bind_some]
  unfold initialBuffers
  rw [Table.find?_ofList hkeys]
  exact Table.lookup_eq_some_of_mem hkeys (List.mem_map.2 ⟨b, hown, rfl⟩)

/-- Started machines have buffers of the right lengths. -/
theorem Ready.start {p : Plan} (hp : p.Wired) (tensors masks : List (Array α))
    (P : String → Array α → Prop) :
    Ready p (byPosition tensors) (byPosition masks) P 0 (start ops p tensors masks) := by
  refine ⟨rfl, rfl, rfl, by simp [Machine.start], ?_, fun i hi => absurd hi (Nat.not_lt_zero i)⟩
  intro i k hk b hb
  exact ⟨zeros ops b.len, buffer?_start ops hp tensors masks hk hb, by simp [zeros]⟩

end Machine

namespace Layout

variable {l : Layout} {masks : Array MaskSite}

/-- Every declared tensor and every mask of a layout has a value. -/
structure Present (l : Layout) (masks : Array MaskSite) (tensors maskValues : Table Nat (Array α)) :
    Prop where
  tensor : ∀ t d, l.signature.get? t = some d → (tensors.find? t).isSome
  mask : ∀ (i : Nat) m, masks[i]? = some m → (maskValues.find? i).isSome

/-- An input from a tensor has the size of the declaration. -/
theorem Sound.tensor_input (h : l.Sound masks) {k : Kernel} (hk : k ∈ l.kernelList) {b : Binding}
    (hb : b ∈ k.inputs.entries) {t : Nat} (ht : b.source = .tensor t) :
    ∃ d, l.signature.get? t = some d ∧ b.len = d.size := by
  rcases h.kernelList_inputs hk hb with ⟨o, ho, hbind, -⟩ | ⟨p, -, rfl⟩
  · rcases h.binding?_cases ho hbind with ⟨op, -, rfl⟩ | ⟨i, m, -, -, rfl⟩ | ⟨t', d, -, hd, rfl⟩
    · cases ht
    · cases ht
    · cases ht
      exact ⟨d, hd, rfl⟩
  · cases ht

/-- An input from a mask has the size of the mask. -/
theorem Sound.mask_input (h : l.Sound masks) {k : Kernel} (hk : k ∈ l.kernelList) {b : Binding}
    (hb : b ∈ k.inputs.entries) {i : Nat} (hi : b.source = .mask i) :
    ∃ m, masks[i]? = some m ∧ b.len = m.size := by
  rcases h.kernelList_inputs hk hb with ⟨o, ho, hbind, -⟩ | ⟨p, -, rfl⟩
  · rcases h.binding?_cases ho hbind with ⟨op, -, rfl⟩ | ⟨i', m, -, hm, rfl⟩ | ⟨t, d, -, -, rfl⟩
    · cases hi
    · cases hi
      exact ⟨m, hm, rfl⟩
    · cases hi
  · cases hi

/-- Every kernel of a layout is scoped. -/
theorem Sound.kernelList_typed (h : l.Sound masks) {k : Kernel} (hk : k ∈ l.kernelList) :
    Stmt.BlockTyped localKind [] k.inputs.names k.outputs.names k.body := by
  rcases List.mem_append.1 hk with hk | hk
  · obtain ⟨c, -, rfl⟩ := List.mem_map.1 hk
    exact Kernel.trimmed_typed (h.forward_typed c)
  · obtain ⟨b, hb, rfl⟩ := List.mem_map.1 hk
    obtain ⟨c, hc⟩ := mem_backwardList.1 hb
    obtain ⟨_, hok⟩ := h.backward_ok_of_mem hc
    exact Kernel.trimmed_typed hok.typed

/-- A kernel runs where it meets its contract. -/
theorem Sound.runs (h : l.Sound masks) {tensors maskValues : Table Nat (Array α)}
    (hpresent : l.Present masks tensors maskValues) {P : String → Array α → Prop} {k : Kernel}
    (hk : k ∈ l.kernelList)
    (hmeets : k.Meets ops (Machine.Supplied tensors maskValues P) fun b data =>
      ∀ x, b.name = outputName x → P x data) : Machine.Runs ops tensors maskValues P k := by
  refine ⟨?_, ?_, hmeets⟩
  · intro b hb t ht
    obtain ⟨d, hd, -⟩ := h.tensor_input hk hb ht
    exact hpresent.tensor t d hd
  · intro b hb i hi
    obtain ⟨m, hm, -⟩ := h.mask_input hk hb hi
    exact hpresent.mask i m hm

/-- Whatever its buffers hold, a machine can be run. -/
theorem Sound.runs_scoped (h : l.Sound masks) {tensors maskValues : Table Nat (Array α)}
    (hpresent : l.Present masks tensors maskValues) {k : Kernel} (hk : k ∈ l.kernelList) :
    Machine.Runs ops tensors maskValues (fun _ _ => True) k :=
  h.runs ops hpresent hk ((Kernel.Meets.of_typed ops (h.kernelList_typed hk)).mono ops
    (fun _ _ _ _ => trivial) fun _ _ _ _ _ _ => trivial)

variable {ops}

/-- A machine that is reached has all leaves and buffers of the right lengths. -/
theorem Sound.ready_of_reached (h : l.Sound masks) {p : Plan} (hp : p.Wired)
    (hkernels : p.kernels = l.kernelList) {m : Machine α}
    (hm : Machine.Reached ops p l.signature.size masks.size m) :
    l.Present masks m.tensors m.masks ∧ m.Ready p m.tensors m.masks (fun _ _ => True) 0 := by
  induction hm with
  | @start tensors maskValues ht hm =>
    refine ⟨⟨?_, ?_⟩, .start ops hp tensors maskValues _⟩
    · intro t d hd
      show ((Machine.byPosition tensors).find? t).isSome
      rw [Machine.find?_byPosition, isSome_getElem?, ht]
      exact (List.getElem?_eq_some_iff.1 hd).1
    · intro i site hi
      show ((Machine.byPosition maskValues).find? i).isSome
      rw [Machine.find?_byPosition, isSome_getElem?, hm]
      exact (Array.getElem?_eq_some_iff.1 hi).1
  | @writeTensor m id data _ ih =>
    obtain ⟨hpresent, hready⟩ := ih
    refine ⟨⟨?_, hpresent.mask⟩, hready.restart _ _ _⟩
    intro t d hd
    show ((m.tensors.insert id data).find? t).isSome
    rw [Table.find?_insert]
    split
    · rfl
    · exact hpresent.tensor t d hd
  | @writeMask m index data _ ih =>
    obtain ⟨hpresent, hready⟩ := ih
    refine ⟨⟨hpresent.tensor, ?_⟩, hready.restart _ _ _⟩
    intro i site hi
    show ((m.masks.insert index data).find? i).isSome
    rw [Table.find?_insert]
    split
    · rfl
    · exact hpresent.mask i site hi
  | @run m m' r backward _ hrun ih =>
    obtain ⟨hpresent, hready⟩ := ih
    obtain ⟨r', m'', hrun', -, hready'⟩ := hready.run_spec hp backward fun i k _ hk =>
      h.runs_scoped ops hpresent (hkernels ▸ List.mem_of_getElem? hk)
    rw [hrun] at hrun'
    cases hrun'
    have hrestart := hready'.restart m'.tensors m'.masks fun _ _ => True
    rw [← hready'.tensors, ← hready'.masks] at hpresent
    exact ⟨hpresent, hrestart⟩

/-! ## Values of nodes in buffers -/

/-- The values of the leaves, as a machine has them. -/
def leavesOf (tensors maskValues : Table Nat (Array α)) : LeafValues α :=
  ⟨fun t => (tensors.find? t).getD #[], fun i => (maskValues.find? i).getD #[]⟩

/-- What a kernel is supplied with is the value of the node that it reads. -/
theorem Sound.holds_of_supplied (h : l.Sound masks) {tensors maskValues : Table Nat (Array α)}
    {P : String → Array α → Prop}
    (hread : ∀ id data, P (Node.varName id) data →
      data = (valueAt ops l.nodes (leavesOf tensors maskValues) id).data)
    {b : Binding} {data : Array α} (hdata : Machine.Supplied tensors maskValues P b data) :
    l.Holds ops (leavesOf tensors maskValues) b data := by
  intro id hid hb
  rcases h.binding?_cases hid hb with ⟨op, -, rfl⟩ | ⟨i, m, hk, -, rfl⟩ | ⟨t, d, hk, -, rfl⟩
  · exact hread id data hdata.1
  · have hfind : maskValues.find? i = some data := hdata
    have hk' : (nodeAt l.nodes id).kind = .mask i := hk
    rw [valueAt_mask ops hk']
    simp [leavesOf, hfind]
  · have hfind : tensors.find? t = some data := hdata
    have hk' : (nodeAt l.nodes id).kind = .tensor t := hk
    rw [valueAt_tensor ops hk']
    simp [leavesOf, hfind]

/-- A forward kernel runs, where buffers of nodes hold their values. -/
theorem Sound.forward_runs (h : l.Sound masks) {tensors maskValues : Table Nat (Array α)}
    (hpresent : l.Present masks tensors maskValues) {P : String → Array α → Prop}
    (hbound : ∀ id < l.nodes.size, (l.node id).size < 2 ^ 32)
    (hread : ∀ id data, P (Node.varName id) data →
      data = (valueAt ops l.nodes (leavesOf tensors maskValues) id).data)
    (hwrite : ∀ id, P (Node.varName id) (valueAt ops l.nodes (leavesOf tensors maskValues) id).data)
    {c : Nat} (hc : c ∈ l.order) :
    Machine.Runs ops tensors maskValues P (l.forwardKernel c).trimmed := by
  have hmem : (l.forwardKernel c).trimmed ∈ l.kernelList :=
    List.mem_append_left _ (List.mem_map.2 ⟨c, hc, rfl⟩)
  have hmeets : (l.forwardKernel c).trimmed.Meets ops (l.Holds ops (leavesOf tensors maskValues)) _ :=
    h.forward_meets hbound hc
  refine h.runs ops hpresent hmem (hmeets.mono ops ?_ ?_)
  · intro b _ data hdata
    exact h.holds_of_supplied hread hdata
  · intro b hb data hdata x hx
    obtain ⟨id, -, rfl⟩ := forward_outputs (Kernel.mem_trimmed_outputs.1 hb).1
    obtain rfl := outputName_injective hx
    rw [hdata id rfl]
    exact hwrite id

/-- A backward kernel runs, and writes no buffer of a node. -/
theorem Sound.backward_runs (h : l.Sound masks) {tensors maskValues : Table Nat (Array α)}
    (hpresent : l.Present masks tensors maskValues) {P : String → Array α → Prop}
    (hfree : ∀ x data, (∀ id, x ≠ Node.varName id) → P x data) {b : BackwardKernel}
    (hb : b ∈ l.backwardList) : Machine.Runs ops tensors maskValues P b.kernel.trimmed := by
  have hmem : b.kernel.trimmed ∈ l.kernelList :=
    List.mem_append_right _ (List.mem_map.2 ⟨b, hb, rfl⟩)
  refine h.runs ops hpresent hmem
    ((Kernel.Meets.of_typed ops (h.kernelList_typed hmem)).mono ops (fun _ _ _ _ => trivial) ?_)
  intro out hout data _ x hx
  obtain ⟨c, hc⟩ := mem_backwardList.1 hb
  obtain ⟨_, hok⟩ := h.backward_ok_of_mem hc
  have hout' := (Kernel.mem_trimmed_outputs.1 hout).1
  rw [hok.outputs] at hout'
  obtain ⟨p, hp, rfl⟩ := List.mem_map.1 hout'
  obtain rfl := outputName_injective hx
  obtain ⟨-, base, k, hname⟩ := hok.named p hp
  refine hfree p.name data fun id => ?_
  rw [hname]
  exact PartialBuffer.candidate_ne_varName base c k id

end Layout

/-! ## Runs of compiled plans -/

variable {signature : Signature} {root : Term} {shape : Shape} {plan : Plan} {id : Nat} {s : Lowering}

/-- A run of a compiled plan ends without a failure and reads the value of the root back. -/
theorem CompiledAs.run_output (h : CompiledAs signature root shape plan id s)
    (hfits : root.Fits signature) {m : Machine α}
    (hm : Machine.Reached ops plan signature.size s.masks.size m) (backward : Bool) :
    ∃ r m', Machine.run ops backward m = .ok r m' ∧
      r.output = (valueAt ops s.nodes (Layout.leavesOf m.tensors m.masks) id).data := by
  obtain ⟨hpresent, hready⟩ := h.sound.ready_of_reached h.wired h.kernels hm
  have hbound : ∀ x < s.nodes.size, ((Layout.ofRoot signature s.nodes id).node x).size < 2 ^ 32 :=
    fun x hx => h.lowered.size_lt hfits hx
  let P : String → Array α → Prop := fun x data => ∀ y, x = Node.varName y →
    data = (valueAt ops s.nodes (Layout.leavesOf m.tensors m.masks) y).data
  obtain ⟨r, m', hrun, hread, -⟩ :=
    (hready.restart m.tensors m.masks P).run_spec h.wired backward (by
      intro i k _ hk
      rw [h.kernels] at hk
      rcases List.mem_append.1 (List.mem_of_getElem? hk) with hk | hk
      · obtain ⟨c, hc, rfl⟩ := List.mem_map.1 hk
        refine h.sound.forward_runs hpresent hbound (fun y data hdata => hdata y rfl) ?_ hc
        intro y z hyz
        rw [Node.varName_injective hyz]
        rfl
      · obtain ⟨b, hb, rfl⟩ := List.mem_map.1 hk
        exact h.sound.backward_runs hpresent (fun x data hx y hy => absurd hy (hx y)) hb)
  exact ⟨r, m', hrun, hread.output (Node.varName id) h.output id rfl⟩

/-- The assignment has as many elements for every tensor as was declared, and for every dropout as its
argument has. -/
structure Assignment.Suits (signature : Signature) (root : Term) (env : Assignment α) : Prop where
  tensor : ∀ t d, signature.get? t = some d → (env.tensor t).size = d.size
  mask : ∀ site rate arg found, Term.apply site (.dropout rate) [arg] ∈ root.subterms →
    arg.infer signature = .ok found → (env.mask site).size = found.size

/-- The machine holds the values that an assignment gives to the tensors and to the dropout sites of a
term. -/
structure Machine.Carries (signature : Signature) (root : Term) (env : Assignment α) (m : Machine α) :
    Prop where
  tensor : ∀ t d, signature.get? t = some d → m.tensors.find? t = some (env.tensor t)
  mask : ∀ (i : Nat) site, root.dropoutSites[i]? = some site → m.masks.find? i = some (env.mask site)

/-- The node of the root, which may be wrapped in a reshape, has the value of the root. -/
theorem CompiledAs.eval_root (h : CompiledAs signature root shape plan id s) {env : Assignment α}
    (hsuits : ∀ t d, signature.get? t = some d → (env.tensor t).size = d.size)
    (leaves : LeafValues α)
    (htensor : ∀ t d, signature.get? t = some d → env.tensor t = leaves.tensor t)
    (hmask : ∀ (i : Nat) site, root.dropoutSites[i]? = some site → env.mask site = leaves.mask i) :
    ∃ value, root.eval ops signature env = .ok value ∧
      (valueAt ops s.nodes leaves id).data = value.data ∧ value.data.size = value.shape.size := by
  have harena : Arena signature s.masks s.nodes := h.sound.arena
  obtain ⟨base, hbase, hsize, hid⟩ := h.lowered.stands
  refine ⟨_, hbase.eval_eq ops harena htensor hmask, ?_⟩
  rw [shape_valueAt]
  rcases hid with rfl | ⟨hleaf, hkind, hoperands⟩
  · exact ⟨rfl, size_valueAt_of_isComputed ops leaves h.lowered.computed⟩
  · -- the root is a leaf, which has as many elements as its shape says
    have hdata : (valueAt ops s.nodes leaves base).data.size = (nodeAt s.nodes base).shape.size := by
      match root, hbase with
      | .constant x, hbase =>
        rw [Term.LoweredTo] at hbase
        obtain ⟨n, hn, hk⟩ := hbase
        have hshape : (valueAt ops s.nodes leaves base).shape = _ := shape_valueAt ops leaves base
        rw [valueAt_constant ops harena (lt_size_of_getElem? hn) (by rw [nodeAt_of_getElem? hn, hk])]
          at hshape ⊢
        rw [← hshape]
        rfl
      | .tensor t, hbase =>
        rw [Term.LoweredTo] at hbase
        obtain ⟨n, hn, hk⟩ := hbase
        have hok := harena base n hn
        simp only [NodeOk, hk] at hok
        obtain ⟨-, -, d, hd, hshape⟩ := hok
        rw [valueAt_tensor ops (by rw [nodeAt_of_getElem? hn, hk]), nodeAt_of_getElem? hn, ← hshape,
          ← htensor t d hd]
        exact hsuits t d hd
      | .apply site op args, hbase =>
        rw [Term.LoweredTo] at hbase
        obtain ⟨n, ids, hn, hk, -⟩ := hbase
        simp [Lowering.node_eq, Node.isComputed, nodeAt_of_getElem? hn, hk] at hleaf
    refine ⟨?_, hdata⟩
    rw [Lowering.node_eq] at hkind hoperands hsize
    rw [valueAt_op ops harena h.lowered.lt_size hkind, hoperands]
    have hcount : (valueAt ops s.nodes leaves base).data.size = (nodeAt s.nodes id).shape.size :=
      hdata.trans (hsize.trans h.lowered.size_eq.symm)
    exact Flat.ofFn_entry ops hcount

/-- Running the plan of a compiled term, for training or not, gives the value of the term: the run ends
without a failure, whatever was run and written before, and what it reads back is the array that the
evaluation of the term on flat arrays gives, operation for operation. -/
theorem run_compiled_eq_eval (hroot : root.Built)
    (hplan : (compile signature root shape).plan = .ok plan) (hfits : root.Fits signature)
    {env : Assignment α} (hsuits : env.Suits signature root) {m : Machine α}
    (hm : Machine.Reached ops plan signature.size root.dropoutSites.length m)
    (hcarries : m.Carries signature root env) (backward : Bool) :
    ∃ value r m', root.eval ops signature env = .ok value ∧ Machine.run ops backward m = .ok r m' ∧
      r.output = value.data ∧ r.output.size = value.shape.size := by
  obtain ⟨id, s, -, hcompiled⟩ := compiledAs_of_ok hroot hplan
  rw [← hcompiled.lowered.inv.count] at hm
  obtain ⟨r, m', hrun, houtput⟩ := hcompiled.run_output ops hfits hm backward
  obtain ⟨value, hvalue, hdata, hsize⟩ :=
    hcompiled.eval_root ops hsuits.tensor (Layout.leavesOf m.tensors m.masks)
      (by
        intro t d hd
        simp [Layout.leavesOf, hcarries.tensor t d hd])
      (by
        intro i site hi
        simp [Layout.leavesOf, hcarries.mask i site hi])
  refine ⟨value, r, m', hvalue, hrun, houtput.trans hdata, ?_⟩
  rw [houtput, hdata, hsize]

/-- Values for the tensors of the layer and for its only dropout site. -/
def layerValues : Assignment Float32 where
  tensor
    | 0 => #[1.0, 2.0, 3.0, 4.0, 5.0, 6.0]
    | 1 => #[0.5, 1.5, -0.5, 2.5, 1.0, -1.0]
    | _ => #[0.25, -0.25]
  mask _ := #[2.0, 0.0, 2.0, 0.0]

/-- The layer runs as it evaluates. -/
theorem run_layer_eq_eval :
    ∃ plan value r m', (compile layerSignature layerTerm [2, 2]).plan = .ok plan ∧
      layerTerm.eval .binary32 layerSignature layerValues = .ok value ∧
      Machine.run .binary32 true (Machine.start .binary32 plan
        [layerValues.tensor 0, layerValues.tensor 1, layerValues.tensor 2] [layerValues.mask 3]) =
          .ok r m' ∧
      r.output = value.data ∧ r.output.size = value.shape.size := by
  obtain ⟨plan, hplan⟩ := exists_layer_plan
  refine ⟨plan, ?_⟩
  have hsuits : layerValues.Suits layerSignature layerTerm := by
    refine ⟨?_, ?_⟩
    · intro t d hd
      match t, hd with
      | 0, hd => cases hd; rfl
      | 1, hd => cases hd; rfl
      | 2, hd => cases hd; rfl
    · intro site rate arg found hmem hfound
      simp only [layerTerm, layerSum, Term.subterms, Term.allSubterms, List.append_nil,
        List.cons_append, List.nil_append, List.mem_cons, List.not_mem_nil, or_false,
        Term.apply.injEq, reduceCtorEq, false_and, and_false, false_or, Op.dropout.injEq, List.cons.injEq,
        and_true] at hmem
      obtain ⟨-, -, rfl⟩ := hmem
      cases hfound
      rfl
  have hcarries : (Machine.start .binary32 plan
      [layerValues.tensor 0, layerValues.tensor 1, layerValues.tensor 2]
      [layerValues.mask 3]).Carries layerSignature layerTerm layerValues := by
    refine ⟨?_, ?_⟩
    · intro t d hd
      match t, hd with
      | 0, _ => rfl
      | 1, _ => rfl
      | 2, _ => rfl
    · intro i site hi
      rw [layerTerm_dropoutSites] at hi
      cases i with
      | zero => rfl
      | succ i => cases hi
  obtain ⟨value, r, m', hvalue, hrun, houtput⟩ :=
    run_compiled_eq_eval .binary32 layerTerm_built hplan layerTerm_fits hsuits
      (.start rfl rfl) hcarries true
  exact ⟨value, r, m', hplan, hvalue, hrun, houtput⟩

end TensorKernels
