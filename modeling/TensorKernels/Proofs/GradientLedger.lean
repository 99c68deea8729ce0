import TensorKernels.Proofs.BackwardShares
import TensorKernels.Proofs.Refinement

/-!
# The ledger of partial buffers

Every partial buffer of the backward pass is entered in a ledger with the share that it should hold
(`Layout.ledger`). The entries of one owner add up to what the contexts of the pass hand back to it, none
left out and none entered twice (`Layout.Sound.sum_ledger`). So a backward kernel whose inputs hold what
their names stand for (`Layout.Delivers`) is fed with the complete gradients of its nodes
(`Layout.Sound.fed`), and its partial buffers then hold what they are entered with
(`Layout.Sound.backward_delivers`).
-/

set_option autoImplicit false

namespace TensorKernels

/-! ## What seeds load -/

/-- Folding a partial buffer reads it. -/
theorem Access.mem_loads_foldInto (a : Access) (acc source : String) (element : Expr)
    (loopVar : String) : source ∈ Stmt.blockLoads (a.foldInto acc source element loopVar) := by
  cases a <;> simp [foldInto, Stmt.blockLoads, Stmt.loads, Stmt.accumulate, Expr.loads]

/-- A seed loads every incoming partial buffer. -/
theorem mem_loads_seedCode {incoming : List PartialBuffer} {p : PartialBuffer} (hp : p ∈ incoming)
    (name : String) (isRoot : Bool) (position : Expr) (loopVar : String) :
    p.name ∈ Stmt.blockLoads (seedCode name isRoot incoming position loopVar) := by
  obtain ⟨j, hj, rfl⟩ := List.mem_iff_getElem.1 hp
  unfold seedCode
  rw [Stmt.blockLoads, List.mem_append, ← List.flatMap_id]
  refine .inr (Stmt.mem_blockLoads_flatMap (List.mem_mapIdx.2 ⟨j, hj, rfl⟩) ?_)
  exact Access.mem_loads_foldInto _ _ _ _ _

/-- The gradient code of a reduction has a seed in it. -/
theorem Op.exists_seed {op : Op} (hred : op.opClass = .reduction) (i : Nat) (r : ReductionFrame) :
    ∃ name position loopVar, Stmt.blockLoads (r.seed name position loopVar) ⊆
      Stmt.blockLoads (op.reductionGradient i r).1 := by
  cases op with
  | matmul =>
    have hloop : ∀ (name : String) (count : Nat) (seed rest : List Stmt) (a b d : Stmt),
        Stmt.blockLoads seed ⊆ Stmt.blockLoads [a, b, d, .forLoop name count (seed ++ rest)] := by
      intro name count seed rest a b d x hx
      simp [Stmt.blockLoads, Stmt.loads, hx]
    exact ⟨r.localName "g", _, r.localName "f", hloop _ _ _ _ _ _ _⟩
  | fold f axis => exact ⟨r.localName "g", _, r.localName "f", List.Subset.refl _⟩
  | softmax =>
    refine ⟨r.localName "gi", .index, r.localName "fi", fun x hx => ?_⟩
    simp only [reductionGradient, softmaxGradient, Stmt.blockLoads_append, List.mem_append]
    exact .inl (.inr hx)
  | _ => cases hred

namespace Layout

variable {α : Type} [AddCommMonoid α] {ops : Arithmetic α} {l : Layout} {leaves : LeafValues α}
  {masks : Array MaskSite} {partials : List PartialBuffer} {c : Nat}

/-- A backward kernel loads every partial buffer that comes in for its nodes. -/
theorem Sound.mem_loads_of_incoming (h : l.Sound masks) {b : BackwardKernel}
    (hb : l.backwardKernel partials c = some b) {id : Nat} (hid : id ∈ l.members c) {p : PartialBuffer}
    (hp : p ∈ incoming partials id) : p.name ∈ b.kernel.loads := by
  have hsome : b.partials ≠ [] := by
    intro hnil
    have hentries := (h.backwardKernel_ok hb).outputs
    obtain ⟨-, hne⟩ := Option.filter_eq_some_iff.1 hb
    simp [Bindings.isEmpty, hentries, hnil] at hne
  rcases h.backwardKernel_cases hb with ⟨hreg, rfl⟩ | ⟨id', op, hid', hop, hred, rfl⟩
  · show _ ∈ Stmt.blockLoads (_ :: (l.seeds partials (l.members c) ++ _ ++ _ ++ _))
    simp only [Stmt.blockLoads, Stmt.blockLoads_append, List.mem_append]
    refine .inr (.inl (.inl (.inl (Stmt.mem_blockLoads_flatMap hid ?_))))
    exact mem_loads_seedCode hp _ _ _ _
  · -- every block of a reduction has a seed, and there is a block for every partial buffer
    have hclass : (l.node id').opClass = .reduction := by simpa [Node.opClass, hop] using hred
    rw [h.alone id' c hid' hclass, List.mem_singleton] at hid
    subst hid
    obtain ⟨hbody, htargets⟩ := reductionBackward_body (l := l) partials c id op
    obtain ⟨q, hq⟩ := List.exists_mem_of_ne_nil _ hsome
    obtain ⟨k, hk⟩ := List.mem_iff_getElem?.1 hq
    obtain ⟨t, ht, -⟩ := getElem?_of_forall₂ htargets.flip hk
    have hmem : (t, q) ∈ (l.reductionTargets c (l.node id).operands.zipIdx).zip
        (l.reductionBackward partials c id op).partials :=
      List.mem_of_getElem? (List.getElem?_zip_eq_some.2 ⟨ht, hk⟩)
    unfold Kernel.loads
    rw [hbody, ← List.flatMap_singleton' (List.map _ _)]
    refine Stmt.mem_blockLoads_flatMap (List.mem_map.2 ⟨(t, q), hmem, rfl⟩) ?_
    obtain ⟨name, position, loopVar, hseed⟩ :=
      Op.exists_seed hred t.2.1 (l.reductionFrame partials id t.2.1)
    have hload := hseed (mem_loads_seedCode hp name _ position loopVar)
    simp [gradientBlock, Stmt.blockLoads, Stmt.loads, hload]

/-! ## Entries -/

/-- The partial buffers of a context have the owners of its shares. Where there is nothing to
differentiate there are no shares. -/
theorem Sound.shares_owners (h : l.Sound masks) (hc : c ∈ l.order) (partials : List PartialBuffer) :
    List.Forall₂ (fun (p : PartialBuffer) (e : Owner × (Nat → α)) => p.owner = e.1)
      ((l.backwardKernel partials c).elim [] BackwardKernel.partials) (l.shares ops leaves c) := by
  have hdraft : ∀ b, l.BackwardOk partials c b →
      ((some b).filter fun b => !b.kernel.outputs.isEmpty).elim [] BackwardKernel.partials =
        b.partials := by
    intro b hok
    by_cases hempty : b.kernel.outputs.isEmpty = true
    · have hnil : b.partials = [] := by simpa [Bindings.isEmpty, hok.outputs] using hempty
      rw [hnil, Option.filter_some, if_neg (by simp [hempty])]
      rfl
    · rw [Option.filter_some, if_pos (by simp [hempty])]
      rfl
  obtain ⟨id, hid⟩ := (h.mem_order c).1 hc
  unfold backwardKernel shares
  cases hclass : l.classOf c with
  | regular =>
    dsimp only
    rw [hdraft _ (h.regularBackward_ok partials hclass), List.forall₂_map_right_iff]
    exact (layOut_spec c (l.sizeOf c) (l.contextKeys c)).2.flip.imp fun _ _ hp => hp.1
  | reduction =>
    obtain ⟨op, hop⟩ := Node.exists_op_of_isComputed (h.home_lt id c hid).2
    have hred := (h.classOf_eq id c hid).symm.trans hclass
    have hred' : op.opClass = .reduction := by simpa [Node.opClass, hop] using hred
    rw [h.alone id c hid hred]
    simp only [hop, List.flatMap_singleton]
    rw [hdraft _ (h.reductionBackward_ok partials hid hop hred'), List.forall₂_map_right_iff]
    exact (reductionBackward_body partials c id op).2.flip.imp fun _ _ hp => hp.1

variable (ops leaves) in
/-- The partial buffers that a part of the backward pass writes, each with the share that it should
hold. -/
def ledger (l : Layout) (es : List (Nat × Option BackwardKernel)) :
    List (PartialBuffer × Owner × (Nat → α)) :=
  es.flatMap fun e => (e.2.elim [] BackwardKernel.partials).zip (l.shares ops leaves e.1)

variable (ops leaves) in
/-- The partial buffers of a backward kernel and the shares of its context have the same owners, in
order. -/
theorem Sound.pass_owners (h : l.Sound masks) {e : Nat × Option BackwardKernel}
    (he : e ∈ l.backwardKernels) :
    List.Forall₂ (fun (p : PartialBuffer) (e : Owner × (Nat → α)) => p.owner = e.1)
      (e.2.elim [] BackwardKernel.partials) (l.shares ops leaves e.1) := by
  obtain ⟨es₁, es₂, hsplit⟩ := List.append_of_mem he
  rw [backwardPass_split hsplit]
  exact h.shares_owners (mem_order_of_mem_backwardKernels he) _

/-- The entries of the ledger are the partial buffers of backward kernels, each with its share. -/
theorem mem_ledger {es : List (Nat × Option BackwardKernel)} {e : PartialBuffer × Owner × (Nat → α)} :
    e ∈ l.ledger ops leaves es ↔
      ∃ c b, (c, some b) ∈ es ∧ e ∈ b.partials.zip (l.shares ops leaves c) := by
  unfold ledger
  rw [List.mem_flatMap]
  constructor
  · rintro ⟨⟨c, ob⟩, he, hmem⟩
    cases ob with
    | none => cases hmem
    | some b => exact ⟨c, b, he, hmem⟩
  · rintro ⟨c, b, he, hmem⟩
    exact ⟨(c, some b), he, hmem⟩

variable (ops leaves) in
/-- Every partial buffer is entered once. -/
theorem Sound.map_fst_ledger (h : l.Sound masks) {es : List (Nat × Option BackwardKernel)}
    (hes : es ⊆ l.backwardKernels) : (l.ledger ops leaves es).map Prod.fst = passPartials es := by
  unfold ledger passPartials
  rw [List.map_flatMap]
  exact List.flatMap_congr fun e he =>
    List.map_fst_zip (h.pass_owners ops leaves (hes he)).length_eq.le

/-- The entries of one owner add up to what the contexts hand back to it. -/
theorem Sound.sum_ledger (h : l.Sound masks) (hops : ops.Sums) (honce : l.LeavesOnce)
    {es : List (Nat × Option BackwardKernel)} (hes : es ⊆ l.backwardKernels) {w : Owner} {o : Nat}
    (ho : o < l.nodes.size) (howns : l.Owns w o) (hout : ∀ e ∈ es, l.home o ≠ some e.1) (j : Nat) :
    (((l.ledger ops leaves es).filter fun e => e.1.owner = w).map fun e => e.2.2 j).sum =
      (es.map fun e => l.contextInflow ops leaves e.1 o j).sum := by
  unfold ledger
  rw [List.filter_flatMap, List.map_flatMap, List.flatMap_def, List.sum_flatten, List.map_map]
  refine congrArg List.sum (List.map_congr_left fun e he => ?_)
  rw [← h.sum_shares hops honce ho howns (hout e he) j]
  show ((((e.2.elim [] BackwardKernel.partials).zip (l.shares ops leaves e.1)).filter fun e =>
    e.1.owner = w).map fun e => e.2.2 j).sum = _
  have howners := h.pass_owners ops leaves (hes he)
  -- an entry has the owner of its share
  have hfilter : ((e.2.elim [] BackwardKernel.partials).zip (l.shares ops leaves e.1)).filter
        (fun e => e.1.owner = w) =
      ((e.2.elim [] BackwardKernel.partials).zip (l.shares ops leaves e.1)).filter
        ((fun e => decide (e.1 = w)) ∘ Prod.snd) := by
    refine List.filter_congr fun x hx => ?_
    rw [(List.forall₂_iff_zip.1 howners).2 hx]
    rfl
  rw [hfilter, ← List.map_snd_zip howners.length_eq.ge, List.filter_map, List.map_map,
    List.map_snd_zip howners.length_eq.ge]
  rfl

/-- The entries of a parameter add up to the gradient of its leaf. -/
theorem Sound.sum_ledger_parameter (h : l.Sound masks) (hops : ops.Sums) (honce : l.LeavesOnce)
    {t o : Nat} (ho : o < l.nodes.size) (howns : l.Owns (.parameter t) o) (j : Nat) :
    (((l.ledger ops leaves l.backwardKernels).filter fun e => e.1.owner = .parameter t).map
      fun e => e.2.2 j).sum = l.gradient ops leaves o j := by
  have hleaf : (l.node o).isComputed = false := by simp [Node.isComputed, howns.1]
  have hout : ∀ c, l.home o ≠ some c := by
    intro c hc
    rw [(h.home_lt o c hc).2] at hleaf
    cases hleaf
  have hroot : o ≠ l.root := by
    rintro rfl
    rw [h.root_computed] at hleaf
    cases hleaf
  have hfst : l.order = (l.backwardKernels.map Prod.fst).reverse := by
    rw [map_fst_backwardKernels, List.reverse_reverse]
  rw [h.sum_ledger hops honce (List.Subset.refl _) ho howns (fun e _ => hout e.1) j, h.gradient_eq,
    if_neg hroot, hops.zero, zero_add, hfst, List.map_reverse, List.sum_reverse, List.map_map]
  rfl

/-! ## What names stand for -/

variable (ops leaves) in
/-- The data is what its name stands for: the value of a node, or what a partial buffer is entered
with. -/
structure Delivers (l : Layout) (x : String) (data : Array α) : Prop where
  value : ∀ id, x = Node.varName id → data = (valueAt ops l.nodes leaves id).data
  share : ∀ e ∈ l.ledger ops leaves l.backwardKernels, x = e.1.name → l.Conveys ops e data

/-- The value of a node is what its name stands for. -/
theorem Sound.delivers_value (h : l.Sound masks) (id : Nat) :
    l.Delivers ops leaves (Node.varName id) (valueAt ops l.nodes leaves id).data := by
  refine ⟨?_, ?_⟩
  · intro id' heq
    rw [Node.varName_injective heq]
  · intro e he heq
    obtain ⟨c, b, hb, hmem⟩ := mem_ledger.1 he
    obtain ⟨base, c', k, hk⟩ := h.partial_name (mem_passPartials.2 ⟨c, b, hb, (List.of_mem_zip hmem).1⟩)
    rw [hk] at heq
    exact absurd heq.symm (PartialBuffer.candidate_ne_varName base c' k id)

omit [AddCommMonoid α] in
/-- What a backward kernel reads under a name that it loads. -/
theorem BackwardOk.exists_input {b : BackwardKernel} (hok : l.BackwardOk partials c b)
    {inputs : Buffers α} {In : Binding → Array α → Prop}
    (hin : ∀ x ∈ b.kernel.trimmed.inputs.entries, ∃ data, inputs.find? x.name = some data ∧ In x data)
    {name : String} (hname : name ∈ b.kernel.loads) :
    ∃ x data, x.name = name ∧ ((∃ p ∈ partials, x = p.binding) ∨ l.HandedOut x) ∧
      inputs.find? name = some data ∧ In x data := by
  obtain ⟨x, hx, rfl⟩ := Bindings.mem_names.1 (hok.typed.loads hname)
  obtain ⟨data, hdata, hIn⟩ := hin x (Kernel.mem_trimmed_inputs.2 ⟨hx, hname⟩)
  exact ⟨x, data, rfl, hok.inputs x hx, hdata, hIn⟩

section Inputs

variable {es₁ es₂ : List (Nat × Option BackwardKernel)} {b : BackwardKernel}
  {tensors maskValues : Table Nat (Array α)} {inputs : Buffers α}

/-- An incoming partial buffer is there, and holds what it is entered with. -/
theorem Sound.exists_incoming (h : l.Sound masks)
    (hsplit : l.backwardKernels = es₁ ++ (c, some b) :: es₂)
    (hin : ∀ x ∈ b.kernel.trimmed.inputs.entries, ∃ data, inputs.find? x.name = some data ∧
      Machine.Supplied tensors maskValues (l.Delivers ops (leavesOf tensors maskValues)) x data)
    {id : Nat} (hid : id ∈ l.members c) {p : PartialBuffer} (hp : p ∈ incoming (passPartials es₁) id) :
    ∃ data, inputs.find? p.name = some data ∧ data.size = p.len ∧
      ∀ e ∈ l.ledger ops (leavesOf tensors maskValues) l.backwardKernels, p.name = e.1.name →
        l.Conveys ops e data := by
  have hpartials : passPartials es₁ ⊆ passPartials l.backwardKernels :=
    passPartials_subset (hsplit ▸ List.subset_append_left _ _)
  have hkernel : l.backwardKernel (passPartials es₁) c = some b := (backwardPass_split hsplit).symm
  have hmem := hpartials (List.mem_filter.1 hp).1
  obtain ⟨x, data, hname, hx, hdata, hsupplied⟩ :=
    (h.backward_ok hsplit).exists_input hin (h.mem_loads_of_incoming hkernel hid hp)
  rcases hx with ⟨p', hp', rfl⟩ | ⟨o, ho, hbind, -⟩
  · obtain rfl := h.partial_unique (hpartials hp') hmem hname
    exact ⟨data, hdata, hsupplied.2, hsupplied.1.share⟩
  · exact absurd hname (h.binding_name_ne_candidate ho hbind hmem)

/-- What comes in for a node of a context is what the contexts after it hand back. -/
theorem Sound.sum_incoming (h : l.Sound masks) (honce : l.LeavesOnce) (hops : ops.Sums)
    (hsplit : l.backwardKernels = es₁ ++ (c, some b) :: es₂)
    (hin : ∀ x ∈ b.kernel.trimmed.inputs.entries, ∃ data, inputs.find? x.name = some data ∧
      Machine.Supplied tensors maskValues (l.Delivers ops (leavesOf tensors maskValues)) x data)
    {id j : Nat} (hid : id ∈ l.members c) (hj : j < (l.node id).size) :
    ((incoming (passPartials es₁) id).map fun p =>
      p.access.folded (fun i => ((inputs.find? p.name).getD #[]).getD i ops.zero) j).sum =
      (es₁.map fun e => l.contextInflow ops (leavesOf tensors maskValues) e.1 id j).sum := by
  have hsub : es₁ ⊆ l.backwardKernels := hsplit ▸ List.subset_append_left _ _
  have hhome := (h.mem_members c id).1 hid
  obtain ⟨hlt, hcomp⟩ := h.home_lt id c hhome
  have hout : ∀ e ∈ es₁, l.home id ≠ some e.1 := by
    intro e he heq
    have hnodup := h.order_nodup
    rw [order_eq_of_split hsplit, List.nodup_append, List.nodup_cons] at hnodup
    rw [hhome, Option.some.injEq] at heq
    exact hnodup.2.1.1 (List.mem_reverse.2 (heq ▸ List.mem_map_of_mem he))
  rw [← h.sum_ledger hops honce hsub hlt (w := .node id) ⟨rfl, hcomp⟩ hout j, incoming,
    ← h.map_fst_ledger ops (leavesOf tensors maskValues) hsub, List.filter_map, List.map_map]
  refine congrArg List.sum (List.map_congr_left fun e he => ?_)
  obtain ⟨hmem, howner⟩ := List.mem_filter.1 he
  have howner : e.1.owner = .node id := of_decide_eq_true howner
  have hp : e.1 ∈ incoming (passPartials es₁) id := by
    refine List.mem_filter.2 ⟨?_, decide_eq_true howner⟩
    rw [← h.map_fst_ledger ops (leavesOf tensors maskValues) hsub]
    exact List.mem_map_of_mem hmem
  obtain ⟨data, hdata, -, hconveys⟩ := h.exists_incoming hsplit hin hid hp
  have hentered : e ∈ l.ledger ops (leavesOf tensors maskValues) l.backwardKernels := by
    obtain ⟨c', b', hb', he'⟩ := mem_ledger.1 hmem
    exact mem_ledger.2 ⟨c', b', hsub hb', he'⟩
  show e.1.access.folded (fun i => ((inputs.find? e.1.name).getD #[]).getD i ops.zero) j = _
  rw [hdata]
  exact hconveys e hentered rfl id hlt (howner ▸ ⟨rfl, hcomp⟩) j hj

/-- A backward kernel whose inputs hold what their names stand for is fed with complete gradients. -/
theorem Sound.fed (h : l.Sound masks) (honce : l.LeavesOnce)
    (hbound : ∀ id < l.nodes.size, (l.node id).size < 2 ^ 32) (hops : ops.Sums)
    (hsplit : l.backwardKernels = es₁ ++ (c, some b) :: es₂)
    (hin : ∀ x ∈ b.kernel.trimmed.inputs.entries, ∃ data, inputs.find? x.name = some data ∧
      Machine.Supplied tensors maskValues (l.Delivers ops (leavesOf tensors maskValues)) x data) :
    l.Fed ops (leavesOf tensors maskValues) (passPartials es₁) c b.kernel.loads inputs := by
  have hpartials : passPartials es₁ ⊆ passPartials l.backwardKernels :=
    passPartials_subset (hsplit ▸ List.subset_append_left _ _)
  refine ⟨?_, ?_, ?_⟩
  · intro o ho x hx hload
    obtain ⟨x', data, hname, hx', hdata, hsupplied⟩ := (h.backward_ok hsplit).exists_input hin hload
    rcases hx' with ⟨p, hp, rfl⟩ | ⟨o', ho', hbind, -⟩
    · exact absurd hname.symm (h.binding_name_ne_candidate ho hx (hpartials hp))
    · obtain rfl := h.binding?_unique ho ho' hx hbind hname.symm
      rw [hdata, h.holds_of_supplied (fun id data hdata => hdata.value id rfl) hsupplied o ho hx]
  · intro id hid p hp
    obtain ⟨data, hdata, hsize, -⟩ := h.exists_incoming hsplit hin hid hp
    obtain ⟨-, hcovers, hlen⟩ := h.incoming_covers hbound hpartials hp
    exact ⟨data, hdata, hsize ▸ hcovers, hsize ▸ hlen⟩
  · intro id hid j hj
    rw [seedIn, h.sum_incoming honce hops hsplit hin hid hj,
      h.gradient_split (order_eq_of_split hsplit) ((h.mem_members c id).1 hid), List.map_reverse,
      List.sum_reverse, List.map_map]
    rfl

end Inputs

/-- A backward kernel whose inputs hold what their names stand for writes what its partial buffers are
entered with. -/
theorem Sound.backward_delivers (h : l.Sound masks) (honce : l.LeavesOnce)
    (hbound : ∀ id < l.nodes.size, (l.node id).size < 2 ^ 32) (hops : ops.Sums) {b : BackwardKernel}
    (hb : b ∈ l.backwardList) {tensors maskValues : Table Nat (Array α)} :
    b.kernel.trimmed.Meets ops
      (Machine.Supplied tensors maskValues (l.Delivers ops (leavesOf tensors maskValues)))
      fun out data => ∀ x, out.name = outputName x →
        l.Delivers ops (leavesOf tensors maskValues) x data := by
  obtain ⟨c, hc⟩ := mem_backwardList.1 hb
  obtain ⟨es₁, es₂, hsplit⟩ := List.append_of_mem hc
  have hok := h.backward_ok hsplit
  have hkernel : l.backwardKernel (passPartials es₁) c = some b := (backwardPass_split hsplit).symm
  have hsize := h.size_lt_of_mem_kernelList (by decide) hbound
    (List.mem_append_right _ (List.mem_map.2 ⟨b, hb, rfl⟩))
  refine (h.backward_meets honce hbound hops (mem_order_of_mem_backwardKernels hc) hkernel hsize
    fun inputs hin => h.fed honce hbound hops hsplit hin).mono ops (fun _ _ _ hdata => hdata) ?_
  intro out hout data hconveys x hx
  have hout' := (Kernel.mem_trimmed_outputs.1 hout).1
  rw [hok.outputs] at hout'
  obtain ⟨p, hp, rfl⟩ := List.mem_map.1 hout'
  obtain rfl := outputName_injective hx
  refine ⟨?_, ?_⟩
  · intro id heq
    obtain ⟨base, c', k, hk⟩ := h.partial_name (mem_passPartials.2 ⟨c, b, hc, hp⟩)
    rw [hk] at heq
    exact absurd heq (PartialBuffer.candidate_ne_varName base c' k id)
  · intro e he heq
    obtain ⟨c', b', hb', hmem⟩ := mem_ledger.1 he
    obtain ⟨rfl, rfl⟩ := h.kernel_unique hc hp hb' (List.of_mem_zip hmem).1 heq
    exact hconveys e hmem (congrArg outputName heq)

end Layout

end TensorKernels
