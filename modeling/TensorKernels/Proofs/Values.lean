import TensorKernels.Proofs.Lowering

/-!
# Values of nodes

The value of a node is computed from the values of its operands, which come before it. The node that
stands for a term has the term's value (`Term.LoweredTo.eval_eq`): sharing and the numbering of masks
make no difference.
-/

set_option autoImplicit false

namespace TensorKernels

variable {α : Type} (ops : Arithmetic α)

/-- Values for the leaves of an arena: tensors and masks by number. -/
structure LeafValues (α : Type) where
  tensor : Nat → Array α
  mask : Nat → Array α

/-- The value of a node. -/
def valueAt (nodes : Array Node) (leaves : LeafValues α) (id : Nat) : Flat α :=
  let n := nodeAt nodes id
  match n.kind with
  | .constant x => ⟨n.shape, #[ops.lit x]⟩
  | .tensor t => ⟨n.shape, leaves.tensor t⟩
  | .mask i => ⟨n.shape, leaves.mask i⟩
  | .op op =>
    op.result ops n.shape (n.operands.map fun o =>
      (o.2, if o.1 < id then valueAt nodes leaves o.1 else ⟨[1], #[ops.zero]⟩))
termination_by id

variable {signature : Signature} {masks : Array MaskSite} {nodes : Array Node}

/-- The value of a constant. -/
theorem valueAt_constant (harena : Arena signature masks nodes) {leaves : LeafValues α} {id : Nat}
    {x : Float32} (hid : id < nodes.size) (hk : (nodeAt nodes id).kind = .constant x) :
    valueAt ops nodes leaves id = ⟨[1], #[ops.lit x]⟩ := by
  have hok := harena id _ (getElem?_nodeAt hid)
  simp only [NodeOk, hk] at hok
  rw [valueAt]
  simp only [hk, hok.2.2]

/-- The value of a tensor. -/
theorem valueAt_tensor {leaves : LeafValues α} {id t : Nat}
    (hk : (nodeAt nodes id).kind = .tensor t) :
    valueAt ops nodes leaves id = ⟨(nodeAt nodes id).shape, leaves.tensor t⟩ := by
  rw [valueAt]
  simp only [hk]

/-- The value of a mask. -/
theorem valueAt_mask {leaves : LeafValues α} {id i : Nat} (hk : (nodeAt nodes id).kind = .mask i) :
    valueAt ops nodes leaves id = ⟨(nodeAt nodes id).shape, leaves.mask i⟩ := by
  rw [valueAt]
  simp only [hk]

/-- The value of an operator's node is the operator's result on the values of its operands. -/
theorem valueAt_op (harena : Arena signature masks nodes) {leaves : LeafValues α} {id : Nat}
    {op : Op} (hid : id < nodes.size) (hk : (nodeAt nodes id).kind = .op op) :
    valueAt ops nodes leaves id =
      op.result ops (nodeAt nodes id).shape
        ((nodeAt nodes id).operands.map fun o => (o.2, valueAt ops nodes leaves o.1)) := by
  rw [valueAt]
  simp only [hk]
  congr 1
  refine List.map_congr_left fun o ho => ?_
  rw [if_pos ((harena.opNode (getElem?_nodeAt hid) hk).operand_lt o ho)]

/-- The value of a node has its shape. -/
@[simp] theorem shape_valueAt (leaves : LeafValues α) (id : Nat) :
    (valueAt ops nodes leaves id).shape = (nodeAt nodes id).shape := by
  rw [valueAt]
  cases (nodeAt nodes id).kind <;> rfl

/-- An element of the result of an operator. -/
theorem Op.entry_result (op : Op) {shape : Shape} (operands : List (Access × Flat α)) {i : Nat}
    (hi : i < shape.size) : (op.result ops shape operands).entry ops i = op.element ops operands i := by
  simp [Flat.entry, Op.result, Array.getD, hi]

/-- A tensor is the array of its elements. -/
theorem Flat.ofFn_entry {x : Flat α} {n : Nat} (h : x.data.size = n) :
    (Array.ofFn fun j : Fin n => x.entry ops j) = x.data := by
  subst h
  refine Array.ext (by simp) ?_
  intro j _ _
  simp [Flat.entry, Array.getD]

/-- A computed value has as many elements as its shape says, whatever the leaves are. -/
theorem size_valueAt_of_isComputed (leaves : LeafValues α) {id : Nat}
    (h : (nodeAt nodes id).isComputed) :
    (valueAt ops nodes leaves id).data.size = (nodeAt nodes id).size := by
  rw [valueAt]
  unfold Node.isComputed at h
  cases hk : (nodeAt nodes id).kind with
  | op op => simp [Op.result, Node.size]
  | constant x => simp [hk] at h
  | tensor t => simp [hk] at h
  | mask i => simp [hk] at h

namespace Term

variable {sites : List Nat}

/-- The operands of a node have the values that its operator is applied to. -/
theorem operandValues_eq {leaves : LeafValues α} {env : Assignment α}
    (hmask : ∀ (i : Nat) site, sites[i]? = some site → env.mask site = leaves.mask i) {op : Op}
    {n : Node} {id site : Nat} {ids : List Nat} (hok : OpNodeOk masks nodes id op n)
    (hops : op.OperandsOf nodes sites site ids (n.operands.map Prod.fst)) :
    op.operandValues (ids.map fun id => valueAt ops nodes leaves id) (env.mask site) =
      n.operands.map fun o => valueAt ops nodes leaves o.1 := by
  have hmap : n.operands.map (fun o => valueAt ops nodes leaves o.1) =
      (n.operands.map Prod.fst).map fun o => valueAt ops nodes leaves o := by
    rw [List.map_map]
    rfl
  rw [hmap]
  cases op
  case dropout rate =>
    obtain ⟨-, x, a, m, b, i, hxm, hk, hshape, -⟩ := hok.mask rate rfl
    obtain ⟨m', n', i', hids, hm', hk', hi'⟩ := hops
    rw [hxm] at hids
    obtain ⟨rfl, rfl⟩ : ids = [x] ∧ m' = m := by
      match ids, hids with
      | [y], hids =>
        simp only [List.map_cons, List.map_nil, List.singleton_append, List.cons.injEq, and_true]
          at hids
        exact ⟨by rw [hids.1], hids.2.symm⟩
      | [], hids => simp at hids
      | _ :: _ :: _, hids => simp at hids
    rw [nodeAt_of_getElem? hm'] at hk
    obtain rfl : i = i' := by
      rw [hk] at hk'
      cases hk'
      rfl
    have hmval : valueAt ops nodes leaves m' = _ :=
      valueAt_mask ops (by rw [nodeAt_of_getElem? hm', hk])
    rw [hxm]
    simp only [Op.operandValues, List.map_cons, List.map_nil, List.headD_cons, List.singleton_append,
      hmval, hmask i site hi', shape_valueAt, hshape]
  all_goals
    simp only [Op.OperandsOf] at hops
    rw [hops]
    rfl

mutual

/-- A lowered term has the value of its node. -/
theorem LoweredTo.eval_eq (harena : Arena signature masks nodes) {leaves : LeafValues α}
    {env : Assignment α}
    (htensor : ∀ t d, signature.get? t = some d → env.tensor t = leaves.tensor t)
    (hmask : ∀ (i : Nat) site, sites[i]? = some site → env.mask site = leaves.mask i) (t : Term)
    (id : Nat) (h : LoweredTo nodes sites t id) :
    t.eval ops signature env = .ok (valueAt ops nodes leaves id) := by
  match t with
  | .constant value =>
    rw [LoweredTo] at h
    obtain ⟨n, hn, hk⟩ := h
    rw [eval, valueAt_constant ops harena (lt_size_of_getElem? hn) (by rw [nodeAt_of_getElem? hn, hk])]
  | .tensor x =>
    rw [LoweredTo] at h
    obtain ⟨n, hn, hk⟩ := h
    have hok := harena id n hn
    simp only [NodeOk, hk] at hok
    obtain ⟨-, -, d, hd, hshape⟩ := hok
    rw [eval, valueAt_tensor ops (by rw [nodeAt_of_getElem? hn, hk]), nodeAt_of_getElem? hn, ← hshape,
      ← htensor x d hd]
    simp only [Signature.get, hd, Except.map]
  | .apply site op args =>
    rw [LoweredTo] at h
    obtain ⟨n, ids, hn, hk, hargs, hops⟩ := h
    have hok := harena.opNode hn hk
    have hnode := nodeAt_of_getElem? hn
    have hshapes : (ids.map fun id => valueAt ops nodes leaves id).map Flat.shape =
        ids.map fun id => (nodeAt nodes id).shape := by
      rw [List.map_map]
      exact List.map_congr_left fun id _ => shape_valueAt ops leaves id
    rw [eval, AllLoweredTo.evalAll_eq harena htensor hmask args ids hargs,
      valueAt_op ops harena (lt_size_of_getElem? hn) (by rw [hnode, hk]), hnode]
    simp only [bind, Except.bind, hshapes, operandShapes_eq hok hops, hok.inferCounted_eq,
      operandValues_eq ops hmask hok hops, List.zip_map']

/-- Terms evaluate to the values of their nodes. -/
theorem AllLoweredTo.evalAll_eq (harena : Arena signature masks nodes) {leaves : LeafValues α}
    {env : Assignment α}
    (htensor : ∀ t d, signature.get? t = some d → env.tensor t = leaves.tensor t)
    (hmask : ∀ (i : Nat) site, sites[i]? = some site → env.mask site = leaves.mask i)
    (ts : List Term) (ids : List Nat) (h : AllLoweredTo nodes sites ts ids) :
    evalAll ops signature env ts = .ok (ids.map fun id => valueAt ops nodes leaves id) := by
  match ts with
  | [] =>
    rw [AllLoweredTo] at h
    rw [evalAll, h]
    rfl
  | t :: rest =>
    rw [AllLoweredTo] at h
    obtain ⟨id, ids', rfl, ht, hrest⟩ := h
    rw [evalAll, LoweredTo.eval_eq harena htensor hmask t id ht,
      AllLoweredTo.evalAll_eq harena htensor hmask rest ids' hrest]
    rfl

end

end Term

end TensorKernels
