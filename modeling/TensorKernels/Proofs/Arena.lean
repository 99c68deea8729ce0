import Mathlib.Logic.Relation
import TensorKernels.Proofs.Inference

/-!
# Arenas of nodes

A lowering keeps its nodes in an array. `Arena` says that the array is well formed: operands come
before the nodes that read them and know their readers, shapes and accesses are the inferred ones,
the stage of a node follows from its operands, and the mask of a dropout has the shape of the operand
it multiplies. Nodes are only ever added, and an old node only gains readers (`NodesExtend`), so what
was true of a node stays true.

`Term.LoweredTo` relates a term to the node that stands for it.
-/

set_option autoImplicit false

namespace TensorKernels

/-- A node, or a leaf with one element where there is none. -/
def nodeAt (nodes : Array Node) (id : Nat) : Node := nodes.getD id (.leaf (.constant 0.0) [1])

/-- The node at a position that exists. -/
theorem nodeAt_of_getElem? {nodes : Array Node} {id : Nat} {n : Node} (h : nodes[id]? = some n) :
    nodeAt nodes id = n := by
  simp [nodeAt, Array.getD_eq_getD_getElem?, h]

/-- Only positions below the size can be read. -/
theorem lt_size_of_getElem? {β : Type} {xs : Array β} {i : Nat} {x : β} (h : xs[i]? = some x) :
    i < xs.size := (Array.getElem?_eq_some_iff.1 h).1

/-- Below the size, reading gives the node. -/
theorem getElem?_nodeAt {nodes : Array Node} {id : Nat} (h : id < nodes.size) :
    nodes[id]? = some (nodeAt nodes id) := by
  simp [nodeAt, Array.getD_eq_getD_getElem?, h]

/-- The node of a lowering is that of its array. -/
theorem Lowering.node_eq (s : Lowering) (id : Nat) : s.node id = nodeAt s.nodes id := rfl

/-- Everything about a node that is fixed when it is made: all but its readers. -/
def Node.core (n : Node) : Node := { n with consumers := [] }

namespace Node

variable {n n' : Node}

/-- The core determines the kind. -/
theorem kind_of_core (h : n'.core = n.core) : n'.kind = n.kind :=
  show n'.core.kind = n.core.kind by rw [h]

/-- The core determines the operands. -/
theorem operands_of_core (h : n'.core = n.core) : n'.operands = n.operands :=
  show n'.core.operands = n.core.operands by rw [h]

/-- The core determines the shape. -/
theorem shape_of_core (h : n'.core = n.core) : n'.shape = n.shape :=
  show n'.core.shape = n.core.shape by rw [h]

/-- The core determines the stage. -/
theorem stage_of_core (h : n'.core = n.core) : n'.stage = n.stage :=
  show n'.core.stage = n.core.stage by rw [h]

/-- The core determines the stage that a node forces on its readers. -/
theorem operandStage_of_core (h : n'.core = n.core) (c : OpClass) (a : Access) :
    Lowering.operandStage n' c a = Lowering.operandStage n c a := by
  unfold Lowering.operandStage Node.isComputed Node.opClass
  rw [kind_of_core h, stage_of_core h]

end Node

/-! ## Growing arrays -/

/-- The second array has all nodes of the first; they may have gained readers. -/
def NodesExtend (nodes nodes' : Array Node) : Prop :=
  ∀ (id : Nat) (n : Node), nodes[id]? = some n →
    ∃ n' : Node, nodes'[id]? = some n' ∧ n'.core = n.core ∧ n.consumers ⊆ n'.consumers

namespace NodesExtend

variable {nodes nodes' nodes'' : Array Node}

/-- An array extends itself. -/
theorem refl (nodes : Array Node) : NodesExtend nodes nodes :=
  fun _ n hn => ⟨n, hn, rfl, List.Subset.refl _⟩

/-- Extensions compose. -/
theorem trans (h : NodesExtend nodes nodes') (h' : NodesExtend nodes' nodes'') :
    NodesExtend nodes nodes'' := by
  intro id n hn
  obtain ⟨n', hn', hcore, hsub⟩ := h id n hn
  obtain ⟨n'', hn'', hcore', hsub'⟩ := h' id n' hn'
  exact ⟨n'', hn'', hcore'.trans hcore, List.Subset.trans hsub hsub'⟩

/-- Adding a node at the end extends the array. -/
theorem push (nodes : Array Node) (n : Node) : NodesExtend nodes (nodes.push n) := by
  intro id m hm
  have hlt := lt_size_of_getElem? hm
  refine ⟨m, ?_, rfl, List.Subset.refl _⟩
  rw [Array.getElem?_push, if_neg (by omega), hm]

/-- An extension is not shorter. -/
theorem size_le (h : NodesExtend nodes nodes') : nodes.size ≤ nodes'.size := by
  by_contra hlt
  have hlt : nodes'.size < nodes.size := by omega
  obtain ⟨n', hn', -, -⟩ := h nodes'.size _ (getElem?_nodeAt hlt)
  have := lt_size_of_getElem? hn'
  omega

/-- An old node keeps its core. -/
theorem core_eq (h : NodesExtend nodes nodes') {id : Nat} (hid : id < nodes.size) :
    (nodeAt nodes' id).core = (nodeAt nodes id).core := by
  obtain ⟨n', hn', hcore, -⟩ := h id _ (getElem?_nodeAt hid)
  rwa [nodeAt_of_getElem? hn']

/-- An old node keeps its readers. -/
theorem consumers_subset (h : NodesExtend nodes nodes') {id : Nat} (hid : id < nodes.size) :
    (nodeAt nodes id).consumers ⊆ (nodeAt nodes' id).consumers := by
  obtain ⟨n', hn', -, hsub⟩ := h id _ (getElem?_nodeAt hid)
  rwa [nodeAt_of_getElem? hn']

/-- After one node was added, a node is the new one or was there before. -/
theorem last_or_old (h : NodesExtend nodes nodes') (hsize : nodes'.size = nodes.size + 1) {id : Nat}
    {n : Node} (hn : nodes'[id]? = some n) :
    id = nodes.size ∨ ∃ m, nodes[id]? = some m ∧ n.core = m.core := by
  by_cases hid : id < nodes.size
  · have hcore := h.core_eq hid
    rw [nodeAt_of_getElem? hn] at hcore
    exact .inr ⟨_, getElem?_nodeAt hid, hcore⟩
  · have := lt_size_of_getElem? hn
    exact .inl (by omega)

end NodesExtend

namespace Lowering

/-- Noting a reader adds no node. -/
theorem size_addConsumer (nodes : Array Node) (consumer : Nat) (operands : List Nat) :
    (addConsumer nodes consumer operands).size = nodes.size := by
  unfold addConsumer
  induction operands generalizing nodes with
  | nil => rfl
  | cons o operands ih => rw [List.foldl_cons, ih, Array.size_modify]

/-- Noting a reader extends the array: nodes only gain readers. -/
theorem addConsumer_extends (nodes : Array Node) (consumer : Nat) (operands : List Nat) :
    NodesExtend nodes (addConsumer nodes consumer operands) := by
  unfold addConsumer
  induction operands generalizing nodes with
  | nil => exact NodesExtend.refl nodes
  | cons o operands ih =>
    refine NodesExtend.trans ?_ (ih _)
    intro id n hn
    by_cases ho : o = id
    · subst ho
      refine ⟨{ n with consumers := n.consumers ++ [consumer] }, ?_, rfl, by simp⟩
      rw [Array.getElem?_modify, if_pos rfl, hn]
      rfl
    · exact ⟨n, by rw [Array.getElem?_modify, if_neg ho, hn], rfl, List.Subset.refl _⟩

/-- Every operand learns about its new reader. -/
theorem mem_consumers_addConsumer {nodes : Array Node} {consumer o : Nat} {operands : List Nat}
    (ho : o ∈ operands) (hlt : o < nodes.size) :
    consumer ∈ (nodeAt (addConsumer nodes consumer operands) o).consumers := by
  induction operands generalizing nodes with
  | nil => cases ho
  | cons p operands ih =>
    have hstep : addConsumer nodes consumer (p :: operands) =
        addConsumer (nodes.modify p fun n => { n with consumers := n.consumers ++ [consumer] })
          consumer operands := rfl
    rw [hstep]
    by_cases hp : p = o
    · subst hp
      have hext := addConsumer_extends
        (nodes.modify p fun n => { n with consumers := n.consumers ++ [consumer] }) consumer operands
      refine hext.consumers_subset (by rwa [Array.size_modify]) ?_
      have hget : (nodes.modify p fun n => { n with consumers := n.consumers ++ [consumer] })[p]? =
          some { nodeAt nodes p with consumers := (nodeAt nodes p).consumers ++ [consumer] } := by
        rw [Array.getElem?_modify, if_pos rfl, getElem?_nodeAt hlt]
        rfl
      rw [nodeAt_of_getElem? hget]
      simp
    · rcases List.mem_cons.1 ho with ho | ho
      · exact absurd ho.symm hp
      · exact ih ho (by rwa [Array.size_modify])

end Lowering

/-! ## Well-formed arenas -/

/-- The node at `id`, which stands for an operator, fits its operands. -/
structure OpNodeOk (masks : Array MaskSite) (nodes : Array Node) (id : Nat) (op : Op) (n : Node) :
    Prop where
  operand_lt : ∀ o ∈ n.operands, o.1 < id
  arity : n.operands.length = op.arity
  inferred : op.infer (n.operands.map fun o => (nodeAt nodes o.1).shape) =
    .ok ⟨n.shape, n.operands.map Prod.snd⟩
  countable : n.shape.isCountable
  stage : n.stage = n.operands.foldl
    (fun stage o => max stage (Lowering.operandStage (nodeAt nodes o.1) op.opClass o.2)) 0
  consumer : ∀ o ∈ n.operands, id ∈ (nodeAt nodes o.1).consumers
  /-- The second operand of a dropout is a mask of its rate and of the shape of the first. -/
  mask : ∀ rate, op = .dropout rate → Lowering.isDropoutRate rate ∧
    ∃ x a m b i, n.operands = [(x, a), (m, b)] ∧ (nodeAt nodes m).kind = .mask i ∧
      (nodeAt nodes m).shape = (nodeAt nodes x).shape ∧
      masks[i]? = some ⟨rate, (nodeAt nodes x).size⟩

/-- The node at `id` fits the declared tensors, the masks and the nodes before it. -/
def NodeOk (signature : Signature) (masks : Array MaskSite) (nodes : Array Node) (id : Nat)
    (n : Node) : Prop :=
  match n.kind with
  | .constant _ => n.operands = [] ∧ n.stage = 0 ∧ n.shape = [1]
  | .tensor t =>
    n.operands = [] ∧ n.stage = 0 ∧ ∃ d, signature.get? t = some d ∧ d.shape = n.shape
  | .mask i => n.operands = [] ∧ n.stage = 0 ∧ n.shape.isCountable ∧
    ∃ m, masks[i]? = some m ∧ m.size = n.size
  | .op op => OpNodeOk masks nodes id op n

/-- Every node is well formed. -/
def Arena (signature : Signature) (masks : Array MaskSite) (nodes : Array Node) : Prop :=
  ∀ id n, nodes[id]? = some n → NodeOk signature masks nodes id n

variable {signature : Signature} {masks masks' : Array MaskSite} {nodes nodes' : Array Node}

/-- A well-formed node stays so when nodes, readers and masks are added. -/
theorem NodeOk.mono {id : Nat} {n n' : Node} (h : NodeOk signature masks nodes id n)
    (hid : id < nodes.size) (hcore : n'.core = n.core) (hext : NodesExtend nodes nodes')
    (hmasks : ∀ (i : Nat) m, masks[i]? = some m → masks'[i]? = some m) :
    NodeOk signature masks' nodes' id n' := by
  have hkind := Node.kind_of_core hcore
  have hops := Node.operands_of_core hcore
  have hshape := Node.shape_of_core hcore
  have hstage := Node.stage_of_core hcore
  unfold NodeOk at h ⊢
  rw [hkind]
  cases hk : n.kind with
  | constant x => simpa [hk, hops, hshape, hstage] using h
  | tensor t => simpa [hk, hops, hshape, hstage] using h
  | mask i =>
    simp only [hk] at h
    obtain ⟨ho, hs, hcount, m, hm, hsize⟩ := h
    exact ⟨hops.trans ho, hstage.trans hs, hshape ▸ hcount, m, hmasks i m hm,
      by rw [hsize, Node.size, Node.size, hshape]⟩
  | op op =>
    simp only [hk] at h
    have hnode : ∀ o ∈ n.operands, (nodeAt nodes' o.1).core = (nodeAt nodes o.1).core := fun o ho =>
      hext.core_eq (Nat.lt_trans (h.operand_lt o ho) hid)
    constructor
    case operand_lt =>
      intro o ho
      exact h.operand_lt o (hops ▸ ho)
    case arity =>
      rw [hops]
      exact h.arity
    case inferred =>
      rw [hops, hshape, ← h.inferred]
      congr 1
      exact List.map_congr_left fun o ho => Node.shape_of_core (hnode o ho)
    case countable =>
      rw [hshape]
      exact h.countable
    case stage =>
      rw [hstage, hops, h.stage]
      refine List.foldl_ext _ _ _ fun stage o ho => ?_
      rw [Node.operandStage_of_core (hnode o ho)]
    case consumer =>
      intro o ho
      rw [hops] at ho
      exact hext.consumers_subset (Nat.lt_trans (h.operand_lt o ho) hid) (h.consumer o ho)
    case mask =>
      intro rate hrate
      obtain ⟨hr, x, a, m, b, i, hxm, hm, hs, hi⟩ := h.mask rate hrate
      have hx := hnode (x, a) (by simp [hxm])
      have hm' := hnode (m, b) (by simp [hxm])
      refine ⟨hr, x, a, m, b, i, hops.trans hxm, ?_, ?_, ?_⟩
      · rw [Node.kind_of_core hm', hm]
      · rw [Node.shape_of_core hm', Node.shape_of_core hx, hs]
      · rw [Node.size, Node.shape_of_core hx]
        exact hmasks i _ hi

/-- An arena stays well formed when well-formed nodes are added. -/
theorem Arena.extend (h : Arena signature masks nodes) (hext : NodesExtend nodes nodes')
    (hmasks : ∀ (i : Nat) m, masks[i]? = some m → masks'[i]? = some m)
    (hnew : ∀ id n, nodes'[id]? = some n → nodes.size ≤ id → NodeOk signature masks' nodes' id n) :
    Arena signature masks' nodes' := by
  intro id n' hn'
  by_cases hid : id < nodes.size
  · obtain ⟨n'', hn'', hcore, -⟩ := hext id _ (getElem?_nodeAt hid)
    obtain rfl : n' = n'' := by simpa [hn'] using hn''
    exact (h id _ (getElem?_nodeAt hid)).mono hid hcore hext hmasks
  · exact hnew id n' hn' (by omega)

/-- An arena stays well formed when one well-formed node is added. -/
theorem Arena.addNode (h : Arena signature masks nodes) (hext : NodesExtend nodes nodes')
    (hmasks : ∀ (i : Nat) m, masks[i]? = some m → masks'[i]? = some m)
    (hsize : nodes'.size = nodes.size + 1) {n : Node} (hn : nodes'[nodes.size]? = some n)
    (hok : NodeOk signature masks' nodes' nodes.size n) : Arena signature masks' nodes' := by
  refine h.extend hext hmasks ?_
  intro id m hm hid
  have := lt_size_of_getElem? hm
  obtain rfl : id = nodes.size := by omega
  obtain rfl : m = n := by simpa [hm] using hn
  exact hok

/-- The well-formedness of an operator's node. -/
theorem Arena.opNode (h : Arena signature masks nodes) {id : Nat} {n : Node} {op : Op}
    (hn : nodes[id]? = some n) (hk : n.kind = .op op) : OpNodeOk masks nodes id op n := by
  have hok := h id n hn
  simpa only [NodeOk, hk] using hok

/-- The elements of every node can be counted. -/
theorem Arena.isCountable (h : Arena signature masks nodes) {id : Nat} (hid : id < nodes.size) :
    (nodeAt nodes id).shape.isCountable := by
  have hok := h id _ (getElem?_nodeAt hid)
  unfold NodeOk at hok
  cases hk : (nodeAt nodes id).kind with
  | constant x =>
    simp only [hk] at hok
    rw [hok.2.2]
    rfl
  | tensor t =>
    simp only [hk] at hok
    obtain ⟨-, -, d, hd, hshape⟩ := hok
    rw [← hshape]
    exact signature.countable d (List.mem_of_getElem? hd)
  | mask i =>
    simp only [hk] at hok
    exact hok.2.2.1
  | op op =>
    simp only [hk] at hok
    exact hok.countable

/-- The shape of a node is that of its operator, and its elements can be counted. -/
theorem OpNodeOk.inferCounted_eq {id : Nat} {op : Op} {n : Node} (h : OpNodeOk masks nodes id op n) :
    op.inferCounted (n.operands.map fun o => (nodeAt nodes o.1).shape) =
      .ok ⟨n.shape, n.operands.map Prod.snd⟩ :=
  Op.inferCounted_eq h.inferred h.countable

/-- A leaf has no operands. -/
theorem Arena.operands_leaf {signature : Signature} {masks : Array MaskSite} {nodes : Array Node}
    (h : Arena signature masks nodes) {id : Nat} (hid : id < nodes.size)
    (hleaf : (nodeAt nodes id).isComputed = false) : (nodeAt nodes id).operands = [] := by
  have hok := h id _ (getElem?_nodeAt hid)
  unfold NodeOk at hok
  unfold Node.isComputed at hleaf
  cases hk : (nodeAt nodes id).kind with
  | op op => simp [hk] at hleaf
  | tensor t =>
    simp only [hk] at hok
    exact hok.1
  | mask i =>
    simp only [hk] at hok
    exact hok.1
  | constant x =>
    simp only [hk] at hok
    exact hok.1

/-- Only a computed node has operands. -/
theorem Arena.isComputed_of_mem (h : Arena signature masks nodes) {id : Nat} (hid : id < nodes.size)
    {o : Nat × Access} (ho : o ∈ (nodeAt nodes id).operands) : (nodeAt nodes id).isComputed = true := by
  by_contra hleaf
  rw [h.operands_leaf hid (Bool.eq_false_iff.2 hleaf)] at ho
  cases ho

/-! ## Terms and their nodes -/

/-- The operands of a node, from the nodes of its arguments: a dropout also reads its mask, whose
index is the position of its call site. -/
def Op.OperandsOf (nodes : Array Node) (sites : List Nat) (site : Nat) (ids operands : List Nat) :
    Op → Prop
  | .dropout _ => ∃ m n i, operands = ids ++ [m] ∧ nodes[m]? = some n ∧ n.kind = .mask i ∧
      sites[i]? = some site
  | _ => operands = ids

/-- The arguments come first. -/
theorem Op.OperandsOf.initial {sites : List Nat} {site : Nat} {ids operands : List Nat} {op : Op}
    (h : op.OperandsOf nodes sites site ids operands) : ids <+: operands := by
  cases op
  case dropout rate =>
    obtain ⟨m, n, i, rfl, -⟩ := h
    exact List.prefix_append _ _
  all_goals
    simp only [Op.OperandsOf] at h
    subst h
    exact List.prefix_refl _

namespace Term

mutual

/-- The node stands for the term. `sites` lists the dropout sites by the index of their mask. -/
def LoweredTo (nodes : Array Node) (sites : List Nat) : Term → Nat → Prop
  | .constant value, id => ∃ n, nodes[id]? = some n ∧ n.kind = .constant value
  | .tensor t, id => ∃ n, nodes[id]? = some n ∧ n.kind = .tensor t
  | .apply site op args, id => ∃ n ids, nodes[id]? = some n ∧ n.kind = .op op ∧
      AllLoweredTo nodes sites args ids ∧
      op.OperandsOf nodes sites site ids (n.operands.map Prod.fst)

/-- The nodes stand for the terms. -/
def AllLoweredTo (nodes : Array Node) (sites : List Nat) : List Term → List Nat → Prop
  | [], ids => ids = []
  | t :: rest, ids => ∃ id ids', ids = id :: ids' ∧ LoweredTo nodes sites t id ∧
      AllLoweredTo nodes sites rest ids'

end

/-- There are as many nodes as terms. -/
theorem AllLoweredTo.length_eq {sites : List Nat} {ts : List Term} {ids : List Nat}
    (h : AllLoweredTo nodes sites ts ids) : ids.length = ts.length := by
  induction ts generalizing ids with
  | nil =>
    rw [AllLoweredTo] at h
    simp [h]
  | cons t ts ih =>
    rw [AllLoweredTo] at h
    obtain ⟨id, ids', rfl, -, hrest⟩ := h
    simp [ih hrest]

/-- The node of a term exists. -/
theorem LoweredTo.lt_size {sites : List Nat} {t : Term} {id : Nat}
    (h : LoweredTo nodes sites t id) : id < nodes.size := by
  cases t <;> rw [LoweredTo] at h
  · obtain ⟨n, hn, -⟩ := h
    exact lt_size_of_getElem? hn
  · obtain ⟨n, hn, -⟩ := h
    exact lt_size_of_getElem? hn
  · obtain ⟨n, ids, hn, -⟩ := h
    exact lt_size_of_getElem? hn

/-- The nodes of terms are in the array. -/
theorem AllLoweredTo.lt_size {sites : List Nat} {ts : List Term} {ids : List Nat}
    (h : AllLoweredTo nodes sites ts ids) : ∀ id ∈ ids, id < nodes.size := by
  induction ts generalizing ids with
  | nil =>
    rw [AllLoweredTo] at h
    simp [h]
  | cons t ts ih =>
    rw [AllLoweredTo] at h
    obtain ⟨id, ids', rfl, ht, hrest⟩ := h
    intro x hx
    rcases List.mem_cons.1 hx with rfl | hx
    · exact ht.lt_size
    · exact ih hrest x hx

/-- Every node of the list stands for one of the terms. -/
theorem AllLoweredTo.exists_of_mem {sites : List Nat} {ts : List Term} {ids : List Nat}
    (h : AllLoweredTo nodes sites ts ids) {id : Nat} (hid : id ∈ ids) :
    ∃ t ∈ ts, LoweredTo nodes sites t id := by
  induction ts generalizing ids with
  | nil =>
    rw [AllLoweredTo] at h
    rw [h] at hid
    cases hid
  | cons t ts ih =>
    rw [AllLoweredTo] at h
    obtain ⟨id', ids', rfl, ht, hrest⟩ := h
    rcases List.mem_cons.1 hid with rfl | hid
    · exact ⟨t, List.mem_cons_self, ht⟩
    · obtain ⟨u, hu, hlow⟩ := ih hrest hid
      exact ⟨u, List.mem_cons_of_mem _ hu, hlow⟩

/-- The operands of a call stay its operands when nodes and dropout sites are added. -/
theorem operandsOf_mono {sites sites' : List Nat} (hext : NodesExtend nodes nodes')
    (hsites : sites <+: sites') {op : Op} {site : Nat} {ids operands : List Nat}
    (h : op.OperandsOf nodes sites site ids operands) :
    op.OperandsOf nodes' sites' site ids operands := by
  cases op
  case dropout rate =>
    obtain ⟨m, n, i, hops, hm, hk, hi⟩ := h
    obtain ⟨n', hn', hcore, -⟩ := hext m n hm
    refine ⟨m, n', i, hops, hn', by rw [Node.kind_of_core hcore, hk], ?_⟩
    obtain ⟨tail, rfl⟩ := hsites
    rw [List.getElem?_append_left (List.getElem?_eq_some_iff.1 hi).1, hi]
  all_goals exact h

mutual

/-- Adding nodes and dropout sites does not change what a node stands for. -/
theorem LoweredTo.mono {sites sites' : List Nat} (hext : NodesExtend nodes nodes')
    (hsites : sites <+: sites') (t : Term) (id : Nat) (h : LoweredTo nodes sites t id) :
    LoweredTo nodes' sites' t id := by
  match t with
  | .constant value =>
    rw [LoweredTo] at h ⊢
    obtain ⟨n, hn, hk⟩ := h
    obtain ⟨n', hn', hcore, -⟩ := hext id n hn
    exact ⟨n', hn', by rw [Node.kind_of_core hcore, hk]⟩
  | .tensor x =>
    rw [LoweredTo] at h ⊢
    obtain ⟨n, hn, hk⟩ := h
    obtain ⟨n', hn', hcore, -⟩ := hext id n hn
    exact ⟨n', hn', by rw [Node.kind_of_core hcore, hk]⟩
  | .apply site op args =>
    rw [LoweredTo] at h ⊢
    obtain ⟨n, ids, hn, hk, hargs, hops⟩ := h
    obtain ⟨n', hn', hcore, -⟩ := hext id n hn
    refine ⟨n', ids, hn', by rw [Node.kind_of_core hcore, hk],
      AllLoweredTo.mono hext hsites args ids hargs, ?_⟩
    rw [Node.operands_of_core hcore]
    exact operandsOf_mono hext hsites hops

/-- Nodes that stand for terms do so when nodes and dropout sites are added. -/
theorem AllLoweredTo.mono {sites sites' : List Nat} (hext : NodesExtend nodes nodes')
    (hsites : sites <+: sites') (ts : List Term) (ids : List Nat)
    (h : AllLoweredTo nodes sites ts ids) : AllLoweredTo nodes' sites' ts ids := by
  match ts with
  | [] => exact h
  | t :: rest =>
    rw [AllLoweredTo] at h ⊢
    obtain ⟨id, ids', rfl, ht, hrest⟩ := h
    exact ⟨id, ids', rfl, LoweredTo.mono hext hsites t id ht,
      AllLoweredTo.mono hext hsites rest ids' hrest⟩

end

mutual

/-- Every dropout of a lowered term has a mask. -/
theorem LoweredTo.dropoutSite_mem {sites : List Nat} (t : Term) (id : Nat)
    (h : LoweredTo nodes sites t id) : ∀ site ∈ t.subterms.filterMap dropoutSite?, site ∈ sites := by
  match t with
  | .constant value => simp [subterms, dropoutSite?]
  | .tensor x => simp [subterms, dropoutSite?]
  | .apply site op args =>
    rw [LoweredTo] at h
    obtain ⟨n, ids, -, -, hargs, hops⟩ := h
    intro x hx
    rw [subterms, List.filterMap_append, List.mem_append] at hx
    rcases hx with hx | hx
    · exact AllLoweredTo.dropoutSite_mem args ids hargs x hx
    · cases op <;> simp only [List.filterMap_cons, dropoutSite?, List.filterMap_nil,
        List.mem_singleton, List.not_mem_nil] at hx
      subst hx
      obtain ⟨m, n', i, -, -, -, hi⟩ := hops
      exact List.mem_of_getElem? hi

/-- The dropout sites inside of lowered terms are known. -/
theorem AllLoweredTo.dropoutSite_mem {sites : List Nat} (ts : List Term) (ids : List Nat)
    (h : AllLoweredTo nodes sites ts ids) :
    ∀ site ∈ (allSubterms ts).filterMap dropoutSite?, site ∈ sites := by
  match ts with
  | [] => simp [allSubterms]
  | t :: rest =>
    rw [AllLoweredTo] at h
    obtain ⟨id, ids', -, ht, hrest⟩ := h
    intro x hx
    rw [allSubterms, List.filterMap_append, List.mem_append] at hx
    rcases hx with hx | hx
    · exact LoweredTo.dropoutSite_mem t id ht x hx
    · exact AllLoweredTo.dropoutSite_mem rest ids' hrest x hx

end

end Term

end TensorKernels
