import TensorKernels.Layout.Forward
import TensorKernels.Proofs.Buffers
import TensorKernels.Proofs.Dispatch
import TensorKernels.Proofs.ForwardCode

/-!
# Forward kernels

The forward kernel of a context is scoped code over its bindings (`Layout.Sound.forward_typed`), so
it passes its check and never faults. Where its input buffers hold the values of the nodes they are
named after, it stores the values of the nodes it exports (`Layout.Sound.forward_dispatch`): in one
invocation the members are computed one after the other, and the invariant of that walk is that each
member so far has its element in its local.
-/

set_option autoImplicit false

namespace TensorKernels

namespace Layout

variable {l : Layout} {masks : Array MaskSite}

/-! ## Scoping -/

/-- The members of a context are the nodes whose home it is. -/
theorem Sound.isMember_iff (h : l.Sound masks) (c id : Nat) :
    l.isMember c id = true ↔ l.home id = some c := by
  unfold isMember isComputedIn
  rw [Bool.and_eq_true, decide_eq_true_eq]
  exact ⟨fun h => h.2, fun hc => ⟨(h.home_lt id c hc).2, hc⟩⟩

/-- How a context reads an operand: as a local of its own, as a constant or from a buffer. -/
theorem Sound.operandIn_cases (h : l.Sound masks) (c : Nat) {o : Nat} (ho : o < l.nodes.size)
    (a : Access) :
    (l.home o = some c ∧
        (operandIn l.signature l.placement.home c (l.node o) o a).source = .var (Node.varName o)) ∨
      (l.home o ≠ some c ∧
        ((∃ x, (l.node o).kind = .constant x ∧
          (operandIn l.signature l.placement.home c (l.node o) o a).source = .const x) ∨
        ∃ b, l.binding? o = some b ∧
          (operandIn l.signature l.placement.home c (l.node o) o a).source = .buffer b.name)) := by
  have hmem := h.isMember_iff c o
  unfold isMember at hmem
  by_cases hc : l.home o = some c
  · refine .inl ⟨hc, ?_⟩
    simp only [operandIn, hmem.2 hc, if_true]
  · refine .inr ⟨hc, ?_⟩
    have hnot : isComputedIn l.placement.home c (l.node o) o = false :=
      Bool.eq_false_iff.2 fun ht => hc (hmem.1 ht)
    simp only [operandIn, hnot]
    exact h.source_eq ho

/-- An operand outside of the context is among the bindings that the code of a node reads. -/
theorem Sound.mem_readBindings (h : l.Sound masks) {c id o : Nat} {a : Access} {b : Binding}
    (ho : (o, a) ∈ (l.node id).operands) (hc : l.home o ≠ some c) (hb : l.binding? o = some b) :
    b ∈ l.readBindings c id := by
  refine List.mem_filterMap.2 ⟨(o, a), ho, ?_⟩
  have hnot : l.isMember c o = false := Bool.eq_false_iff.2 fun ht => hc ((h.isMember_iff c o).1 ht)
  simp [hnot, hb]

/-- A binding that the code of a node reads is that of an operand outside of the context. -/
theorem mem_readBindings_iff {c id : Nat} {b : Binding} (hb : b ∈ l.readBindings c id) :
    ∃ o a, (o, a) ∈ (l.node id).operands ∧ l.isMember c o = false ∧ l.binding? o = some b := by
  obtain ⟨⟨o, a⟩, ho, hif⟩ := List.mem_filterMap.1 hb
  by_cases hm : l.isMember c o = true
  · simp [hm] at hif
  · exact ⟨o, a, ho, Bool.eq_false_iff.2 hm, by simpa [hm] using hif⟩

/-- An operand comes before its reader. -/
theorem Sound.operand_lt (h : l.Sound masks) {id o : Nat} {a : Access} (hid : id < l.nodes.size)
    (ho : (o, a) ∈ (l.node id).operands) : o < id := h.arena.operand_lt hid (o, a) ho

/-- The code of a member, where the members before it are in scope. -/
theorem Sound.forwardCode_typed (h : l.Sound masks) {c id : Nat} (hid : l.home id = some c)
    {scope : List String}
    (hscope : ∀ o < id, l.home o = some c → Node.varName o ∈ scope) :
    Stmt.BlockTyped localKind scope ((l.readBindings c id).map Binding.name) [] (l.forwardCode c id) ∧
      Node.varName id ∈ Stmt.blockDeclares (l.forwardCode c id) := by
  obtain ⟨hlt, hcomp⟩ := h.home_lt id c hid
  obtain ⟨op, hop⟩ := Node.exists_op_of_isComputed hcomp
  unfold forwardCode
  rw [hop]
  refine ⟨op.forward_typed (localKind_varName id) ?_, op.mem_declares_forward _ _⟩
  intro operand hoperand
  obtain ⟨⟨o, a⟩, ho, rfl⟩ := List.mem_map.1 hoperand
  have holt := h.operand_lt hlt ho
  unfold Operand.Available
  rcases h.operandIn_cases c (Nat.lt_trans holt hlt) a with ⟨hc, hs⟩ | ⟨hc, ⟨x, -, hs⟩ | ⟨b, hb, hs⟩⟩
  · simp only [hs]
    exact ⟨hscope o holt hc, localKind_varName o⟩
  · simp only [hs]
  · simp only [hs]
    exact List.mem_map.2 ⟨b, h.mem_readBindings ho hc hb, rfl⟩

/-- The exports of a context are members of it. -/
theorem exports_subset (c : Nat) : l.exports c ⊆ l.members c := List.filter_subset_self _

/-- Members that are smaller than another one stand before it. -/
theorem Sound.mem_before_of_lt (h : l.Sound masks) {c id o : Nat} {before after : List Nat}
    (hmem : l.members c = before ++ id :: after) (hlt : o < id) (ho : l.home o = some c) :
    o ∈ before := by
  have hsorted := h.members_sorted c
  have hin := (h.mem_members c o).2 ho
  rw [hmem, List.mem_append, List.mem_cons] at hin
  rw [hmem, List.pairwise_append, List.pairwise_cons] at hsorted
  rcases hin with hin | rfl | hin
  · exact hin
  · omega
  · have := hsorted.2.1.1 o hin
    omega

/-- Members that come before a node are different from it. -/
theorem Sound.ne_of_mem_before (h : l.Sound masks) {c id o : Nat} {before after : List Nat}
    (hmem : l.members c = before ++ id :: after) (ho : o ∈ before) : o ≠ id := by
  have hsorted := h.members_sorted c
  rw [hmem, List.pairwise_append] at hsorted
  exact Nat.ne_of_lt (hsorted.2.2 o ho id (by simp))

/-- The code of a member leaves the locals of the others alone. -/
theorem varName_notMem_sets {c id o : Nat} (hne : o ≠ id) :
    Node.varName o ∉ Stmt.blockSets (l.forwardCode c id) := by
  intro hset
  unfold forwardCode at hset
  cases hk : (l.node id).kind with
  | op op =>
    rw [hk] at hset
    rcases op.sets_forward _ _ hset with heq | hund
    · exact hne (Node.varName_injective heq)
    · exact underscore_not_mem_varName o hund
  | tensor t => simp [hk, Stmt.blockSets] at hset
  | mask i => simp [hk, Stmt.blockSets] at hset
  | constant x => simp [hk, Stmt.blockSets] at hset

/-- The body of a forward kernel is scoped and touches its bindings only. -/
theorem Sound.forward_typed (h : l.Sound masks) (c : Nat) :
    Stmt.BlockTyped localKind [] (l.forwardKernel c).inputs.names (l.forwardKernel c).outputs.names
      (l.forwardKernel c).body := by
  -- the code of the members from some point on, and then the stores
  have hcode : ∀ (before after : List Nat) (scope : List String), l.members c = before ++ after →
      (∀ id ∈ before, Node.varName id ∈ scope) →
      Stmt.BlockTyped localKind scope (l.forwardKernel c).inputs.names
        (l.forwardKernel c).outputs.names
        (after.flatMap (l.forwardCode c) ++ (l.exports c).map exportStore) := by
    intro before after
    induction after generalizing before with
    | nil =>
      intro scope hmem hscope
      rw [List.append_nil] at hmem
      rw [List.flatMap_nil, List.nil_append, List.map_eq_flatMap, List.flatMap_def]
      refine .flatten ?_
      intro block hblock
      obtain ⟨id, hid, rfl⟩ := List.mem_map.1 hblock
      refine .store ?_ .index (.var (hscope id (hmem ▸ exports_subset c hid)) (localKind_varName id)) .nil
      exact Bindings.mem_names_registerAll (List.mem_map.2 ⟨id, hid, rfl⟩)
    | cons id after ih =>
      intro scope hmem hscope
      have hid : l.home id = some c := (h.mem_members c id).1 (by simp [hmem])
      obtain ⟨htyped, hdecl⟩ := h.forwardCode_typed hid
        fun o hlt ho => hscope o (h.mem_before_of_lt hmem hlt ho)
      rw [List.flatMap_cons, List.append_assoc]
      refine .append (htyped.mono (List.Subset.refl _) ?_ (List.nil_subset _)) ?_
      · intro name hname
        obtain ⟨b, hb, rfl⟩ := List.mem_map.1 hname
        refine Bindings.mem_names_registerAll (List.mem_flatMap.2 ⟨id, ?_, hb⟩)
        simp [hmem]
      · refine ih (before ++ [id]) _ (by rw [hmem, List.append_assoc]; rfl) ?_
        intro o ho
        rcases List.mem_append.1 ho with ho | ho
        · exact List.mem_append_right _ (hscope o ho)
        · obtain rfl := List.mem_singleton.1 ho
          exact List.mem_append_left _ hdecl
  refine .boundsGuard ?_
  exact hcode [] (l.members c) [] rfl (by intro id hid; cases hid)

/-- The forward kernel passes its check, which leaves the bindings that the body touches. -/
theorem Sound.forward_checked (h : l.Sound masks) (c : Nat) :
    (l.forwardKernel c).checked = .ok (l.forwardKernel c).trimmed :=
  Kernel.checked_eq_ok (h.forward_typed c).loads (h.forward_typed c).stores

/-- An input of a forward kernel is an operand of a member that is computed elsewhere. -/
theorem Sound.forward_inputs (h : l.Sound masks) {c : Nat} {b : Binding}
    (hb : b ∈ (l.forwardKernel c).inputs.entries) :
    ∃ id o a, l.home id = some c ∧ (o, a) ∈ (l.node id).operands ∧ l.home o ≠ some c ∧
      l.binding? o = some b := by
  rcases Bindings.mem_entries_registerAll hb with hb | hb
  · cases hb
  · obtain ⟨id, hid, hb⟩ := List.mem_flatMap.1 hb
    obtain ⟨o, a, ho, hnot, hbind⟩ := mem_readBindings_iff hb
    refine ⟨id, o, a, (h.mem_members c id).1 hid, ho, ?_, hbind⟩
    intro hc
    rw [(h.isMember_iff c o).2 hc] at hnot
    cases hnot

/-- The forward kernel keeps the binding of every operand that is computed elsewhere. -/
theorem Sound.mem_forward_inputs (h : l.Sound masks) {c id o : Nat} {a : Access} {b : Binding}
    (hid : l.home id = some c) (ho : (o, a) ∈ (l.node id).operands) (hc : l.home o ≠ some c)
    (hb : l.binding? o = some b) : b ∈ (l.forwardKernel c).trimmed.inputs.entries := by
  obtain ⟨hlt, hcomp⟩ := h.home_lt id c hid
  obtain ⟨op, hop⟩ := Node.exists_op_of_isComputed hcomp
  have hmem := (h.mem_members c id).2 hid
  have holt := Nat.lt_trans (h.operand_lt hlt ho) hlt
  -- the code of the member loads the operand
  have hload : b.name ∈ (l.forwardKernel c).loads := by
    have hcode : b.name ∈ Stmt.blockLoads (l.forwardCode c id) := by
      unfold forwardCode
      rw [hop]
      refine op.mem_loads_forward _ ?_ (List.mem_map.2 ⟨(o, a), ho, rfl⟩) ?_
      · rw [List.length_map]
        exact (h.arena.opNode (getElem?_nodeAt hlt) hop).arity
      · rcases h.operandIn_cases c holt a with ⟨hc', -⟩ | ⟨-, ⟨x, hx, -⟩ | ⟨b', hb', hs⟩⟩
        · exact absurd hc' hc
        · simp [binding?, Node.binding?, hx] at hb
        · rw [hb, Option.some.injEq] at hb'
          rw [hs, hb']
    simp only [Kernel.loads, forwardKernel, Stmt.blockLoads, Stmt.blockLoads_append, List.mem_append]
    exact .inr (.inl (Stmt.mem_blockLoads_flatMap hmem hcode))
  -- the binding that is registered under its name is this one
  have hname : b.name ∈ (l.forwardKernel c).inputs.names :=
    Bindings.mem_names_registerAll (List.mem_flatMap.2 ⟨id, hmem, h.mem_readBindings ho hc hb⟩)
  obtain ⟨b', hb', hname'⟩ := Bindings.mem_names.1 hname
  obtain ⟨id', o', a', hid', ho', -, hbind'⟩ := h.forward_inputs hb'
  have hlt' := (h.home_lt id' c hid').1
  obtain rfl := h.binding?_unique holt (Nat.lt_trans (h.operand_lt hlt' ho') hlt') hb hbind' hname'.symm
  exact Kernel.mem_trimmed_inputs.2 ⟨hb', hload⟩

/-! ## Values -/

variable {α : Type} (ops : Arithmetic α)

/-- The data is the value of every node that is read through the binding. -/
def Holds (l : Layout) (leaves : LeafValues α) (b : Binding) (data : Array α) : Prop :=
  ∀ id < l.nodes.size, l.binding? id = some b → data = (valueAt ops l.nodes leaves id).data

/-- The element of a node that an invocation computes. -/
abbrev entryAt (l : Layout) (leaves : LeafValues α) (id i : Nat) : α :=
  (valueAt ops l.nodes leaves id).entry ops i

variable {ops} {leaves : LeafValues α}

/-- The operands of a member stand for the values of its operands, where the members before it have
their elements in locals. -/
theorem Sound.denotes (h : l.Sound masks)
    (hbound : ∀ id < l.nodes.size, (l.node id).size < 2 ^ 32) {c id i : Nat}
    (hid : l.home id = some c) {s : Invocation α}
    (hinputs : ∀ b ∈ (l.forwardKernel c).trimmed.inputs.entries,
      ∃ data, s.inputs.find? b.name = some data ∧ l.Holds ops leaves b data)
    (hlocals : ∀ o < id, l.home o = some c →
      s.locals.find? (Node.varName o) = some (.scalar (l.entryAt ops leaves o i))) :
    List.Forall₂ (Operand.Denotes ops s i) (l.forwardOperands c id)
      ((l.node id).operands.map fun o => (o.2, valueAt ops l.nodes leaves o.1)) := by
  obtain ⟨hlt, hcomp⟩ := h.home_lt id c hid
  obtain ⟨op, hop⟩ := Node.exists_op_of_isComputed hcomp
  have hok := h.arena.opNode (getElem?_nodeAt hlt) hop
  unfold forwardOperands
  rw [List.forall₂_map_left_iff, List.forall₂_map_right_iff, List.forall₂_same]
  rintro ⟨o, a⟩ ho
  have holt := h.operand_lt hlt ho
  have holt' := Nat.lt_trans holt hlt
  refine ⟨rfl, (shape_valueAt ops leaves o).symm, ?_, ?_⟩
  · unfold Operand.Reads
    rcases h.operandIn_cases c holt' a with ⟨hc, hs⟩ | ⟨hc, ⟨x, hx, hs⟩ | ⟨b, hb, hs⟩⟩
    · simp only [hs]
      exact hlocals o holt hc
    · simp only [hs]
      rw [valueAt_constant ops h.arena holt' hx]
    · simp only [hs]
      obtain ⟨data, hdata, hholds⟩ := hinputs b (h.mem_forward_inputs hid ho hc hb)
      rw [Invocation.buffer?_eq_of_input hdata, hholds o holt' hb]
  · rw [shape_valueAt]
    exact hbound o holt'

/-- The code of a member computes the member's element. -/
theorem Sound.forwardCode_ends (h : l.Sound masks)
    (hbound : ∀ id < l.nodes.size, (l.node id).size < 2 ^ 32) {c id i : Nat}
    (hid : l.home id = some c) (hi : i < l.sizeOf c) {s : Invocation α}
    (hs : s.index = UInt32.ofNat i)
    (hinputs : ∀ b ∈ (l.forwardKernel c).trimmed.inputs.entries,
      ∃ data, s.inputs.find? b.name = some data ∧ l.Holds ops leaves b data)
    (hlocals : ∀ o < id, l.home o = some c →
      s.locals.find? (Node.varName o) = some (.scalar (l.entryAt ops leaves o i))) :
    Stmt.Ends ops s (l.forwardCode c id) fun t =>
      t.locals.find? (Node.varName id) = some (.scalar (l.entryAt ops leaves id i)) := by
  obtain ⟨hlt, hcomp⟩ := h.home_lt id c hid
  obtain ⟨op, hop⟩ := Node.exists_op_of_isComputed hcomp
  have hok := h.arena.opNode (getElem?_nodeAt hlt) hop
  have hsize := h.sizeOf_eq id c hid
  rw [hsize] at hi
  have helement : l.entryAt ops leaves id i = op.element ops
      ((l.node id).operands.map fun o => (o.2, valueAt ops l.nodes leaves o.1)) i := by
    unfold entryAt
    rw [valueAt_op ops h.arena hlt hop]
    exact Op.entry_result ops op _ hi
  rw [helement]
  unfold forwardCode
  rw [hop]
  refine Op.forward_ends (h.denotes hbound hid hinputs hlocals) ?_ ?_ ?_ ?_ hi (hbound id hlt) hs
  · rw [List.length_map]
    exact hok.arity
  · simp only [List.map_map, Function.comp_def, shape_valueAt]
    exact hok.inferred
  · intro rate hrate
    obtain ⟨-, x, b, m, d, j, hxm, -, hshape, -⟩ := hok.mask rate hrate
    refine ⟨(nodeAt l.nodes x).shape, ?_⟩
    have hxm' : (l.node id).operands = [(x, b), (m, d)] := hxm
    simp [hxm', hshape]
  · intro operand hoperand name hname
    obtain ⟨⟨o, a⟩, ho, rfl⟩ := List.mem_map.1 hoperand
    -- only an operand of the same context is a local
    rcases h.operandIn_cases c (Nat.lt_trans (h.operand_lt hlt ho) hlt) a with
      ⟨hc, -⟩ | ⟨-, ⟨x, -, hs'⟩ | ⟨b, -, hs'⟩⟩
    · rcases h.edge id c o a c hid ho hc with ⟨-, hreg, -, ha⟩ | ⟨hne, -⟩
      · refine ⟨?_, ha⟩
        simpa [Node.opClass, hop] using hreg
      · exact absurd rfl hne
    · rw [hs'] at hname
      cases hname
    · rw [hs'] at hname
      cases hname

/-- The code of all members computes the element of each. -/
theorem Sound.members_ends (h : l.Sound masks)
    (hbound : ∀ id < l.nodes.size, (l.node id).size < 2 ^ 32) {c i : Nat} (hi : i < l.sizeOf c)
    {s : Invocation α} (hs : s.index = UInt32.ofNat i)
    (hinputs : ∀ b ∈ (l.forwardKernel c).trimmed.inputs.entries,
      ∃ data, s.inputs.find? b.name = some data ∧ l.Holds ops leaves b data) :
    Stmt.Ends ops s ((l.members c).flatMap (l.forwardCode c)) fun t =>
      ∀ id ∈ l.members c,
        t.locals.find? (Node.varName id) = some (.scalar (l.entryAt ops leaves id i)) := by
  have hwalk : ∀ (before after : List Nat) (s : Invocation α), l.members c = before ++ after →
      s.index = UInt32.ofNat i →
      (∀ b ∈ (l.forwardKernel c).trimmed.inputs.entries,
        ∃ data, s.inputs.find? b.name = some data ∧ l.Holds ops leaves b data) →
      (∀ id ∈ before, s.locals.find? (Node.varName id) = some (.scalar (l.entryAt ops leaves id i))) →
      Stmt.Ends ops s (after.flatMap (l.forwardCode c)) fun t => ∀ id ∈ l.members c,
        t.locals.find? (Node.varName id) = some (.scalar (l.entryAt ops leaves id i)) := by
    intro before after
    induction after generalizing before with
    | nil =>
      intro s hmem _ _ hlocals
      rw [List.append_nil] at hmem
      exact .nil (hmem ▸ hlocals)
    | cons id after ih =>
      intro s hmem hs hinputs hlocals
      have hid : l.home id = some c := (h.mem_members c id).1 (by simp [hmem])
      rw [List.flatMap_cons]
      refine .append (.withFrame (h.forwardCode_ends hbound hid hi hs hinputs
        fun o hlt ho => hlocals o (h.mem_before_of_lt hmem hlt ho)) ?_)
      intro t hframe hout
      refine ih (before ++ [id]) t (by rw [hmem, List.append_assoc]; rfl) (hframe.index.trans hs) ?_ ?_
      · rw [hframe.inputs]
        exact hinputs
      · intro o ho
        rcases List.mem_append.1 ho with ho | ho
        · rw [hframe.locals _ ?_]
          · exact hlocals o ho
          · intro hset
            exact varName_notMem_sets (h.ne_of_mem_before hmem ho) hset
        · obtain rfl := List.mem_singleton.1 ho
          exact hout
  exact hwalk [] (l.members c) s rfl hs hinputs (by intro id hid; cases hid)

/-- No member of a context is listed twice. -/
theorem Sound.nodup_members (h : l.Sound masks) (c : Nat) : (l.members c).Nodup :=
  (h.members_sorted c).imp fun hlt => Nat.ne_of_lt hlt

/-- Members are computed into locals only. -/
theorem blockStores_members (c : Nat) :
    Stmt.blockStores ((l.members c).flatMap (l.forwardCode c)) = [] := by
  refine Stmt.blockStores_flatMap_eq_nil fun id _ => ?_
  unfold forwardCode
  cases (l.node id).kind with
  | op op => exact op.blockStores_forward _ _
  | tensor t => rfl
  | mask i => rfl
  | constant x => rfl

/-- The name under which a node is exported. -/
abbrev exportName (id : Nat) : String := outputName (Node.varName id)

/-- Different nodes are exported under different names. -/
theorem exportName_injective : Function.Injective exportName :=
  fun _ _ h => Node.varName_injective (outputName_injective h)

/-- An output of a forward kernel is an exported member. -/
theorem forward_outputs {c : Nat} {b : Binding} (hb : b ∈ (l.forwardKernel c).outputs.entries) :
    ∃ id ∈ l.exports c, b = l.exportBinding id := by
  rcases Bindings.mem_entries_registerAll hb with hb | hb
  · cases hb
  · obtain ⟨id, hid, rfl⟩ := List.mem_map.1 hb
    exact ⟨id, hid, rfl⟩

/-- The forward kernel keeps the binding of every export. -/
theorem mem_forward_outputs {c id : Nat} (hid : id ∈ l.exports c) :
    l.exportBinding id ∈ (l.forwardKernel c).trimmed.outputs.entries := by
  have hname : exportName id ∈ (l.forwardKernel c).outputs.names :=
    Bindings.mem_names_registerAll (List.mem_map.2 ⟨id, hid, rfl⟩)
  obtain ⟨b, hb, hname'⟩ := Bindings.mem_names.1 hname
  obtain ⟨id', -, rfl⟩ := forward_outputs hb
  obtain rfl := exportName_injective hname'
  refine Kernel.mem_trimmed_outputs.2 ⟨hb, ?_⟩
  simp only [Kernel.stores, forwardKernel, Stmt.blockStores, Stmt.blockStores_append, List.mem_append]
  refine .inr (.inr (Stmt.mem_blockStores_of_mem (List.mem_map.2 ⟨_, hid, rfl⟩) ?_))
  simp [exportStore, Stmt.stores, exportBinding]

variable (ops leaves) in
/-- The element of an export, by the name of its buffer. -/
noncomputable def exported (l : Layout) : String → Nat → α :=
  Function.extend exportName (l.entryAt ops leaves) fun _ _ => ops.zero

/-- The buffer of an export holds the values of its node. -/
theorem exported_exportName (l : Layout) (id : Nat) :
    l.exported ops leaves (exportName id) = l.entryAt ops leaves id :=
  exportName_injective.extend_apply _ _ id

variable (ops leaves) in
/-- What an invocation of a forward kernel writes to a buffer: below the size of the context, one
element of each export. -/
noncomputable def exportWrite (l : Layout) (c : Nat) (name : String) (i : Nat) : Option (Nat × α) :=
  if i < l.sizeOf c ∧ name ∈ (l.exports c).map exportName then some (i, l.exported ops leaves name i)
  else none

/-- The stores of exports, as a list of places and values. -/
theorem exportStores_eq (c : Nat) : (l.exports c).map exportStore =
    ((l.exports c).map fun id => (exportName id, Expr.index, Expr.var (Node.varName id))).map
      fun e => .store e.1 e.2.1 e.2.2 := by
  rw [List.map_map]
  rfl

/-- An invocation of a context computes its members and stores its exports. -/
theorem Sound.exports_ends (h : l.Sound masks)
    (hbound : ∀ id < l.nodes.size, (l.node id).size < 2 ^ 32) {c : Nat} {inputs outputs : Buffers α}
    (hin : ∀ b ∈ (l.forwardKernel c).trimmed.inputs.entries,
      ∃ data, inputs.find? b.name = some data ∧ l.Holds ops leaves b data)
    (hout : ∀ id ∈ l.exports c, (outputs.find? (exportName id)).isSome) {i : Nat} (hi : i < 2 ^ 32)
    (hlt : i < l.sizeOf c) :
    Stmt.Ends ops ⟨UInt32.ofNat i, .empty, inputs, outputs⟩
      ((l.members c).flatMap (l.forwardCode c) ++ (l.exports c).map exportStore) fun t =>
      ∀ b, t.outputs.find? b = (outputs.find? b).map fun d =>
        applyWrite d (l.exportWrite ops leaves c b i) := by
  refine .append (.withFrame (h.members_ends hbound hlt rfl hin) ?_)
  intro t hframe hlocals
  rw [blockStores_members] at hframe
  have hnames : ((l.exports c).map fun id =>
      (exportName id, Expr.index, Expr.var (Node.varName id))).map Prod.fst =
      (l.exports c).map exportName := by
    rw [List.map_map]
    rfl
  rw [exportStores_eq]
  refine (Stmt.Ends.stores ?_ (fun _ => i) (fun name => l.exported ops leaves name i) ?_).mono ?_
  · rw [hnames]
    exact ((h.nodup_members c).sublist List.filter_sublist).map exportName_injective
  · intro e he
    obtain ⟨id, hid, rfl⟩ := List.mem_map.1 he
    refine ⟨by rw [hframe.find?_outputs]; exact hout id hid, hi, ?_⟩
    intro u hindex hlocals' _
    refine ⟨Expr.eval_index ops (hindex.trans hframe.index), Expr.eval_var ops ?_⟩
    rw [hlocals', exported_exportName]
    exact hlocals id (exports_subset c hid)
  · intro u hu b
    rw [hu b, hframe.find?_outputs, hnames]
    simp only [exportWrite, hlt, true_and]

/-- What one invocation of a forward kernel stores. -/
theorem Sound.forward_stores (h : l.Sound masks)
    (hbound : ∀ id < l.nodes.size, (l.node id).size < 2 ^ 32) {c : Nat}
    (hsize : l.sizeOf c < 2 ^ 32) {inputs outputs : Buffers α}
    (hin : ∀ b ∈ (l.forwardKernel c).trimmed.inputs.entries,
      ∃ data, inputs.find? b.name = some data ∧ l.Holds ops leaves b data)
    (hout : ∀ id ∈ l.exports c, (outputs.find? (exportName id)).isSome) {i : Nat} (hi : i < 2 ^ 32) :
    Kernel.Stores ops (l.forwardKernel c).body inputs outputs i fun name =>
      l.exportWrite ops leaves c name i := by
  unfold Kernel.Stores Kernel.invoke forwardKernel
  dsimp only
  rw [Stmt.execBlock_boundsGuard ops rfl hi hsize]
  by_cases hlt : i < l.sizeOf c
  · rw [if_pos hlt]
    obtain ⟨t, ht, hfind⟩ := h.exports_ends hbound hin hout hi hlt
    rw [ht]
    exact ⟨rfl, hfind⟩
  · rw [if_neg hlt]
    refine ⟨rfl, ?_⟩
    intro b
    simp only [exportWrite, hlt, false_and, if_false, applyWrite]
    exact (Option.map_id' (x := outputs.find? b)).symm

/-- A forward kernel turns the values of what it reads into the values of what it exports. -/
theorem Sound.forward_meets (h : l.Sound masks)
    (hbound : ∀ id < l.nodes.size, (l.node id).size < 2 ^ 32) {c : Nat} (hc : c ∈ l.order) :
    (l.forwardKernel c).trimmed.Meets ops (l.Holds ops leaves) fun b data =>
      ∀ id, b.name = exportName id → data = (valueAt ops l.nodes leaves id).data := by
  intro inputs outputs hin hout
  obtain ⟨root, hroot⟩ := (h.mem_order c).1 hc
  have hsize : l.sizeOf c < 2 ^ 32 := by
    rw [h.sizeOf_eq root c hroot]
    exact hbound root (h.home_lt root c hroot).1
  obtain ⟨hcovered, hinvocations⟩ := Kernel.le_invocations (k := (l.forwardKernel c).trimmed) hsize
  -- a bound output is an export, and as long as the context is large
  have hexport : ∀ name data, outputs.find? name = some data →
      ∃ id ∈ l.exports c, name = exportName id ∧ data.size = l.sizeOf c := by
    intro name data hdata
    obtain ⟨b, hb, rfl⟩ := Bindings.mem_names.1 (hout.only name data hdata)
    obtain ⟨id, hid, rfl⟩ := forward_outputs (Kernel.mem_trimmed_outputs.1 hb).1
    obtain ⟨data', hdata', hlen⟩ := hout.found _ hb
    rw [hdata, Option.some.injEq] at hdata'
    refine ⟨id, hid, rfl, ?_⟩
    rw [hdata', hlen, h.sizeOf_eq id c ((h.mem_members c id).1 (exports_subset c hid))]
    rfl
  have hbound' : ∀ id ∈ l.exports c, (outputs.find? (exportName id)).isSome := by
    intro id hid
    obtain ⟨data, hdata, -⟩ := hout.found _ (mem_forward_outputs hid)
    exact Option.isSome_iff_exists.2 ⟨data, hdata⟩
  obtain ⟨final, hfinal, hfind⟩ := Kernel.dispatch_eq_ofFn ops (k := (l.forwardKernel c).trimmed)
    inputs outputs (l.exportWrite ops leaves c) (l.exported ops leaves)
    (by
      intro i hi outputs' hsame
      refine h.forward_stores hbound hsize hin ?_ (by omega)
      intro id hid
      rw [hsame.isSome]
      exact hbound' id hid)
    (by
      intro name data _ i _ j x hwrite _
      unfold exportWrite at hwrite
      split at hwrite
      · simp only [Option.some.injEq, Prod.mk.injEq] at hwrite
        rw [← hwrite.2, hwrite.1]
      · cases hwrite)
    (by
      intro name data hdata j hj
      obtain ⟨id, hid, rfl, hlen⟩ := hexport name data hdata
      rw [hlen] at hj
      refine ⟨j, Nat.lt_of_lt_of_le hj hcovered, l.exported ops leaves (exportName id) j, ?_⟩
      rw [exportWrite, if_pos ⟨hj, List.mem_map.2 ⟨id, hid, rfl⟩⟩])
  refine ⟨final, hfinal, ?_, ?_⟩
  · intro name
    rw [hfind name, Option.map_map]
    cases outputs.find? name <;> simp
  · intro b hb
    obtain ⟨data, hdata, hlen⟩ := hout.found b hb
    refine ⟨_, by rw [hfind, hdata, Option.map_some], ?_⟩
    intro id hid
    rw [hid] at hdata ⊢
    obtain ⟨id', hid', heq, hlen'⟩ := hexport _ data hdata
    obtain rfl := exportName_injective heq
    have hhome := (h.mem_members c id).1 (exports_subset c hid')
    rw [exported_exportName]
    refine Flat.ofFn_entry ops ?_
    rw [size_valueAt_of_isComputed ops leaves (h.home_lt id c hhome).2, hlen', h.sizeOf_eq id c hhome]
    rfl

end Layout

end TensorKernels
