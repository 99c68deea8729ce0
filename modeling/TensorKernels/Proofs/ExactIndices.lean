import TensorKernels.Proofs.Forgetting
import TensorKernels.Proofs.LexicalKernels
import TensorKernels.Proofs.StrictCode

/-!
# Index arithmetic of compiled plans

Every kernel of a compiled plan is executed strictly: no word wraps around, nothing is divided by zero,
no size is cut off by a literal, and every load and store stays inside of its buffer. The bounds come
from the lengths of the buffers (`Layout.Measured`): a buffer is as long as what its name stands for,
and what a node reads and stores is in range of that by the inference of its shape.

The lengths are those of the bindings, and a run of a plan gives every kernel such buffers.
-/

set_option autoImplicit false

namespace TensorKernels

variable {α : Type}

/-! ## Lengths of buffers -/

/-- Invocations with the same buffers see buffers of the same sizes. -/
theorem Invocation.SameBuffers.size_buffer? {s t : Invocation α} (h : s.SameBuffers t) (b : String) :
    (t.buffer? b).map Array.size = (s.buffer? b).map Array.size := by
  unfold Invocation.buffer?
  rw [h.inputs]
  cases s.inputs.find? b with
  | some data => rfl
  | none => exact h.outputs b

/-- Code that stores nothing keeps all buffers. -/
theorem Invocation.Frame.sameBuffers {sets : List String} {s t : Invocation α}
    (h : Invocation.Frame sets [] s t) : s.SameBuffers t :=
  ⟨h.inputs, fun b => by rw [h.outputs b (by simp)]⟩

/-- The length of the buffer that is found under the name of a binding. -/
theorem Buffers.For.size_eq {bindings : Bindings} {bs : Buffers α} (h : bs.For bindings) {name : String}
    {data : Array α} (hdata : bs.find? name = some data) :
    ∃ b ∈ bindings.entries, b.name = name ∧ data.size = b.len := by
  obtain ⟨b, hb, rfl⟩ := Bindings.mem_names.1 (h.only name data hdata)
  obtain ⟨data', hdata', hsize⟩ := h.found b hb
  rw [hdata, Option.some.injEq] at hdata'
  exact ⟨b, hb, rfl, hdata' ▸ hsize⟩

namespace Layout

variable {l : Layout} {masks : Array MaskSite}

/-- Every buffer is as long as what its name stands for: the value of a node or contributions to a
gradient. -/
structure Measured (l : Layout) (s : Invocation α) : Prop where
  value : ∀ id < l.nodes.size, ∀ b, l.binding? id = some b →
    ∀ data, s.buffer? b.name = some data → data.size = (l.node id).size
  contribution : ∀ p ∈ passPartials l.backwardKernels,
    ∀ data, s.buffer? p.name = some data → data.size = p.len
  exported : ∀ id data, s.outputs.find? (exportName id) = some data → data.size = (l.node id).size
  collected : ∀ p ∈ passPartials l.backwardKernels,
    ∀ data, s.outputs.find? (outputName p.name) = some data → data.size = p.len

/-- The sizes of buffers are those of the layout, in every invocation with the same buffers. -/
theorem Measured.of_sameBuffers {s t : Invocation α} (h : l.Measured s) (hst : s.SameBuffers t) :
    l.Measured t := by
  -- a buffer that is found later has the length of one that was found before
  have hsize : ∀ {a b : Option (Array α)} {data : Array α}, b.map Array.size = a.map Array.size →
      b = some data → ∃ data', a = some data' ∧ data'.size = data.size := by
    intro a b data hab hb
    rw [hb, Option.map_some] at hab
    exact Option.map_eq_some_iff.1 hab.symm
  refine ⟨?_, ?_, ?_, ?_⟩
  · intro id hid b hb data hdata
    obtain ⟨data', hdata', heq⟩ := hsize (hst.size_buffer? b.name) hdata
    rw [← heq]
    exact h.value id hid b hb data' hdata'
  · intro p hp data hdata
    obtain ⟨data', hdata', heq⟩ := hsize (hst.size_buffer? p.name) hdata
    rw [← heq]
    exact h.contribution p hp data' hdata'
  · intro id data hdata
    obtain ⟨data', hdata', heq⟩ := hsize (hst.outputs _) hdata
    rw [← heq]
    exact h.exported id data' hdata'
  · intro p hp data hdata
    obtain ⟨data', hdata', heq⟩ := hsize (hst.outputs _) hdata
    rw [← heq]
    exact h.collected p hp data' hdata'

/-- The binding of a node has the length of the node. -/
theorem Sound.binding?_len (h : l.Sound masks) {id : Nat} (hid : id < l.nodes.size) {b : Binding}
    (hb : l.binding? id = some b) : b.len = (l.node id).size := by
  rcases h.binding?_cases hid hb with ⟨op, -, rfl⟩ | ⟨i, m, hk, hm, rfl⟩ | ⟨t, d, hk, hd, rfl⟩
  · rfl
  · have hok := h.arena id _ (getElem?_nodeAt hid)
    simp only [NodeOk, show (nodeAt l.nodes id).kind = .mask i from hk] at hok
    obtain ⟨-, -, -, m', hm', hsize⟩ := hok
    rw [hm, Option.some.injEq] at hm'
    exact hm' ▸ hsize
  · exact (h.size_tensor hid hk hd).symm

/-- No value has the name of an output. -/
theorem Sound.binding_name_ne (h : l.Sound masks) {id : Nat} (hid : id < l.nodes.size) {b : Binding}
    (hb : l.binding? id = some b) (x : String)
    (hx : x.toList.head? = some 'v' ∨ x.toList.head? = some 'g') : b.name ≠ outputName x := by
  rcases h.binding?_cases hid hb with ⟨op, -, rfl⟩ | ⟨i, m, hk, -, -⟩ | ⟨t, d, hk, -, -⟩
  · exact varName_ne_outputName id x
  all_goals
    -- a leaf is handed out, as no context computes it
    refine h.input_name_ne (.inl ⟨id, hid, hb, fun c hc => ?_⟩) x hx
    have hcomp := (h.home_lt id c hc).2
    simp [Node.isComputed, hk] at hcomp

/-- Buffers for the bindings of a kernel are as long as what their names stand for. -/
theorem Sound.measured (h : l.Sound masks) {k : Kernel} (hk : k ∈ l.kernelList)
    {inputs outputs : Buffers α} (hin : inputs.For k.inputs) (hout : outputs.For k.outputs)
    (index : UInt32) (locals : Table String (Value α)) : l.Measured ⟨index, locals, inputs, outputs⟩ := by
  -- what is found under a name is an input or an output of the kernel
  have hbuffer : ∀ {name : String} {data : Array α},
      (⟨index, locals, inputs, outputs⟩ : Invocation α).buffer? name = some data →
      (∃ b ∈ k.inputs.entries, b.name = name ∧ data.size = b.len) ∨
        ∃ b ∈ k.outputs.entries, b.name = name ∧ data.size = b.len := by
    intro name data hdata
    unfold Invocation.buffer? at hdata
    cases hfind : inputs.find? name with
    | some data' =>
      simp only [hfind, Option.some.injEq] at hdata
      exact .inl (hdata ▸ hin.size_eq hfind)
    | none =>
      simp only [hfind] at hdata
      exact .inr (hout.size_eq hdata)
  have hgrad : ∀ {p : PartialBuffer}, p ∈ passPartials l.backwardKernels →
      p.name.toList.head? = some 'g' := by
    intro p hp
    obtain ⟨base, c, j, hj⟩ := h.partial_name hp
    rw [hj]
    exact PartialBuffer.head?_toList_candidate base c j
  refine ⟨?_, ?_, ?_, ?_⟩
  · intro id hid b hb data hdata
    rcases hbuffer hdata with ⟨b', hb', hname, hsize⟩ | ⟨b', hb', hname, -⟩
    · rcases h.kernelList_inputs hk hb' with ⟨o, ho, hbind, -⟩ | ⟨p, hp, rfl⟩
      · obtain rfl := h.binding?_unique hid ho hb hbind hname.symm
        exact hsize.trans (h.binding?_len hid hb)
      · exact absurd hname.symm (h.binding_name_ne_candidate hid hb hp)
    · rcases h.kernelList_outputs hk hb' with ⟨o, rfl⟩ | ⟨p, hp, rfl⟩
      · exact absurd hname.symm (h.binding_name_ne hid hb _ (.inl (head?_varName o)))
      · exact absurd hname.symm (h.binding_name_ne hid hb _ (.inr (hgrad hp)))
  · intro p hp data hdata
    rcases hbuffer hdata with ⟨b', hb', hname, hsize⟩ | ⟨b', hb', hname, -⟩
    · rcases h.kernelList_inputs hk hb' with ⟨o, ho, hbind, -⟩ | ⟨p', hp', rfl⟩
      · exact absurd hname (h.binding_name_ne_candidate ho hbind hp)
      · obtain rfl := h.partial_unique hp hp' hname.symm
        exact hsize
    · have hne := h.input_name_ne (.inr ⟨p, hp, rfl⟩)
      rcases h.kernelList_outputs hk hb' with ⟨o, rfl⟩ | ⟨p', hp', rfl⟩
      · exact absurd hname.symm (hne _ (.inl (head?_varName o)))
      · exact absurd hname.symm (hne _ (.inr (hgrad hp')))
  · intro id data hdata
    obtain ⟨b, hb, hname, hsize⟩ := hout.size_eq hdata
    rcases h.kernelList_outputs hk hb with ⟨o, rfl⟩ | ⟨p, hp, rfl⟩
    · obtain rfl := exportName_injective hname
      exact hsize
    · obtain ⟨base, c, j, hj⟩ := h.partial_name hp
      have heq := outputName_injective hname
      rw [hj] at heq
      exact absurd heq (PartialBuffer.candidate_ne_varName base c j id)
  · intro p hp data hdata
    obtain ⟨b, hb, hname, hsize⟩ := hout.size_eq hdata
    rcases h.kernelList_outputs hk hb with ⟨o, rfl⟩ | ⟨p', hp', rfl⟩
    · obtain ⟨base, c, j, hj⟩ := h.partial_name hp
      have heq := outputName_injective hname
      rw [hj] at heq
      exact absurd heq.symm (PartialBuffer.candidate_ne_varName base c j o)
    · obtain rfl := h.partial_unique hp hp' (outputName_injective hname).symm
      exact hsize

/-! ## What a node reads -/

/-- A state of an invocation: no scalar local holds a word, and every buffer has its length. -/
structure Invoked (l : Layout) (i : Nat) (s : Invocation α) : Prop where
  index : s.index = UInt32.ofNat i
  tame : s.Tame
  measured : l.Measured s

variable {ops : Arithmetic α} {s : Invocation α} {i : Nat}

/-- What an invocation of the layout may rely on survives code that stores nothing. -/
theorem Invoked.of_frame (hs : l.Invoked i s) {sets : List String} {t : Invocation α}
    (hframe : Invocation.Frame sets [] s t) (ht : t.Tame) : l.Invoked i t :=
  ⟨hframe.index.trans hs.index, ht, hs.measured.of_sameBuffers hframe.sameBuffers⟩

/-- What an invocation of the layout may rely on survives a store. -/
theorem Invoked.write (hs : l.Invoked i s) (buffer : String) (j : Nat) (x : α) :
    l.Invoked i (s.write buffer j x) :=
  ⟨hs.index, hs.tame, hs.measured.of_sameBuffers (.write s buffer j x)⟩

/-- A block that stores nothing stays in the invocation. -/
theorem Invoked.safely (hs : l.Invoked i s) {block : List Stmt} (hstores : Stmt.blockStores block = [])
    (h : Stmt.Safely ops s block Invocation.Tame) : Stmt.Safely ops s block (l.Invoked i) := by
  refine h.withFrame fun t hframe ht => ?_
  rw [hstores] at hframe
  exact hs.of_frame hframe ht

/-- A node that is not computed in place is read below its size. -/
theorem Sound.sized_source (h : l.Sound masks) (hs : l.Measured s) {o : Nat} (ho : o < l.nodes.size)
    (a : Access) : Operand.Sized s ⟨(l.node o).source l.signature o, a, (l.node o).shape⟩ := by
  unfold Operand.Sized
  rcases h.source_eq ho with ⟨x, -, hsource⟩ | ⟨b, hb, hsource⟩
  · simp only [hsource]
  · simp only [hsource]
    exact hs.value o ho b hb

/-- The operands of a node, wherever its code finds them. -/
theorem Sound.reads (h : l.Sound masks) (hbound : ∀ id < l.nodes.size, (l.node id).size < 2 ^ 32)
    {id : Nat} (hid : id < l.nodes.size) {op : Op} (hop : (l.node id).kind = .op op)
    (source : Nat → Source) (hsized : ∀ x ∈ (l.node id).operands,
      Operand.Sized s ⟨source x.1, x.2, (l.node x.1).shape⟩) :
    op.Reads s ((l.node id).operands.map fun x => ⟨source x.1, x.2, (l.node x.1).shape⟩)
      (l.node id).shape := by
  have hok := h.arena.opNode (getElem?_nodeAt hid) hop
  refine ⟨?_, ?_, hbound id hid, ?_, ?_, ?_⟩
  · intro operand hoperand
    obtain ⟨x, hx, rfl⟩ := List.mem_map.1 hoperand
    exact hsized x hx
  · intro operand hoperand
    obtain ⟨x, hx, rfl⟩ := List.mem_map.1 hoperand
    exact hbound x.1 (Nat.lt_trans (h.operand_lt hid hx) hid)
  · rw [List.length_map]
    exact hok.arity
  · rw [List.map_map, List.map_map]
    exact hok.inferred
  · intro rate hrate
    obtain ⟨-, x, b, m, d, j, hxm, -, hshape, -⟩ := hok.mask rate hrate
    refine ⟨(l.node x).shape, ?_⟩
    have hxm' : (l.node id).operands = [(x, b), (m, d)] := hxm
    have hshape' : (l.node m).shape = (l.node x).shape := hshape
    simp [hxm', hshape']

/-- What backward code reads of a node. -/
theorem Sound.backward_reads (h : l.Sound masks)
    (hbound : ∀ id < l.nodes.size, (l.node id).size < 2 ^ 32) (hs : l.Measured s) {id : Nat}
    (hid : id < l.nodes.size) {op : Op} (hop : (l.node id).kind = .op op) :
    op.Reads s (l.backwardOperands id) (l.node id).shape :=
  h.reads hbound hid hop (fun o => (l.node o).source l.signature o)
    fun x hx => h.sized_source hs (Nat.lt_trans (h.operand_lt hid hx) hid) x.2

/-! ## Forward kernels -/

/-- The code of a member at an index of its context. -/
theorem Sound.forwardCode_safely (h : l.Sound masks)
    (hbound : ∀ id < l.nodes.size, (l.node id).size < 2 ^ 32) {c id : Nat} (hid : l.home id = some c)
    (hi : i < l.sizeOf c) (hs : l.Invoked i s) :
    Stmt.Safely ops s (l.forwardCode c id) (l.Invoked i) := by
  obtain ⟨hlt, hcomp⟩ := h.home_lt id c hid
  obtain ⟨op, hop⟩ := Node.exists_op_of_isComputed hcomp
  have hreads : op.Reads s (l.forwardOperands c id) (l.node id).shape := by
    refine h.reads hbound hlt hop (fun o =>
      (operandIn l.signature l.placement.home c (l.node o) o .aligned).source) fun x hx => ?_
    have hxlt := Nat.lt_trans (h.operand_lt hlt hx) hlt
    have hsource := h.sized_source hs.measured hxlt x.2
    unfold operandIn
    split
    · exact localKind_varName x.1
    · exact hsource
  rw [h.sizeOf_eq id c hid] at hi
  unfold forwardCode
  rw [hop]
  exact hs.safely (op.blockStores_forward _ _) (Op.forward_safely hreads hs.tame hi hs.index)

/-- The forward kernel of a context reads and writes inside of its buffers, without wrapping around. -/
theorem Sound.forward_safely (h : l.Sound masks)
    (hbound : ∀ id < l.nodes.size, (l.node id).size < 2 ^ 32) {c : Nat} (hc : c ∈ l.order)
    (hi : i < 2 ^ 32) (hs : l.Invoked i s) :
    Stmt.Safely ops s (l.forwardKernel c).body (l.Invoked i) := by
  refine .boundsGuard hs.index hi (h.sizeOf_lt hbound hc) fun hlt => .append ?_
  refine (Stmt.Safely.flatMap (fun id hid t ht =>
    h.forwardCode_safely hbound ((h.mem_members c id).1 hid) hlt ht) hs).mono fun t ht => ?_
  refine .each (fun stmt hstmt u hu => ?_) ht
  obtain ⟨id, hid, rfl⟩ := List.mem_map.1 hstmt
  have hplain : (Expr.var (Node.varName id)).Plain ops u := localKind_varName id
  refine .store (.index hu.index hi) (hplain.exact hu.tame) ?_ fun x => .nil (hu.write _ _ x)
  intro data hdata
  rw [hu.measured.exported id data hdata,
    ← h.sizeOf_eq id c ((h.mem_members c id).1 (exports_subset c hid))]
  exact hlt

/-! ## Backward kernels -/

/-- Seeding a variable with the incoming gradient of a node. -/
theorem Sound.seed_safely (h : l.Sound masks)
    (hbound : ∀ id < l.nodes.size, (l.node id).size < 2 ^ 32) {partials : List PartialBuffer}
    (hpartials : partials ⊆ passPartials l.backwardKernels) {id j : Nat} {name loopVar : String}
    {position : Expr} (hs : s.Tame) (hmeasured : l.Measured s) (hname : localKind name = .scalar)
    (hloop : FoldName loopVar)
    (hvars : ∀ x ∈ position.vars, x ≠ name ∧ ∀ k : Nat, x ≠ loopVar ++ toString k)
    (hposition : position.Yields ops s j) (hj : j < (l.node id).size) (isRoot : Bool) :
    Stmt.Safely ops s (seedCode name isRoot (incoming partials id) position loopVar)
      Invocation.Tame := by
  refine seedCode_safely isRoot hs hname hloop hvars hposition hj fun p hp => ?_
  obtain ⟨hmem, hcovers, hlen⟩ := h.incoming_covers hbound hpartials hp
  exact ⟨hmeasured.contribution p hmem, hcovers, hlen⟩

/-- The gradient terms of a member of a regular context are formulas. -/
theorem Sound.plain_terms (h : l.Sound masks)
    (hbound : ∀ id < l.nodes.size, (l.node id).size < 2 ^ 32) {c id : Nat}
    (hreg : l.classOf c = .regular) (hid : l.home id = some c) (hi : i < l.sizeOf c)
    (hs : l.Invoked i s) {e : Expr} (he : some e ∈ l.terms id) : e.Plain ops s := by
  obtain ⟨hlt, hcomp⟩ := h.home_lt id c hid
  obtain ⟨op, hop⟩ := Node.exists_op_of_isComputed hcomp
  have hclass : op.opClass = .regular := by
    have := h.classOf_eq id c hid
    rw [hreg] at this
    simpa [Node.opClass, hop] using this.symm
  rw [h.sizeOf_eq id c hid] at hi
  unfold terms at he
  rw [hop] at he
  have hg : (Expr.var (gradName id)).Plain ops s := localKind_gradName id
  refine op.plain_gradients hg ?_ ?_ he
  · exact (h.backward_reads hbound hs.measured hlt hop).plain_value hclass hi hs.index
  · exact Expr.plain_load (hs.measured.value id hlt _ (binding?_op hop))
      (.index hs.index (Nat.lt_trans hi (hbound id hlt))) hi

/-- The backward kernel of a regular context reads and writes inside of its buffers, without wrapping
around. -/
theorem Sound.regularBackward_safely (h : l.Sound masks)
    (hbound : ∀ id < l.nodes.size, (l.node id).size < 2 ^ 32) {partials : List PartialBuffer}
    (hpartials : partials ⊆ passPartials l.backwardKernels) {c : Nat} (hreg : l.classOf c = .regular)
    (hown : (l.regularBackward partials c).partials ⊆ passPartials l.backwardKernels)
    (hsize : l.sizeOf c < 2 ^ 32) (hi : i < 2 ^ 32) (hs : l.Invoked i s) :
    Stmt.Safely ops s (l.regularBackward partials c).kernel.body (l.Invoked i) := by
  have hplain : ∀ {name : String}, localKind name = .scalar → ∀ t, l.Invoked i t → ∀ {e : Expr},
      e.Plain ops t → Stmt.Safely ops t [.accumulate name e] (l.Invoked i) :=
    fun hname t ht _ he => ht.safely rfl (.accumulate ht.tame hname he fun _ hu => .nil hu)
  rw [regularBackward_body]
  refine .boundsGuard hs.index hi hsize fun hlt => ?_
  rw [rules, List.append_assoc]
  refine .append ((Stmt.Safely.flatMap (fun id hid t ht => ?_) hs).mono fun t ht => .append
    ((Stmt.Safely.each (fun stmt hstmt u hu => ?_) ht).mono fun u hu => .append
    ((Stmt.Safely.each (fun stmt hstmt v hv => ?_) hu).mono fun v hv =>
      .each (fun stmt hstmt w hw => ?_) hv)))
  · -- the seed of a member
    have hsize := h.sizeOf_eq id c ((h.mem_members c id).1 hid)
    refine ht.safely (blockStores_seedCode _ _ _ _ _) (h.seed_safely hbound hpartials ht.tame ht.measured
      (localKind_gradName id) (foldName_gradName id) (by simp [Expr.vars]) (.index ht.index hi)
      (hsize ▸ hlt) _)
  · -- a collector starts at zero
    obtain ⟨k, hk, rfl⟩ := List.mem_mapIdx.1 hstmt
    exact hu.safely rfl (.varScalar hu.tame trivial fun _ hv => .nil hv)
  · -- a contribution is added to an accumulator or a collector
    obtain ⟨x, hx, hcode⟩ := List.mem_filterMap.1 hstmt
    obtain ⟨id, hid, hx⟩ := List.mem_flatMap.1 hx
    have hhome := (h.mem_members c id).1 (List.mem_reverse.1 hid)
    have hvalue : x.value.Plain ops v :=
      h.plain_terms hbound hreg hhome hlt hv (mem_contributions hx).2.1
    have htarget := (mem_contributions hx).2.2
    unfold ruleCode at hcode
    cases ht : x.target with
    | nowhere =>
      rw [ht] at hcode
      cases hcode
    | accumulator name =>
      simp only [ht, Option.some.injEq] at hcode
      obtain ⟨-, -, -, rfl⟩ := target_accumulator (htarget.symm.trans ht)
      exact hcode ▸ hplain (localKind_gradName _) v hv hvalue
    | buffer base owner =>
      simp only [ht, Option.some.injEq] at hcode
      exact hcode ▸ hplain (localKind_collectorName _) v hv hvalue
  · -- a collector is stored inside of its partial buffer
    obtain ⟨k, hk, rfl⟩ := List.mem_mapIdx.1 hstmt
    have hmem : (layOut c (l.sizeOf c) (l.contextKeys c)).partials[k] ∈
        (l.regularBackward partials c).partials := List.getElem_mem hk
    generalize (layOut c (l.sizeOf c) (l.contextKeys c)).partials[k] = p at hmem ⊢
    obtain ⟨o, ho, -, hcovers⟩ := (h.regularBackward_ok partials hreg).owned p hmem
    obtain ⟨-, -, -, -, hlen⟩ := exists_of_forall₂ (layOut_spec c (l.sizeOf c) (l.contextKeys c)).2 hmem
    have hcollector : (Expr.var (collectorName k)).Plain ops w := localKind_collectorName k
    rw [hlen] at hcovers
    refine .store (Access.yields_partialIndex hcovers hlt hsize (hbound o ho) hw.index)
      (hcollector.exact hw.tame) ?_ fun x => .nil (hw.write _ _ x)
    intro data hdata
    rw [hw.measured.collected p (hown hmem) data hdata, hlen]
    exact hcovers.stored_lt hlt

/-- The seeds of a reduction. -/
theorem Sound.safeSeeds (h : l.Sound masks)
    (hbound : ∀ id < l.nodes.size, (l.node id).size < 2 ^ 32) {partials : List PartialBuffer}
    (hpartials : partials ⊆ passPartials l.backwardKernels) (hs : l.Measured s) (id slot : Nat) :
    (l.reductionFrame partials id slot).SafeSeeds ops s (l.node id).size where
  safely hframe ht hlt hname hloop hvars hposition :=
    h.seed_safely hbound hpartials ht (hs.of_sameBuffers hframe.sameBuffers) hname hloop hvars hposition
      hlt _
  sets hx := sets_seedCode hx
  stores _ _ _ := blockStores_seedCode _ _ _ _ _

/-- The backward kernel of a reduction reads and writes inside of its buffers, without wrapping around.
-/
theorem Sound.reductionBackward_safely (h : l.Sound masks)
    (hbound : ∀ id < l.nodes.size, (l.node id).size < 2 ^ 32) {partials : List PartialBuffer}
    (hpartials : partials ⊆ passPartials l.backwardKernels) {c id : Nat} (hid : l.home id = some c)
    {op : Op} (hop : (l.node id).kind = .op op) (hred : op.opClass = .reduction)
    (hown : (l.reductionBackward partials c id op).partials ⊆ passPartials l.backwardKernels)
    (hi : i < 2 ^ 32) (hs : l.Invoked i s) :
    Stmt.Safely ops s (l.reductionBackward partials c id op).kernel.body (l.Invoked i) := by
  obtain ⟨hbody, hps⟩ := reductionBackward_body (l := l) partials c id op
  have hlt := (h.home_lt id c hid).1
  have hok := h.arena.opNode (getElem?_nodeAt hlt) hop
  rw [hbody]
  refine .each (fun stmt hstmt t ht => ?_) hs
  obtain ⟨⟨target, p⟩, he, rfl⟩ := List.mem_map.1 hstmt
  obtain ⟨htarget, hp⟩ := List.of_mem_zip he
  obtain ⟨-, -, hlen⟩ := (List.forall₂_iff_zip.1 hps).2 he
  obtain ⟨a, -, hslot, -⟩ := mem_reductionTargets htarget
  have ho : target.1 < l.nodes.size :=
    Nat.lt_trans (h.operand_lt hlt (List.mem_of_getElem? hslot)) hlt
  have hshape : ((l.backwardOperands id).getD target.2.1 .absent).shape = (l.node target.1).shape := by
    simp [backwardOperands, List.getD_eq_getElem?_getD, hslot]
  refine .ifIndexLt ht.index hi (hbound target.1 ho) (fun hit => .append ?_) (.nil ht)
  refine (Op.reductionGradient_safely (r := l.reductionFrame partials id target.2.1) hred
    (h.backward_reads hbound ht.measured hlt hop) (h.safeSeeds hbound hpartials ht.measured id _)
    ht.tame (ht.measured.value id hlt _ (binding?_op hop)) rfl
    (hok.arity ▸ (List.getElem?_eq_some_iff.1 hslot).1) ht.index
    (hshape.symm ▸ hit)).withFrame fun u hframe hu => ?_
  rw [Stmt.blockStores_of_quiet _
    (op.quiet_reductionGradient _ fun _ _ _ => quiet_seedCode _ _ _ _ _)] at hframe
  have hinvoked := ht.of_frame hframe hu.1
  refine .store (.index hinvoked.index hi) (hu.2.exact hu.1) ?_ fun x => .nil (.nil (hinvoked.write _ _ x))
  intro data hdata
  rw [hinvoked.measured.collected p (hown hp) data hdata, hlen]
  exact hit

/-- The body of a kernel is safe at every index. -/
theorem Sound.kernelList_safely (h : l.Sound masks)
    (hbound : ∀ id < l.nodes.size, (l.node id).size < 2 ^ 32) {k : Kernel} (hk : k ∈ l.kernelList)
    (hi : i < 2 ^ 32) (hs : l.Invoked i s) : Stmt.Safely ops s k.body (l.Invoked i) := by
  have hsize := h.size_lt_of_mem_kernelList (by decide) hbound hk
  rcases h.kernelList_cases hk with ⟨c, hc, rfl⟩ | ⟨partials, c, hsub, hreg, hown, rfl⟩ |
    ⟨partials, c, id, op, hsub, hid, hop, hred, hown, rfl⟩
  · exact h.forward_safely hbound hc hi hs
  · exact h.regularBackward_safely hbound hsub hreg hown hsize hi hs
  · exact h.reductionBackward_safely hbound hsub hid hop hred hown hi hs

end Layout

/-! ## Dispatches -/

/-- Buffers of the same sizes fit the same bindings. -/
theorem Buffers.For.of_sameSizes {bindings : Bindings} {a b : Buffers α} (h : a.For bindings)
    (hab : a.SameSizes b) : b.For bindings := by
  refine ⟨?_, ?_⟩
  · intro x hx
    obtain ⟨data, hdata, hsize⟩ := h.found x hx
    exact hab.find? hdata hsize
  · intro name data hdata
    have hsome := hab.isSome name
    rw [hdata] at hsome
    obtain ⟨data', hdata'⟩ := Option.isSome_iff_exists.1 hsome.symm
    exact h.only name data' hdata'

/-- A dispatch is strict where every invocation is, on whatever outputs of the right lengths. -/
theorem Kernel.dispatchStrict_eq (ops : Arithmetic α) {k : Kernel} (htyped : k.Typed)
    {inputs outputs : Buffers α} (hin : inputs.For k.inputs) (hout : outputs.For k.outputs)
    (h : ∀ outputs : Buffers α, outputs.For k.outputs → ∀ i < k.invocations,
      invokeStrict ops k.body inputs outputs i = some (invoke ops k.body inputs outputs i)) :
    k.dispatchStrict ops inputs outputs = some (k.dispatch ops inputs outputs) := by
  obtain ⟨kinds, hbody⟩ := htyped
  have hall : ∀ (indices : List Nat) (outputs : Buffers α), (∀ i ∈ indices, i < k.invocations) →
      outputs.For k.outputs → invokeAllStrict ops k.body inputs indices outputs =
        some (invokeAll ops k.body inputs indices outputs) := by
    intro indices
    induction indices with
    | nil => exact fun _ _ _ => rfl
    | cons i indices ih =>
      intro outputs hlt hfor
      -- the outputs of the invocation have the lengths that they had before
      obtain ⟨final, hfinal, hsame⟩ := invokeAll_typed ops hbody inputs [i] outputs hin.isSome_find?
        hfor.isSome_find?
      have hrest := ih final (fun j hj => hlt j (List.mem_cons_of_mem _ hj)) (hfor.of_sameSizes hsame)
      rw [invokeAllStrict, invokeAll, h outputs hfor i (hlt i List.mem_cons_self)]
      rw [invokeAll] at hfinal
      cases hinvoke : invoke ops k.body inputs outputs i with
      | next s =>
        rw [hinvoke] at hfinal
        cases hfinal
        exact hrest
      | returned s =>
        rw [hinvoke] at hfinal
        cases hfinal
        exact hrest
      | failed fault s => rfl
  exact hall _ outputs (fun i hi => List.mem_range.1 hi) hout

/-! ## Machines -/

namespace Machine

variable {ops : Arithmetic α} {p : Plan} {n : Nat} {k : Kernel} {m : Machine α}

/-- Every tensor and every mask of the machine has its declared length. -/
structure Sized (signature : Signature) (masks : Array MaskSite) (m : Machine α) : Prop where
  tensor : ∀ t d, signature.get? t = some d → ∃ data, m.tensors.find? t = some data ∧ data.size = d.size
  mask : ∀ (i : Nat) site, masks[i]? = some site →
    ∃ data, m.masks.find? i = some data ∧ data.size = site.size

variable (ops) in
/-- The first kernels run on every machine for the plan. -/
theorem Complete.runKernels (h : m.Complete p) (hp : p.Wired) (htyped : ∀ k ∈ p.kernels, k.Typed)
    (hn : n ≤ p.kernels.length) :
    ∃ m', runKernels ops n 0 m = .ok () m' ∧ m'.Complete p ∧ m'.tensors = m.tensors ∧
      m'.masks = m.masks := by
  obtain ⟨m', hrun, hready⟩ := (h.ready 0).runKernels_spec hp n (by simpa using hn)
    fun _ k _ hk => h.runs ops (List.mem_of_getElem? hk) (htyped k (List.mem_of_getElem? hk))
  exact ⟨m', hrun, h.of_ready hready, hready.tensors, hready.masks⟩

/-- A kernel is fed buffers of the lengths of its bindings, where the leaves have theirs. -/
theorem Complete.feeds_for (h : m.Complete p) (hp : p.Wired) (hk : p.kernels[n]? = some k)
    (htensor : ∀ b ∈ k.inputs.entries, ∀ t, b.source = .tensor t →
      ∃ data, m.tensors.find? t = some data ∧ data.size = b.len)
    (hmask : ∀ b ∈ k.inputs.entries, ∀ i, b.source = .mask i →
      ∃ data, m.masks.find? i = some data ∧ data.size = b.len) : (m.feeds n k).For k.inputs := by
  have hfed : ∀ b ∈ k.inputs.entries, ∃ data, m.fed? n b = some data ∧ data.size = b.len := by
    intro b hb
    unfold fed?
    cases hs : b.source with
    | tensor t => exact htensor b hb t hs
    | mask i => exact hmask b hb i hs
    | ownBuffer =>
      -- the buffer that is copied has the length of the binding
      obtain ⟨cs, hcs, -⟩ := hp.copies n k hk
      obtain ⟨c, hcopy, -, hsupplies⟩ :=
        hp.exists_copyTo? hk hcs (List.mem_filter.2 ⟨hb, by simp [hs]⟩)
      obtain ⟨k', hk', b', hb', hname, hlen⟩ := hsupplies.written
      obtain ⟨data, hdata, hsize⟩ := h.sized c.fromKernel k' hk' b' (.inr hb')
      refine ⟨data, ?_, hsize.trans hlen⟩
      rw [h.plan, hcopy, Option.bind_some, hsupplies.source, ← hname]
      exact hdata
  have hnodup : ((k.inputs.entries.map fun b => (b.name, (m.fed? n b).getD #[])).map Prod.fst).Nodup := by
    rw [List.map_map]
    exact k.inputs.nodup
  refine ⟨?_, ?_⟩
  · intro b hb
    obtain ⟨data, hdata, hsize⟩ := hfed b hb
    refine ⟨data, ?_, hsize⟩
    have hlookup := Table.lookup_eq_some_of_mem hnodup (List.mem_map.2 ⟨b, hb, rfl⟩)
    rw [hdata] at hlookup
    exact hlookup
  · intro name data hdata
    obtain ⟨b, hb, heq⟩ := List.mem_map.1 (Table.mem_of_lookup_eq_some hdata)
    cases heq
    exact List.mem_map.2 ⟨b, hb, rfl⟩

end Machine

/-- The inputs of a kernel have the lengths that the leaves are declared with. -/
theorem Layout.Sound.feeds_for {l : Layout} {masks : Array MaskSite} (h : l.Sound masks) {p : Plan}
    (hp : p.Wired) (hkernels : p.kernels = l.kernelList) {m : Machine α} (hm : m.Complete p)
    (hsized : m.Sized l.signature masks) {n : Nat} {k : Kernel} (hk : p.kernels[n]? = some k) :
    (m.feeds n k).For k.inputs := by
  have hmem : k ∈ l.kernelList := hkernels ▸ List.mem_of_getElem? hk
  refine hm.feeds_for hp hk ?_ ?_
  · intro b hb t ht
    obtain ⟨d, hd, hlen⟩ := h.tensor_input hmem hb ht
    rw [hlen]
    exact hsized.tensor t d hd
  · intro b hb i hi
    obtain ⟨site, hsite, hlen⟩ := h.mask_input hmem hb hi
    rw [hlen]
    exact hsized.mask i site hsite

/-! ## Compiled plans -/

/-- In a plan compiled from a term with fewer than `2 ^ 32` elements per node, every invocation of every
kernel, on buffers of the lengths of its bindings, does what it does without any rule for what is out of
range: it loads and stores elements that exist, no word wraps around, nothing is divided by zero, and
every size or dimension it computes with fits into a word.

A run gives every kernel such buffers. On each machine that is reached, with leaves of their declared
lengths, the kernels run one after the other, and what each leaves in its outputs is what the strict
dispatch leaves. -/
theorem indices_exact (ops : Arithmetic α) {signature : Signature} {root : Term} {shape : Shape}
    {plan : Plan} (hroot : root.Built) (hplan : (compile signature root shape).plan = .ok plan)
    (hfits : root.Fits signature) :
    (∀ k ∈ plan.kernels, ∀ inputs outputs : Buffers α, inputs.For k.inputs → outputs.For k.outputs →
      ∀ i < k.invocations, Kernel.invokeStrict ops k.body inputs outputs i =
        some (Kernel.invoke ops k.body inputs outputs i)) ∧
    ∀ m : Machine α, Machine.Reached ops plan signature.size root.dropoutSites.length m →
      m.Sized signature (compile signature root shape).masks →
      ∀ n k, plan.kernels[n]? = some k → ∃ m' m'' final, Machine.runKernels ops n 0 m = .ok () m' ∧
        (m'.feeds n k).For k.inputs ∧ (m'.held ops n k).For k.outputs ∧
        k.dispatchStrict ops (m'.feeds n k) (m'.held ops n k) = some (none, final) ∧
        Machine.runKernel ops n m' = .ok () m'' ∧
        ∀ b ∈ k.outputs.entries, m''.buffer? n b.name = final.find? b.name := by
  obtain ⟨id, s, hmasks, hcompiled⟩ := compiledAs_of_ok hroot hplan
  have hsound := hcompiled.sound
  have hbound : ∀ x < s.nodes.size, _ < 2 ^ 32 := fun x hx => hcompiled.lowered.size_lt hfits hx
  have hstrict : ∀ k ∈ plan.kernels, ∀ inputs outputs : Buffers α, inputs.For k.inputs →
      outputs.For k.outputs → ∀ i < k.invocations, Kernel.invokeStrict ops k.body inputs outputs i =
        some (Kernel.invoke ops k.body inputs outputs i) := by
    intro k hk inputs outputs hin hout i hi
    rw [hcompiled.kernels] at hk
    have hsize := hsound.size_lt_of_mem_kernelList (by decide) hbound hk
    have hi' : i < 2 ^ 32 := Nat.lt_of_lt_of_le hi (Kernel.le_invocations hsize).2
    rw [Kernel.invokeStrict, if_pos hi']
    refine (hsound.kernelList_safely hbound hk hi' ⟨rfl, ?_, hsound.measured hk hin hout _ _⟩).1
    intro name j _ hfind
    cases hfind
  refine ⟨hstrict, fun m hreached hsized n k hk => ?_⟩
  rw [← hcompiled.lowered.inv.count] at hreached
  have hcomplete := hcompiled.complete_of_reached hreached
  have htyped : ∀ k ∈ plan.kernels, k.Typed :=
    fun k hk => ⟨_, hsound.kernelList_typed (hcompiled.kernels ▸ hk)⟩
  have hmem := List.mem_of_getElem? hk
  obtain ⟨m', hrun, hcomplete', htensors, hmasks'⟩ := hcomplete.runKernels ops hcompiled.wired htyped
    (Nat.le_of_lt (List.getElem?_eq_some_iff.1 hk).1)
  have hsized' : m'.Sized signature s.masks := by
    rw [hmasks] at hsized
    exact ⟨htensors ▸ hsized.tensor, hmasks' ▸ hsized.mask⟩
  have hin := hsound.feeds_for hcompiled.wired hcompiled.kernels hcomplete' hsized' hk
  have hout := hcomplete'.held_for ops hk
  obtain ⟨m'', hrun', -, hstepped⟩ := hcomplete'.runKernel ops hcompiled.wired hk (htyped k hmem)
  obtain ⟨final, hdispatch, hfinal⟩ := hstepped.outputs
  refine ⟨m', m'', final, hrun, hin, hout, ?_, hrun', hfinal⟩
  rw [Kernel.dispatchStrict_eq ops (htyped k hmem) hin hout fun outputs hfor i hi =>
    hstrict k hmem _ outputs hin hfor i hi, hdispatch]

/-- A machine with zeros for all tensors and masks. -/
def Machine.blank (ops : Arithmetic α) (plan : Plan) (signature : Signature) (masks : Array MaskSite) :
    Machine α :=
  .start ops plan (signature.decls.map fun d => zeros ops d.size)
    (masks.toList.map fun site => zeros ops site.size)

/-- A blank machine has buffers of the declared sizes. -/
theorem Machine.sized_blank (ops : Arithmetic α) (plan : Plan) (signature : Signature)
    (masks : Array MaskSite) : (blank ops plan signature masks).Sized signature masks := by
  refine ⟨fun t d hd => ⟨zeros ops d.size, ?_, Array.size_replicate⟩,
    fun i site hi => ⟨zeros ops site.size, ?_, Array.size_replicate⟩⟩
  · show (byPosition _).find? t = _
    rw [find?_byPosition, List.getElem?_map, show signature.decls[t]? = some d from hd]
    rfl
  · show (byPosition _).find? i = _
    rw [find?_byPosition, List.getElem?_map, Array.getElem?_toList, hi]
    rfl

/-- The kernels of the layer, on buffers of zeros and in a run. -/
theorem layer_indices_exact :
    ∃ plan, (compile layerSignature layerTerm [2, 2]).plan = .ok plan ∧ plan.kernels ≠ [] ∧
      (∀ k ∈ plan.kernels, ∀ i < k.invocations,
        Kernel.invokeStrict .binary32 k.body (.zeros .binary32 k.inputs) (.zeros .binary32 k.outputs) i =
          some (Kernel.invoke .binary32 k.body (.zeros .binary32 k.inputs) (.zeros .binary32 k.outputs) i)) ∧
      ∀ n k, plan.kernels[n]? = some k → ∃ m' m'' final,
        Machine.runKernels .binary32 n 0
          (.blank .binary32 plan layerSignature (compile layerSignature layerTerm [2, 2]).masks) =
            .ok () m' ∧
        k.dispatchStrict .binary32 (m'.feeds n k) (m'.held .binary32 n k) = some (none, final) ∧
        Machine.runKernel .binary32 n m' = .ok () m'' ∧
        ∀ b ∈ k.outputs.entries, m''.buffer? n b.name = final.find? b.name := by
  obtain ⟨plan, hplan⟩ := exists_layer_plan
  obtain ⟨id, s, hmasks, hcompiled⟩ := compiledAs_of_ok layerTerm_built hplan
  obtain ⟨hstrict, hruns⟩ := indices_exact .binary32 layerTerm_built hplan layerTerm_fits
  have hreached : Machine.Reached .binary32 plan layerSignature.size layerTerm.dropoutSites.length
      (.blank .binary32 plan layerSignature (compile layerSignature layerTerm [2, 2]).masks) := by
    refine .start ?_ ?_
    · rw [List.length_map]
      rfl
    · rw [List.length_map, Array.length_toList, hmasks, hcompiled.lowered.inv.count]
  refine ⟨plan, hplan, ?_, ?_, ?_⟩
  · have hlength : 0 < plan.kernels.length := Nat.lt_of_lt_of_le
      (Nat.lt_of_le_of_lt (Nat.zero_le _) hcompiled.wired.output.1) hcompiled.wired.forward_le
    exact List.ne_nil_of_length_pos hlength
  · intro k hk i hi
    exact hstrict k hk _ _ (Buffers.zeros_for .binary32 k.inputs) (Buffers.zeros_for .binary32 k.outputs) i hi
  · intro n k hk
    obtain ⟨m', m'', final, hrun, -, -, hrest⟩ := hruns _ hreached (Machine.sized_blank _ _ _ _) n k hk
    exact ⟨m', m'', final, hrun, hrest⟩

end TensorKernels
