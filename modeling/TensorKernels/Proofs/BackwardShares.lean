import Mathlib.Algebra.BigOperators.Group.Finset.Sigma
import TensorKernels.Proofs.RegularGradients

/-!
# Shares in partial buffers

The backward kernel of a reduction computes what the reduction hands back to each operand, element by
element, from seeds that are the elements of its gradient. With what is known of regular contexts, every
backward kernel that is fed with values and partial buffers leaves the shares of its context in its own
partial buffers (`Layout.Sound.backward_meets`).
-/

set_option autoImplicit false

namespace TensorKernels

namespace Layout

variable {α : Type} [AddCommMonoid α] {ops : Arithmetic α} {l : Layout} {leaves : LeafValues α}
  {masks : Array MaskSite} {partials : List PartialBuffer} {c : Nat} {loads : List String}
  {inputs : Buffers α}

/-! ## Reductions -/

/-- Nothing comes back to a reduction inside its context. -/
theorem Sound.contextInflow_reduction (h : l.Sound masks) {id : Nat} (hid : l.home id = some c)
    (hred : (l.node id).opClass = .reduction) (j : Nat) : l.contextInflow ops leaves c id j = 0 := by
  unfold contextInflow
  rw [h.alone id c hid hred, List.map_singleton, List.sum_singleton]
  refine inflowAt_eq_zero ops fun a ha => ?_
  exact Nat.lt_irrefl _ (h.operand_lt (h.home_lt id c hid).1 ha)

/-- The seeds of a reduction are the elements of its gradient. -/
theorem Fed.reduction_seeds (hfed : l.Fed ops leaves partials c loads inputs) (h : l.Sound masks)
    (hops : ops.Sums) {id : Nat} (hid : l.home id = some c) (hred : (l.node id).opClass = .reduction)
    {s : Invocation α} (hs : s.inputs = inputs) (slot : Nat) :
    (l.reductionFrame partials id slot).Seeds ops s (l.node id).size (l.gradient ops leaves id) := by
  have hmem := (h.mem_members c id).2 hid
  refine ⟨?_, fun hx => sets_seedCode hx, fun _ _ _ => blockStores_seedCode _ _ _ _ _⟩
  intro sets t name loopVar position p hframe hp hne hvars hposition
  refine (hfed.seedCode_ends hops hmem hp (hframe.inputs.trans hs) hne hvars hposition).mono ?_
  intro u hu
  rw [hu, ← hfed.complete id hmem p hp, h.contextInflow_reduction hid hred, add_zero]

/-- What the gradient code of a reduction is run with. -/
theorem Fed.feeds (hfed : l.Fed ops leaves partials c loads inputs) (h : l.Sound masks)
    (hbound : ∀ id < l.nodes.size, (l.node id).size < 2 ^ 32) (hops : ops.Sums) {id : Nat}
    (hid : l.home id = some c) {op : Op} (hop : (l.node id).kind = .op op)
    (hred : op.opClass = .reduction) {s : Invocation α} (hs : s.inputs = inputs) (slot j : Nat)
    (code : List Stmt × Expr) (hcode : Stmt.blockLoads code.1 ++ code.2.loads ⊆ loads) :
    (l.reductionFrame partials id slot).Feeds ops s j (operandsAt ops l.nodes leaves id)
      (valueAt ops l.nodes leaves id) (l.gradient ops leaves id) code := by
  have hlt := (h.home_lt id c hid).1
  have hclass : (l.node id).opClass = .reduction := by simpa [Node.opClass, hop] using hred
  have hgiven := fun k => backwardOperand_given ops leaves h hbound hlt k
  refine ⟨?_, fun k => (hgiven k).2.1, ?_, ?_, ?_, backwardOperand_source_ne h hlt, ?_,
    fun k => (hgiven k).2.2, ?_⟩
  · rw [shape_valueAt]
    exact hfed.reduction_seeds h hops hid hclass hs slot
  · rw [shape_valueAt]
    rfl
  · intro k hk
    exact (hfed.denotes h hbound hlt hs fun name hname => hcode (hk name hname)).reads
  · intro hk
    refine Invocation.buffer?_eq_of_input ?_
    rw [hs]
    exact hfed.value id hlt _ (binding?_op hop) (hcode (hk _ rfl))
  · rintro name ⟨⟩
  · rw [shape_valueAt]
    exact hbound id hlt

/-- One block of a reduction's backward kernel writes one element of what the reduction hands back. -/
theorem Fed.block_ends (hfed : l.Fed ops leaves partials c loads inputs) (h : l.Sound masks)
    (hbound : ∀ id < l.nodes.size, (l.node id).size < 2 ^ 32) (hops : ops.Sums) {id : Nat}
    (hid : l.home id = some c) {op : Op} (hop : (l.node id).kind = .op op)
    (hred : op.opClass = .reduction) {t : Nat × Nat × Owner} {a : Access}
    (ht : (l.node id).operands[t.2.1]? = some (t.1, a)) {p : PartialBuffer}
    (hloads : (l.gradientBlock partials id op t p).loads ⊆ loads) {i : Nat} (hi : i < 2 ^ 32)
    {s : Invocation α} (hindex : s.index = UInt32.ofNat i) (hs : s.inputs = inputs)
    (hout : (s.outputs.find? (outputName p.name)).isSome) :
    Stmt.Ends ops s [l.gradientBlock partials id op t p] fun u =>
      ∀ b, u.outputs.find? b = (s.outputs.find? b).map fun data => applyWrite data
        (if i < (l.node t.1).size ∧ outputName p.name = b
          then some (i, l.flow ops leaves id t.2.1 i) else none) := by
  obtain ⟨hlt, hcomp⟩ := h.home_lt id c hid
  have holt := Nat.lt_trans (h.operand_lt hlt (List.mem_of_getElem? ht)) hlt
  have hok := h.arena.opNode (getElem?_nodeAt hlt) hop
  have hcond := Expr.eval_lt_word ops hi (hbound t.1 holt) (Expr.eval_index ops hindex)
    (Expr.eval_ofNat ops (l.node t.1).size)
  unfold gradientBlock at hloads ⊢
  by_cases hlen : i < (l.node t.1).size
  · rw [decide_eq_true hlen] at hcond
    have ht' : (nodeAt l.nodes id).operands[t.2.1]? = some (t.1, a) := ht
    have hslot : t.2.1 < op.arity := by
      rw [← hok.arity]
      exact (List.getElem?_eq_some_iff.1 ht').1
    have hfeeds := hfed.feeds h hbound hops hid hop hred hs t.2.1 i
      (op.reductionGradient t.2.1 (l.reductionFrame partials id t.2.1)) (by
        intro name hname
        refine hloads ?_
        simp only [Stmt.loads, Stmt.blockLoads_append, Stmt.blockLoads, List.mem_append] at hname ⊢
        rcases hname with hname | hname
        · exact .inr (.inl hname)
        · exact .inr (.inr (.inl (.inr hname))))
    have hgiven : (Op.given ops (operandsAt ops l.nodes leaves id) t.2.1).2 =
        valueAt ops l.nodes leaves t.1 := by
      simp [Op.given, operandsAt, List.getD_eq_getElem?_getD, ht']
    have hflow : op.reductionPullback ops (operandsAt ops l.nodes leaves id)
        (valueAt ops l.nodes leaves id) (l.gradient ops leaves id) t.2.1 i =
        l.flow ops leaves id t.2.1 i := by
      have hkind : (nodeAt l.nodes id).kind = .op op := hop
      simp only [flow, flowAt, hkind, Op.backflow, hred]
    have hends := Op.reductionGradient_ends hred (by rw [operandsAt, List.length_map]; exact hok.arity)
      (by
        simp only [operandsAt, List.map_map, Function.comp_def, shape_valueAt]
        exact hok.inferred)
      hslot hfeeds hindex (by
        rw [hgiven, shape_valueAt]
        exact hlen)
    refine .ifTrue hcond (.append (.withFrame hends ?_))
    intro u hframe hvalue
    rw [Stmt.blockStores_of_quiet _
      (op.quiet_reductionGradient _ fun _ _ _ => quiet_seedCode _ _ _ _ _)] at hframe
    obtain ⟨data, hdata⟩ := Option.isSome_iff_exists.1 hout
    rw [← hframe.find?_outputs] at hdata
    refine .store hdata (Expr.eval_index ops (hframe.index.trans hindex)) hvalue (.nil (.nil ?_))
    intro b
    rw [Invocation.find?_write, hframe.find?_outputs, UInt32.toNat_ofNat_of_lt' hi]
    by_cases hb : outputName p.name = b
    · rw [if_pos hb, if_pos ⟨hlen, hb⟩, hflow]
      rfl
    · rw [if_neg hb, if_neg fun hand => hb hand.2]
      exact (Option.map_id' (x := s.outputs.find? b)).symm
  · rw [decide_eq_false hlen] at hcond
    refine .ifFalse hcond (.nil fun b => ?_)
    rw [if_neg fun hand => hlen hand.1]
    exact (Option.map_id' (x := s.outputs.find? b)).symm

variable (ops l leaves) in
/-- What the backward kernel of a reduction deposits: what the reduction hands back to one operand. -/
def reductionDeposits (c id : Nat) (ps : List PartialBuffer) : List (Deposit α) :=
  ((l.reductionTargets c (l.node id).operands.zipIdx).zip ps).map fun e =>
    ⟨e.2, l.flow ops leaves id e.1.2.1⟩

/-- The blocks of a reduction's backward kernel make its deposits. -/
theorem Fed.blocks_ends (hfed : l.Fed ops leaves partials c loads inputs) (h : l.Sound masks)
    (hbound : ∀ id < l.nodes.size, (l.node id).size < 2 ^ 32) (hops : ops.Sums) {id : Nat}
    (hid : l.home id = some c) {op : Op} (hop : (l.node id).kind = .op op)
    (hred : op.opClass = .reduction) {i : Nat} (hi : i < 2 ^ 32)
    (es : List ((Nat × Nat × Owner) × PartialBuffer))
    (hes : ∀ e ∈ es, (∃ a, (l.node id).operands[e.1.2.1]? = some (e.1.1, a)) ∧
      e.2.access = .aligned ∧ e.2.len = (l.node e.1.1).size ∧
      (l.gradientBlock partials id op e.1 e.2).loads ⊆ loads)
    (hnodup : (es.map fun e => e.2.name).Nodup) {s : Invocation α}
    (hindex : s.index = UInt32.ofNat i) (hs : s.inputs = inputs)
    (hout : ∀ e ∈ es, (s.outputs.find? (outputName e.2.name)).isSome) :
    Stmt.Ends ops s (es.map fun e => l.gradientBlock partials id op e.1 e.2) fun t =>
      ∀ b, t.outputs.find? b = (s.outputs.find? b).map fun data => applyWrite data
        (Deposit.write (es.map fun e => ⟨e.2, l.flow ops leaves id e.1.2.1⟩) b i) := by
  induction es generalizing s with
  | nil => exact .nil fun b => (Option.map_id' (x := s.outputs.find? b)).symm
  | cons e es ih =>
    rw [List.map_cons, List.nodup_cons] at hnodup
    obtain ⟨⟨a, ha⟩, haccess, hlen, hloads⟩ := hes e List.mem_cons_self
    rw [List.map_cons]
    refine .cons (.withFrame (hfed.block_ends h hbound hops hid hop hred ha hloads hi hindex hs
      (hout e List.mem_cons_self)) ?_)
    intro t hframe ht
    refine (ih (fun x hx => hes x (List.mem_cons_of_mem _ hx)) hnodup.2 (hframe.index.trans hindex)
      (hframe.inputs.trans hs) ?_).mono ?_
    · intro x hx
      rw [ht, Option.isSome_map]
      exact hout x (List.mem_cons_of_mem _ hx)
    · intro u hu b
      rw [hu b, ht b, Option.map_map]
      refine congrArg (fun f => (s.outputs.find? b).map f) (funext fun data => ?_)
      rw [Function.comp_apply, List.map_cons]
      unfold Deposit.write
      by_cases hb : outputName e.2.name = b
      · -- no later block writes to the same buffer
        have hnone : (es.map fun e => (⟨e.2, l.flow ops leaves id e.1.2.1⟩ : Deposit α)).find?
            (fun d => outputName d.buffer.name = b) = none := by
          rw [List.find?_eq_none]
          intro d hd heq
          obtain ⟨x, hx, rfl⟩ := List.mem_map.1 hd
          have hname := outputName_injective ((of_decide_eq_true heq).trans hb.symm)
          exact hnodup.1 (List.mem_map.2 ⟨x, hx, hname⟩)
        rw [hnone, List.find?_cons_of_pos (by simpa using hb), Option.bind_none, Option.bind_some, hlen,
          haccess]
        simp only [hb, and_true]
        rfl
      · rw [if_neg fun hand => hb hand.2, List.find?_cons_of_neg (by simpa using hb)]
        rfl

/-- One invocation of the backward kernel of a reduction makes its deposits. -/
theorem Fed.reduction_stores {id : Nat} {op : Op} (hfed : l.Fed ops leaves partials c
      (l.reductionBackward partials c id op).kernel.loads inputs) (h : l.Sound masks)
    (hbound : ∀ id < l.nodes.size, (l.node id).size < 2 ^ 32) (hops : ops.Sums)
    (hid : l.home id = some c) (hop : (l.node id).kind = .op op) (hred : op.opClass = .reduction)
    {outputs : Buffers α}
    (hout : ∀ p ∈ (l.reductionBackward partials c id op).partials,
      (outputs.find? (outputName p.name)).isSome)
    (hnodup : ((l.reductionBackward partials c id op).partials.map PartialBuffer.name).Nodup)
    {i : Nat} (hi : i < 2 ^ 32) :
    Kernel.Stores ops (l.reductionBackward partials c id op).kernel.body inputs outputs i fun name =>
      Deposit.write (l.reductionDeposits ops leaves c id
        (l.reductionBackward partials c id op).partials) name i := by
  obtain ⟨hbody, hps⟩ := reductionBackward_body (l := l) partials c id op
  generalize hpartials : (l.reductionBackward partials c id op).partials = ps at *
  have hends := hfed.blocks_ends h hbound hops hid hop hred hi
    ((l.reductionTargets c (l.node id).operands.zipIdx).zip ps)
    (s := ⟨UInt32.ofNat i, .empty, inputs, outputs⟩) (by
      rintro ⟨t, p⟩ he
      obtain ⟨ht, hp⟩ := List.of_mem_zip he
      obtain ⟨a, base, ha, -⟩ := mem_reductionTargets ht
      have hrel := (List.forall₂_iff_zip.1 hps).2 he
      refine ⟨⟨a, ha⟩, hrel.2.1, hrel.2.2, ?_⟩
      intro b hb
      have hsingle : b ∈ Stmt.blockLoads (List.flatMap (fun e : (Nat × Nat × Owner) × PartialBuffer =>
          [l.gradientBlock partials id op e.1 e.2]) _) :=
        Stmt.mem_blockLoads_flatMap he (by simpa [Stmt.blockLoads] using hb)
      rw [← List.map_eq_flatMap, ← hbody] at hsingle
      exact hsingle)
    (by
      have hnames := congrArg (List.map PartialBuffer.name) (List.map_snd_zip hps.length_eq.ge)
      rw [List.map_map] at hnames
      rw [← hnames] at hnodup
      exact hnodup)
    rfl rfl fun e he => hout e.2 (List.of_mem_zip he).2
  unfold Kernel.Stores Kernel.invoke
  rw [hbody]
  obtain ⟨t, ht, hfind⟩ := hends
  rw [ht]
  exact ⟨rfl, hfind⟩

/-! ## What a backward kernel leaves -/

variable (ops) in
/-- The data of a partial buffer holds a share for every element of the operand that owns it. -/
def Conveys (l : Layout) (e : PartialBuffer × Owner × (Nat → α)) (data : Array α) : Prop :=
  ∀ o < l.nodes.size, l.Owns e.1.owner o → ∀ j < (l.node o).size,
    e.1.access.folded (fun i => data.getD i ops.zero) j = e.2.2 j

/-- A kernel whose deposits make up the shares of its context leaves the shares in its partial buffers. -/
theorem BackwardOk.meets {b : BackwardKernel} (hok : l.BackwardOk partials c b) (honce : l.LeavesOnce)
    (ds : List (Deposit α)) (hds : ds.map Deposit.buffer = b.partials)
    (hsize : ∀ p ∈ b.partials, p.len ≤ b.kernel.size) (hbound : b.kernel.size < 2 ^ 32)
    (hshares : List.Forall₂ Deposit.Makes ds (l.shares ops leaves c))
    {In : Binding → Array α → Prop}
    (hstores : ∀ inputs outputs : Buffers α,
      (∀ x ∈ b.kernel.trimmed.inputs.entries, ∃ data, inputs.find? x.name = some data ∧ In x data) →
      (∀ p ∈ b.partials, (outputs.find? (outputName p.name)).isSome) → ∀ i < 2 ^ 32,
      Kernel.Stores ops b.kernel.body inputs outputs i fun name => Deposit.write ds name i) :
    b.kernel.trimmed.Meets ops In fun out data => ∀ e ∈ b.partials.zip (l.shares ops leaves c),
      out.name = outputName e.1.name → l.Conveys ops e data := by
  have hmem : ∀ d ∈ ds, d.buffer ∈ b.partials := by
    intro d hd
    rw [← hds]
    exact List.mem_map_of_mem hd
  have hnodup : (ds.map fun d => d.buffer.name).Nodup := by
    have hnames := b.kernel.outputs.nodup
    rw [hok.outputs, List.map_map, ← hds, List.map_map] at hnames
    exact List.Nodup.of_map outputName (by rwa [List.map_map])
  have houtputs : ∀ x, x ∈ b.kernel.trimmed.outputs.entries ↔ ∃ d ∈ ds, x = d.buffer.outputBinding := by
    intro x
    rw [Kernel.mem_trimmed_outputs, hok.outputs, ← hds, List.map_map, List.mem_map]
    constructor
    · rintro ⟨⟨d, hd, rfl⟩, -⟩
      exact ⟨d, hd, rfl⟩
    · rintro ⟨d, hd, rfl⟩
      exact ⟨⟨d, hd, rfl⟩, hok.stored _ (hmem d hd)⟩
  have hcovers : ∀ d ∈ ds, ∃ m, d.buffer.access.Covers m d.buffer.len := by
    intro d hd
    obtain ⟨o, -, -, hcov⟩ := hok.owned _ (hmem d hd)
    exact ⟨_, hcov⟩
  have hmeets := Deposit.meets ops (k := b.kernel.trimmed) In hnodup houtputs hcovers
    (fun d hd => hsize _ (hmem d hd)) hbound (by
      intro inputs outputs hin hout i hi
      refine hstores inputs outputs hin ?_ i hi
      intro p hp
      rw [← hds] at hp
      obtain ⟨d, hd, rfl⟩ := List.mem_map.1 hp
      exact hout d hd)
  refine hmeets.mono ops (fun _ _ _ hdata => hdata) ?_
  intro out _ data hkept e he hname o ho howns j hj
  obtain ⟨p, w, f⟩ := e
  -- the deposit at the same place as the buffer
  obtain ⟨k, hk⟩ := List.mem_iff_getElem?.1 he
  obtain ⟨hp, hshare⟩ := List.getElem?_zip_eq_some.1 hk
  rw [← hds, List.getElem?_map, Option.map_eq_some_iff] at hp
  obtain ⟨d, hd, rfl⟩ := hp
  obtain ⟨e', he', howner, hsum⟩ := getElem?_of_forall₂ hshares hd
  rw [hshare, Option.some.injEq] at he'
  subst he'
  have hdmem := List.mem_of_getElem? hd
  obtain ⟨o', ho', howns', hcov⟩ := hok.owned _ (hmem d hdmem)
  obtain rfl := honce.eq_of_owns ho ho' howns howns'
  exact (Access.folded_stored hcov hj (f := fun i => data.getD i ops.zero) (hkept d hdmem hname)).trans
    (hsum _ hcov j hj)

/-- Two lists that are related entry by entry, seen through functions that respect the relation. -/
theorem forall₂_zip_map {β γ δ ε : Type} {R : δ → ε → Prop} {S : β → γ → Prop} {xs : List β}
    {ys : List γ} (h : List.Forall₂ S xs ys) {f : β × γ → δ} {g : β → ε}
    (hR : ∀ x ∈ xs, ∀ y, S x y → R (f (x, y)) (g x)) :
    List.Forall₂ R ((xs.zip ys).map f) (xs.map g) := by
  induction h with
  | nil => exact .nil
  | cons hxy _ ih =>
    exact .cons (hR _ List.mem_cons_self _ hxy) (ih fun x hx => hR x (List.mem_cons_of_mem _ hx))

/-- The deposits of a regular context make up its shares. -/
theorem Sound.regular_shares (h : l.Sound masks) (hreg : l.classOf c = .regular) :
    List.Forall₂ Deposit.Makes (l.regularDeposits ops leaves c) (l.shares ops leaves c) := by
  unfold shares regularDeposits
  rw [hreg]
  refine forall₂_zip_map (layOut_spec c (l.sizeOf c) (l.contextKeys c)).2 ?_
  rintro key - p ⟨howner, haccess, hlen⟩
  refine ⟨howner, fun m _ j _ => ?_⟩
  simp only [haccess, hlen]
  rw [← sum_map_sum_comm]
  refine congrArg List.sum (List.map_congr_left fun x hx => ?_)
  have hx := (h.mem_members c x).1 hx
  unfold collected through
  rw [Finset.sum_comm]
  refine Finset.sum_congr rfl fun s _ => ?_
  by_cases hs : (l.node x).operands[s]? = some key.1
  · simp only [if_pos hs]
    rw [flow_regular ((h.classOf_eq x c hx).symm.trans hreg) (h.home_lt x c hx).2 hs,
      h.sizeOf_eq x c hx]
  · simp only [if_neg hs, Finset.sum_const_zero]

/-- The deposits of a reduction make up the shares of its context. -/
theorem Sound.reduction_shares (h : l.Sound masks) {id : Nat} (hid : l.home id = some c)
    (hred : (l.node id).opClass = .reduction) {ps : List PartialBuffer}
    (hps : List.Forall₂ (fun (t : Nat × Nat × Owner) (p : PartialBuffer) =>
      p.owner = t.2.2 ∧ p.access = .aligned ∧ p.len = (l.node t.1).size)
      (l.reductionTargets c (l.node id).operands.zipIdx) ps) :
    List.Forall₂ Deposit.Makes (l.reductionDeposits ops leaves c id ps) (l.shares ops leaves c) := by
  unfold shares reductionDeposits
  rw [h.classOf_eq id c hid, hred, h.alone id c hid hred]
  dsimp only
  rw [List.flatMap_singleton]
  refine forall₂_zip_map hps ?_
  rintro t - p ⟨howner, haccess, -⟩
  refine ⟨howner, fun m hcov j hj => ?_⟩
  simp only [haccess] at hcov ⊢
  obtain rfl : m = p.len := hcov
  rw [Finset.sum_filter]
  refine (Finset.sum_eq_single_of_mem j (Finset.mem_range.2 hj) ?_).trans (if_pos rfl)
  exact fun i _ hne => if_neg hne

/-- A backward kernel that is fed leaves the shares of its context in its partial buffers. -/
theorem Sound.backward_meets (h : l.Sound masks) (honce : l.LeavesOnce)
    (hbound : ∀ id < l.nodes.size, (l.node id).size < 2 ^ 32) (hops : ops.Sums) (hc : c ∈ l.order)
    {b : BackwardKernel} (hb : l.backwardKernel partials c = some b) (hsize : b.kernel.size < 2 ^ 32)
    {In : Binding → Array α → Prop}
    (hfed : ∀ inputs : Buffers α,
      (∀ x ∈ b.kernel.trimmed.inputs.entries, ∃ data, inputs.find? x.name = some data ∧ In x data) →
      l.Fed ops leaves partials c b.kernel.loads inputs) :
    b.kernel.trimmed.Meets ops In fun out data => ∀ e ∈ b.partials.zip (l.shares ops leaves c),
      out.name = outputName e.1.name → l.Conveys ops e data := by
  have hok := h.backwardKernel_ok hb
  have hnames : (b.partials.map PartialBuffer.name).Nodup := by
    have hnodup := b.kernel.outputs.nodup
    rw [hok.outputs, List.map_map] at hnodup
    exact List.Nodup.of_map outputName (by rwa [List.map_map])
  rcases h.backwardKernel_cases hb with ⟨hreg, rfl⟩ | ⟨id, op, hid, hop, hred, rfl⟩
  · refine hok.meets honce _ (map_buffer_regularDeposits ops leaves c) ?_ hsize (h.regular_shares hreg) ?_
    · intro p hp
      obtain ⟨-, -, -, -, hlen⟩ := exists_of_forall₂ (layOut_spec c (l.sizeOf c) (l.contextKeys c)).2 hp
      exact Nat.le_of_eq hlen
    · intro inputs outputs hin hout i hi
      have hbuffers : (l.regularDeposits ops leaves c).map Deposit.buffer =
        (l.regularBackward partials c).partials := map_buffer_regularDeposits ops leaves c
      refine (hfed inputs hin).regular_stores h hbound hops hc hreg ?_ ?_ hi
      · intro d hd
        refine hout _ ?_
        rw [← hbuffers]
        exact List.mem_map_of_mem hd
      · rw [← hbuffers, List.map_map] at hnames
        exact hnames
  · have hclass : (l.node id).opClass = .reduction := by simpa [Node.opClass, hop] using hred
    obtain ⟨-, hps⟩ := reductionBackward_body (l := l) partials c id op
    refine hok.meets honce
      (l.reductionDeposits ops leaves c id (l.reductionBackward partials c id op).partials) ?_ ?_ hsize
      (h.reduction_shares hid hclass hps) ?_
    · rw [reductionDeposits, List.map_map]
      exact List.map_snd_zip hps.length_eq.ge
    · exact fun p hp =>
        (le_foldl_max PartialBuffer.len (l.reductionBackward partials c id op).partials 0).2 p hp
    · intro inputs outputs hin hout i hi
      exact (hfed inputs hin).reduction_stores h hbound hops hid hop hred hout hnames hi

end Layout

end TensorKernels
