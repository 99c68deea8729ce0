import TensorKernels.Proofs.CallSites
import TensorKernels.Proofs.NodeGradients

/-!
# Gradients of terms and of nodes

Nodes of operators correspond to call sites, and the nodes that a node reads are those of the arguments
of its call. So what the nodes hand back is what the calls hand back, and going from the root to the
leaves the gradient of a node is that of the term it stands for
(`Lowering.Represents.gradientAt_eq`). Where the root is a leaf, the reshape around it hands its own
gradient on (`Lowering.RootLowered.gradientAt_of_wrapped`). For the leaves of a compiled root both give
`CompiledAs.gradientAt_leaf`.
-/

set_option autoImplicit false

namespace TensorKernels

/-! ## Calls -/

namespace Term

mutual

/-- A subterm has at most as many subterms as the term. -/
theorem size_le_of_mem_subterms {u : Term} (t : Term) (h : u ∈ t.subterms) : u.size ≤ t.size := by
  match t with
  | .constant value =>
    obtain rfl : u = .constant value := by simpa [subterms] using h
    exact Nat.le_refl _
  | .tensor id =>
    obtain rfl : u = .tensor id := by simpa [subterms] using h
    exact Nat.le_refl _
  | .apply site op args =>
    rw [subterms, List.mem_append, List.mem_singleton] at h
    rcases h with h | rfl
    · have hle := size_le_of_mem_allSubterms args h
      rw [size, size, subterms, List.length_append]
      exact Nat.le_trans hle (Nat.le_add_right _ _)
    · exact Nat.le_refl _

/-- A subterm of a list has at most as many subterms as the list. -/
theorem size_le_of_mem_allSubterms {u : Term} (ts : List Term) (h : u ∈ allSubterms ts) :
    u.size ≤ (allSubterms ts).length := by
  match ts with
  | [] => simp [allSubterms] at h
  | t :: rest =>
    rw [allSubterms, List.mem_append] at h
    rw [allSubterms, List.length_append]
    rcases h with h | h
    · exact Nat.le_trans (size_le_of_mem_subterms t h) (Nat.le_add_right _ _)
    · exact Nat.le_trans (size_le_of_mem_allSubterms rest h) (Nat.le_add_left _ _)

end

/-- An argument is smaller than the call. -/
theorem size_lt_of_mem_args {t : Term} {c : Call} (h : t ∈ c.args) : t.size < c.term.size := by
  have hle := size_le_of_mem_allSubterms c.args (mem_allSubterms_of_mem h)
  show t.size < (allSubterms c.args ++ [c.term]).length
  rw [List.length_append]
  exact Nat.lt_succ_of_le hle

/-- Being the same call or leaf is symmetric. -/
theorem isSame_comm (t u : Term) : t.isSame u = u.isSame t := by
  cases t <;> cases u <;> simp [isSame, eq_comm]

/-- In a built term the same call site is the same application. -/
theorem Built.eq_of_isSame {root t u : Term} (hroot : root.Built) (ht : t ∈ root.subterms)
    (hu : u ∈ root.subterms) (h : t.isSame u = true) : t = u := by
  match t, u, h with
  | .tensor a, .tensor b, h => rw [of_decide_eq_true h]
  | .apply a op args, .apply b op' args', h =>
    obtain rfl : a = b := of_decide_eq_true h
    obtain ⟨rfl, rfl⟩ := hroot.shared _ _ _ _ _ ht hu
    rfl

/-- The calls of a built term are its applications. -/
theorem Built.mem_calls {root : Term} (hroot : root.Built) {c : Call} :
    c ∈ root.calls ↔ c.term ∈ root.subterms := by
  have hcall : ∀ {c : Call}, c ∈ root.subterms.filterMap call? ↔ c.term ∈ root.subterms := by
    intro c
    rw [List.mem_filterMap]
    constructor
    · rintro ⟨u, hu, hc⟩
      match u, hc with
      | .apply site op args, hc =>
        cases hc
        exact hu
    · exact fun hmem => ⟨c.term, hmem, rfl⟩
  constructor
  · exact fun hc => hcall.1 (List.pwFilter_subset _ hc)
  · intro hmem
    -- the representative of the call site is the call itself
    obtain ⟨c', hc', hsite⟩ : ∃ c' ∈ root.calls, c.site = c'.site := by
      by_contra hnone
      have hne : ∀ c' ∈ root.calls, c.site ≠ c'.site := fun c' hc' heq => hnone ⟨c', hc', heq⟩
      have hall := (List.forall_mem_pwFilter (R := fun a b : Call => a.site ≠ b.site)
        (fun {x y z} hxz => by
          by_cases hxy : x.site = y.site
          · exact .inr (hxy ▸ hxz)
          · exact .inl hxy) c (root.subterms.filterMap call?)).1 hne
      exact hall c (hcall.2 hmem) rfl
    have hmem' := hcall.1 (List.pwFilter_subset _ hc')
    obtain ⟨site, op, args⟩ := c
    obtain ⟨site', op', args'⟩ := c'
    obtain rfl : site = site' := hsite
    obtain ⟨rfl, rfl⟩ := hroot.shared _ _ _ _ _ hmem hmem'
    exact hc'

/-- The calls of a term have distinct sites. -/
theorem pairwise_calls (root : Term) : root.calls.Pairwise fun a b => a.site ≠ b.site :=
  List.pairwise_pwFilter _

/-- The arguments of a call are subterms. -/
theorem Built.args_mem {root : Term} (hroot : root.Built) {c : Call} (hc : c ∈ root.calls) {u : Term}
    (hu : u ∈ c.args) : u ∈ root.subterms :=
  hroot.universe.args _ _ _ (hroot.mem_calls.1 hc) u (mem_allSubterms_of_mem hu)

end Term

variable {α : Type} (ops : Arithmetic α) [AddCommMonoid α] {signature : Signature}
  {env : Assignment α} {root : Term}

/-- Element `j` of what a call with gradient `g` hands back to a value of its graph. -/
def Call.inflow (signature : Signature) (env : Assignment α) (c : Call) (g : Nat → α) (t : Term)
    (j : Nat) : α :=
  ∑ s ∈ Finset.range c.args.length,
    if (c.args[s]?).any t.isSame then
      c.op.backflow ops (c.operands ops signature env) (c.result ops signature env) g s j
    else 0

/-- A call hands nothing back to what it does not read. -/
theorem Call.inflow_eq_zero {c : Call} {t : Term} (h : ∀ u ∈ c.args, t.isSame u = false) (g : Nat → α)
    (j : Nat) : c.inflow ops signature env g t j = 0 := by
  refine Finset.sum_eq_zero fun s _ => if_neg ?_
  intro hs
  cases hu : c.args[s]? with
  | none => simp [hu] at hs
  | some u => simp [hu, h u (List.mem_of_getElem? hu)] at hs

namespace Term

/-- The gradient of a value is its seed and what all calls hand back to it. -/
theorem Built.adjoint_eq (hroot : root.Built) {t : Term} (ht : t ∈ root.subterms) (j : Nat) :
    root.adjoint ops signature env t j = (if root.isSame t then ops.one else ops.zero) +
      (root.calls.map fun c =>
        c.inflow ops signature env (root.adjoint ops signature env c.term) t j).sum := by
  rw [adjoint]
  refine congrArg _ (congrArg List.sum (List.map_congr_left fun c hc => ?_))
  by_cases hread : ∃ u ∈ c.args, t.isSame u = true
  · obtain ⟨u, hu, hsame⟩ := hread
    obtain rfl := hroot.eq_of_isSame ht (hroot.args_mem hc hu) hsame
    rw [dif_pos ⟨size_lt_of_mem_args hu, size_le_of_mem_subterms root (hroot.mem_calls.1 hc)⟩]
    rfl
  · rw [Call.inflow_eq_zero ops fun u hu => Bool.eq_false_iff.2 fun hs => hread ⟨u, hu, hs⟩]
    by_cases hsize : t.size < c.term.size ∧ c.term.size ≤ root.size
    · rw [dif_pos hsize]
      exact Call.inflow_eq_zero ops (fun u hu => Bool.eq_false_iff.2 fun hs => hread ⟨u, hu, hs⟩) _ j
    · rw [dif_neg hsize]

/-- What is not in a term has no gradient. -/
theorem Built.adjoint_eq_zero (hroot : root.Built) (hops : ops.Sums) {t : Nat}
    (ht : .tensor t ∉ root.subterms) (j : Nat) :
    root.adjoint ops signature env (.tensor t) j = 0 := by
  have hnot : ∀ u ∈ root.subterms, (Term.tensor t).isSame u = false := by
    intro u hu
    match u with
    | .tensor b =>
      refine Bool.eq_false_iff.2 fun h => ht ?_
      rw [of_decide_eq_true h]
      exact hu
    | .apply _ _ _ => rfl
    | .constant _ => rfl
  rw [adjoint, isSame_comm, hnot root root.mem_subterms_self, if_neg Bool.false_ne_true, hops.zero,
    zero_add]
  refine List.sum_eq_zero fun x hx => ?_
  obtain ⟨c, hc, rfl⟩ := List.mem_map.1 hx
  split
  · exact Call.inflow_eq_zero ops (fun u hu => hnot u (hroot.args_mem hc hu)) _ j
  · rfl

end Term

/-! ## Calls and nodes -/

namespace Lowering

variable {s : Lowering} {leaves : LeafValues α}

/-- The node of a call. -/
def nodeOf (s : Lowering) (c : Call) : Nat := (s.sites.find? c.site).getD 0

/-- The node of a leaf is a leaf, and that of a call computes. -/
theorem Placed.kind {U : Term → Prop} (h : s.Placed U) {t : Term} {x : Nat} : s.At t x →
    match t with
    | .constant v => (nodeAt s.nodes x).kind = .constant v
    | .tensor a => (nodeAt s.nodes x).kind = .tensor a
    | .apply _ _ _ => (nodeAt s.nodes x).isComputed = true := by
  intro hx
  match t, hx with
  | .constant v, ⟨n, hn, hk⟩ => exact nodeAt_of_getElem? hn ▸ hk
  | .tensor a, ⟨n, hn, hk⟩ => exact nodeAt_of_getElem? hn ▸ hk
  | .apply site op args, hx =>
    obtain ⟨op', args', n, ids, -, hn, hk, -⟩ := h.call site x hx
    simp [Node.isComputed, nodeAt_of_getElem? hn, hk]

/-- Two terms are one value exactly if they have one node. -/
theorem Placed.isSame_iff {U : Term → Prop} (h : s.Placed U) {sites : List Nat} (hinv : s.Inv U sites)
    {t u : Term} {x y : Nat} (hx : s.At t x) (hy : s.At u y) (ht : ∀ v, t ≠ .constant v) :
    t.isSame u = true ↔ x = y := by
  have hkx := h.kind hx
  have hky := h.kind hy
  match t, u, hx, hy with
  | .constant v, _, _, _ => exact absurd rfl (ht v)
  | .tensor a, .tensor b, ⟨n, hn, hk⟩, ⟨n', hn', hk'⟩ =>
    refine ⟨fun hsame => ?_, ?_⟩
    · obtain rfl : a = b := of_decide_eq_true hsame
      have hfind := hinv.leafOnce x n a hn hk
      rw [hinv.leafOnce y n' a hn' hk', Option.some.injEq] at hfind
      exact hfind.symm
    · rintro rfl
      exact decide_eq_true (NodeKind.tensor.inj (hkx.symm.trans hky))
  | .apply a op args, .apply b op' args', hx, hy =>
    refine ⟨fun hsame => ?_, ?_⟩
    · obtain rfl : a = b := of_decide_eq_true hsame
      exact Option.some.inj (Eq.trans (Eq.symm hx) hy)
    · rintro rfl
      exact decide_eq_true (h.once a b x hx hy)
  -- terms of different forms have nodes of different kinds
  | .tensor a, .apply b op args, _, _ =>
    refine ⟨fun hsame => (by cases hsame), ?_⟩
    rintro rfl
    simp [Node.isComputed, hkx] at hky
  | .tensor a, .constant v, _, _ =>
    refine ⟨fun hsame => (by cases hsame), ?_⟩
    rintro rfl
    simp [hkx] at hky
  | .apply a op args, .tensor b, _, _ =>
    refine ⟨fun hsame => (by cases hsame), ?_⟩
    rintro rfl
    simp [Node.isComputed, hky] at hkx
  | .apply a op args, .constant v, _, _ =>
    refine ⟨fun hsame => (by cases hsame), ?_⟩
    rintro rfl
    simp [Node.isComputed, hky] at hkx

/-- A lowered root whose leaves have the values of an assignment. -/
structure Represents (signature : Signature) (root : Term) (env : Assignment α) (s : Lowering)
    (leaves : LeafValues α) : Prop where
  built : root.Built
  arena : Arena signature s.masks s.nodes
  inv : s.Inv (· ∈ root.subterms) root.dropoutSites
  placed : s.Placed (· ∈ root.subterms)
  tensor : ∀ t d, signature.get? t = some d → env.tensor t = leaves.tensor t
  mask : ∀ (i : Nat) site, root.dropoutSites[i]? = some site → env.mask site = leaves.mask i

namespace Represents

variable (h : Represents signature root env s leaves) {c : Call} {y : Nat}

include h

omit [AddCommMonoid α] in
/-- A call is lowered to the node at which it is. -/
theorem loweredTo (hc : c ∈ root.calls) (hy : s.At c.term y) :
    c.term.LoweredTo s.nodes root.dropoutSites y := by
  obtain ⟨op, args, hmem, hlow⟩ := h.inv.memo c.site y hy
  obtain ⟨hop, hargs⟩ := h.built.shared _ _ _ _ _ (h.built.mem_calls.1 hc) hmem
  rw [Call.term, hop, hargs]
  exact hlow

omit [AddCommMonoid α] in
/-- A node has the operands and the result of its call. -/
theorem operands_eq (hc : c ∈ root.calls) (hy : s.At c.term y) :
    c.operands ops signature env = operandsAt ops s.nodes leaves y ∧
      c.result ops signature env = valueAt ops s.nodes leaves y := by
  have hlow := h.loweredTo hc hy
  refine ⟨?_, ?_⟩
  · rw [Call.term, Term.LoweredTo] at hlow
    obtain ⟨n, ids, hn, hk, hargs, hops⟩ := hlow
    have hok := h.arena.opNode hn hk
    have hshapes : (ids.map fun id => valueAt ops s.nodes leaves id).map Flat.shape =
        ids.map fun id => (nodeAt s.nodes id).shape := by
      rw [List.map_map]
      exact List.map_congr_left fun id _ => shape_valueAt ops leaves id
    unfold Call.operands operandsAt
    rw [hargs.evalAll_eq ops h.arena h.tensor h.mask, nodeAt_of_getElem? hn]
    simp only [bind, Except.bind, hshapes, Term.operandShapes_eq hok hops, hok.inferred,
      Term.operandValues_eq ops h.mask hok hops, List.zip_map', Except.toOption, Option.getD_some]
  · unfold Call.result
    rw [hlow.eval_eq ops h.arena h.tensor h.mask]
    rfl

/-- What a node hands back to another is what its call hands back to the other's term. -/
theorem inflowAt_eq (hc : c ∈ root.calls) (hy : s.At c.term y) {t : Term} {x : Nat} (hx : s.At t x)
    (ht : ∀ v, t ≠ .constant v) (g : Nat → α) (j : Nat) :
    inflowAt ops s.nodes leaves g y x j = c.inflow ops signature env g t j := by
  have hcall : Term.apply c.site c.op c.args ∈ root.subterms := h.built.mem_calls.1 hc
  obtain ⟨n, ids, hn, hk, ⟨rest, hrest⟩, hat⟩ := h.placed.node_of_call h.built.universe hcall hy
  have hnode := nodeAt_of_getElem? hn
  have hok := h.arena.opNode hn hk
  have hlength : ids.length = c.args.length := hat.length_eq.symm
  have hfst : ∀ s' : Nat, ((nodeAt s.nodes y).operands[s']?).map Prod.fst = (ids ++ rest)[s']? := by
    intro s'
    rw [hnode, hrest, List.getElem?_map]
  obtain ⟨hoperands, hresult⟩ := h.operands_eq ops hc hy
  have hle : c.args.length ≤ (nodeAt s.nodes y).operands.length := by
    rw [hnode, ← List.length_map (f := Prod.fst), ← hrest, List.length_append, hlength]
    exact Nat.le_add_right _ _
  unfold inflowAt Call.inflow
  rw [← Finset.sum_subset (Finset.range_subset_range.2 hle)]
  · refine Finset.sum_congr rfl fun i hi => ?_
    have hi := Finset.mem_range.1 hi
    have hids : i < ids.length := hlength ▸ hi
    have hsame := h.placed.isSame_iff h.inv hx (hat.get hi hids) ht
    rw [hfst, List.getElem?_append_left hids, List.getElem?_eq_getElem hids,
      List.getElem?_eq_getElem hi, Option.any_some, flowAt, hnode, hk, hoperands, hresult]
    simp only [List.get_eq_getElem] at hsame
    by_cases heq : x = ids[i]
    · rw [if_pos (by rw [heq]), if_pos (hsame.2 heq)]
    · rw [if_neg fun hsome => heq (Option.some.inj hsome).symm, if_neg fun hs => heq (hsame.1 hs)]
  · -- beside its arguments a call reads the mask of a dropout only
    intro i hi hnot
    have hi := Finset.mem_range.1 hi
    have hge : c.args.length ≤ i := Nat.le_of_not_lt fun hlt => hnot (Finset.mem_range.2 hlt)
    refine if_neg fun hsome => ?_
    rw [hnode, hok.arity] at hi
    rw [h.built.argCount _ _ _ hcall] at hge
    cases hop : c.op
    case dropout rate =>
      obtain ⟨-, z, a, m, b, k, hxm, hkm, -⟩ := hok.mask rate hop
      rw [hop] at hi hge
      have hi : i < 2 := hi
      have hge : 1 ≤ i := hge
      obtain rfl : i = 1 := by omega
      rw [hnode, hxm] at hsome
      obtain rfl : m = x := Option.some.inj hsome
      have hkind := h.placed.kind hx
      match t, ht, hkind with
      | .constant v, ht, _ => exact ht v rfl
      | .tensor a, _, hkind => cases hkm.symm.trans hkind
      | .apply _ _ _, _, hkind => simp [Node.isComputed, hkm] at hkind
    all_goals
      rw [hop] at hi hge
      exact absurd hi (Nat.not_lt_of_le hge)

/-- A sum over nodes that operators compute is one over calls. -/
theorem sum_calls {id : Nat} (hid : s.At root id) {f : Nat → α}
    (hf : ∀ y < s.nodes.size, (nodeAt s.nodes y).isComputed = false → f y = 0) :
    ∑ y ∈ Finset.range s.nodes.size, f y = (root.calls.map fun c => f (s.nodeOf c)).sum := by
  have hat : ∀ c ∈ root.calls, s.sites.find? c.site = some (s.nodeOf c) := by
    intro c hc
    obtain ⟨y, hy⟩ := h.placed.subterm h.built.universe root root.mem_subterms_self hid
      (h.built.mem_calls.1 hc)
    have hy : s.sites.find? c.site = some y := hy
    rw [nodeOf, hy]
    rfl
  have hnodup : (root.calls.map s.nodeOf).Nodup := by
    refine List.pairwise_map.2 ((Term.pairwise_calls root).imp_of_mem ?_)
    intro a b ha hb hne heq
    exact hne (h.placed.once _ _ _ (hat a ha) (heq ▸ hat b hb))
  have hsub : (root.calls.map s.nodeOf).toFinset ⊆ Finset.range s.nodes.size := by
    intro y hy
    obtain ⟨c, hc, rfl⟩ := List.mem_map.1 (List.mem_toFinset.1 hy)
    obtain ⟨_, _, n, _, -, hn, -⟩ := h.placed.call _ _ (hat c hc)
    exact Finset.mem_range.2 (lt_size_of_getElem? hn)
  rw [← Finset.sum_subset hsub, List.sum_toFinset f hnodup, List.map_map]
  · rfl
  · intro y hy hnot
    have hy := Finset.mem_range.1 hy
    refine hf y hy (Bool.eq_false_iff.2 fun hcomp => hnot (List.mem_toFinset.2 ?_))
    obtain ⟨op, hop⟩ := Node.exists_op_of_isComputed hcomp
    obtain ⟨site, hsite⟩ := h.placed.node y _ op (getElem?_nodeAt hy) hop
    obtain ⟨op', args, n, ids, hmem, -⟩ := h.placed.call site y hsite
    have hc : (⟨site, op', args⟩ : Call) ∈ root.calls := h.built.mem_calls.2 hmem
    refine List.mem_map.2 ⟨_, hc, ?_⟩
    exact Option.some.inj ((hat _ hc).symm.trans hsite)

/-- The gradient of a node is that of the term it stands for. -/
theorem gradientAt_eq {id : Nat} (hid : s.At root id) (hcall : ∀ v, root ≠ .constant v) {t : Term}
    {x : Nat} (hmem : t ∈ root.subterms) (hx : s.At t x) (ht : ∀ v, t ≠ .constant v) (j : Nat) :
    gradientAt ops s.nodes leaves id x j = root.adjoint ops signature env t j := by
  -- readers come later, so the induction is on how many nodes are left
  induction hleft : s.nodes.size - x using Nat.strong_induction_on generalizing t x j with
  | _ left ih =>
    have hseed := h.placed.isSame_iff h.inv hid hx hcall
    rw [TensorKernels.gradientAt_eq ops h.arena, h.built.adjoint_eq ops hmem,
      h.sum_calls hid (fun y hy hleaf => inflowAt_eq_zero ops fun a ha => by
        rw [Arena.operands_leaf h.arena hy hleaf] at ha
        cases ha)]
    refine congrArg₂ _ ?_ (congrArg List.sum (List.map_congr_left fun c hc => ?_))
    · by_cases heq : x = id
      · rw [if_pos heq, if_pos (hseed.2 heq.symm)]
      · rw [if_neg heq, if_neg fun hs => heq (hseed.1 hs).symm]
    · have hcmem := h.built.mem_calls.1 hc
      obtain ⟨y, hy⟩ := h.placed.subterm h.built.universe root root.mem_subterms_self hid hcmem
      have hnode : s.nodeOf c = y := by
        have hy : s.sites.find? c.site = some y := hy
        rw [nodeOf, hy]
        rfl
      rw [hnode, h.inflowAt_eq ops hc hy hx ht]
      by_cases hread : ∃ u ∈ c.args, t.isSame u = true
      · obtain ⟨u, hu, hsame⟩ := hread
        obtain ⟨n, ids, hn, hk, hids, hat⟩ := h.placed.node_of_call h.built.universe hcmem hy
        -- the node of the call is later than that of its argument
        have hlt : x < y := by
          obtain ⟨i, hi, rfl⟩ := List.mem_iff_getElem.1 hu
          have hids' : i < ids.length := hat.length_eq ▸ hi
          have hxi := (h.placed.isSame_iff h.inv hx (hat.get hi hids') ht).1 hsame
          obtain ⟨o, ho, hfst⟩ := List.mem_map.1 (hids.subset (List.getElem_mem hids'))
          rw [hxi, List.get_eq_getElem, ← hfst]
          exact (h.arena.opNode hn hk).operand_lt o ho
        have hlast := lt_size_of_getElem? hn
        have hgradient : gradientAt ops s.nodes leaves id y =
            root.adjoint ops signature env c.term := by
          funext i
          exact ih (s.nodes.size - y) (by omega) hcmem hy (fun v hv => by cases hv) i rfl
        rw [hgradient]
      · have hnone : ∀ u ∈ c.args, t.isSame u = false :=
          fun u hu => Bool.eq_false_iff.2 fun hs => hread ⟨u, hu, hs⟩
        rw [Call.inflow_eq_zero ops hnone, Call.inflow_eq_zero ops hnone]

end Represents

/-! ## Roots -/

omit [AddCommMonoid α] in
/-- What a node reads, directly or through others, does not come after it. -/
theorem Reaches.le {masks : Array MaskSite} {nodes : Array Node} (harena : Arena signature masks nodes)
    {a b : Nat} (h : Reaches nodes a b) : b ≤ a := by
  induction h with
  | refl => exact Nat.le_refl _
  | tail _ hstep ih =>
    obtain ⟨hmem, hlt⟩ := hstep
    obtain ⟨o, ho, rfl⟩ := List.mem_map.1 hmem
    exact Nat.le_of_lt (Nat.lt_of_lt_of_le (harena.operand_lt hlt o ho) ih)

variable {shape : Shape} {id : Nat}

/-- Nothing reads the root. -/
theorem RootLowered.gradientAt_root (h : RootLowered signature root shape id s) (j : Nat) :
    gradientAt ops s.nodes leaves id id j = ops.one := by
  have harena : Arena signature s.masks s.nodes := h.signature_eq ▸ h.inv.arena
  rw [TensorKernels.gradientAt_eq ops harena, if_pos rfl, Finset.sum_eq_zero, add_zero]
  intro c hc
  have hc := Finset.mem_range.1 hc
  refine inflowAt_eq_zero ops fun a ha => ?_
  exact absurd (harena.operand_lt hc _ ha) (Nat.not_lt_of_le ((h.reach c hc).le harena))

/-- A root that is a leaf gets the gradient of the reshape around it. -/
theorem RootLowered.gradientAt_of_wrapped (h : RootLowered signature root shape id s) (hops : ops.Sums)
    {base : Nat} (hleaf : (s.node base).isComputed = false)
    (hkind : (s.node id).kind = .op (.reshape shape))
    (hoperands : (s.node id).operands = [(base, .aligned)]) {j : Nat} (hj : j < shape.size) :
    gradientAt ops s.nodes leaves id base j = ops.one := by
  have harena : Arena signature s.masks s.nodes := h.signature_eq ▸ h.inv.arena
  have hne : base ≠ id := by
    rintro rfl
    rw [h.computed] at hleaf
    cases hleaf
  -- the root and the leaf are all there is
  have hreader : ∀ c < s.nodes.size, c ≠ id → (nodeAt s.nodes c).operands = [] := by
    intro c hc hcid
    rcases (h.reach c hc).cases_head with rfl | ⟨y, ⟨hy, -⟩, hrest⟩
    · exact absurd rfl hcid
    · rw [← node_eq, hoperands, List.map_singleton, List.mem_singleton] at hy
      subst hy
      rcases hrest.cases_head with rfl | ⟨z, ⟨hz, hlt⟩, -⟩
      · exact harena.operands_leaf hc hleaf
      · rw [harena.operands_leaf hlt hleaf] at hz
        cases hz
  rw [TensorKernels.gradientAt_eq ops harena, if_neg hne, hops.zero, zero_add,
    Finset.sum_eq_single_of_mem id (Finset.mem_range.2 h.lt_size) fun c hc hcid =>
      inflowAt_eq_zero ops fun a ha => by
        rw [hreader c (Finset.mem_range.1 hc) hcid] at ha
        cases ha]
  have hsize : (nodeAt s.nodes id).shape.size = shape.size := h.size_eq
  rw [node_eq] at hkind hoperands
  have hgiven : (Op.given ops (operandsAt ops s.nodes leaves id) 0).1 = .aligned := by
    simp [Op.given, operandsAt, hoperands]
  have hflow : flowAt ops s.nodes leaves (gradientAt ops s.nodes leaves id id) id 0 j = ops.one := by
    unfold flowAt
    rw [hkind]
    show ∑ i ∈ Finset.range (valueAt ops s.nodes leaves id).shape.size with
      (Op.given ops (operandsAt ops s.nodes leaves id) 0).1.position i = j,
        gradientAt ops s.nodes leaves id id i = ops.one
    rw [hgiven, shape_valueAt, hsize, Finset.sum_filter]
    refine (Finset.sum_eq_single_of_mem j (Finset.mem_range.2 hj) fun i _ hij => if_neg hij).trans ?_
    exact (if_pos rfl).trans (h.gradientAt_root ops j)
  unfold inflowAt
  rw [hoperands, List.length_singleton, Finset.sum_range_one]
  exact (if_pos rfl).trans hflow

omit [AddCommMonoid α] in
/-- A tensor has a leaf exactly if it occurs in the root. -/
theorem RootLowered.exists_leaf_iff (h : RootLowered signature root shape id s) {t : Nat} :
    (∃ o < s.nodes.size, (nodeAt s.nodes o).kind = .tensor t) ↔ Term.tensor t ∈ root.subterms := by
  have harena : Arena signature s.masks s.nodes := h.signature_eq ▸ h.inv.arena
  obtain ⟨base, hbase, -, hid⟩ := h.stands
  constructor
  · rintro ⟨o, ho, hk⟩
    have hreach : Reaches s.nodes base o := by
      rcases hid with rfl | ⟨-, hkind, hoperands⟩
      · exact h.reach o ho
      · rcases (h.reach o ho).cases_head with rfl | ⟨y, ⟨hy, -⟩, hrest⟩
        · rw [node_eq, hk] at hkind
          cases hkind
        · rw [← node_eq, hoperands, List.map_singleton, List.mem_singleton] at hy
          subst hy
          exact hrest
    rcases node_cases harena hbase hreach with ⟨u, hu, hlow⟩ | ⟨u, -, y, i, -, hmask, -⟩
    · match u with
      | .constant v =>
        rw [Term.LoweredTo] at hlow
        obtain ⟨n, hn, hkn⟩ := hlow
        rw [nodeAt_of_getElem? hn, hkn] at hk
        cases hk
      | .tensor a =>
        rw [Term.LoweredTo] at hlow
        obtain ⟨n, hn, hkn⟩ := hlow
        rw [nodeAt_of_getElem? hn, hkn] at hk
        cases hk
        exact hu
      | .apply site op args =>
        rw [Term.LoweredTo] at hlow
        obtain ⟨n, ids, hn, hkn, -⟩ := hlow
        rw [nodeAt_of_getElem? hn, hkn] at hk
        cases hk
    · rw [hk] at hmask
      cases hmask
  · intro hmem
    obtain ⟨o, ho⟩ := Term.LoweredTo.of_subterm root base hbase hmem
    rw [Term.LoweredTo] at ho
    obtain ⟨n, hn, hk⟩ := ho
    exact ⟨o, lt_size_of_getElem? hn, by rw [nodeAt_of_getElem? hn, hk]⟩

end Lowering

/-- The gradient of a leaf is that of its tensor. -/
theorem CompiledAs.gradientAt_leaf {leaves : LeafValues α} {shape : Shape} {plan : Plan} {id : Nat}
    {s : Lowering} (h : CompiledAs signature root shape plan id s) (hroot : root.Built) (hops : ops.Sums)
    (htensor : ∀ t d, signature.get? t = some d → env.tensor t = leaves.tensor t)
    (hmask : ∀ (i : Nat) site, root.dropoutSites[i]? = some site → env.mask site = leaves.mask i)
    {o t j : Nat} (ho : o < s.nodes.size) (hk : (nodeAt s.nodes o).kind = .tensor t)
    (hj : j < (nodeAt s.nodes o).size) :
    gradientAt ops s.nodes leaves id o j = root.adjoint ops signature env (.tensor t) j := by
  have hmem := h.lowered.exists_leaf_iff.1 ⟨o, ho, hk⟩
  match root with
  | .constant v => simp [Term.subterms] at hmem
  | .tensor a =>
    obtain rfl : t = a := by simpa [Term.subterms] using hmem
    obtain ⟨base, hbase, hsize, hid⟩ := h.lowered.stands
    rw [Term.LoweredTo] at hbase
    obtain ⟨n, hn, hkn⟩ := hbase
    obtain rfl : base = o := by
      have hfind := h.lowered.inv.leafOnce base n t hn hkn
      rw [h.lowered.inv.leafOnce o _ t (getElem?_nodeAt ho) hk, Option.some.injEq] at hfind
      exact hfind.symm
    have hadjoint : (Term.tensor t).adjoint ops signature env (.tensor t) j = ops.one := by
      rw [Term.adjoint, if_pos (by simp [Term.isSame])]
      exact add_zero _
    rw [hadjoint]
    rcases hid with rfl | ⟨hleaf, hkind, hoperands⟩
    · have hcomp := h.lowered.computed
      simp [Lowering.node_eq, Node.isComputed, hk] at hcomp
    · exact h.lowered.gradientAt_of_wrapped ops hops hleaf hkind hoperands (hsize ▸ hj)
  | .apply site op args =>
    obtain ⟨hplaced, hat⟩ := Lowering.lowerRoot_placed hroot h.lowering
    have hrep : Lowering.Represents signature (.apply site op args) env s leaves :=
      ⟨hroot, h.sound.arena, h.lowered.inv, hplaced, htensor, hmask⟩
    exact hrep.gradientAt_eq ops hat (fun v hv => by cases hv) hmem ⟨_, getElem?_nodeAt ho, hk⟩
      (fun v hv => by cases hv) j

end TensorKernels
