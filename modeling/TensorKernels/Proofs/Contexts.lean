import TensorKernels.Layout
import TensorKernels.Proofs.Lowering
import TensorKernels.Proofs.Placement

/-!
# Contexts of a layout

`Layout.Sound` collects what the code of kernels relies on. Every computed node has a context, all
nodes of a context share its class and size, and a reduction has its context to itself. The edges of
the arena are of two kinds (`Layout.Sound.edge`): inside a context a regular node is read in place by
a regular node, and every other computed operand comes from a context that stands earlier in the
order. Stages decide this: a value that has to be handed over raises the stage of its reader, and
what is left joins two regular nodes of one stage and size, for which there is only one context.
-/

set_option autoImplicit false

namespace TensorKernels

/-- A running maximum is at least its start and every term. -/
theorem le_foldl_max {β : Type} (f : β → Nat) (l : List β) (init : Nat) :
    init ≤ l.foldl (fun m x => max m (f x)) init ∧
      ∀ x ∈ l, f x ≤ l.foldl (fun m x => max m (f x)) init := by
  induction l generalizing init with
  | nil => exact ⟨Nat.le_refl _, by intro x hx; cases hx⟩
  | cons y l ih =>
    obtain ⟨h₁, h₂⟩ := ih (max init (f y))
    rw [List.foldl_cons]
    refine ⟨by omega, ?_⟩
    intro x hx
    rcases List.mem_cons.1 hx with rfl | hx
    · omega
    · exact h₂ x hx

/-- An operand forces its stage on its reader. -/
theorem OpNodeOk.operandStage_le {masks : Array MaskSite} {nodes : Array Node} {id : Nat} {op : Op}
    {n : Node} (h : OpNodeOk masks nodes id op n) {o : Nat × Access} (ho : o ∈ n.operands) :
    Lowering.operandStage (nodeAt nodes o.1) op.opClass o.2 ≤ n.stage := by
  rw [h.stage]
  exact (le_foldl_max (fun o : Nat × Access =>
    Lowering.operandStage (nodeAt nodes o.1) op.opClass o.2) n.operands 0).2 o ho

/-- A computed node has an operator. -/
theorem Node.exists_op_of_isComputed {n : Node} (h : n.isComputed) : ∃ op, n.kind = .op op := by
  unfold Node.isComputed at h
  cases hk : n.kind with
  | op op => exact ⟨op, rfl⟩
  | tensor t => simp [hk] at h
  | mask i => simp [hk] at h
  | constant x => simp [hk] at h

/-- Operands come before the nodes that read them. -/
theorem Arena.operand_lt {signature : Signature} {masks : Array MaskSite} {nodes : Array Node}
    (h : Arena signature masks nodes) {id : Nat} (hid : id < nodes.size) :
    ∀ o ∈ (nodeAt nodes id).operands, o.1 < id := by
  intro o ho
  obtain ⟨op, hop⟩ := Node.exists_op_of_isComputed (h.isComputed_of_mem hid ho)
  exact (h.opNode (getElem?_nodeAt hid) hop).operand_lt o ho

/-- An operand that a regular node reads in place has as many elements as the node. -/
theorem OpNodeOk.covers {masks : Array MaskSite} {nodes : Array Node} {id : Nat} {op : Op} {n : Node}
    (h : OpNodeOk masks nodes id op n) (hop : op.opClass = .regular) {o : Nat} {a : Access}
    (ho : (o, a) ∈ n.operands) : a.Covers (nodeAt nodes o).size n.size := by
  have hlen : (n.operands.map fun o => (nodeAt nodes o.1).shape).length = op.arity := by
    rw [List.length_map, h.arity]
  have hmask : ∀ rate, op = .dropout rate →
      ∃ s, n.operands.map (fun o => (nodeAt nodes o.1).shape) = [s, s] := by
    intro rate hrate
    obtain ⟨-, x, b, m, c, i, hxm, -, hshape, -⟩ := h.mask rate hrate
    exact ⟨(nodeAt nodes x).shape, by rw [hxm]; simp [hshape]⟩
  have hcov := Op.infer_covers hop hlen hmask h.inferred
  rw [List.forall₂_map_left_iff, List.forall₂_map_right_iff, List.forall₂_same] at hcov
  exact hcov (o, a) ho

/-- A computed operand has a lower stage than its reader, or both are regular nodes of one stage and
size and the operand is read in place. -/
theorem OpNodeOk.operand_stage {masks : Array MaskSite} {nodes : Array Node} {id : Nat} {op : Op}
    {n : Node} (h : OpNodeOk masks nodes id op n) {o : Nat} {a : Access} (ho : (o, a) ∈ n.operands)
    (hcomp : (nodeAt nodes o).isComputed) :
    (nodeAt nodes o).stage < n.stage ∨
      ((nodeAt nodes o).stage = n.stage ∧ op.opClass = .regular ∧
        (nodeAt nodes o).opClass = .regular ∧ a = .aligned ∧ (nodeAt nodes o).size = n.size) := by
  have hle := h.operandStage_le ho
  unfold Lowering.operandStage at hle
  dsimp only at hle
  rw [if_pos hcomp] at hle
  by_cases hmat : Lowering.isMaterialized (nodeAt nodes o).opClass op.opClass a = true
  · rw [if_pos hmat] at hle
    exact .inl (by omega)
  · rw [if_neg hmat] at hle
    simp only [Lowering.isMaterialized, Bool.or_eq_true, decide_eq_true_eq, not_or,
      Bool.not_eq_true', Bool.not_eq_false] at hmat
    obtain ⟨⟨ho', hop'⟩, ha⟩ := hmat
    have hreg : op.opClass = .regular := by
      cases hcl : op.opClass with
      | regular => rfl
      | reduction => exact absurd hcl hop'
    have hreg' : (nodeAt nodes o).opClass = .regular := by
      cases hcl : (nodeAt nodes o).opClass with
      | regular => rfl
      | reduction => exact absurd hcl ho'
    obtain rfl : a = .aligned := by
      cases a <;> simp_all [Access.isAligned]
    have hcov : (nodeAt nodes o).size = n.size := h.covers hreg ho
    rcases Nat.lt_or_eq_of_le hle with hlt | heq
    · exact .inl hlt
    · exact .inr ⟨heq, hreg, hreg', rfl, hcov⟩

namespace Layout

variable {l : Layout} {masks : Array MaskSite}

/-- What the code of kernels relies on. -/
structure Sound (l : Layout) (masks : Array MaskSite) : Prop where
  arena : Arena l.signature masks l.nodes
  root_lt : l.root < l.nodes.size
  root_computed : (l.node l.root).isComputed
  home_size : l.placement.home.size = l.nodes.size
  placed : ∀ id < l.nodes.size, (l.node id).isComputed → ∃ c, l.home id = some c
  home_lt : ∀ id c, l.home id = some c → id < l.nodes.size ∧ (l.node id).isComputed
  mem_members : ∀ c id, id ∈ l.members c ↔ l.home id = some c
  members_sorted : ∀ c, (l.members c).Pairwise (· < ·)
  classOf_eq : ∀ id c, l.home id = some c → l.classOf c = (l.node id).opClass
  sizeOf_eq : ∀ id c, l.home id = some c → l.sizeOf c = (l.node id).size
  /-- A context knows its number; the placement leaves its inputs and exports open. -/
  contexts : ∀ c ctx, l.context? c = some ctx → ctx.id = c ∧ ctx.inputs = .empty ∧ ctx.exports = []
  /-- A reduction is alone in its context. -/
  alone : ∀ id c, l.home id = some c → (l.node id).opClass = .reduction → l.members c = [id]
  order_nodup : l.order.Nodup
  mem_order : ∀ c, c ∈ l.order ↔ ∃ id, l.home id = some c
  /-- A computed operand is read in place inside its own context, or comes from an earlier one. -/
  edge : ∀ id c o a c', l.home id = some c → (o, a) ∈ (l.node id).operands → l.home o = some c' →
    (c' = c ∧ (l.node id).opClass = .regular ∧ (l.node o).opClass = .regular ∧ a = .aligned) ∨
      (c' ≠ c ∧ ∀ before after, l.order = before ++ c :: after → c' ∈ before)

/-- Contexts in the order of their stages. -/
def comesBefore (a b : Context) : Bool := a.stage < b.stage || (a.stage = b.stage && a.id ≤ b.id)

/-- The order of contexts sorts the nonempty ones and takes their numbers. -/
theorem linearize_eq (p : Partition) :
    p.linearize =
      ((p.contexts.toList.filter fun c => !c.isEmpty).mergeSort comesBefore).map Context.id := rfl

/-- Sorting contexts by stage and number leaves them in that order. -/
theorem pairwise_mergeSort_comesBefore (cs : List Context) :
    (cs.mergeSort comesBefore).Pairwise fun a b => comesBefore a b = true := by
  refine List.pairwise_mergeSort ?_ ?_ cs
  · intro a b c hab hbc
    simp only [comesBefore, Bool.or_eq_true, decide_eq_true_eq, Bool.and_eq_true] at hab hbc ⊢
    omega
  · intro a b
    simp only [comesBefore, Bool.or_eq_true, decide_eq_true_eq, Bool.and_eq_true]
    omega

section OfRoot

variable {nodes : Array Node} {p : Partition} {home : Array (Option Nat)}

/-- A context is in the order exactly if it computes a node. -/
theorem mem_linearize (h : Placement.Inv nodes p home) {p' : Partition}
    (hp' : p.contexts = p'.contexts) (c : Nat) :
    c ∈ p'.linearize ↔ ∃ id, homeOf home id = some c := by
  rw [linearize_eq, List.mem_map]
  constructor
  · rintro ⟨ctx, hctx, rfl⟩
    rw [List.mem_mergeSort, List.mem_filter] at hctx
    obtain ⟨hmem, hne⟩ := hctx
    rw [← hp', Array.mem_toList_iff, Array.mem_iff_getElem?] at hmem
    obtain ⟨i, hi⟩ := hmem
    have hid := h.ids i ctx hi
    unfold Context.isEmpty at hne
    cases hn : ctx.nodes with
    | nil => simp [hn] at hne
    | cons id rest =>
      refine ⟨id, ?_⟩
      rw [hid]
      exact (h.member i ctx id hi (by simp [hn])).1
  · rintro ⟨id, hid⟩
    obtain ⟨ctx, hctx, hmem⟩ := h.home_some id c hid
    refine ⟨ctx, ?_, h.ids c ctx hctx⟩
    rw [List.mem_mergeSort, List.mem_filter]
    refine ⟨?_, ?_⟩
    · rw [← hp', Array.mem_toList_iff]
      exact Array.mem_of_getElem? hctx
    · unfold Context.isEmpty
      cases hn : ctx.nodes with
      | nil => simp [hn] at hmem
      | cons x rest => rfl

/-- No context is in the order twice. -/
theorem nodup_linearize (h : Placement.Inv nodes p home) {p' : Partition}
    (hp' : p.contexts = p'.contexts) : p'.linearize.Nodup := by
  rw [linearize_eq]
  refine List.Nodup.perm ?_ ((List.mergeSort_perm _ _).symm.map _)
  refine List.Nodup.sublist ((List.filter_sublist).map _) ?_
  have hrange : p'.contexts.toList.map Context.id = List.range p'.contexts.size := by
    refine List.ext_getElem (by simp) ?_
    intro i h₁ h₂
    rw [List.length_range] at h₂
    rw [List.getElem_map, List.getElem_range, Array.getElem_toList]
    exact h.ids i _ (by rw [hp']; exact Array.getElem?_eq_getElem h₂)
  rw [hrange]
  exact List.nodup_range

/-- A context of a lower stage stands earlier. -/
theorem mem_before_of_stage_lt (h : Placement.Inv nodes p home) {p' : Partition}
    (hp' : p.contexts = p'.contexts) {c c' : Nat} {ctx ctx' : Context}
    (hc : p.contexts[c]? = some ctx) (hc' : p.contexts[c']? = some ctx')
    (hmem : c' ∈ p'.linearize) (hlt : ctx'.stage < ctx.stage) {before after : List Nat}
    (horder : p'.linearize = before ++ c :: after) : c' ∈ before := by
  rw [horder, List.mem_append, List.mem_cons] at hmem
  rcases hmem with hmem | rfl | hmem
  · exact hmem
  · rw [hc] at hc'
    cases hc'
    omega
  · exfalso
    have hsorted := pairwise_mergeSort_comesBefore (p'.contexts.toList.filter fun c => !c.isEmpty)
    rw [linearize_eq] at horder
    obtain ⟨l₁, l₂, hl, rfl, hl₂⟩ := List.map_eq_append_iff.1 horder
    obtain ⟨x, l₃, rfl, hx, rfl⟩ := List.map_eq_cons_iff.1 hl₂
    obtain ⟨y, hy, hyc⟩ := List.mem_map.1 hmem
    rw [hl, List.pairwise_append, List.pairwise_cons] at hsorted
    have hxy := hsorted.2.1.1 y hy
    -- the entries of the sorted list are the contexts with these numbers
    have hfind : ∀ z ∈ l₁ ++ x :: l₃, p.contexts[z.id]? = some z := by
      intro z hz
      rw [← hl, List.mem_mergeSort, List.mem_filter, ← hp', Array.mem_toList_iff,
        Array.mem_iff_getElem?] at hz
      obtain ⟨⟨i, hi⟩, -⟩ := hz
      rw [h.ids i z hi, hi]
    have hx' := hfind x (by simp)
    have hy' := hfind y (by simp [hy])
    rw [hx, hc] at hx'
    rw [hyc, hc'] at hy'
    cases hx'
    cases hy'
    simp only [comesBefore, Bool.or_eq_true, decide_eq_true_eq, Bool.and_eq_true] at hxy
    omega

/-- A computed operand shares the context of its reader, regular like it and read in place, or it has a
lower stage. -/
theorem same_context_or_stage_lt (h : Placement.Inv nodes p home) {signature : Signature}
    {masks : Array MaskSite} (harena : Arena signature masks nodes) {x o c c' : Nat} {a : Access}
    (hx : homeOf home x = some c) (ho : (o, a) ∈ (nodeAt nodes x).operands)
    (ho' : homeOf home o = some c') :
    (c' = c ∧ (nodeAt nodes x).opClass = .regular ∧ (nodeAt nodes o).opClass = .regular ∧
      a = .aligned) ∨ (nodeAt nodes o).stage < (nodeAt nodes x).stage := by
  obtain ⟨ctx, hctx, hmem⟩ := h.home_some x c hx
  obtain ⟨ctx', hctx', hmem'⟩ := h.home_some o c' ho'
  obtain ⟨-, hlt, hcomp, hclass, hstage, hsize⟩ := h.member c ctx x hctx hmem
  obtain ⟨-, -, hcomp', hclass', hstage', hsize'⟩ := h.member c' ctx' o hctx' hmem'
  obtain ⟨op, hop⟩ := Node.exists_op_of_isComputed hcomp
  have hxclass : (nodeAt nodes x).opClass = op.opClass := by simp [Node.opClass, hop]
  rcases (harena.opNode (getElem?_nodeAt hlt) hop).operand_stage ho hcomp' with
    hst | ⟨hst, hreg, hreg', rfl, hcov⟩
  · exact .inr hst
  · -- there is one regular context for a stage and a size
    have hj := h.joinable c ctx hctx (by rw [hclass, hxclass, hreg])
    have hj' := h.joinable c' ctx' hctx' (by rw [hclass', hreg'])
    rw [hstage', hsize', hst, hcov, ← hstage, ← hsize, hj] at hj'
    cases hj'
    exact .inl ⟨rfl, hxclass.trans hreg, hreg', rfl⟩

/-- A node of a lower stage is in another context, which stands earlier. -/
theorem context_before_of_stage_lt (h : Placement.Inv nodes p home) {p' : Partition}
    (hp' : p.contexts = p'.contexts) {x o c c' : Nat} (hx : homeOf home x = some c)
    (ho : homeOf home o = some c') (hlt : (nodeAt nodes o).stage < (nodeAt nodes x).stage) :
    c' ≠ c ∧ ∀ before after, p'.linearize = before ++ c :: after → c' ∈ before := by
  obtain ⟨ctx, hctx, hmem⟩ := h.home_some x c hx
  obtain ⟨ctx', hctx', hmem'⟩ := h.home_some o c' ho
  have hst : ctx'.stage < ctx.stage := by
    rw [(h.member c ctx x hctx hmem).2.2.2.2.1, (h.member c' ctx' o hctx' hmem').2.2.2.2.1]
    exact hlt
  refine ⟨?_, fun before after horder => ?_⟩
  · rintro rfl
    rw [hctx] at hctx'
    cases hctx'
    omega
  · exact mem_before_of_stage_lt h hp' hctx hctx' ((mem_linearize h hp' c').2 ⟨o, ho⟩) hst horder

end OfRoot

/-- The nodes of a context, from the first to the last. -/
theorem pairwise_lt_mergeSort {l : List Nat} (h : l.Nodup) :
    (l.mergeSort fun a b => a ≤ b).Pairwise (· < ·) := by
  have hsorted : (l.mergeSort fun a b => a ≤ b).Pairwise fun a b => a ≤ b := by
    have := @List.pairwise_mergeSort Nat (fun a b => decide (a ≤ b))
      (fun a b c hab hbc => by simp at hab hbc ⊢; omega) (fun a b => by simp; omega) l
    simpa using this
  refine (hsorted.and (h.perm (List.mergeSort_perm _ _).symm)).imp ?_
  rintro a b ⟨hle, hne⟩
  omega

/-- The layout of a lowered root is sound. -/
theorem ofRoot_sound {signature : Signature} {root : Term} {shape : Shape} {id : Nat} {s : Lowering}
    (h : Lowering.RootLowered signature root shape id s) :
    (ofRoot signature s.nodes id).Sound s.masks := by
  have harena : Arena signature s.masks s.nodes := h.signature_eq ▸ h.inv.arena
  obtain ⟨p, hinv, hcontexts, hroot, hclosed⟩ :=
    Placement.ofRoot_spec (fun x hx => harena.operand_lt hx) h.lt_size h.computed
  -- a member of a context, with everything that is known about it
  have hhome : ∀ x c, (ofRoot signature s.nodes id).home x = some c →
      ∃ ctx, p.contexts[c]? = some ctx ∧ (ofRoot signature s.nodes id).context? c = some ctx ∧
        x ∈ ctx.nodes := by
    intro x c hx
    obtain ⟨ctx, hctx, hmem⟩ := hinv.home_some x c hx
    exact ⟨ctx, hctx, by rw [← hctx, hcontexts]; rfl, hmem⟩
  have hmembers : ∀ c ctx, (ofRoot signature s.nodes id).context? c = some ctx →
      (ofRoot signature s.nodes id).members c = ctx.nodes.mergeSort fun a b => a ≤ b := by
    intro c ctx hctx
    simp only [members, hctx, Option.elim_some]
  have hplaced : ∀ x < s.nodes.size, (nodeAt s.nodes x).isComputed →
      (homeOf (Placement.ofRoot s.nodes id).home x).isSome := by
    intro x hx hcomp
    have hreach := h.reach x hx
    induction hreach with
    | refl => exact hroot
    | @tail a b _ hstep ih =>
      obtain ⟨hb, ha⟩ := hstep
      obtain ⟨o, ho, rfl⟩ := List.mem_map.1 hb
      exact hclosed a (ih ha (harena.isComputed_of_mem ha ho)) o ho hcomp hx
  constructor
  case arena => exact harena
  case root_lt => exact h.lt_size
  case root_computed => exact h.computed
  case home_size => exact hinv.home_size
  case placed =>
    intro x hx hcomp
    exact Option.isSome_iff_exists.1 (hplaced x hx hcomp)
  case home_lt =>
    intro x c hx
    obtain ⟨ctx, hctx, -, hmem⟩ := hhome x c hx
    obtain ⟨-, hlt, hcomp, -⟩ := hinv.member c ctx x hctx hmem
    exact ⟨hlt, hcomp⟩
  case mem_members =>
    intro c x
    constructor
    · intro hx
      cases hctx : (ofRoot signature s.nodes id).context? c with
      | none => simp [members, hctx] at hx
      | some ctx =>
        rw [hmembers c ctx hctx, List.mem_mergeSort] at hx
        have hc : p.contexts[c]? = some ctx := by rw [hcontexts]; exact hctx
        exact (hinv.member c ctx x hc hx).1
    · intro hx
      obtain ⟨ctx, -, hctx, hmem⟩ := hhome x c hx
      rw [hmembers c ctx hctx, List.mem_mergeSort]
      exact hmem
  case members_sorted =>
    intro c
    cases hctx : (ofRoot signature s.nodes id).context? c with
    | none => simp [members, hctx]
    | some ctx =>
      rw [hmembers c ctx hctx]
      exact pairwise_lt_mergeSort (hinv.nodup c ctx (by rw [hcontexts]; exact hctx))
  case classOf_eq =>
    intro x c hx
    obtain ⟨ctx, hc, hctx, hmem⟩ := hhome x c hx
    simp only [classOf, hctx, Option.elim_some]
    exact (hinv.member c ctx x hc hmem).2.2.2.1
  case sizeOf_eq =>
    intro x c hx
    obtain ⟨ctx, hc, hctx, hmem⟩ := hhome x c hx
    simp only [sizeOf, hctx, Option.elim_some]
    exact (hinv.member c ctx x hc hmem).2.2.2.2.2
  case contexts =>
    intro c ctx hctx
    have hc : p.contexts[c]? = some ctx := by rw [hcontexts]; exact hctx
    exact ⟨hinv.ids c ctx hc, hinv.unbound c ctx hc⟩
  case alone =>
    intro x c hx hred
    obtain ⟨ctx, hc, hctx, hmem⟩ := hhome x c hx
    have hlen := hinv.single c ctx hc (((hinv.member c ctx x hc hmem).2.2.2.1).trans hred)
    rw [hmembers c ctx hctx]
    match ctx.nodes, hmem, hlen with
    | [y], hmem, _ =>
      obtain rfl := List.mem_singleton.1 hmem
      exact List.mergeSort_singleton x
  case order_nodup =>
    exact nodup_linearize hinv hcontexts
  case mem_order =>
    intro c
    exact mem_linearize hinv hcontexts c
  case edge =>
    intro x c o a c' hx ho hc'
    exact (same_context_or_stage_lt hinv harena hx ho hc').imp_right fun hlt =>
      context_before_of_stage_lt hinv hcontexts hx hc' hlt

end Layout

end TensorKernels
