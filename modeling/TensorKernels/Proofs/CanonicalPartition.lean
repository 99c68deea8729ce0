import TensorKernels.Proofs.Building
import TensorKernels.Proofs.Compilation
import Mathlib.Data.Finset.Card
import Mathlib.Data.Finset.Sum

/-!
# The partition is canonical

Nodes are placed one after the other, and the context that a node gets depends on what is open when it
is reached. The partition that comes out does not: a reduction has a context of its own, and two
regular nodes share one exactly if they agree in stage and size. `Placement.Visited` are all states
that some order of placing leads to, from whatever context each node is looked at;
`Visited.inv` is the step and run lemma, and the rest follows from the invariant alone.
-/

set_option autoImplicit false

namespace TensorKernels

namespace Placement

variable {nodes : Array Node}

/-- The placements that are reached by placing nodes in any order, each looked at from any context
that is open by then. -/
inductive Visited (nodes : Array Node) (size : Nat) : Placement → Prop
  | start : Visited nodes size (start nodes size)
  | assign {p : Placement} {current id : Nat} :
      Visited nodes size p → current < p.partition.contexts.size → id < nodes.size →
      (nodeAt nodes id).isComputed → homeOf p.home id = none →
      Visited nodes size (p.assign current id (nodeAt nodes id)).2

/-- What has been visited satisfies the invariant of the placement. -/
theorem Visited.inv {size : Nat} {p : Placement} (h : Visited nodes size p) :
    Inv nodes p.partition p.home := by
  induction h with
  | start => exact start_inv nodes size
  | assign _ hcur hid hcomp hnone ih => exact (assign_spec ih hcur hid hcomp hnone).1

/-- Placing a node with all that it depends on is one way of placing nodes one after the other. -/
theorem Visited.place (hops : ∀ id < nodes.size, ∀ o ∈ (nodeAt nodes id).operands, o.1 < id)
    {size : Nat} (id current : Nat) {p : Placement} (h : Visited nodes size p)
    (hcur : current < p.partition.contexts.size) :
    Visited nodes size (place nodes current id p) := by
  induction id using Nat.strongRecOn generalizing current p with
  | _ id ih =>
    rw [Placement.place]
    by_cases hid : id < nodes.size
    · rw [getElem?_nodeAt hid]
      dsimp only
      by_cases hplaced : ((homeOf p.home id).isSome || !(nodeAt nodes id).isComputed) = true
      · rw [if_pos hplaced]
        exact h
      · rw [if_neg hplaced]
        rw [Bool.or_eq_true, not_or] at hplaced
        have hnone : homeOf p.home id = none := by simpa using hplaced.1
        have hcomp : (nodeAt nodes id).isComputed = true := by simpa using hplaced.2
        have hstep := h.assign hcur hid hcomp hnone
        have hcontext := (assign_spec h.inv hcur hid hcomp hnone).2.2.1
        revert hstep hcontext
        generalize (p.assign current id (nodeAt nodes id)).2 = q
        generalize (p.assign current id (nodeAt nodes id)).1 = context
        intro hstep hcontext
        induction (nodeAt nodes id).operands generalizing q with
        | nil => exact hstep
        | cons o operands ihops =>
          rw [List.foldl_cons]
          by_cases ho : o.1 < id
          · rw [if_pos ho]
            have hgrows := (place_grows hops o.1 context q hstep.inv hcontext).1
            exact ihops _ (ih o.1 ho context hstep hcontext)
              (Nat.lt_of_lt_of_le hcontext hgrows.contexts)
          · rw [if_neg ho]
            exact ihops q hstep hcontext
    · rw [Array.getElem?_eq_none (by omega)]
      exact h

/-- What decides the context of a node: the node itself for a reduction, otherwise stage and size. -/
def contextKey (nodes : Array Node) (id : Nat) : Nat ⊕ (Nat × Nat) :=
  match (nodeAt nodes id).opClass with
  | .reduction => .inl id
  | .regular => .inr ((nodeAt nodes id).stage, (nodeAt nodes id).size)

/-- Two different nodes have one key exactly if they are regular, of one stage and of one size. -/
theorem contextKey_eq_iff {x y : Nat} (hne : x ≠ y) :
    contextKey nodes x = contextKey nodes y ↔
      (nodeAt nodes x).opClass = .regular ∧ (nodeAt nodes y).opClass = .regular ∧
        (nodeAt nodes x).stage = (nodeAt nodes y).stage ∧
        (nodeAt nodes x).size = (nodeAt nodes y).size := by
  unfold contextKey
  cases (nodeAt nodes x).opClass <;> cases (nodeAt nodes y).opClass <;> simp [hne]

variable {p : Partition} {home : Array (Option Nat)}

/-- Two placed nodes share a context exactly if their keys agree. -/
theorem Inv.home_eq_iff (h : Inv nodes p home) {x y c d : Nat} (hx : homeOf home x = some c)
    (hy : homeOf home y = some d) : c = d ↔ contextKey nodes x = contextKey nodes y := by
  by_cases hne : x = y
  · subst hne
    rw [hx, Option.some.injEq] at hy
    exact iff_of_true hy rfl
  obtain ⟨cx, hcx, hmx⟩ := h.home_some x c hx
  obtain ⟨cy, hcy, hmy⟩ := h.home_some y d hy
  obtain ⟨-, -, -, hclassx, hstagex, hsizex⟩ := h.member c cx x hcx hmx
  obtain ⟨-, -, -, hclassy, hstagey, hsizey⟩ := h.member d cy y hcy hmy
  rw [contextKey_eq_iff hne]
  constructor
  · rintro rfl
    obtain rfl : cx = cy := Option.some.inj (hcx.symm.trans hcy)
    have hregular : cx.opClass = .regular := by
      cases hclass : cx.opClass with
      | regular => rfl
      | reduction =>
        -- two nodes do not fit into the context of a reduction
        have hlen := h.single c cx hcx hclass
        match hn : cx.nodes, hlen with
        | [], _ => simp [hn] at hmx
        | [z], _ =>
          rw [hn, List.mem_singleton] at hmx hmy
          exact absurd (hmx.trans hmy.symm) hne
    exact ⟨hclassx ▸ hregular, hclassy ▸ hregular, hstagex.symm.trans hstagey,
      hsizex.symm.trans hsizey⟩
  · rintro ⟨hrx, hry, hstage, hsize⟩
    have hjx := h.joinable c cx hcx (hclassx.trans hrx)
    have hjy := h.joinable d cy hcy (hclassy.trans hry)
    rw [hstagey, hsizey, ← hstage, ← hsize, ← hstagex, ← hsizex, hjx] at hjy
    exact Option.some.inj hjy

/-- The computed nodes of a class. -/
def computedOf (nodes : Array Node) (opClass : OpClass) : Finset Nat :=
  (Finset.range nodes.size).filter fun x =>
    (nodeAt nodes x).isComputed ∧ (nodeAt nodes x).opClass = opClass

/-- The stages and sizes that occur among the regular computed nodes. -/
def regularKeys (nodes : Array Node) : Finset (Nat × Nat) :=
  (computedOf nodes .regular).image fun x => ((nodeAt nodes x).stage, (nodeAt nodes x).size)

/-- The keys of computed nodes: one per reduction, and one per stage and size of regular nodes. -/
theorem image_contextKey (nodes : Array Node) :
    ((Finset.range nodes.size).filter fun x => (nodeAt nodes x).isComputed).image
        (contextKey nodes) =
      (computedOf nodes .reduction).disjSum (regularKeys nodes) := by
  ext key
  simp only [Finset.mem_image, Finset.mem_filter, Finset.mem_range, Finset.mem_disjSum,
    regularKeys, computedOf]
  constructor
  · rintro ⟨x, ⟨hx, hcomp⟩, rfl⟩
    unfold contextKey
    cases hclass : (nodeAt nodes x).opClass with
    | reduction => exact .inl ⟨x, ⟨hx, hcomp, hclass⟩, rfl⟩
    | regular => exact .inr ⟨_, ⟨x, ⟨hx, hcomp, hclass⟩, rfl⟩, rfl⟩
  · rintro (⟨x, ⟨hx, hcomp, hclass⟩, rfl⟩ | ⟨_, ⟨x, ⟨hx, hcomp, hclass⟩, rfl⟩, rfl⟩)
    · exact ⟨x, ⟨hx, hcomp⟩, by simp [contextKey, hclass]⟩
    · exact ⟨x, ⟨hx, hcomp⟩, by simp [contextKey, hclass]⟩

/-- Once all computed nodes are placed, these are the placed nodes. -/
theorem Inv.isSome_home_iff (h : Inv nodes p home)
    (hall : ∀ x < nodes.size, (nodeAt nodes x).isComputed → (homeOf home x).isSome) (x : Nat) :
    (homeOf home x).isSome ↔ x < nodes.size ∧ (nodeAt nodes x).isComputed := by
  refine ⟨fun hx => ?_, fun hx => hall x hx.1 hx.2⟩
  obtain ⟨c, hc⟩ := Option.isSome_iff_exists.1 hx
  obtain ⟨ctx, hctx, hmem⟩ := h.home_some x c hc
  obtain ⟨-, hlt, hcomp, -⟩ := h.member c ctx x hctx hmem
  exact ⟨hlt, hcomp⟩

/-- Two placements of all computed nodes put the same nodes together. -/
theorem Inv.sameHome_iff (h : Inv nodes p home) {p' : Partition} {home' : Array (Option Nat)}
    (h' : Inv nodes p' home')
    (hall : ∀ x < nodes.size, (nodeAt nodes x).isComputed → (homeOf home x).isSome)
    (hall' : ∀ x < nodes.size, (nodeAt nodes x).isComputed → (homeOf home' x).isSome) (x y : Nat) :
    homeOf home x = homeOf home y ↔ homeOf home' x = homeOf home' y := by
  have hsome : ∀ z, (homeOf home z).isSome = (homeOf home' z).isSome := by
    intro z
    exact Bool.eq_iff_iff.2 ((h.isSome_home_iff hall z).trans (h'.isSome_home_iff hall' z).symm)
  have hx := hsome x
  have hy := hsome y
  cases hcx : homeOf home x <;> cases hcx' : homeOf home' x <;> cases hcy : homeOf home y <;>
    cases hcy' : homeOf home' y <;> simp [hcx, hcx', hcy, hcy'] at hx hy ⊢
  exact (h.home_eq_iff hcx hcy).trans (h'.home_eq_iff hcx' hcy').symm

/-- Once all computed nodes are placed, there is one context per key. -/
theorem Inv.length_linearize (h : Inv nodes p home) {p' : Partition}
    (hp' : p.contexts = p'.contexts)
    (hall : ∀ x < nodes.size, (nodeAt nodes x).isComputed → (homeOf home x).isSome) :
    p'.linearize.length = (computedOf nodes .reduction).card + (regularKeys nodes).card := by
  have hplaced := h.isSome_home_iff hall
  rw [← Finset.card_disjSum, ← image_contextKey,
    ← List.toFinset_card_of_nodup (Layout.nodup_linearize h hp')]
  -- a context stands for the key of any of its nodes
  have hkey : ∀ c ∈ p'.linearize.toFinset, ∃ x, homeOf home x = some c := by
    intro c hc
    exact (Layout.mem_linearize h hp' c).1 (List.mem_toFinset.1 hc)
  choose! node hnode using hkey
  refine Finset.card_nbij (fun c => contextKey nodes (node c)) ?_ ?_ ?_
  · intro c hc
    refine Finset.mem_image_of_mem _ (Finset.mem_filter.2 ?_)
    obtain ⟨hlt, hcomp⟩ := (hplaced (node c)).1 (by rw [hnode c hc]; rfl)
    exact ⟨Finset.mem_range.2 hlt, hcomp⟩
  · intro c hc d hd heq
    exact (h.home_eq_iff (hnode c hc) (hnode d hd)).2 heq
  · intro key hkey
    obtain ⟨x, hx, rfl⟩ := Finset.mem_image.1 hkey
    rw [Finset.mem_filter, Finset.mem_range] at hx
    obtain ⟨c, hc⟩ := Option.isSome_iff_exists.1 ((hplaced x).2 hx)
    have hmem : c ∈ p'.linearize.toFinset :=
      List.mem_toFinset.2 ((Layout.mem_linearize h hp' c).2 ⟨x, hc⟩)
    exact ⟨c, hmem, (h.home_eq_iff (hnode c hmem) hc).1 rfl⟩

/-- The placement of a root places its nodes one after the other. -/
theorem visited_ofRoot (hops : ∀ id < nodes.size, ∀ o ∈ (nodeAt nodes id).operands, o.1 < id)
    {root : Nat} (hroot : root < nodes.size) :
    ∃ q, Visited nodes (nodeAt nodes root).size q ∧ q.home = (ofRoot nodes root).home ∧
      q.partition.contexts = (ofRoot nodes root).partition.contexts := by
  refine ⟨place nodes 0 root (Placement.start nodes (nodeAt nodes root).size), ?_, ?_, ?_⟩
  · exact Visited.start.place hops root 0 (start_inv nodes _).nonempty
  · unfold ofRoot
    rw [getElem?_nodeAt hroot, Option.elim_some]
  · unfold ofRoot
    rw [getElem?_nodeAt hroot, Option.elim_some]
    rfl

end Placement

namespace Lowering

/-- What a node reaches are nodes. -/
theorem Reaches.lt_size {signature : Signature} {masks : Array MaskSite} {nodes : Array Node}
    (harena : Arena signature masks nodes) {a b : Nat} (h : Reaches nodes a b)
    (ha : a < nodes.size) : b < nodes.size := by
  induction h with
  | refl => exact ha
  | tail _ hstep _ =>
    obtain ⟨hmem, hlt⟩ := hstep
    obtain ⟨o, ho, rfl⟩ := List.mem_map.1 hmem
    exact Nat.lt_trans (harena.operand_lt hlt o ho) hlt

end Lowering

namespace Layout

/-- The contexts of a layout are those that stages and sizes prescribe, and its order respects all
edges between them. -/
structure Canonical (l : Layout) : Prop where
  /-- Every computed node that the root reaches is in one context, and there once. -/
  placed : ∀ x, Lowering.Reaches l.nodes l.root x → (l.node x).isComputed →
    ∃! c, (l.members c).count x = 1
  /-- Nothing else is in a context, and no context holds a node twice. -/
  members : ∀ c x, x ∈ l.members c → Lowering.Reaches l.nodes l.root x ∧ (l.node x).isComputed ∧
    (l.members c).count x = 1
  /-- Two nodes share a context exactly if both are regular, of one stage and of one size. -/
  together : ∀ x y c d, x ≠ y → x ∈ l.members c → y ∈ l.members d →
    (c = d ↔ (l.node x).opClass = .regular ∧ (l.node y).opClass = .regular ∧
      (l.node x).stage = (l.node y).stage ∧ (l.node x).size = (l.node y).size)
  /-- The order lists the contexts that have nodes, one by one. -/
  ordered : l.order.Nodup ∧ ∀ c, c ∈ l.order ↔ l.members c ≠ []
  /-- There is a context per reduction and one per stage and size of a regular node. -/
  count : l.order.length =
    (Placement.computedOf l.nodes .reduction).card + (Placement.regularKeys l.nodes).card
  /-- The layout comes from placing nodes one after the other, -/
  visited : ∃ p, Placement.Visited l.nodes (l.node l.root).size p ∧ p.home = l.placement.home ∧
    p.partition.contexts = l.placement.partition.contexts
  /-- and any other way to do so leads to as many contexts, with the same nodes together. -/
  anyOrder : ∀ size p, Placement.Visited l.nodes size p →
    (∀ x < l.nodes.size, (l.node x).isComputed → (homeOf p.home x).isSome) →
    p.partition.linearize.length = l.order.length ∧
      ∀ x y, homeOf p.home x = homeOf p.home y ↔ l.home x = l.home y
  /-- A computed operand from another context has a lower stage, -/
  crossing : ∀ x o a c d, (o, a) ∈ (l.node x).operands → x ∈ l.members c → o ∈ l.members d →
    c ≠ d → (l.node o).stage < (l.node x).stage
  /-- and one from the same context is read in place, regular like its reader, of the same size, and
  computed before it. -/
  inside : ∀ x o a c, (o, a) ∈ (l.node x).operands → x ∈ l.members c → o ∈ l.members c →
    a = .aligned ∧ (l.node x).opClass = .regular ∧ (l.node o).opClass = .regular ∧
      (l.node o).size = (l.node x).size ∧
      ∀ before after, l.members c = before ++ x :: after → o ∈ before
  /-- A context comes after all contexts that it reads from. -/
  producers : ∀ x o a c d, (o, a) ∈ (l.node x).operands → x ∈ l.members c → o ∈ l.members d →
    c ≠ d → ∀ before after, l.order = before ++ c :: after → d ∈ before

/-- A lowered root has a canonical layout. -/
theorem canonical_ofRoot {signature : Signature} {root : Term} {shape : Shape} {id : Nat}
    {s : Lowering} (h : Lowering.RootLowered signature root shape id s) :
    (ofRoot signature s.nodes id).Canonical := by
  have hsound := ofRoot_sound h
  have harena : Arena signature s.masks s.nodes := hsound.arena
  obtain ⟨p, hvisited, hhome, hcontexts⟩ :=
    Placement.visited_ofRoot (fun x hx => harena.operand_lt hx) h.lt_size
  have hinv : Placement.Inv s.nodes p.partition (Placement.ofRoot s.nodes id).home :=
    hhome ▸ hvisited.inv
  have hall : ∀ x < s.nodes.size, (nodeAt s.nodes x).isComputed →
      (homeOf (Placement.ofRoot s.nodes id).home x).isSome := by
    intro x hx hcomp
    exact Option.isSome_iff_exists.2 (hsound.placed x hx hcomp)
  have hmem := hsound.mem_members
  have hcount : ∀ c x, x ∈ (ofRoot signature s.nodes id).members c →
      ((ofRoot signature s.nodes id).members c).count x = 1 :=
    fun c x hx => List.count_eq_one_of_mem (hsound.nodup_members c) hx
  have hlength := hinv.length_linearize hcontexts hall
  refine
    { placed := ?_, members := ?_, together := ?_, ordered := ⟨hsound.order_nodup, ?_⟩,
      count := hlength, visited := ⟨p, hvisited, hhome, hcontexts⟩, anyOrder := ?_, crossing := ?_,
      inside := ?_, producers := ?_ }
  · intro x hx hcomp
    obtain ⟨c, hc⟩ := hsound.placed x (hx.lt_size harena h.lt_size) hcomp
    refine ⟨c, hcount c x ((hmem c x).2 hc), ?_⟩
    intro d hd
    have hd : x ∈ (ofRoot signature s.nodes id).members d := by
      rw [← List.count_pos_iff, hd]
      exact Nat.one_pos
    rw [hmem, hc, Option.some.injEq] at hd
    exact hd.symm
  · intro c x hx
    obtain ⟨hlt, hcomp⟩ := hsound.home_lt x c ((hmem c x).1 hx)
    exact ⟨h.reach x hlt, hcomp, hcount c x hx⟩
  · intro x y c d hne hx hy
    exact (hinv.home_eq_iff ((hmem c x).1 hx) ((hmem d y).1 hy)).trans
      (Placement.contextKey_eq_iff hne)
  · intro c
    rw [hsound.mem_order]
    constructor
    · rintro ⟨x, hx⟩
      exact List.ne_nil_of_mem ((hmem c x).2 hx)
    · intro hne
      obtain ⟨x, hx⟩ := List.exists_mem_of_ne_nil _ hne
      exact ⟨x, (hmem c x).1 hx⟩
  · intro size q hq hplaced
    refine ⟨(hq.inv.length_linearize rfl hplaced).trans hlength.symm, ?_⟩
    intro x y
    exact hq.inv.sameHome_iff hinv hplaced hall x y
  · intro x o a c d hop hx ho hne
    rcases same_context_or_stage_lt hinv harena ((hmem c x).1 hx) hop ((hmem d o).1 ho) with
      ⟨hcd, -⟩ | hst
    · exact absurd hcd.symm hne
    · exact hst
  · intro x o a c hop hx ho
    have hxc := (hmem c x).1 hx
    have hoc := (hmem c o).1 ho
    have hlt := harena.operand_lt (hsound.home_lt x c hxc).1 _ hop
    rcases hsound.edge x c o a c hxc hop hoc with ⟨-, hreg, hreg', ha⟩ | ⟨hne, -⟩
    · have hsize := (hsound.sizeOf_eq o c hoc).symm.trans (hsound.sizeOf_eq x c hxc)
      exact ⟨ha, hreg, hreg', hsize, fun before after hsplit => hsound.mem_before_of_lt hsplit hlt hoc⟩
    · exact absurd rfl hne
  · intro x o a c d hop hx ho hne
    rcases hsound.edge x c o a d ((hmem c x).1 hx) hop ((hmem d o).1 ho) with ⟨hcd, -⟩ | ⟨-, hbefore⟩
    · exact absurd hcd.symm hne
    · exact hbefore

end Layout

/-- Whatever root is lowered, its partition is the canonical one, and the plan has a forward kernel per
reduction and one per stage and size of a regular node. -/
theorem partition_canonical (signature : Signature) {root : Term} (hroot : root.Built)
    {shape : Shape} {id : Nat} {s : Lowering}
    (h : (Lowering.lowerRoot root shape).run (.start signature) = .ok id s) :
    (Layout.ofRoot signature s.nodes id).Canonical ∧
      ∃ plan, (compile signature root shape).plan = .ok plan ∧ plan.forwardCount =
        (Placement.computedOf s.nodes .reduction).card + (Placement.regularKeys s.nodes).card := by
  have hspec := Lowering.lowerRoot_spec signature hroot shape
  have h : Lowering.lowerRoot root shape (.start signature) = .ok id s := h
  rw [h] at hspec
  have hcanonical := Layout.canonical_ofRoot hspec
  obtain ⟨plan, hplan, -, -, hcount, -⟩ := (Layout.ofRoot_sound hspec).plan_ok
  refine ⟨hcanonical, plan, ?_, hcount.trans hcanonical.count⟩
  rw [← hplan, compile, EStateM.run, h]

/-- The rectified sum of the layer needs two forward kernels: one for the product, one for the sum and
the rectifier. -/
theorem rectified_partition_canonical :
    (Term.apply 2 (.unary .relu) [layerSum]).Built ∧
      ∃ id s, (Lowering.lowerRoot (.apply 2 (.unary .relu) [layerSum]) [2, 2]).run
          (.start layerSignature) = .ok id s ∧
        (Layout.ofRoot layerSignature s.nodes id).Canonical ∧
        ∃ plan, (compile layerSignature (.apply 2 (.unary .relu) [layerSum]) [2, 2]).plan = .ok plan ∧
          plan.forwardCount = 2 := by
  have hbuilt : (Term.apply 2 (.unary .relu) [layerSum]).Built :=
    layerTerm_built.of_subterm (by simp [layerTerm, Term.subterms, Term.allSubterms])
  have hlower : ∃ id s, (Lowering.lowerRoot (.apply 2 (.unary .relu) [layerSum]) [2, 2]).run
        (.start layerSignature) = .ok id s ∧
      (Placement.computedOf s.nodes .reduction).card + (Placement.regularKeys s.nodes).card = 2 :=
    ⟨5, _, rfl, by decide⟩
  obtain ⟨id, s, hs, hcard⟩ := hlower
  obtain ⟨hcanonical, plan, hplan, hcount⟩ := partition_canonical layerSignature hbuilt hs
  exact ⟨hbuilt, id, s, hs, hcanonical, plan, hplan, hcount.trans hcard⟩

end TensorKernels
