import TensorKernels.Proofs.HostFold
import TensorKernels.Proofs.Values
import TensorKernels.Proofs.Wiring

/-!
# Gradients of nodes

The gradient of a node is its seed and what every node that reads it hands back (`gradientAt_eq`). The
layout sorts these contributions by context. What the nodes of its own context hand back reaches a node
inside one kernel, and what those of a later context hand back travels in partial buffers.

The shares of a context (`Layout.shares`) are what its partial buffers should hold. No contribution is
lost or counted twice there: the shares of one owner add up to what the nodes of the context hand back
to it (`Layout.Sound.sum_shares`).
-/

set_option autoImplicit false

namespace TensorKernels

/-! ## Sums over lists -/

/-- Sums over a list and over a finite set can be exchanged. -/
theorem sum_map_sum_comm {α β γ : Type} [AddCommMonoid α] (xs : List β) (s : Finset γ)
    (f : β → γ → α) :
    (xs.map fun x => ∑ y ∈ s, f x y).sum = ∑ y ∈ s, (xs.map fun x => f x y).sum := by
  induction xs with
  | nil => simp
  | cons x xs ih => simp only [List.map_cons, List.sum_cons, ih, Finset.sum_add_distrib]

/-- Sums over two lists can be exchanged. -/
theorem sum_map_comm {α β γ : Type} [AddCommMonoid α] (xs : List β) (ys : List γ) (f : β → γ → α) :
    (xs.map fun x => (ys.map fun y => f x y).sum).sum =
      (ys.map fun y => (xs.map fun x => f x y).sum).sum := by
  simpa using Multiset.sum_map_sum_map (xs : Multiset β) (ys : Multiset γ) (f := f)

/-- A sum over a list without repetitions in which one element at most counts. -/
theorem sum_map_eq_single {α β : Type} [AddCommMonoid α] {xs : List β} (hnodup : xs.Nodup)
    {f : β → α} {x : β} (hx : x ∈ xs) (h : ∀ y ∈ xs, y ≠ x → f y = 0) : (xs.map f).sum = f x := by
  classical
  rw [← List.sum_toFinset f hnodup]
  refine Finset.sum_eq_single x (fun y hy hne => h y (List.mem_toFinset.1 hy) hne) ?_
  exact fun hnot => absurd (List.mem_toFinset.2 hx) hnot

/-- A sum over a list with positions, by positions. -/
theorem sum_map_zipIdx {α β : Type} [AddCommMonoid α] (xs : List β) (f : β → Nat → α) :
    (xs.zipIdx.map fun x => f x.1 x.2).sum =
      ∑ s ∈ Finset.range xs.length, (xs[s]?).elim 0 fun x => f x s := by
  induction xs using List.reverseRecOn with
  | nil => simp
  | append_singleton xs x ih =>
    rw [List.zipIdx_append, List.map_append, List.sum_append, ih, List.length_append,
      List.length_singleton, Finset.sum_range_succ]
    refine congrArg₂ _ (Finset.sum_congr rfl fun s hs => ?_) (by simp)
    rw [List.getElem?_append_left (Finset.mem_range.1 hs)]

variable {α : Type} (ops : Arithmetic α) [AddCommMonoid α]

/-! ## The gradient of a node -/

omit [AddCommMonoid α] in
/-- A rule has a term for an operand where it has a contribution. -/
theorem Op.isSome_pullbacks (ops : Arithmetic α) (op : Op) (ge : Expr) (xe : Nat → Expr) (ye : Expr)
    (g : α) (x : Nat → α) (y : α) :
    (op.pullbacks ops g x y).map Option.isSome = (op.gradients ge xe ye).map Option.isSome := by
  cases op with
  | unary f => rfl
  | binary f => cases f <;> rfl
  | loss f => cases f <;> rfl
  | _ => rfl

/-- The operands of a node with their accesses and values. -/
def operandsAt (nodes : Array Node) (leaves : LeafValues α) (id : Nat) : List (Access × Flat α) :=
  (nodeAt nodes id).operands.map fun o => (o.2, valueAt ops nodes leaves o.1)

/-- Element `j` of what a node with gradient `g` hands back to operand `s`. -/
def flowAt (nodes : Array Node) (leaves : LeafValues α) (g : Nat → α) (id s j : Nat) : α :=
  match (nodeAt nodes id).kind with
  | .op op => op.backflow ops (operandsAt ops nodes leaves id) (valueAt ops nodes leaves id) g s j
  | _ => 0

/-- Element `j` of what a node with gradient `g` hands back to node `o`, over all operands that it is. -/
def inflowAt (nodes : Array Node) (leaves : LeafValues α) (g : Nat → α) (id o j : Nat) : α :=
  ∑ s ∈ Finset.range (nodeAt nodes id).operands.length,
    if ((nodeAt nodes id).operands[s]?).map Prod.fst = some o then flowAt ops nodes leaves g id s j else 0

/-- Element `j` of the gradient of the root with respect to a node. Readers come after the node. -/
def gradientAt (nodes : Array Node) (leaves : LeafValues α) (root id j : Nat) : α :=
  (if id = root then ops.one else ops.zero) +
    ∑ c ∈ Finset.range nodes.size,
      if _h : id < c ∧ c < nodes.size then
        inflowAt ops nodes leaves (fun i => gradientAt nodes leaves root c i) c id j
      else 0
termination_by nodes.size - id

variable {signature : Signature} {masks : Array MaskSite} {nodes : Array Node}

/-- Nothing flows from a node to what is not its operand. -/
theorem inflowAt_eq_zero {leaves : LeafValues α} {g : Nat → α} {id o j : Nat}
    (h : ∀ a, (o, a) ∉ (nodeAt nodes id).operands) : inflowAt ops nodes leaves g id o j = 0 := by
  refine Finset.sum_eq_zero fun s _ => if_neg ?_
  intro hs
  obtain ⟨⟨o', a⟩, hget, rfl⟩ := Option.map_eq_some_iff.1 hs
  exact h a (List.mem_of_getElem? hget)

/-- The gradient of a node is its seed and what all nodes hand back to it. -/
theorem gradientAt_eq (harena : Arena signature masks nodes) (leaves : LeafValues α) (root id j : Nat) :
    gradientAt ops nodes leaves root id j =
      (if id = root then ops.one else ops.zero) +
        ∑ c ∈ Finset.range nodes.size,
          inflowAt ops nodes leaves (gradientAt ops nodes leaves root c) c id j := by
  rw [gradientAt]
  refine congrArg _ (Finset.sum_congr rfl fun c hc => ?_)
  have hc := Finset.mem_range.1 hc
  by_cases hlt : id < c
  · rw [dif_pos ⟨hlt, hc⟩]
  · rw [dif_neg fun h => hlt h.1]
    refine (inflowAt_eq_zero ops fun a ha => ?_).symm
    exact hlt (harena.operand_lt hc (id, a) ha)

namespace Layout

variable (l : Layout) (leaves : LeafValues α)

/-- Element `j` of the gradient of a node. -/
def gradient (id j : Nat) : α := gradientAt ops l.nodes leaves l.root id j

/-- Element `j` of what a node hands back to operand `s`. -/
def flow (id s j : Nat) : α := flowAt ops l.nodes leaves (l.gradient ops leaves id) id s j

/-- Element `j` of what a node hands back to node `o`. -/
def inflow (id o j : Nat) : α := inflowAt ops l.nodes leaves (l.gradient ops leaves id) id o j

/-- Element `j` of what the nodes of a context hand back to node `o`. -/
def contextInflow (c o j : Nat) : α := ((l.members c).map fun id => l.inflow ops leaves id o j).sum

/-- The contribution of a regular node to operand `s` at index `i`. -/
def pulled (id s i : Nat) : α :=
  match (l.node id).kind with
  | .op op =>
    op.pulled ops (operandsAt ops l.nodes leaves id) (valueAt ops l.nodes leaves id)
      (l.gradient ops leaves id) s i
  | _ => 0

/-- Element `j` of what a node hands back to an operand that it reads through an access. -/
def through (id : Nat) (key : Nat × Access) (j : Nat) : α :=
  ∑ s ∈ Finset.range (l.node id).operands.length,
    if (l.node id).operands[s]? = some key then l.flow ops leaves id s j else 0

/-- What the partial buffers of a context should hold, each share with its owner: in a regular context
what all nodes hand back to one operand through one access, in a reduction what goes to one operand. -/
def shares (c : Nat) : List (Owner × (Nat → α)) :=
  match l.classOf c with
  | .regular =>
    (l.contextKeys c).map fun key =>
      (key.2.2, fun j => ((l.members c).map fun id => l.through ops leaves id key.1 j).sum)
  | .reduction =>
    (l.members c).flatMap fun id =>
      (l.reductionTargets c (l.node id).operands.zipIdx).map fun t => (t.2.2, l.flow ops leaves id t.2.1)

variable {ops l leaves}

/-! ## Contributions by context -/

/-- The contexts hold every computed node once. -/
theorem Sound.sum_contexts (h : l.Sound masks) {f : Nat → α}
    (hf : ∀ id < l.nodes.size, (l.node id).isComputed = false → f id = 0) :
    ∑ id ∈ Finset.range l.nodes.size, f id = (l.order.map fun c => ((l.members c).map f).sum).sum := by
  have hnodup : (l.order.flatMap l.members).Nodup := by
    refine List.nodup_flatMap.2 ⟨fun c _ => h.nodup_members c, ?_⟩
    refine h.order_nodup.imp fun {c c'} hne => ?_
    intro id hid hid'
    have := (h.mem_members c id).1 hid
    rw [(h.mem_members c' id).1 hid', Option.some.injEq] at this
    exact hne this.symm
  have hsub : (l.order.flatMap l.members).toFinset ⊆ Finset.range l.nodes.size := by
    intro id hid
    obtain ⟨c, -, hmem⟩ := List.mem_flatMap.1 (List.mem_toFinset.1 hid)
    exact Finset.mem_range.2 (h.home_lt id c ((h.mem_members c id).1 hmem)).1
  rw [← Finset.sum_subset hsub, List.sum_toFinset f hnodup, List.map_flatMap, List.flatMap_def,
    List.sum_flatten, List.map_map]
  · rfl
  · intro id hid hnot
    have hid := Finset.mem_range.1 hid
    refine hf id hid (Bool.eq_false_iff.2 fun hcomp => hnot (List.mem_toFinset.2 ?_))
    obtain ⟨c, hc⟩ := h.placed id hid hcomp
    exact List.mem_flatMap.2 ⟨c, (h.mem_order c).2 ⟨id, hc⟩, (h.mem_members c id).2 hc⟩

/-- The gradient of a node by contexts. -/
theorem Sound.gradient_eq (h : l.Sound masks) (id j : Nat) :
    l.gradient ops leaves id j = (if id = l.root then ops.one else ops.zero) +
      (l.order.map fun c => l.contextInflow ops leaves c id j).sum := by
  unfold gradient
  rw [gradientAt_eq ops h.arena leaves l.root id j]
  refine congrArg _ (h.sum_contexts fun c hc hleaf => inflowAt_eq_zero ops fun a ha => ?_)
  rw [Arena.operands_leaf h.arena hc hleaf] at ha
  cases ha

/-- Nothing comes back from contexts that stand before the one that computes the node. -/
theorem Sound.contextInflow_before (h : l.Sound masks) {before after : List Nat} {c c' id j : Nat}
    (horder : l.order = before ++ c :: after) (hid : l.home id = some c) (hc' : c' ∈ before) :
    l.contextInflow ops leaves c' id j = 0 := by
  refine List.sum_eq_zero fun x hx => ?_
  obtain ⟨y, hy, rfl⟩ := List.mem_map.1 hx
  refine inflowAt_eq_zero ops fun a ha => ?_
  have hnodup := h.order_nodup
  rw [horder, List.nodup_append] at hnodup
  rcases h.edge y c' id a c ((h.mem_members c' y).1 hy) ha hid with ⟨rfl, -⟩ | ⟨-, hbefore⟩
  · exact hnodup.2.2 c hc' c (by simp) rfl
  · obtain ⟨before₁, before₂, rfl⟩ := List.append_of_mem hc'
    have hmem := hbefore before₁ (before₂ ++ c :: after) (by rw [horder]; simp)
    exact hnodup.2.2 c (List.mem_append_left _ hmem) c (by simp) rfl

/-- The gradient of a computed node: its seed, what later contexts hand back, and what its own does. -/
theorem Sound.gradient_split (h : l.Sound masks) {before after : List Nat} {c id : Nat}
    (horder : l.order = before ++ c :: after) (hid : l.home id = some c) (j : Nat) :
    l.gradient ops leaves id j = (if id = l.root then ops.one else ops.zero) +
      (after.map fun c' => l.contextInflow ops leaves c' id j).sum + l.contextInflow ops leaves c id j := by
  have hbefore : (before.map fun c' => l.contextInflow ops leaves c' id j).sum = 0 := by
    refine List.sum_eq_zero fun x hx => ?_
    obtain ⟨c', hc', rfl⟩ := List.mem_map.1 hx
    exact h.contextInflow_before horder hid hc'
  rw [h.gradient_eq, horder, List.map_append, List.map_cons, List.sum_append, List.sum_cons, hbefore,
    zero_add, add_comm (l.contextInflow ops leaves c id j), add_assoc]

/-! ## Owners -/

/-- An operand that its own context does not add up has a partial buffer with its owner. -/
theorem target_of_owns {w : Owner} {o c : Nat} (h : l.Owns w o)
    (hout : ¬ (l.classOf c = .regular ∧ l.isMember c o = true)) (a : Access) :
    ∃ base, l.target c o a = .buffer base w := by
  cases w with
  | node id =>
    obtain ⟨rfl, hcomp⟩ := h
    obtain ⟨op, hop⟩ := Node.exists_op_of_isComputed hcomp
    refine ⟨Node.varName id, ?_⟩
    unfold target
    rw [hop]
    refine if_neg fun hcond => hout ?_
    simp only [Bool.and_eq_true, decide_eq_true_eq] at hcond
    exact hcond.1
  | parameter t =>
    obtain ⟨hk, d, hd, hkind⟩ := h
    refine ⟨d.bindingName, ?_⟩
    unfold target
    simp only [hk, hd, hkind]

/-- Each tensor has one leaf at most. -/
def LeavesOnce (l : Layout) : Prop :=
  ∀ o < l.nodes.size, ∀ o' < l.nodes.size, ∀ t, (l.node o).kind = .tensor t →
    (l.node o').kind = .tensor t → o = o'

/-- Where every tensor has one leaf, an owner owns one node. -/
theorem LeavesOnce.eq_of_owns (honce : l.LeavesOnce) {w : Owner} {o o' : Nat} (ho : o < l.nodes.size)
    (ho' : o' < l.nodes.size) (h : l.Owns w o) (h' : l.Owns w o') : o' = o := by
  cases w with
  | node id => exact h'.1.symm.trans h.1
  | parameter t => exact honce o' ho' o ho t h'.1 h.1

/-! ## What regular nodes hand back -/

/-- A regular node hands an element back what it contributes at every index that reads the element. -/
theorem flow_regular {id s o j : Nat} {a : Access} (hreg : (l.node id).opClass = .regular)
    (hcomp : (l.node id).isComputed) (ho : (l.node id).operands[s]? = some (o, a)) :
    l.flow ops leaves id s j =
      ∑ i ∈ Finset.range (l.node id).size with a.position i = j, l.pulled ops leaves id s i := by
  obtain ⟨op, hop⟩ := Node.exists_op_of_isComputed hcomp
  have hclass : op.opClass = .regular := by simpa [Node.opClass, hop] using hreg
  have hgiven : (Op.given ops (operandsAt ops l.nodes leaves id) s).1 = a := by
    have ho' : (nodeAt l.nodes id).operands[s]? = some (o, a) := ho
    simp [Op.given, operandsAt, List.getD_eq_getElem?_getD, ho']
  have hkind : (nodeAt l.nodes id).kind = .op op := hop
  unfold flow flowAt pulled
  simp only [hkind, hop, Op.backflow, hclass, hgiven, shape_valueAt]
  rfl

/-- An operand that the rule of a regular node has no term for gets nothing. -/
theorem pulled_eq_zero (hops : ops.Sums) {id s : Nat} (hterm : ∀ e, (l.terms id)[s]? ≠ some (some e))
    (i : Nat) : l.pulled ops leaves id s i = 0 := by
  unfold pulled
  cases hk : (l.node id).kind with
  | op op =>
    unfold terms at hterm
    simp only [hk] at hterm
    have hsome := congrArg (fun xs => xs[s]?) (Op.isSome_pullbacks ops op (.var (gradName id))
      (fun i => ((l.backwardOperands id).getD i .absent).value) (.load (Node.varName id) .index)
      (l.gradient ops leaves id i)
      (fun k => (Op.given ops (operandsAt ops l.nodes leaves id) k).2.entry ops
        ((Op.given ops (operandsAt ops l.nodes leaves id) k).1.position i))
      ((valueAt ops l.nodes leaves id).entry ops i))
    simp only [List.getElem?_map] at hsome
    show (List.getD _ s none).getD ops.zero = 0
    rw [List.getD_eq_getElem?_getD, ← hops.zero]
    cases hpull : (op.pullbacks ops (l.gradient ops leaves id i)
      (fun k => (Op.given ops (operandsAt ops l.nodes leaves id) k).2.entry ops
        ((Op.given ops (operandsAt ops l.nodes leaves id) k).1.position i))
      ((valueAt ops l.nodes leaves id).entry ops i))[s]? with
    | none => rfl
    | some v =>
      cases v with
      | none => rfl
      | some v =>
        rw [hpull] at hsome
        obtain ⟨e, he, hv⟩ := Option.map_eq_some_iff.1 hsome.symm
        obtain ⟨e', rfl⟩ := Option.isSome_iff_exists.1 hv
        exact absurd he (hterm e')
  | constant x => rfl
  | tensor t => rfl
  | mask i => rfl

/-! ## Conservation -/

/-- What is left without repetitions has none. -/
theorem nodup_eraseDups {β : Type} [BEq β] [LawfulBEq β] (xs : List β) : xs.eraseDups.Nodup := by
  match xs with
  | [] => simp
  | x :: xs =>
    rw [List.eraseDups_cons, List.nodup_cons, List.mem_eraseDups]
    exact ⟨by simp, nodup_eraseDups _⟩
  termination_by xs.length
  decreasing_by
    have := List.length_filter_le (fun y => !y == x) xs
    simp only [List.length_cons]
    omega

/-- Every term of a gradient rule is a contribution to its operand. -/
theorem mem_contributions_of_term {c id s o : Nat} {a : Access} {e : Expr}
    (ho : (l.node id).operands[s]? = some (o, a)) (ht : (l.terms id)[s]? = some (some e)) :
    ⟨o, a, l.target c o a, e⟩ ∈ l.contributions c id := by
  refine List.mem_filterMap.2 ⟨((o, a), some e), ?_, rfl⟩
  refine List.mem_of_getElem? (i := s) ?_
  rw [List.getElem?_zip_eq_some]
  exact ⟨ho, ht⟩

/-- The partial buffer of a key is the one that its operand and access have. -/
theorem target_of_mem_contextKeys {c : Nat} {key : (Nat × Access) × (String × Owner)}
    (h : key ∈ l.contextKeys c) : l.target c key.1.1 key.1.2 = .buffer key.2.1 key.2.2 := by
  obtain ⟨x, hx, hmatch⟩ := List.mem_filterMap.1 (List.mem_eraseDups.1 h)
  obtain ⟨id, -, hxid⟩ := List.mem_flatMap.1 hx
  obtain ⟨-, -, htarget⟩ := mem_contributions hxid
  cases ht : x.target with
  | nowhere =>
    rw [ht] at hmatch
    cases hmatch
  | accumulator name =>
    rw [ht] at hmatch
    cases hmatch
  | buffer base owner =>
    simp only [ht, Option.some.injEq] at hmatch
    subst hmatch
    exact htarget.symm.trans ht

/-- The keys of a context are distinct. -/
theorem nodup_contextKeys (c : Nat) : (l.contextKeys c).Nodup := nodup_eraseDups _

/-- The keys of one owner hold what one operand of a node gets, and hold it once. -/
theorem Sound.sum_keys (h : l.Sound masks) (hops : ops.Sums) (honce : l.LeavesOnce) {w : Owner}
    {c id o : Nat} (hreg : l.classOf c = .regular) (hid : l.home id = some c)
    (ho : o < l.nodes.size) (howns : l.Owns w o) (hout : l.home o ≠ some c) (s j : Nat) :
    (((l.contextKeys c).filter fun key => key.2.2 = w).map fun key =>
        if (l.node id).operands[s]? = some key.1 then l.flow ops leaves id s j else 0).sum =
      if ((l.node id).operands[s]?).map Prod.fst = some o then l.flow ops leaves id s j else 0 := by
  obtain ⟨hlt, hcomp⟩ := h.home_lt id c hid
  cases hs : (l.node id).operands[s]? with
  | none => simp
  | some oa =>
    obtain ⟨o', a⟩ := oa
    by_cases hoo : o' = o
    · subst hoo
      rw [Option.map_some, if_pos rfl]
      obtain ⟨base, htarget⟩ := target_of_owns (c := c) howns
        (fun hm => hout ((h.isMember_iff c o').1 hm.2)) a
      by_cases hterm : ∃ e, (l.terms id)[s]? = some (some e)
      · obtain ⟨e, he⟩ := hterm
        have hmem : ((o', a), (base, w)) ∈ l.contextKeys c := by
          refine mem_contextKeys (List.mem_flatMap.2 ⟨id, ?_, mem_contributions_of_term hs he⟩) htarget
          exact List.mem_reverse.2 ((h.mem_members c id).2 hid)
        refine (sum_map_eq_single ((nodup_contextKeys c).filter _)
          (List.mem_filter.2 ⟨hmem, by simp⟩) ?_).trans (if_pos rfl)
        intro key hkey hne
        refine if_neg fun heq => hne ?_
        have hkt := target_of_mem_contextKeys (List.mem_filter.1 hkey).1
        obtain ⟨⟨k₁, k₂⟩, k₃⟩ := key
        cases heq
        rw [htarget, Target.buffer.injEq] at hkt
        rw [hkt.1, hkt.2]
      · have hzero : l.flow ops leaves id s j = 0 := by
          rw [flow_regular ((h.classOf_eq id c hid).symm.trans hreg) hcomp hs]
          exact Finset.sum_eq_zero fun i _ => pulled_eq_zero hops (fun e he => hterm ⟨e, he⟩) i
        simp [hzero]
    · rw [Option.map_some, if_neg fun heq => hoo (Option.some.inj heq)]
      refine List.sum_eq_zero fun x hx => ?_
      obtain ⟨key, hkey, rfl⟩ := List.mem_map.1 hx
      refine if_neg fun heq => hoo ?_
      obtain ⟨hkey, howner⟩ := List.mem_filter.1 hkey
      have hkt := target_of_mem_contextKeys hkey
      obtain ⟨⟨k₁, k₂⟩, k₃⟩ := key
      cases heq
      have hown := (target_buffer hkt).1
      rw [of_decide_eq_true howner] at hown
      exact honce.eq_of_owns ho (Nat.lt_trans (h.operand_lt hlt (List.mem_of_getElem? hs)) hlt) howns hown

/-- The operands of a reduction with one owner are those that the owner is. -/
theorem Sound.sum_reductionTargets (h : l.Sound masks) (honce : l.LeavesOnce) {w : Owner}
    {c id o : Nat} (hid : l.home id = some c) (ho : o < l.nodes.size) (howns : l.Owns w o)
    (hout : l.home o ≠ some c) (f : Nat → α) :
    (((l.reductionTargets c (l.node id).operands.zipIdx).filter fun t => t.2.2 = w).map
        fun t => f t.2.1).sum =
      ∑ s ∈ Finset.range (l.node id).operands.length,
        if ((l.node id).operands[s]?).map Prod.fst = some o then f s else 0 := by
  have hlt := (h.home_lt id c hid).1
  have hstep : ∀ xs : List ((Nat × Access) × Nat), (∀ x ∈ xs, x.1 ∈ (l.node id).operands) →
      (((l.reductionTargets c xs).filter fun t => t.2.2 = w).map fun t => f t.2.1).sum =
        (xs.map fun x => if x.1.1 = o then f x.2 else 0).sum := by
    intro xs
    induction xs with
    | nil => exact fun _ => rfl
    | cons x xs ih =>
      obtain ⟨⟨o', a⟩, i⟩ := x
      intro hxs
      have ih := ih fun x hx => hxs x (List.mem_cons_of_mem _ hx)
      have ho' := Nat.lt_trans (h.operand_lt hlt (hxs _ List.mem_cons_self)) hlt
      rw [List.map_cons, List.sum_cons, ← ih]
      by_cases hoo : o' = o
      · subst hoo
        obtain ⟨base, htarget⟩ := target_of_owns (c := c) howns
          (fun hm => hout ((h.isMember_iff c o').1 hm.2)) a
        simp [reductionTargets, htarget]
      · rw [if_neg hoo, zero_add]
        cases htarget : l.target c o' a with
        | nowhere => simp [reductionTargets, htarget]
        | accumulator name => simp [reductionTargets, htarget]
        | buffer base owner =>
          have hne : owner ≠ w := by
            rintro rfl
            exact hoo (honce.eq_of_owns ho ho' howns (target_buffer htarget).1)
          simp [reductionTargets, htarget, hne]
  rw [hstep _ fun x hx => (List.mem_zipIdx' hx).2 ▸ List.getElem_mem _,
    sum_map_zipIdx (l.node id).operands fun x i => if x.1 = o then f i else 0]
  refine Finset.sum_congr rfl fun s _ => ?_
  cases (l.node id).operands[s]? <;> simp

/-- The shares of one owner add up to what the context hands back to it. -/
theorem Sound.sum_shares (h : l.Sound masks) (hops : ops.Sums) (honce : l.LeavesOnce) {w : Owner}
    {c o : Nat} (ho : o < l.nodes.size) (howns : l.Owns w o) (hout : l.home o ≠ some c) (j : Nat) :
    (((l.shares ops leaves c).filter fun e => e.1 = w).map fun e => e.2 j).sum =
      l.contextInflow ops leaves c o j := by
  unfold shares contextInflow inflow inflowAt
  cases hclass : l.classOf c with
  | regular =>
    simp only [List.filter_map, List.map_map, Function.comp_def, through]
    rw [sum_map_comm]
    refine congrArg List.sum (List.map_congr_left fun id hid => ?_)
    rw [sum_map_sum_comm]
    exact Finset.sum_congr rfl fun s _ =>
      h.sum_keys hops honce hclass ((h.mem_members c id).1 hid) ho howns hout s j
  | reduction =>
    rw [List.filter_flatMap, List.map_flatMap, List.flatMap_def, List.sum_flatten, List.map_map]
    refine congrArg List.sum (List.map_congr_left fun id hid => ?_)
    simp only [Function.comp_def, List.filter_map, List.map_map]
    exact h.sum_reductionTargets honce ((h.mem_members c id).1 hid) ho howns hout
      fun s => l.flow ops leaves id s j

end Layout

end TensorKernels
