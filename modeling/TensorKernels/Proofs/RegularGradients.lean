import TensorKernels.Proofs.Deposits
import TensorKernels.Proofs.GradientValues
import TensorKernels.Proofs.NodeGradients

/-!
# Gradients in regular contexts

The backward kernel of a regular context goes through its nodes from the last to the first. Every node
has an accumulator. It starts with what incoming partial buffers hold, and each rule adds to the
accumulators of the operands that are computed in the same context, so a node's accumulator is complete
when the kernel comes to the node's own rule (`Layout.Sound.sum_done`). All other contributions go to
collectors, one per operand and access. In the end the collectors hold what all nodes contribute
(`Layout.Fed.rules_ends`), and that is what the kernel deposits (`Layout.Fed.regular_stores`).
-/

set_option autoImplicit false

namespace TensorKernels

variable {α : Type} (ops : Arithmetic α)

/-! ## Names -/

/-- Different nodes have different accumulators. -/
theorem gradName_injective {a b : Nat} (h : gradName a = gradName b) : a = b :=
  Node.varName_injective (String.append_right_inj "g_" |>.1 h)

/-- Different partial buffers have different collectors. -/
theorem collectorName_injective {a b : Nat}
    (h : Layout.collectorName a = Layout.collectorName b) : a = b :=
  toString_nat_injective (String.append_right_inj "gl" |>.1 h)

/-- No collector is an accumulator. -/
theorem collectorName_ne_gradName (k id : Nat) : Layout.collectorName k ≠ gradName id := by
  intro h
  have hw := congrArg lastWord h
  rw [lastWord_collectorName, lastWord_gradName] at hw
  simp at hw

/-- Accumulators and collectors are no counters of loops. -/
theorem ne_foldName_of_scalar {name : String} (hkind : localKind name = .scalar) (id k : Nat) :
    name ≠ gradName id ++ "_f" ++ toString k := by
  rintro rfl
  rw [foldName_gradName id k] at hkind
  cases hkind

namespace Layout

variable [AddCommMonoid α] (l : Layout) (leaves : LeafValues α)

/-! ## What a backward kernel is fed with -/

/-- Element `j` of what a node's gradient starts with in the kernel of its context: its seed and what the
incoming partial buffers hold. -/
def seedIn (inputs : Buffers α) (partials : List PartialBuffer) (id j : Nat) : α :=
  (if id = l.root then ops.one else ops.zero) +
    ((incoming partials id).map fun p =>
      p.access.folded (fun i => ((inputs.find? p.name).getD #[]).getD i ops.zero) j).sum

/-- The inputs of the backward kernel of a context: the values of the nodes that it loads, and partial
buffers that complete the gradient of every node up to what the context itself hands back. -/
structure Fed (partials : List PartialBuffer) (c : Nat) (loads : List String) (inputs : Buffers α) :
    Prop where
  value : ∀ o < l.nodes.size, ∀ b, l.binding? o = some b → b.name ∈ loads →
    inputs.find? b.name = some (valueAt ops l.nodes leaves o).data
  found : ∀ id ∈ l.members c, ∀ p ∈ incoming partials id, ∃ data, inputs.find? p.name = some data ∧
    p.access.Covers (l.node id).size data.size ∧ data.size < 2 ^ 32
  complete : ∀ id ∈ l.members c, ∀ j < (l.node id).size,
    l.seedIn ops inputs partials id j + l.contextInflow ops leaves c id j = l.gradient ops leaves id j

variable {ops l leaves} {masks : Array MaskSite} {partials : List PartialBuffer} {c : Nat}
  {loads : List String} {inputs : Buffers α}

/-- A seed is what the gradient starts with. -/
theorem Fed.seedCode_ends (hfed : l.Fed ops leaves partials c loads inputs) (hops : ops.Sums)
    {id j : Nat} (hid : id ∈ l.members c) (hj : j < (l.node id).size) {s : Invocation α}
    (hs : s.inputs = inputs) {name loopVar : String} {position : Expr}
    (hne : ∀ k : Nat, name ≠ loopVar ++ toString k)
    (hvars : ∀ x ∈ position.vars, x ≠ name ∧ ∀ k : Nat, x ≠ loopVar ++ toString k)
    (hposition : position.eval ops s = .ok (.word (UInt32.ofNat j))) :
    Stmt.Ends ops s (seedCode name (id = l.root) (incoming partials id) position loopVar) fun t =>
      t.locals.find? name = some (.scalar (l.seedIn ops inputs partials id j)) := by
  refine (TensorKernels.seedCode_ends hops _
    (fun p => (inputs.find? p.name).getD #[]) hne hvars hposition hj ?_).mono ?_
  · intro p hp
    obtain ⟨data, hdata, hcov, hsize⟩ := hfed.found id hid p hp
    rw [hdata, Option.getD_some]
    exact ⟨Invocation.buffer?_eq_of_input (by rw [hs, hdata]), hcov, hsize⟩
  · intro t ht
    rw [ht, seedIn]
    simp only [decide_eq_true_eq]

/-! ## Regular contexts -/

/-- Seeds set accumulators and their loop variables only. -/
theorem sets_seeds {ids : List Nat} {name : String}
    (h : name ∈ Stmt.blockSets (l.seeds partials ids)) :
    ∃ id ∈ ids, name = gradName id ∨ ∃ k : Nat, name = gradName id ++ "_f" ++ toString k := by
  obtain ⟨id, hid, hname⟩ := Stmt.exists_of_mem_blockSets_flatMap h
  exact ⟨id, hid, sets_seedCode hname⟩

/-- The accumulators of a context start with what the gradients of their nodes start with. -/
theorem Fed.seeds_ends (hfed : l.Fed ops leaves partials c loads inputs) (hops : ops.Sums) {i : Nat}
    {ids : List Nat} (hids : ∀ id ∈ ids, id ∈ l.members c ∧ i < (l.node id).size) (hnodup : ids.Nodup)
    {s : Invocation α} (hindex : s.index = UInt32.ofNat i) (hs : s.inputs = inputs) :
    Stmt.Ends ops s (l.seeds partials ids) fun t => ∀ id ∈ ids,
      t.locals.find? (gradName id) = some (.scalar (l.seedIn ops inputs partials id i)) := by
  induction ids generalizing s with
  | nil => exact .nil (by simp)
  | cons id ids ih =>
    rw [List.nodup_cons] at hnodup
    obtain ⟨hid, hi⟩ := hids id List.mem_cons_self
    show Stmt.Ends ops s (seedCode _ _ _ _ _ ++ l.seeds partials ids) _
    refine .append (.withFrame (hfed.seedCode_ends hops hid hi hs
      (ne_foldName_of_scalar (localKind_gradName id) id) (by simp [Expr.vars])
      (Expr.eval_index ops hindex)) ?_)
    intro t hframe hseed
    refine .withFrame (ih (fun x hx => hids x (List.mem_cons_of_mem _ hx)) hnodup.2
      (hframe.index.trans hindex) (hframe.inputs.trans hs)) ?_
    intro u hframe' hrest x hx
    rcases List.mem_cons.1 hx with rfl | hx
    · rw [hframe'.locals, hseed]
      intro hset
      obtain ⟨y, hy, heq | ⟨k, heq⟩⟩ := sets_seeds hset
      · exact hnodup.1 (gradName_injective heq ▸ hy)
      · exact ne_foldName_of_scalar (localKind_gradName x) y k heq
    · exact hrest x hx

omit [AddCommMonoid α] in
/-- Collectors start at zero. -/
theorem collectors_ends (keys : List ((Nat × Access) × (String × Owner))) (s : Invocation α) :
    Stmt.Ends ops s (keys.mapIdx fun k _ => .varDecl (collectorName k) (.float 0.0)) fun t =>
      ∀ k < keys.length, t.locals.find? (collectorName k) = some (.scalar ops.zero) := by
  induction keys using List.reverseRecOn with
  | nil => exact .nil (by simp)
  | append_singleton keys key ih =>
    rw [List.mapIdx_concat]
    refine .append (ih.mono ?_)
    intro t ht
    refine .varDecl rfl (.nil ?_)
    intro k hk
    rw [Invocation.find?_setLocal]
    by_cases heq : collectorName keys.length = collectorName k
    · rw [if_pos heq]
      rfl
    · rw [if_neg heq]
      refine ht k (Nat.lt_of_le_of_ne ?_ fun hlen => heq (by rw [hlen]))
      rw [List.length_append, List.length_singleton] at hk
      omega

/-- The declarations of collectors set collectors only. -/
theorem sets_collectors {keys : List ((Nat × Access) × (String × Owner))} {name : String}
    (h : name ∈ Stmt.blockSets (keys.mapIdx fun k _ => .varDecl (collectorName k) (.float 0.0))) :
    ∃ k, name = collectorName k := by
  rw [List.mapIdx_eq_zipIdx_map, List.map_eq_flatMap] at h
  obtain ⟨⟨key, k⟩, -, hname⟩ := Stmt.exists_of_mem_blockSets_flatMap h
  exact ⟨k, List.mem_singleton.1 hname⟩

/-! ### Rules -/

/-- A list without its empty places, by positions. -/
theorem filterMap_eq_range {β γ : Type} (f : β → Option γ) (xs : List β) {n : Nat} (hn : xs.length ≤ n) :
    xs.filterMap f = (List.range n).filterMap fun s => (xs[s]?).bind f := by
  induction xs generalizing n with
  | nil => simp
  | cons x xs ih =>
    obtain ⟨m, rfl⟩ : ∃ m, n = m + 1 := ⟨n - 1, by simp at hn; omega⟩
    have hrest := ih (n := m) (by simp at hn; omega)
    rw [List.range_succ_eq_map, List.filterMap_cons, List.filterMap_cons, List.filterMap_map, hrest]
    rfl

/-- The contribution of a regular node to operand `s`. -/
def slot? (l : Layout) (c id s : Nat) : Option Contribution :=
  ((l.node id).operands[s]?).bind fun o =>
    ((l.terms id)[s]?).bind fun term => term.map fun e => ⟨o.1, o.2, l.target c o.1 o.2, e⟩

/-- The contributions of a node are those of its operand slots, in order. -/
theorem contributions_eq (c id : Nat) :
    l.contributions c id = (List.range (l.node id).operands.length).filterMap (l.slot? c id) := by
  unfold contributions
  rw [filterMap_eq_range _ _ (n := (l.node id).operands.length) (by simp)]
  refine List.filterMap_congr fun s _ => ?_
  unfold slot? List.zip
  rw [List.getElem?_zipWith]
  cases (l.node id).operands[s]? with
  | none => rfl
  | some o => cases (l.terms id)[s]? <;> rfl

/-- What the contribution of a slot consists of. -/
theorem slot?_eq_some {c id s : Nat} {x : Contribution} (h : l.slot? c id s = some x) :
    (l.node id).operands[s]? = some (x.operand, x.access) ∧ (l.terms id)[s]? = some (some x.value) ∧
      x.target = l.target c x.operand x.access := by
  obtain ⟨o, ho, h⟩ := Option.bind_eq_some_iff.1 h
  obtain ⟨term, hterm, h⟩ := Option.bind_eq_some_iff.1 h
  obtain ⟨e, rfl, rfl⟩ := Option.map_eq_some_iff.1 h
  exact ⟨ho, hterm, rfl⟩

/-- A slot with a gradient term has a contribution. -/
theorem slot?_of_term {c id s o : Nat} {a : Access} {e : Expr}
    (ho : (l.node id).operands[s]? = some (o, a)) (he : (l.terms id)[s]? = some (some e)) :
    l.slot? c id s = some ⟨o, a, l.target c o a, e⟩ := by
  simp [slot?, ho, he]

/-- The local that a contribution is added to. -/
def sink? (keys : List ((Nat × Access) × (String × Owner))) (x : Contribution) : Option String :=
  match x.target with
  | .nowhere => none
  | .accumulator name => some name
  | .buffer base owner => some (collectorName (keys.idxOf ((x.operand, x.access), (base, owner))))

/-- The code of a contribution adds its value to its sink. -/
theorem ruleCode_eq (keys : List ((Nat × Access) × (String × Owner))) (x : Contribution) :
    ruleCode keys x = (sink? keys x).map fun name => .accumulate name x.value := by
  unfold ruleCode sink?
  cases x.target <;> rfl

/-- Contributions of which none is added to `g`, and whose values depend on no other local: every local
gets the contributions that are added to it. -/
theorem rules_ends (hops : ops.Sums) {keys : List ((Nat × Access) × (String × Owner))} {n : Nat}
    {slot : Nat → Option Contribution} {v : Nat → α} {g : String} {y : α} {s : Invocation α}
    (hg : s.locals.find? g = some (.scalar y)) (hsink : ∀ k < n, (slot k).bind (sink? keys) ≠ some g)
    (hdeclared : ∀ k < n, ∀ name, (slot k).bind (sink? keys) = some name →
      ∃ z, s.locals.find? name = some (.scalar z))
    (heval : ∀ k < n, ∀ x name, slot k = some x → sink? keys x = some name → ∀ t : Invocation α,
      t.index = s.index → t.inputs = s.inputs → t.locals.find? g = some (.scalar y) →
      x.value.eval ops t = .ok (.scalar (v k))) :
    Stmt.Ends ops s (((List.range n).filterMap slot).filterMap (ruleCode keys)) fun t =>
      ∀ name z, s.locals.find? name = some (.scalar z) → t.locals.find? name = some (.scalar (z +
        ∑ k ∈ Finset.range n, if (slot k).bind (sink? keys) = some name then v k else 0)) := by
  induction n with
  | zero => exact .nil (by simp)
  | succ n ih =>
    have ih := ih (fun k hk => hsink k (by omega)) (fun k hk => hdeclared k (by omega))
      fun k hk => heval k (by omega)
    rw [List.range_succ, List.filterMap_append, List.filterMap_append]
    refine .append (.withFrame ih ?_)
    intro t hframe ht
    have hgt : t.locals.find? g = some (.scalar y) := by
      rw [ht g y hg, Finset.sum_eq_zero, add_zero]
      intro k hk
      exact if_neg (hsink k (by have := Finset.mem_range.1 hk; omega))
    -- the last contribution, if there is one and it is added anywhere
    cases hslot : slot n with
    | none =>
      rw [List.filterMap_cons_none hslot]
      refine .nil fun name z hz => ?_
      rw [ht name z hz, Finset.sum_range_succ, hslot]
      simp
    | some x =>
      rw [List.filterMap_cons_some hslot, List.filterMap_nil, List.filterMap_cons, ruleCode_eq]
      cases hname : sink? keys x with
      | none =>
        refine .nil fun name z hz => ?_
        rw [ht name z hz, Finset.sum_range_succ, hslot]
        simp [hname]
      | some sink =>
        obtain ⟨z', hz'⟩ := hdeclared n (by omega) sink (by simp [hslot, hname])
        have hvalue := heval n (by omega) x sink hslot hname t hframe.index hframe.inputs hgt
        refine .accumulate (ht sink z' hz') hvalue (.nil ?_)
        intro name z hz
        rw [Invocation.find?_setLocal, Finset.sum_range_succ, hslot, Option.bind_some, hname]
        by_cases hsame : sink = name
        · subst hsame
          obtain rfl : z' = z := by
            rw [hz'] at hz
            exact Value.scalar.inj (Option.some.inj hz)
          rw [if_pos rfl, if_pos rfl, hops.add, add_assoc]
        · rw [if_neg hsame, if_neg fun heq => hsame (Option.some.inj heq), add_zero]
          exact ht name z hz

/-! ### Terms -/

/-- In two related lists, what stands at one position is related. -/
theorem getElem?_of_forall₂ {β γ : Type} {R : β → γ → Prop} {xs : List β} {ys : List γ}
    (h : List.Forall₂ R xs ys) {i : Nat} {x : β} (hx : xs[i]? = some x) :
    ∃ y, ys[i]? = some y ∧ R x y := by
  induction h generalizing i with
  | nil => cases hx
  | cons hxy _ ih =>
    cases i with
    | zero =>
      cases hx
      exact ⟨_, rfl, hxy⟩
    | succ i => exact ih hx

omit [AddCommMonoid α] in
/-- Backward code reads its operands from buffers. -/
theorem backwardOperand_source_ne (h : l.Sound masks) {id : Nat} (hid : id < l.nodes.size) (k : Nat)
    (name : String) : ((l.backwardOperands id).getD k .absent).source ≠ .var name := by
  unfold backwardOperands
  rw [List.getD_eq_getElem?_getD, List.getElem?_map]
  cases hk : (l.node id).operands[k]? with
  | none => exact fun hvar => by cases hvar
  | some oa =>
    obtain ⟨o, a⟩ := oa
    have holt := Nat.lt_trans (h.operand_lt hid (List.mem_of_getElem? hk)) hid
    rw [Option.map_some, Option.getD_some]
    rcases h.source_eq holt with ⟨x, -, hs⟩ | ⟨b, -, hs⟩
    · simp [hs]
    · simp [hs]

variable (ops leaves) in
omit [AddCommMonoid α] in
/-- An operand of backward code has the access and the shape of its value. -/
theorem backwardOperand_given (h : l.Sound masks)
    (hbound : ∀ id < l.nodes.size, (l.node id).size < 2 ^ 32) {id : Nat} (hid : id < l.nodes.size)
    (k : Nat) :
    ((l.backwardOperands id).getD k .absent).access =
        (Op.given ops (operandsAt ops l.nodes leaves id) k).1 ∧
      ((l.backwardOperands id).getD k .absent).shape =
        (Op.given ops (operandsAt ops l.nodes leaves id) k).2.shape ∧
      (Op.given ops (operandsAt ops l.nodes leaves id) k).2.shape.size < 2 ^ 32 := by
  unfold backwardOperands Op.given operandsAt
  simp only [List.getD_eq_getElem?_getD, List.getElem?_map]
  cases hk : (l.node id).operands[k]? with
  | none =>
    have hk' : (nodeAt l.nodes id).operands[k]? = none := hk
    rw [hk']
    exact ⟨rfl, rfl, by simp [Shape.size]⟩
  | some oa =>
    have hk' : (nodeAt l.nodes id).operands[k]? = some oa := hk
    have holt := Nat.lt_trans (h.operand_lt hid (List.mem_of_getElem? hk)) hid
    rw [hk', Option.map_some, Option.map_some, Option.getD_some, Option.getD_some]
    refine ⟨rfl, (shape_valueAt ops leaves oa.1).symm, ?_⟩
    rw [shape_valueAt]
    exact hbound oa.1 holt

/-- An operand that backward code loads stands for its value. -/
theorem Fed.denotes (hfed : l.Fed ops leaves partials c loads inputs) (h : l.Sound masks)
    (hbound : ∀ id < l.nodes.size, (l.node id).size < 2 ^ 32) {id k i : Nat} (hid : id < l.nodes.size)
    {t : Invocation α} (ht : t.inputs = inputs)
    (hload : ∀ name, ((l.backwardOperands id).getD k .absent).source = .buffer name → name ∈ loads) :
    ((l.backwardOperands id).getD k .absent).Denotes ops t i
      (Op.given ops (operandsAt ops l.nodes leaves id) k) := by
  obtain ⟨haccess, hshape, hsize⟩ := backwardOperand_given ops leaves h hbound hid k
  refine ⟨haccess, hshape, ?_, hsize⟩
  unfold Operand.Reads
  unfold backwardOperands at hload ⊢
  unfold Op.given operandsAt
  simp only [List.getD_eq_getElem?_getD, List.getElem?_map] at hload ⊢
  cases hk : (l.node id).operands[k]? with
  | none =>
    have hk' : (nodeAt l.nodes id).operands[k]? = none := hk
    rw [hk']
    rfl
  | some oa =>
    obtain ⟨o, a⟩ := oa
    have hk' : (nodeAt l.nodes id).operands[k]? = some (o, a) := hk
    have holt := Nat.lt_trans (h.operand_lt hid (List.mem_of_getElem? hk)) hid
    simp only [hk, Option.map_some, Option.getD_some] at hload
    simp only [hk', Option.map_some, Option.getD_some]
    rcases h.source_eq holt with ⟨x, hx, hs⟩ | ⟨b, hb, hs⟩
    · simp only [hs]
      exact valueAt_constant ops h.arena holt hx
    · simp only [hs]
      refine Invocation.buffer?_eq_of_input ?_
      rw [ht]
      exact hfed.value o holt b hb (hload b.name hs)

/-- The value of an operand that a regular node's rule loads. -/
theorem Fed.eval_operand (hfed : l.Fed ops leaves partials c loads inputs) (h : l.Sound masks)
    (hbound : ∀ id < l.nodes.size, (l.node id).size < 2 ^ 32) {id k i : Nat} (hid : id < l.nodes.size)
    {op : Op} (hop : (l.node id).kind = .op op) (hclass : op.opClass = .regular)
    (hi : i < (l.node id).size) {t : Invocation α} (hindex : t.index = UInt32.ofNat i)
    (ht : t.inputs = inputs)
    (hload : ((l.backwardOperands id).getD k .absent).value.loads ⊆ loads) :
    ((l.backwardOperands id).getD k .absent).value.eval ops t =
      .ok (.scalar ((Op.given ops (operandsAt ops l.nodes leaves id) k).2.entry ops
        ((Op.given ops (operandsAt ops l.nodes leaves id) k).1.position i))) := by
  have hden := hfed.denotes h hbound (k := k) (i := i) hid ht (by
    intro name hname
    refine hload ?_
    rw [Operand.value, Operand.read, hname]
    simp [Expr.loads])
  cases hk : (l.node id).operands[k]? with
  | none =>
    -- an operator has no such operand, and a literal stands for it
    have hk' : (nodeAt l.nodes id).operands[k]? = none := hk
    have habsent : (l.backwardOperands id).getD k .absent = .absent := by
      simp [backwardOperands, List.getD_eq_getElem?_getD, hk]
    have hgiven : Op.given ops (operandsAt ops l.nodes leaves id) k =
        (.aligned, ⟨[1], #[ops.zero]⟩) := by
      simp [Op.given, operandsAt, List.getD_eq_getElem?_getD, hk']
    rw [habsent, hgiven]
    cases i <;> rfl
  | some oa =>
    obtain ⟨o, a⟩ := oa
    have hk' : (nodeAt l.nodes id).operands[k]? = some (o, a) := hk
    have hgiven : Op.given ops (operandsAt ops l.nodes leaves id) k =
        (a, valueAt ops l.nodes leaves o) := by
      simp [Op.given, operandsAt, List.getD_eq_getElem?_getD, hk']
    rw [hgiven] at hden ⊢
    refine hden.eval_value ?_ hi (hbound id hid) hindex fun name hname =>
      absurd hname (backwardOperand_source_ne h hid k name)
    rw [shape_valueAt]
    exact (h.arena.opNode (getElem?_nodeAt hid) hop).covers hclass (List.mem_of_getElem? hk)

/-- A term of a regular node's rule has the value of its contribution. -/
theorem Fed.eval_term (hfed : l.Fed ops leaves partials c loads inputs) (h : l.Sound masks)
    (hbound : ∀ id < l.nodes.size, (l.node id).size < 2 ^ 32) (hreg : l.classOf c = .regular)
    {id s i : Nat} (hid : l.home id = some c) (hi : i < l.sizeOf c) {x : Contribution}
    (hslot : l.slot? c id s = some x) (hloads : x.value.loads ⊆ loads) {t : Invocation α}
    (hindex : t.index = UInt32.ofNat i) (ht : t.inputs = inputs)
    (hg : t.locals.find? (gradName id) = some (.scalar (l.gradient ops leaves id i))) :
    x.value.eval ops t = .ok (.scalar (l.pulled ops leaves id s i)) := by
  obtain ⟨hlt, hcomp⟩ := h.home_lt id c hid
  obtain ⟨op, hop⟩ := Node.exists_op_of_isComputed hcomp
  obtain ⟨-, hterm, -⟩ := slot?_eq_some hslot
  have hclass : op.opClass = .regular := by
    have := h.classOf_eq id c hid
    rw [hreg] at this
    simpa [Node.opClass, hop] using this.symm
  have hi' : i < (l.node id).size := h.sizeOf_eq id c hid ▸ hi
  unfold terms at hterm
  simp only [hop] at hterm
  have hrules : List.Forall₂
      (RuleValue ops t (fun k => ((l.backwardOperands id).getD k .absent).value)
        (.load (Node.varName id) .index)
        (fun k => (Op.given ops (operandsAt ops l.nodes leaves id) k).2.entry ops
          ((Op.given ops (operandsAt ops l.nodes leaves id) k).1.position i))
        ((valueAt ops l.nodes leaves id).entry ops i)) _ _ :=
    Op.eval_gradients ops op (Expr.eval_var ops hg)
  obtain ⟨v?, hv, hrule⟩ := getElem?_of_forall₂ hrules hterm
  cases v? with
  | none => exact hrule.elim
  | some v =>
    have hpulled : l.pulled ops leaves id s i = v := by
      unfold pulled
      simp only [hop, Op.pulled, List.getD_eq_getElem?_getD, hv, Option.getD_some]
    rw [hpulled]
    refine hrule ?_ ?_
    · intro k hk
      exact hfed.eval_operand h hbound hlt hop hclass hi' hindex ht (List.Subset.trans hk hloads)
    · intro hy
      have hfind := hfed.value id hlt _ (binding?_op hop) (hloads (hy (by simp [Expr.loads])))
      exact Expr.eval_load ops (Invocation.buffer?_eq_of_input (by rw [ht]; exact hfind))
        (Expr.eval_index ops hindex) (Nat.lt_trans hi' (hbound id hlt))

/-! ### Where contributions are added -/

variable (ops l leaves) in
/-- What a regular node contributes at an index to an operand that it reads through an access. -/
def collected (id : Nat) (key : Nat × Access) (i : Nat) : α :=
  ∑ s ∈ Finset.range (l.node id).operands.length,
    if (l.node id).operands[s]? = some key then l.pulled ops leaves id s i else 0

/-- The accumulator of a node gets what the nodes of its context hand back to it. -/
theorem Sound.sum_accumulator (h : l.Sound masks) (hops : ops.Sums) (hreg : l.classOf c = .regular)
    {id o i : Nat} (hid : l.home id = some c) (ho : l.home o = some c) (hi : i < l.sizeOf c) :
    (∑ s ∈ Finset.range (l.node id).operands.length,
      if (l.slot? c id s).bind (sink? (l.contextKeys c)) = some (gradName o)
        then l.pulled ops leaves id s i else 0) = l.inflow ops leaves id o i := by
  obtain ⟨hlt, hcomp⟩ := h.home_lt id c hid
  have hregular := (h.classOf_eq id c hid).symm.trans hreg
  refine Finset.sum_congr rfl fun s _ => ?_
  show _ = if ((l.node id).operands[s]?).map Prod.fst = some o then l.flow ops leaves id s i else 0
  cases hs : (l.node id).operands[s]? with
  | none => simp [slot?, hs]
  | some oa =>
    obtain ⟨o', a⟩ := oa
    rw [Option.map_some]
    by_cases hoo : o' = o
    · subst hoo
      rw [if_pos rfl]
      -- inside a context operands are read in place
      obtain rfl : a = .aligned := by
        rcases h.edge id c o' a c hid (List.mem_of_getElem? hs) ho with ⟨-, -, -, ha⟩ | ⟨hne, -⟩
        · exact ha
        · exact absurd rfl hne
      have hflow : l.flow ops leaves id s i = l.pulled ops leaves id s i := by
        rw [flow_regular hregular hcomp hs, Finset.sum_filter]
        refine (Finset.sum_eq_single_of_mem i ?_ ?_).trans (if_pos rfl)
        · rw [Finset.mem_range, ← h.sizeOf_eq id c hid]
          exact hi
        · exact fun i' _ hne => if_neg hne
      rw [hflow]
      by_cases hterm : ∃ e, (l.terms id)[s]? = some (some e)
      · obtain ⟨e, he⟩ := hterm
        have htarget : l.target c o' .aligned = .accumulator (gradName o') := by
          obtain ⟨op, hop⟩ := Node.exists_op_of_isComputed (h.home_lt o' c ho).2
          simp [target, hop, hreg, (h.isMember_iff c o').2 ho, Access.isAligned]
        rw [slot?_of_term hs he, Option.bind_some, sink?, htarget]
        exact if_pos rfl
      · rw [pulled_eq_zero hops (fun e he => hterm ⟨e, he⟩) i, ite_self]
    · rw [if_neg fun heq => hoo (Option.some.inj heq)]
      refine if_neg fun hsink => hoo ?_
      obtain ⟨x, hx, hsink⟩ := Option.bind_eq_some_iff.1 hsink
      obtain ⟨hx', -, htarget⟩ := slot?_eq_some hx
      rw [hs, Option.some.injEq, Prod.mk.injEq] at hx'
      unfold sink? at hsink
      cases ht : x.target with
      | nowhere =>
        rw [ht] at hsink
        cases hsink
      | accumulator name =>
        rw [ht] at hsink htarget
        obtain ⟨-, -, -, rfl⟩ := target_accumulator htarget.symm
        exact hx'.1.trans (gradName_injective (Option.some.inj hsink))
      | buffer base owner =>
        rw [ht] at hsink
        exact absurd (Option.some.inj hsink) (collectorName_ne_gradName _ o)

/-- A collector gets what goes to its operand through its access. -/
theorem Sound.sum_collector (h : l.Sound masks) (hops : ops.Sums) {id i k : Nat}
    (hid : l.home id = some c) {key : (Nat × Access) × (String × Owner)}
    (hk : (l.contextKeys c)[k]? = some key) :
    (∑ s ∈ Finset.range (l.node id).operands.length,
      if (l.slot? c id s).bind (sink? (l.contextKeys c)) = some (collectorName k)
        then l.pulled ops leaves id s i else 0) = l.collected ops leaves id key.1 i := by
  have htarget := target_of_mem_contextKeys (List.mem_of_getElem? hk)
  have hindex : (l.contextKeys c).idxOf key = k := by
    obtain ⟨hlt, rfl⟩ := List.getElem?_eq_some_iff.1 hk
    exact (nodup_contextKeys c).idxOf_getElem k hlt
  refine Finset.sum_congr rfl fun s _ => ?_
  by_cases hs : (l.node id).operands[s]? = some key.1
  · rw [if_pos hs]
    by_cases hterm : ∃ e, (l.terms id)[s]? = some (some e)
    · obtain ⟨e, he⟩ := hterm
      rw [slot?_of_term hs he, Option.bind_some, sink?, htarget]
      exact if_pos (by rw [← hindex])
    · rw [pulled_eq_zero hops (fun e he => hterm ⟨e, he⟩) i, ite_self]
  · rw [if_neg hs]
    refine if_neg fun hsink => hs ?_
    obtain ⟨x, hx, hsink⟩ := Option.bind_eq_some_iff.1 hsink
    obtain ⟨hx', hterm, htarget'⟩ := slot?_eq_some hx
    unfold sink? at hsink
    cases ht : x.target with
    | nowhere =>
      rw [ht] at hsink
      cases hsink
    | accumulator name =>
      rw [ht] at hsink htarget'
      obtain ⟨-, -, -, rfl⟩ := target_accumulator htarget'.symm
      exact absurd (Option.some.inj hsink).symm (collectorName_ne_gradName k _)
    | buffer base owner =>
      rw [ht] at hsink
      -- the key of the contribution stands at the same place as the collector's
      have hmem : ((x.operand, x.access), (base, owner)) ∈ l.contextKeys c := by
        refine mem_contextKeys (List.mem_flatMap.2 ⟨id, ?_, ?_⟩) ht
        · exact List.mem_reverse.2 ((h.mem_members c id).2 hid)
        · rw [htarget'] at ht
          have := mem_contributions_of_term (c := c) hx' hterm
          rw [← htarget'] at this
          exact this
      have heq := collectorName_injective (Option.some.inj hsink)
      have hfound := List.getElem?_idxOf hmem
      rw [heq, hk, Option.some.injEq] at hfound
      rw [hx', hfound]

/-! ### The rules of a context -/

/-- Contributions are added to the accumulator of an operand or to a collector. -/
theorem Sound.sink_cases (h : l.Sound masks) {id s : Nat} (hid : l.home id = some c) {name : String}
    (hsink : (l.slot? c id s).bind (sink? (l.contextKeys c)) = some name) :
    (∃ o a, (o, a) ∈ (l.node id).operands ∧ l.home o = some c ∧ name = gradName o) ∨
      ∃ k < (l.contextKeys c).length, name = collectorName k := by
  obtain ⟨x, hx, hsink⟩ := Option.bind_eq_some_iff.1 hsink
  obtain ⟨ho, hterm, htarget⟩ := slot?_eq_some hx
  unfold sink? at hsink
  cases ht : x.target with
  | nowhere =>
    rw [ht] at hsink
    cases hsink
  | accumulator acc =>
    rw [ht] at hsink htarget
    obtain ⟨-, hmember, -, rfl⟩ := target_accumulator htarget.symm
    exact .inl ⟨x.operand, x.access, List.mem_of_getElem? ho, (h.isMember_iff c _).1 hmember,
      (Option.some.inj hsink).symm⟩
  | buffer base owner =>
    rw [ht] at hsink
    refine .inr ⟨_, List.idxOf_lt_length_of_mem (mem_contextKeys (List.mem_flatMap.2 ⟨id, ?_, ?_⟩) ht),
      (Option.some.inj hsink).symm⟩
    · exact List.mem_reverse.2 ((h.mem_members c id).2 hid)
    · have hmem := mem_contributions_of_term (c := c) ho hterm
      rw [← htarget] at hmem
      exact hmem

/-- The rule of a node, once its accumulator holds its gradient: accumulators and collectors get what the
node hands back. -/
theorem Fed.node_ends (hfed : l.Fed ops leaves partials c loads inputs) (h : l.Sound masks)
    (hbound : ∀ id < l.nodes.size, (l.node id).size < 2 ^ 32) (hops : ops.Sums)
    (hreg : l.classOf c = .regular)
    (hloads : ∀ x ∈ l.contextContributions c, (sink? (l.contextKeys c) x).isSome →
      x.value.loads ⊆ loads) {id i : Nat} (hid : l.home id = some c) (hi : i < l.sizeOf c)
    {s : Invocation α} (hindex : s.index = UInt32.ofNat i) (hs : s.inputs = inputs)
    (hg : s.locals.find? (gradName id) = some (.scalar (l.gradient ops leaves id i)))
    (haccumulators : ∀ o, l.home o = some c → ∃ z, s.locals.find? (gradName o) = some (.scalar z))
    (hcollectors : ∀ k < (l.contextKeys c).length,
      ∃ z, s.locals.find? (collectorName k) = some (.scalar z)) :
    Stmt.Ends ops s ((l.contributions c id).filterMap (ruleCode (l.contextKeys c))) fun t =>
      (∀ o z, l.home o = some c → s.locals.find? (gradName o) = some (.scalar z) →
        t.locals.find? (gradName o) = some (.scalar (z + l.inflow ops leaves id o i))) ∧
      ∀ k key z, (l.contextKeys c)[k]? = some key →
        s.locals.find? (collectorName k) = some (.scalar z) →
        t.locals.find? (collectorName k) = some (.scalar (z + l.collected ops leaves id key.1 i)) := by
  have hlt := (h.home_lt id c hid).1
  rw [contributions_eq]
  refine (rules_ends hops (v := fun s => l.pulled ops leaves id s i) hg ?_ ?_ ?_).mono ?_
  · intro k _ hsink
    rcases h.sink_cases hid hsink with ⟨o, a, ho, -, heq⟩ | ⟨k', -, heq⟩
    · have := h.operand_lt hlt ho
      rw [gradName_injective heq] at this
      exact Nat.lt_irrefl _ this
    · exact collectorName_ne_gradName k' id heq.symm
  · intro k _ name hsink
    rcases h.sink_cases hid hsink with ⟨o, a, -, ho, rfl⟩ | ⟨k', hk', rfl⟩
    · exact haccumulators o ho
    · exact hcollectors k' hk'
  · intro k hk x name hslot hsink t htindex ht hgt
    refine hfed.eval_term h hbound hreg hid hi hslot (hloads x ?_ (by simp [hsink]))
      (htindex.trans hindex) (ht.trans hs) hgt
    refine List.mem_flatMap.2 ⟨id, List.mem_reverse.2 ((h.mem_members c id).2 hid), ?_⟩
    rw [contributions_eq]
    exact List.mem_filterMap.2 ⟨k, List.mem_range.2 hk, hslot⟩
  · intro t ht
    refine ⟨?_, ?_⟩
    · intro o z ho hz
      rw [ht _ z hz, h.sum_accumulator hops hreg hid ho hi]
    · intro k key z hk hz
      rw [ht _ z hz, h.sum_collector hops hid hk]

/-- When the rules of a context come to a node, the nodes that read it have been there. -/
theorem Sound.sum_done (h : l.Sound masks) {done rest : List Nat} {id j : Nat}
    (hsplit : (l.members c).reverse = done ++ id :: rest) :
    (done.map fun x => l.inflow ops leaves x id j).sum = l.contextInflow ops leaves c id j := by
  have hmembers : ((l.members c).map fun x => l.inflow ops leaves x id j).sum =
      ((done ++ id :: rest).map fun x => l.inflow ops leaves x id j).sum := by
    rw [← hsplit]
    exact ((List.reverse_perm (l.members c)).map _).sum_eq.symm
  have hsorted : (done ++ id :: rest).Pairwise fun a b => b < a := by
    rw [← hsplit, List.pairwise_reverse]
    exact h.members_sorted c
  have hrest : ((id :: rest).map fun x => l.inflow ops leaves x id j).sum = 0 := by
    refine List.sum_eq_zero fun v hv => ?_
    obtain ⟨x, hx, rfl⟩ := List.mem_map.1 hv
    have hmem : x ∈ l.members c := by
      rw [← List.mem_reverse, hsplit]
      exact List.mem_append_right _ hx
    refine inflowAt_eq_zero ops fun a ha => ?_
    have hlt : id < x := h.operand_lt (h.home_lt x c ((h.mem_members c x).1 hmem)).1 ha
    rcases List.mem_cons.1 hx with rfl | hx
    · exact Nat.lt_irrefl _ hlt
    · have := (List.pairwise_cons.1 (List.pairwise_append.1 hsorted).2.1).1 x hx
      omega
  unfold contextInflow
  rw [hmembers, List.map_append, List.sum_append, hrest, add_zero]

/-- The rules of a regular context leave in every collector what all nodes contribute. -/
theorem Fed.rules_ends (hfed : l.Fed ops leaves partials c loads inputs) (h : l.Sound masks)
    (hbound : ∀ id < l.nodes.size, (l.node id).size < 2 ^ 32) (hops : ops.Sums)
    (hreg : l.classOf c = .regular)
    (hloads : ∀ x ∈ l.contextContributions c, (sink? (l.contextKeys c) x).isSome →
      x.value.loads ⊆ loads) {i : Nat} (hi : i < l.sizeOf c) {s : Invocation α}
    (hindex : s.index = UInt32.ofNat i) (hs : s.inputs = inputs)
    (hseeds : ∀ id ∈ l.members c,
      s.locals.find? (gradName id) = some (.scalar (l.seedIn ops inputs partials id i)))
    (hcollectors : ∀ k < (l.contextKeys c).length,
      s.locals.find? (collectorName k) = some (.scalar ops.zero)) :
    Stmt.Ends ops s ((l.contextContributions c).filterMap (ruleCode (l.contextKeys c))) fun t =>
      ∀ k key, (l.contextKeys c)[k]? = some key → t.locals.find? (collectorName k) =
        some (.scalar ((l.members c).map fun x => l.collected ops leaves x key.1 i).sum) := by
  -- the nodes in `done` have handed their gradients back
  have hwalk : ∀ (rest done : List Nat) (s : Invocation α), (l.members c).reverse = done ++ rest →
      s.index = UInt32.ofNat i → s.inputs = inputs →
      (∀ id ∈ l.members c, s.locals.find? (gradName id) = some (.scalar
        (l.seedIn ops inputs partials id i + (done.map fun x => l.inflow ops leaves x id i).sum))) →
      (∀ k key, (l.contextKeys c)[k]? = some key → s.locals.find? (collectorName k) =
        some (.scalar (done.map fun x => l.collected ops leaves x key.1 i).sum)) →
      Stmt.Ends ops s ((rest.flatMap (l.contributions c)).filterMap (ruleCode (l.contextKeys c)))
        fun t => ∀ k key, (l.contextKeys c)[k]? = some key → t.locals.find? (collectorName k) =
          some (.scalar ((l.members c).reverse.map fun x => l.collected ops leaves x key.1 i).sum) := by
    intro rest
    induction rest with
    | nil =>
      intro done s hsplit _ _ _ hcols
      rw [List.append_nil] at hsplit
      exact .nil (hsplit ▸ hcols)
    | cons id rest ih =>
      intro done s hsplit hindex hs haccs hcols
      have hmem : id ∈ l.members c := by
        rw [← List.mem_reverse, hsplit]
        simp
      have hid := (h.mem_members c id).1 hmem
      have hi' : i < (l.node id).size := h.sizeOf_eq id c hid ▸ hi
      have hg := haccs id hmem
      rw [h.sum_done hsplit, hfed.complete id hmem i hi'] at hg
      rw [List.flatMap_cons, List.filterMap_append]
      refine .append (.withFrame (hfed.node_ends h hbound hops hreg hloads hid hi hindex hs hg ?_ ?_) ?_)
      · exact fun o ho => ⟨_, haccs o ((h.mem_members c o).2 ho)⟩
      · exact fun k hk => ⟨_, hcols k _ (List.getElem?_eq_getElem hk)⟩
      · rintro t hframe ⟨haccs', hcols'⟩
        refine ih (done ++ [id]) t (by rw [hsplit, List.append_assoc]; rfl) (hframe.index.trans hindex)
          (hframe.inputs.trans hs) ?_ ?_
        · intro o ho
          rw [haccs' o _ ((h.mem_members c o).1 ho) (haccs o ho), List.map_append, List.sum_append,
            List.map_singleton, List.sum_singleton, add_assoc]
        · intro k key hk
          rw [hcols' k key _ hk (hcols k key hk), List.map_append, List.sum_append, List.map_singleton,
            List.sum_singleton]
  refine (hwalk (l.members c).reverse [] s rfl hindex hs ?_ ?_).mono ?_
  · intro id hid
    simpa using hseeds id hid
  · intro k key hk
    simpa [hops.zero] using hcollectors k (List.getElem?_eq_some_iff.1 hk).1
  · intro t ht k key hk
    rw [ht k key hk]
    exact congrArg (fun v => some (Value.scalar v)) ((List.reverse_perm (l.members c)).map _).sum_eq

/-! ### The kernel of a regular context -/

variable (ops l leaves) in
/-- What the backward kernel of a regular context deposits: the sum of all contributions to one operand
through one access. -/
def regularDeposits (c : Nat) : List (Deposit α) :=
  ((l.contextKeys c).zip (layOut c (l.sizeOf c) (l.contextKeys c)).partials).map fun e =>
    ⟨e.2, fun i => ((l.members c).map fun x => l.collected ops leaves x e.1.1 i).sum⟩

variable (ops leaves) in
/-- The deposits of a regular context go to its partial buffers. -/
theorem map_buffer_regularDeposits (c : Nat) :
    (l.regularDeposits ops leaves c).map Deposit.buffer =
      (layOut c (l.sizeOf c) (l.contextKeys c)).partials := by
  unfold regularDeposits
  rw [List.map_map]
  exact List.map_snd_zip (layOut_spec c (l.sizeOf c) (l.contextKeys c)).2.length_eq.ge

/-- A deposit of a regular context holds the sum of what its members collect under its key. -/
theorem getElem?_regularDeposits {k : Nat} {d : Deposit α}
    (hd : (l.regularDeposits ops leaves c)[k]? = some d) :
    ∃ key, (l.contextKeys c)[k]? = some key ∧ d.buffer.owner = key.2.2 ∧
      d.buffer.access = key.1.2 ∧ d.buffer.len = l.sizeOf c ∧
      d.value = fun i => ((l.members c).map fun x => l.collected ops leaves x key.1 i).sum := by
  unfold regularDeposits at hd
  rw [List.getElem?_map, Option.map_eq_some_iff] at hd
  obtain ⟨⟨key, p⟩, he, rfl⟩ := hd
  obtain ⟨hkey, hp⟩ := List.getElem?_zip_eq_some.1 he
  obtain ⟨p', hp', howner, haccess, hlen⟩ :=
    getElem?_of_forall₂ (layOut_spec c (l.sizeOf c) (l.contextKeys c)).2 hkey
  rw [hp, Option.some.injEq] at hp'
  subst hp'
  exact ⟨key, hkey, howner, haccess, hlen, rfl⟩

/-- Code of a regular backward kernel before its stores. -/
def regularCode (l : Layout) (partials : List PartialBuffer) (c : Nat) : List Stmt :=
  l.seeds partials (l.members c) ++
    ((l.contextKeys c).mapIdx fun k _ => .varDecl (collectorName k) (.float 0.0)) ++
    (l.contextContributions c).filterMap (ruleCode (l.contextKeys c))

/-- Before its stores a regular backward kernel has what it deposits in its collectors. -/
theorem Fed.regularCode_ends (hfed : l.Fed ops leaves partials c loads inputs) (h : l.Sound masks)
    (hbound : ∀ id < l.nodes.size, (l.node id).size < 2 ^ 32) (hops : ops.Sums)
    (hreg : l.classOf c = .regular)
    (hloads : ∀ x ∈ l.contextContributions c, (sink? (l.contextKeys c) x).isSome →
      x.value.loads ⊆ loads) {i : Nat} (hi : i < l.sizeOf c) {s : Invocation α}
    (hindex : s.index = UInt32.ofNat i) (hs : s.inputs = inputs) :
    Stmt.Ends ops s (l.regularCode partials c) fun t => ∀ k d,
      (l.regularDeposits ops leaves c)[k]? = some d →
      t.locals.find? (collectorName k) = some (.scalar (d.value i)) := by
  have hmembers : ∀ id ∈ l.members c, id ∈ l.members c ∧ i < (l.node id).size :=
    fun id hid => ⟨hid, h.sizeOf_eq id c ((h.mem_members c id).1 hid) ▸ hi⟩
  unfold regularCode
  rw [List.append_assoc]
  refine .append (.withFrame (hfed.seeds_ends hops hmembers (h.nodup_members c) hindex hs) ?_)
  intro t hframe hseeds
  refine .append (.withFrame (collectors_ends (l.contextKeys c) t) ?_)
  intro u hframe' hcollectors
  refine (hfed.rules_ends h hbound hops hreg hloads hi ((hframe'.index.trans hframe.index).trans hindex)
    ((hframe'.inputs.trans hframe.inputs).trans hs) ?_ hcollectors).mono ?_
  · intro id hid
    rw [hframe'.locals, hseeds id hid]
    intro hset
    obtain ⟨k, hk⟩ := sets_collectors hset
    exact collectorName_ne_gradName k id hk.symm
  · intro w hw k d hd
    obtain ⟨key, hkey, -, -, -, hvalue⟩ := getElem?_regularDeposits hd
    rw [hw k key hkey, hvalue]

/-- Before the final stores, the code of a regular backward kernel stores nothing. -/
theorem blockStores_regularCode : Stmt.blockStores (l.regularCode partials c) = [] := by
  refine Stmt.blockStores_of_quiet _ ?_
  rw [regularCode, List.append_assoc, Stmt.blockQuiet_append, quiet_seeds, quiet_rules]
  rfl

/-- The loads of the rules are loads of the kernel. -/
theorem loads_regularBackward (partials : List PartialBuffer) {x : Contribution}
    (hx : x ∈ l.contextContributions c) (hsink : (sink? (l.contextKeys c) x).isSome) :
    x.value.loads ⊆ (l.regularBackward partials c).kernel.loads := by
  obtain ⟨name, hname⟩ := Option.isSome_iff_exists.1 hsink
  intro b hb
  have hmem : Stmt.accumulate name x.value ∈
      (l.contextContributions c).filterMap (ruleCode (l.contextKeys c)) :=
    List.mem_filterMap.2 ⟨x, hx, by rw [ruleCode_eq, hname]; rfl⟩
  have hload : b ∈ Stmt.blockLoads
      ((l.contextContributions c).filterMap (ruleCode (l.contextKeys c))) := by
    have hsingle : b ∈ Stmt.blockLoads (List.flatMap (fun stmt => [stmt]) _) :=
      Stmt.mem_blockLoads_flatMap hmem (by simp [Stmt.blockLoads, Stmt.accumulate, Stmt.loads, Expr.loads, hb])
    rwa [List.flatMap_singleton'] at hsingle
  show b ∈ Stmt.blockLoads (_ :: (l.regularCode partials c ++ _))
  rw [Stmt.blockLoads, Stmt.blockLoads_append, regularCode, Stmt.blockLoads_append]
  simp [hload]

/-- One invocation of the backward kernel of a regular context makes its deposits. -/
theorem Fed.regular_stores (hfed : l.Fed ops leaves partials c
      (l.regularBackward partials c).kernel.loads inputs) (h : l.Sound masks)
    (hbound : ∀ id < l.nodes.size, (l.node id).size < 2 ^ 32) (hops : ops.Sums) (hc : c ∈ l.order)
    (hreg : l.classOf c = .regular) {outputs : Buffers α}
    (hout : ∀ d ∈ l.regularDeposits ops leaves c, (outputs.find? (outputName d.buffer.name)).isSome)
    (hnodup : ((l.regularDeposits ops leaves c).map fun d => d.buffer.name).Nodup)
    {i : Nat} (hi : i < 2 ^ 32) :
    Kernel.Stores ops (l.regularBackward partials c).kernel.body inputs outputs i
      fun name => Deposit.write (l.regularDeposits ops leaves c) name i := by
  have hok := h.regularBackward_ok partials hreg
  have hsize := h.sizeOf_lt hbound hc
  have hds : ∀ d ∈ l.regularDeposits ops leaves c, d.buffer.len = l.sizeOf c ∧
      ∃ m, d.buffer.access.Covers m (l.sizeOf c) := by
    intro d hd
    obtain ⟨k, hk⟩ := List.mem_iff_getElem?.1 hd
    obtain ⟨key, -, -, -, hlen, -⟩ := getElem?_regularDeposits hk
    have hmem : d.buffer ∈ (l.regularBackward partials c).partials := by
      show _ ∈ (layOut c (l.sizeOf c) (l.contextKeys c)).partials
      rw [← map_buffer_regularDeposits ops leaves]
      exact List.mem_map_of_mem hd
    obtain ⟨o, -, -, hcov⟩ := hok.owned _ hmem
    exact ⟨hlen, _, hlen ▸ hcov⟩
  have hbody : (l.regularBackward partials c).kernel.body = .boundsGuard (l.sizeOf c) ::
      (l.regularCode partials c ++ ((l.regularDeposits ops leaves c).map Deposit.buffer).mapIdx
        fun k p => .store (outputName p.name) p.access.partialIndex (.var (collectorName k))) := by
    rw [map_buffer_regularDeposits]
    rfl
  unfold Kernel.Stores Kernel.invoke
  rw [hbody, Stmt.execBlock_boundsGuard ops rfl hi hsize]
  by_cases hlt : i < l.sizeOf c
  · rw [if_pos hlt]
    have hends : Stmt.Ends ops ⟨UInt32.ofNat i, .empty, inputs, outputs⟩
        (l.regularCode partials c ++ ((l.regularDeposits ops leaves c).map Deposit.buffer).mapIdx
          fun k p => .store (outputName p.name) p.access.partialIndex (.var (collectorName k))) fun t =>
        ∀ b, t.outputs.find? b = (outputs.find? b).map fun data =>
          applyWrite data (Deposit.write (l.regularDeposits ops leaves c) b i) := by
      refine .append (.withFrame (hfed.regularCode_ends h hbound hops hreg
        (fun x hx hsink => loads_regularBackward partials hx hsink) hlt rfl rfl) ?_)
      intro t hframe hvalue
      rw [blockStores_regularCode] at hframe
      refine (Deposit.stores_ends hnodup hlt hsize hds hframe.index hvalue ?_).mono ?_
      · intro d hd
        rw [hframe.find?_outputs]
        exact hout d hd
      · intro u hu b
        rw [hu b, hframe.find?_outputs]
    obtain ⟨t, ht, hfind⟩ := hends
    rw [ht]
    exact ⟨rfl, hfind⟩
  · rw [if_neg hlt]
    refine ⟨rfl, fun b => ?_⟩
    have hnone : Deposit.write (l.regularDeposits ops leaves c) b i = none := by
      unfold Deposit.write
      cases hfind : (l.regularDeposits ops leaves c).find? fun d => outputName d.buffer.name = b with
      | none => rfl
      | some d =>
        rw [Option.bind_some, if_neg]
        rw [(hds d (List.mem_of_find?_eq_some hfind)).1]
        exact hlt
    simp only [hnone, applyWrite]
    exact (Option.map_id' (x := outputs.find? b)).symm

end Layout

end TensorKernels
