import Mathlib.Order.Bounds.Defs
import TensorKernels.Proofs.Building
import TensorKernels.Proofs.LoweringSteps

/-!
# Lowering one term after the other

A session lowers terms one after the other, and goes on after a failure with the state that the failure
left. `Lowering.SharedSession` says what the arena of a session is like: operands come first, every node
lists its readers, the stage of a node is the greatest number of values that are handed over on a way down
from it (`Arena.isGreatest_stage`), and there is one node for each call site and tensor, and one mask for
each dropout site, however they were reached. What failed fails again, and what was remembered stays.

The facts about the arena hold of every sound state, so they are proved there; a session only has to relate
its answers to its last state, which continues every state before it.
-/

set_option autoImplicit false

namespace TensorKernels

/-! ## Ways down -/

/-- The reader gets the value of the operand through a buffer: a reduction makes it or reads it, or it is
read at another index. -/
def IsHandover (nodes : Array Node) (reader : Nat) (o : Nat × Access) : Prop :=
  (nodeAt nodes o.1).opClass = .reduction ∨ (nodeAt nodes reader).opClass = .reduction ∨ o.2 ≠ .aligned

instance (nodes : Array Node) (reader : Nat) (o : Nat × Access) : Decidable (IsHandover nodes reader o) :=
  inferInstanceAs (Decidable (_ ∨ _ ∨ _))

/-- A way down from a node goes from operand to operand, through operators only. -/
def Descends (nodes : Array Node) : Nat → List (Nat × Access) → Prop
  | _, [] => True
  | id, o :: path => o ∈ (nodeAt nodes id).operands ∧ (nodeAt nodes o.1).isComputed ∧
      Descends nodes o.1 path

/-- The number of values that are handed over on a way down. -/
def handovers (nodes : Array Node) : Nat → List (Nat × Access) → Nat
  | _, [] => 0
  | id, o :: path => (if IsHandover nodes id o then 1 else 0) + handovers nodes o.1 path

/-- A maximum is reached. -/
theorem foldl_max_reached {β : Type} (f : β → Nat) (l : List β) (init : Nat) :
    l.foldl (fun m x => max m (f x)) init = init ∨
      ∃ x ∈ l, f x = l.foldl (fun m x => max m (f x)) init := by
  induction l generalizing init with
  | nil => exact .inl rfl
  | cons y l ih =>
    rw [List.foldl_cons]
    rcases ih (max init (f y)) with h | ⟨x, hx, h⟩
    · rw [h]
      by_cases hy : f y ≤ init
      · exact .inl (Nat.max_eq_left hy)
      · exact .inr ⟨y, List.mem_cons_self, (Nat.max_eq_right (by omega)).symm⟩
    · exact .inr ⟨x, List.mem_cons_of_mem y hx, h⟩

section Stage

variable {signature : Signature} {masks : Array MaskSite} {nodes : Array Node}

/-- An operator that is read forces its own stage on the reader, or the next one where it hands over. -/
theorem operandStage_eq {id : Nat} {op : Op} (hk : (nodeAt nodes id).kind = .op op) {o : Nat × Access}
    (ho : (nodeAt nodes o.1).isComputed) :
    Lowering.operandStage (nodeAt nodes o.1) op.opClass o.2 =
      (if IsHandover nodes id o then 1 else 0) + (nodeAt nodes o.1).stage := by
  have hclass : (nodeAt nodes id).opClass = op.opClass := by simp [Node.opClass, hk]
  have haligned : o.2.isAligned = true ↔ o.2 = .aligned := by cases o.2 <;> simp [Access.isAligned]
  have hmat : Lowering.isMaterialized (nodeAt nodes o.1).opClass op.opClass o.2 = true ↔
      IsHandover nodes id o := by
    simp [Lowering.isMaterialized, IsHandover, hclass, ← haligned, or_assoc]
  rw [Lowering.operandStage, if_pos ho, Nat.add_comm]
  simp only [hmat]

/-- No way down hands over more values than the stage says. -/
theorem Arena.handovers_le (h : Arena signature masks nodes) (path : List (Nat × Access)) {id : Nat}
    (hid : id < nodes.size) (hpath : Descends nodes id path) :
    handovers nodes id path ≤ (nodeAt nodes id).stage := by
  induction path generalizing id with
  | nil => exact Nat.zero_le _
  | cons o path ih =>
    obtain ⟨ho, hcomp, hrest⟩ := hpath
    have hlt := h.operand_lt hid o ho
    obtain ⟨op, hk⟩ : ∃ op, (nodeAt nodes id).kind = .op op := by
      exact Node.exists_op_of_isComputed (h.isComputed_of_mem hid ho)
    calc handovers nodes id (o :: path)
        = (if IsHandover nodes id o then 1 else 0) + handovers nodes o.1 path := rfl
      _ ≤ (if IsHandover nodes id o then 1 else 0) + (nodeAt nodes o.1).stage :=
        Nat.add_le_add_left (ih (by omega) hrest) _
      _ = Lowering.operandStage (nodeAt nodes o.1) op.opClass o.2 := (operandStage_eq hk hcomp).symm
      _ ≤ (nodeAt nodes id).stage := (h.opNode (getElem?_nodeAt hid) hk).operandStage_le ho

/-- Some way down hands over as many values as the stage says. -/
theorem Arena.exists_handovers_eq (h : Arena signature masks nodes) {id : Nat} (hid : id < nodes.size) :
    ∃ path, Descends nodes id path ∧ handovers nodes id path = (nodeAt nodes id).stage := by
  induction id using Nat.strongRecOn with
  | ind id ih =>
    by_cases hzero : (nodeAt nodes id).stage = 0
    · exact ⟨[], trivial, hzero.symm⟩
    obtain ⟨op, hk⟩ : ∃ op, (nodeAt nodes id).kind = .op op := by
      have hok := h id _ (getElem?_nodeAt hid)
      unfold NodeOk at hok
      cases hk : (nodeAt nodes id).kind with
      | op op => exact ⟨op, rfl⟩
      | tensor t =>
        simp only [hk] at hok
        exact absurd hok.2.1 hzero
      | mask i =>
        simp only [hk] at hok
        exact absurd hok.2.1 hzero
      | constant x =>
        simp only [hk] at hok
        exact absurd hok.2.1 hzero
    have hok := h.opNode (getElem?_nodeAt hid) hk
    -- the stage comes from one of the operands, which is then an operator itself
    obtain ⟨o, ho, hstage⟩ : ∃ o ∈ (nodeAt nodes id).operands,
        Lowering.operandStage (nodeAt nodes o.1) op.opClass o.2 = (nodeAt nodes id).stage := by
      rw [hok.stage] at hzero ⊢
      rcases foldl_max_reached (fun o : Nat × Access =>
        Lowering.operandStage (nodeAt nodes o.1) op.opClass o.2) (nodeAt nodes id).operands 0 with
        hnone | hsome
      · exact absurd hnone hzero
      · exact hsome
    have hcomp : (nodeAt nodes o.1).isComputed := by
      by_contra hleaf
      rw [Lowering.operandStage, if_neg hleaf] at hstage
      exact hzero hstage.symm
    obtain ⟨path, hpath, heq⟩ := ih o.1 (hok.operand_lt o ho) (by have := hok.operand_lt o ho; omega)
    refine ⟨o :: path, ⟨ho, hcomp, hpath⟩, ?_⟩
    rw [handovers, heq, ← hstage, operandStage_eq hk hcomp]

/-- The stage of a node is the greatest number of values that are handed over on a way down from it. -/
theorem Arena.isGreatest_stage (h : Arena signature masks nodes) {id : Nat} (hid : id < nodes.size) :
    IsGreatest { k | ∃ path, Descends nodes id path ∧ handovers nodes id path = k }
      (nodeAt nodes id).stage := by
  refine ⟨h.exists_handovers_eq hid, ?_⟩
  rintro k ⟨path, hpath, rfl⟩
  exact h.handovers_le path hid hpath

end Stage

/-- What makes a term the same as another: its call site, or the number of its tensor. A constant has
nothing of the kind. -/
def Term.identity? : Term → Option (Nat ⊕ Nat)
  | .apply site _ _ => some (.inl site)
  | .tensor t => some (.inr t)
  | .constant _ => none

/-- Terms that are the same look the same. -/
theorem Term.Universe.eq_of_identity {U : Term → Prop} (hU : Term.Universe U) {t u : Term} (ht : U t)
    (hu : U u) (hsome : t.identity?.isSome) (h : t.identity? = u.identity?) : t = u := by
  cases t with
  | constant value => cases hsome
  | tensor a =>
    cases u with
    | constant value => cases h
    | tensor b =>
      cases h
      rfl
    | apply site op args => cases h
  | apply site op args =>
    cases u with
    | constant value => cases h
    | tensor b => cases h
    | apply site' op' args' =>
      cases h
      obtain ⟨rfl, rfl⟩ := hU.shared _ _ _ _ _ ht hu
      rfl

namespace Lowering

variable {U : Term → Prop} {s : Lowering}

/-! ## Nodes of terms -/

/-- A term stays at its node in every state that grows out of this one. -/
theorem Grows.at {s' : Lowering} (h : s.Grows s') {t : Term} {id : Nat} (hat : s.At t id) : s'.At t id :=
  hat.mono h.continues.nodes h.sites

/-- The node of a term is in the array. -/
theorem At.lt_size (h : s.Placed U) {t : Term} {id : Nat} (hat : s.At t id) : id < s.nodes.size := by
  cases t with
  | constant value =>
    obtain ⟨n, hn, -⟩ := hat
    exact lt_size_of_getElem? hn
  | tensor t =>
    obtain ⟨n, hn, -⟩ := hat
    exact lt_size_of_getElem? hn
  | apply site op args =>
    obtain ⟨-, -, n, -, -, hn, -⟩ := h.call site id hat
    exact lt_size_of_getElem? hn

/-- The node of a call is that of an operator. -/
theorem At.exists_op (h : s.Placed U) {site id : Nat} (hid : s.sites.find? site = some id) :
    ∃ op, (s.node id).kind = .op op := by
  obtain ⟨op, -, n, -, -, hn, hk, -⟩ := h.call site id hid
  exact ⟨op, by rw [node_eq, nodeAt_of_getElem? hn, hk]⟩

/-- The node of a tensor is a leaf of that tensor. -/
theorem At.tensor_kind {t id : Nat} (hat : s.At (.tensor t) id) : (s.node id).kind = .tensor t := by
  obtain ⟨n, hn, hk⟩ := hat
  rw [node_eq, nodeAt_of_getElem? hn, hk]

/-- The remembered leaves are the nodes of tensors. -/
theorem Sound.find?_leaves_iff (h : s.Sound U) {t id : Nat} :
    s.leaves.find? t = some id ↔ id < s.nodes.size ∧ (s.node id).kind = .tensor t := by
  obtain ⟨sites, hinv, -⟩ := h.noted
  constructor
  · intro hid
    have hlow := hinv.leaf t id hid
    rw [Term.LoweredTo] at hlow
    obtain ⟨n, hn, hk⟩ := hlow
    exact ⟨lt_size_of_getElem? hn, by rw [node_eq, nodeAt_of_getElem? hn, hk]⟩
  · rintro ⟨hlt, hk⟩
    exact hinv.leafOnce id _ t (getElem?_nodeAt hlt) hk

/-- Two terms share their node exactly where they are the same. -/
theorem Sound.identity_eq_iff (h : s.Sound U) {t u : Term} {x y : Nat} (ht : s.At t x) (hu : s.At u y)
    (hst : t.identity?.isSome) (hsu : u.identity?.isSome) : x = y ↔ t.identity? = u.identity? := by
  have hmixed : ∀ site op args n, s.At (.apply site op args) x → s.At (.tensor n) x → False := by
    intro site op args n hx hx'
    obtain ⟨op', hk⟩ := At.exists_op h.placed hx
    rw [At.tensor_kind hx'] at hk
    cases hk
  cases t with
  | constant value => cases hst
  | tensor a =>
    cases u with
    | constant value => cases hsu
    | tensor b =>
      simp only [Term.identity?, Option.some.injEq, Sum.inr.injEq]
      have hkx := At.tensor_kind ht
      have hky := At.tensor_kind hu
      constructor
      · rintro rfl
        rw [hkx] at hky
        cases hky
        rfl
      · rintro rfl
        have hx := h.find?_leaves_iff.2 ⟨At.lt_size h.placed ht, hkx⟩
        rw [h.find?_leaves_iff.2 ⟨At.lt_size h.placed hu, hky⟩] at hx
        cases hx
        rfl
    | apply site op args =>
      simp only [Term.identity?, Option.some.injEq, reduceCtorEq, iff_false]
      rintro rfl
      exact hmixed _ _ _ _ hu ht
  | apply site op args =>
    cases u with
    | constant value => cases hsu
    | tensor b =>
      simp only [Term.identity?, Option.some.injEq, reduceCtorEq, iff_false]
      rintro rfl
      exact hmixed _ _ _ _ ht hu
    | apply site' op' args' =>
      simp only [Term.identity?, Option.some.injEq, Sum.inl.injEq]
      constructor
      · rintro rfl
        exact h.placed.once site site' x ht hu
      · rintro rfl
        have hx : s.sites.find? site = some x := ht
        rw [show s.sites.find? site = some y from hu] at hx
        cases hx
        rfl

/-- The node of a call: that of its operator, on the nodes of its arguments and with the inferred shape. -/
structure IsCall (s : Lowering) (site : Nat) (op : Op) (args : List Term) (id : Nat) : Prop where
  lt_size : id < s.nodes.size
  kind : (s.node id).kind = .op op
  arity : (s.node id).operands.length = op.arity
  operands : ∃ ids, List.Forall₂ s.At args ids ∧ ids <+: (s.node id).operands.map Prod.fst
  shape : (Term.apply site op args).infer s.signature = .ok (s.node id).shape

/-- What is remembered of a call site. -/
theorem Sound.isCall (hU : Term.Universe U) (h : s.Sound U) {site id : Nat}
    (hid : s.sites.find? site = some id) : ∃ op args, U (.apply site op args) ∧ s.IsCall site op args id := by
  obtain ⟨sites, hinv, -⟩ := h.noted
  obtain ⟨op, args, n, ids, ht, hn, hk, hids, hat⟩ := h.placed.call site id hid
  have hnode : s.node id = n := nodeAt_of_getElem? hn
  have hlow := At.loweredTo hU hinv ht (t := .apply site op args) hid
  refine ⟨op, args, ht, lt_size_of_getElem? hn, ?_, ?_, ⟨ids, hat, ?_⟩, hlow.infer_eq hinv.arena⟩
  · rw [hnode, hk]
  · rw [hnode]
    exact (hinv.arena.opNode hn hk).arity
  · rw [hnode]
    exact hids

/-! ## Masks -/

/-- The node reads the mask with the given index. -/
def ReadsMask (s : Lowering) (id i : Nat) : Prop :=
  ∃ o ∈ (s.node id).operands, (s.node o.1).kind = .mask i

/-- A node that stands for a term is not a mask. -/
theorem kind_ne_mask {nodes : Array Node} {sites : List Nat} {t : Term} {id : Nat}
    (h : t.LoweredTo nodes sites id) (i : Nat) : (nodeAt nodes id).kind ≠ .mask i := by
  intro hmask
  cases t with
  | constant value =>
    rw [Term.LoweredTo] at h
    obtain ⟨n, hn, hk⟩ := h
    rw [nodeAt_of_getElem? hn, hk] at hmask
    cases hmask
  | tensor t =>
    rw [Term.LoweredTo] at h
    obtain ⟨n, hn, hk⟩ := h
    rw [nodeAt_of_getElem? hn, hk] at hmask
    cases hmask
  | apply site op args =>
    rw [Term.LoweredTo] at h
    obtain ⟨n, ids, hn, hk, -⟩ := h
    rw [nodeAt_of_getElem? hn, hk] at hmask
    cases hmask

/-- A dropout reads the mask whose index is the position of its site, and other calls read none. -/
theorem Inv.readsMask_iff {sites : List Nat} (h : s.Inv U sites) {site id : Nat}
    (hid : s.sites.find? site = some id) (i : Nat) :
    s.ReadsMask id i ↔ (∃ rate, (s.node id).kind = .op (.dropout rate)) ∧ sites[i]? = some site := by
  obtain ⟨op, args, -, hlow⟩ := h.memo site id hid
  rw [Term.LoweredTo] at hlow
  obtain ⟨n, ids, hn, hk, hargs, hops⟩ := hlow
  have hnode : s.node id = n := nodeAt_of_getElem? hn
  have hargs : ∀ o ∈ ids, (s.node o).kind ≠ .mask i := by
    intro o ho
    obtain ⟨t, -, hlow⟩ := hargs.exists_of_mem ho
    exact kind_ne_mask hlow i
  rw [hnode, hk]
  constructor
  · rintro ⟨o, ho, hmask⟩
    rw [hnode] at ho
    have ho : o.1 ∈ n.operands.map Prod.fst := List.mem_map_of_mem ho
    cases op
    case dropout rate =>
      obtain ⟨m, n', j, hfst, hm, hkm, hj⟩ := hops
      rw [hfst, List.mem_append, List.mem_singleton] at ho
      rcases ho with ho | ho
      · exact absurd hmask (hargs o.1 ho)
      · rw [ho, node_eq, nodeAt_of_getElem? hm, hkm] at hmask
        cases hmask
        exact ⟨⟨rate, rfl⟩, hj⟩
    all_goals
      simp only [Op.OperandsOf] at hops
      rw [hops] at ho
      exact absurd hmask (hargs o.1 ho)
  · rintro ⟨⟨rate, hrate⟩, hi⟩
    cases hrate
    obtain ⟨m, n', j, hfst, hm, hkm, hj⟩ := hops
    obtain rfl : i = j :=
      (List.getElem?_inj (List.getElem?_eq_some_iff.1 hi).1 h.nodup).1 (hi.trans hj.symm)
    have hmem : m ∈ n.operands.map Prod.fst := by simp [hfst]
    obtain ⟨o, ho, rfl⟩ := List.mem_map.1 hmem
    exact ⟨o, hnode ▸ ho, by rw [node_eq, nodeAt_of_getElem? hm, hkm]⟩

/-- Every dropout site has a mask of its own rate and size. -/
theorem Sound.existsUnique_mask (h : s.Sound U) {site id : Nat} (hid : s.sites.find? site = some id)
    {rate : Float32} (hk : (s.node id).kind = .op (.dropout rate)) :
    ∃! i, s.ReadsMask id i ∧ s.masks[i]? = some ⟨rate, (s.node id).size⟩ := by
  obtain ⟨sites, hinv, -⟩ := h.noted
  obtain ⟨-, -, n, -, -, hn, -⟩ := h.placed.call site id hid
  have hok := hinv.arena.opNode (getElem?_nodeAt (lt_size_of_getElem? hn)) hk
  obtain ⟨-, x, a, m, b, i, hxm, hkm, hshape, hi⟩ := hok.mask rate rfl
  have hreads : s.ReadsMask id i := ⟨(m, b), by rw [node_eq, hxm]; simp, hkm⟩
  -- the result has the shape of the operand
  have hsize : (s.node id).size = (nodeAt s.nodes x).size := by
    have hinf := hok.inferred
    rw [hxm] at hinf
    have hinf : (.ok ⟨(nodeAt s.nodes x).shape, [.aligned, .aligned]⟩ : Except Error Inferred) =
      .ok ⟨(nodeAt s.nodes id).shape, [a, b]⟩ := hinf
    exact (congrArg Shape.size (congrArg Inferred.shape (Except.ok.inj hinf))).symm
  refine ⟨i, ⟨hreads, by rw [hsize, hi]⟩, ?_⟩
  rintro j ⟨hj, -⟩
  obtain ⟨-, hi⟩ := (hinv.readsMask_iff hid i).1 hreads
  obtain ⟨-, hj⟩ := (hinv.readsMask_iff hid j).1 hj
  exact (List.getElem?_inj (List.getElem?_eq_some_iff.1 hj).1 hinv.nodup).1 (hj.trans hi.symm)

/-- Every mask belongs to one dropout site. -/
theorem Sound.existsUnique_site (hU : Term.Universe U) (h : s.Sound U) {i : Nat} (hi : i < s.masks.size) :
    ∃! site, ∃ id, s.sites.find? site = some id ∧ s.ReadsMask id i := by
  obtain ⟨sites, hinv, hnoted, hdropouts⟩ := h.noted
  rw [hinv.count] at hi
  have hsite : sites[i]? = some (sites.get ⟨i, hi⟩) := List.getElem?_eq_getElem hi
  obtain ⟨id, hid⟩ := Option.isSome_iff_exists.1 (hnoted _ (List.mem_of_getElem? hsite))
  obtain ⟨rate, args, ht⟩ := hdropouts _ (List.mem_of_getElem? hsite)
  obtain ⟨op, args', ht', hcall⟩ := h.isCall hU hid
  obtain ⟨rfl, rfl⟩ := hU.shared _ _ _ _ _ ht ht'
  refine ⟨_, ⟨id, hid, (hinv.readsMask_iff hid i).2 ⟨⟨rate, hcall.kind⟩, hsite⟩⟩, ?_⟩
  rintro site ⟨id', hid', hreads⟩
  obtain ⟨-, hsite'⟩ := (hinv.readsMask_iff hid' i).1 hreads
  rw [hsite] at hsite'
  exact (Option.some.inj hsite').symm

/-! ## Sessions -/

/-- What a computation answers, without the state that it leaves behind. -/
def answerOf {ε σ β : Type} : EStateM.Result ε σ β → Except ε β
  | .ok b _ => .ok b
  | .error e _ => .error e

/-- Lowers terms one after the other. A failure is an answer as well, and the next term goes on from the
state that it left. -/
def lowerEach : List Term → Lowering → List (Except Error Nat) × Lowering
  | [], s => ([], s)
  | t :: rest, s =>
    let r := lower t s
    let (answers, s') := lowerEach rest (stateAfter r)
    (answerOf r :: answers, s')

/-- The answer for a term is settled by its shape inference: that error, or the node of the term. -/
theorem Sound.answer (hU : Term.Universe U) (h : s.Sound U) {t : Term} (ht : U t) :
    match t.infer s.signature with
    | .error e => answerOf (lower t s) = .error e
    | .ok shape => ∃ id, answerOf (lower t s) = .ok id ∧ (stateAfter (lower t s)).At t id ∧
      ((stateAfter (lower t s)).node id).shape = shape := by
  obtain ⟨sites, hinv, hnoted, -⟩ := h.noted
  have hspec := lower_spec hU t ht s sites hinv hnoted
  cases hl : lower t s with
  | error e s' =>
    rw [hl] at hspec
    rw [hspec.1]
    rfl
  | ok id s' =>
    rw [hl] at hspec
    obtain ⟨hlow, hid⟩ := hspec
    obtain ⟨-, hat, -⟩ := lower_placed hU t ht s sites hinv hnoted h.placed hl
    rw [← hlow.continues.signature, hid.infer_eq hlow.inv.arena]
    exact ⟨id, rfl, hat, rfl⟩

/-- A session makes steps. -/
theorem lowerEach_run (hU : Term.Universe U) (ts : List Term) (hts : ∀ t ∈ ts, U t) (s : Lowering)
    (h : s.Sound U) : Run U s (lowerEach ts s).2 := by
  induction ts generalizing s with
  | nil => exact .refl
  | cons t ts ih =>
    have hrun := lower_run hU t (hts t List.mem_cons_self) s h
    exact hrun.trans (ih (fun u hu => hts u (List.mem_cons_of_mem t hu)) _ (hrun.sound hU h).1)

/-- Terms of two lists are lowered one list after the other. -/
theorem lowerEach_append (ts us : List Term) (s : Lowering) :
    lowerEach (ts ++ us) s = ((lowerEach ts s).1 ++ (lowerEach us (lowerEach ts s).2).1,
      (lowerEach us (lowerEach ts s).2).2) := by
  induction ts generalizing s with
  | nil => rfl
  | cons t ts ih => simp only [List.cons_append, lowerEach, ih]

/-- An answer of a session was given in a sound state, which the last state continues. -/
theorem lowerEach_answer (hU : Term.Universe U) {ts : List Term} (hts : ∀ t ∈ ts, U t) {s : Lowering}
    (h : s.Sound U) {i : Nat} {t : Term} (hi : ts[i]? = some t) :
    ∃ s₁, s₁.Sound U ∧ s₁.signature = s.signature ∧
      (lowerEach ts s).1[i]? = some (answerOf (lower t s₁)) ∧
      (stateAfter (lower t s₁)).Grows (lowerEach ts s).2 := by
  induction ts generalizing s i with
  | nil => cases hi
  | cons u ts ih =>
    have hrun := lower_run hU u (hts u List.mem_cons_self) s h
    obtain ⟨hsound, hgrows⟩ := hrun.sound hU h
    have hts' : ∀ v ∈ ts, U v := fun v hv => hts v (List.mem_cons_of_mem u hv)
    cases i with
    | zero =>
      cases hi
      exact ⟨s, h, rfl, rfl, ((lowerEach_run hU ts hts' _ hsound).sound hU hsound).2⟩
    | succ i =>
      obtain ⟨s₁, hs₁, hsig, hanswer, hlast⟩ := ih hts' hsound hi
      exact ⟨s₁, hs₁, hsig.trans hgrows.continues.signature, hanswer, hlast⟩

section Answers

variable {ts : List Term} {i : Nat} {t : Term}

/-- A term whose shape cannot be inferred is refused, whatever is lowered before and after it. -/
theorem lowerEach_refused (hU : Term.Universe U) (hts : ∀ t ∈ ts, U t) (h : s.Sound U)
    (hi : ts[i]? = some t) {e : Error} (he : t.infer s.signature = .error e) :
    (lowerEach ts s).1[i]? = some (.error e) := by
  obtain ⟨s₁, hs₁, hsig, hanswer, -⟩ := lowerEach_answer hU hts h hi
  have hspec := hs₁.answer hU (hts t (List.mem_of_getElem? hi))
  rw [hsig, he] at hspec
  rw [hanswer, hspec]

/-- A term whose shape can be inferred is lowered, whatever is lowered before and after it. -/
theorem lowerEach_answered (hU : Term.Universe U) (hts : ∀ t ∈ ts, U t) (h : s.Sound U)
    (hi : ts[i]? = some t) {shape : Shape} (hok : t.infer s.signature = .ok shape) :
    ∃ id, (lowerEach ts s).1[i]? = some (.ok id) ∧ (lowerEach ts s).2.At t id ∧
      ((lowerEach ts s).2.node id).shape = shape := by
  have ht := hts t (List.mem_of_getElem? hi)
  obtain ⟨s₁, hs₁, hsig, hanswer, hlast⟩ := lowerEach_answer hU hts h hi
  have hspec := hs₁.answer hU ht
  rw [hsig, hok] at hspec
  obtain ⟨id, hid, hat, hshape⟩ := hspec
  have hlt := At.lt_size ((lower_run hU t ht s₁ hs₁).sound hU hs₁).1.placed hat
  refine ⟨id, by rw [hanswer, hid], hlast.at hat, ?_⟩
  rw [node_eq, Node.shape_of_core (hlast.continues.nodes.core_eq hlt)]
  exact hshape

/-- The node that a term is answered with is its node. -/
theorem at_of_answer (hU : Term.Universe U) (hts : ∀ t ∈ ts, U t) (h : s.Sound U) (hi : ts[i]? = some t)
    {x : Nat} (hx : (lowerEach ts s).1[i]? = some (.ok x)) : (lowerEach ts s).2.At t x := by
  cases hinfer : t.infer s.signature with
  | error e =>
    rw [lowerEach_refused hU hts h hi hinfer] at hx
    cases hx
  | ok shape =>
    obtain ⟨id, hid, hat, -⟩ := lowerEach_answered hU hts h hi hinfer
    rw [hid] at hx
    cases hx
    exact hat

/-- The same term is answered in the same way. -/
theorem answers_eq (hU : Term.Universe U) (hts : ∀ t ∈ ts, U t) (h : s.Sound U) {j : Nat}
    (hi : ts[i]? = some t) (hj : ts[j]? = some t) (hsome : t.identity?.isSome) :
    (lowerEach ts s).1[i]? = (lowerEach ts s).1[j]? := by
  cases hinfer : t.infer s.signature with
  | error e => rw [lowerEach_refused hU hts h hi hinfer, lowerEach_refused hU hts h hj hinfer]
  | ok shape =>
    obtain ⟨x, hx, hatx, -⟩ := lowerEach_answered hU hts h hi hinfer
    obtain ⟨y, hy, haty, -⟩ := lowerEach_answered hU hts h hj hinfer
    have hs := ((lowerEach_run hU ts hts s h).sound hU h).1
    rw [hx, hy, (hs.identity_eq_iff hatx haty hsome hsome).2 rfl]

end Answers

/-- The site of a call that shape inference refuses is not remembered. -/
theorem Sound.find?_of_refused (hU : Term.Universe U) (h : s.Sound U) {u : Term} (hu : U u) {e : Error}
    (he : u.infer s.signature = .error e) {site : Nat} (hsite : u.site? = some site) :
    s.sites.find? site = none := by
  by_contra hfound
  obtain ⟨id, hid⟩ := Option.ne_none_iff_exists'.1 hfound
  obtain ⟨op, args, ht, hcall⟩ := h.isCall hU hid
  obtain ⟨op', args', rfl⟩ : ∃ op' args', u = .apply site op' args' := by
    cases u with
    | constant value => cases hsite
    | tensor t => cases hsite
    | apply site' op' args' =>
      cases hsite
      exact ⟨op', args', rfl⟩
  obtain ⟨rfl, rfl⟩ := hU.shared _ _ _ _ _ ht hu
  rw [hcall.shape] at he
  cases he

/-- What the answers and the last state of a session are like. -/
structure SharedSession (signature : Signature) (ts : List Term) (answers : List (Except Error Nat))
    (s : Lowering) : Prop where
  operand_lt : ∀ id < s.nodes.size, ∀ o ∈ (s.node id).operands, o.1 < id
  /-- A reader is listed once for each operand slot in which it reads the node. -/
  consumers : ∀ id < s.nodes.size, ∀ c,
    (s.node id).consumers.count c = ((s.node c).operands.map Prod.fst).count id
  stage : ∀ id < s.nodes.size,
    IsGreatest { k | ∃ path, Descends s.nodes id path ∧ handovers s.nodes id path = k } (s.node id).stage
  /-- A term is refused with the error of its shape inference. -/
  refused : ∀ (i : Nat) t e, ts[i]? = some t → t.infer signature = .error e → answers[i]? = some (.error e)
  /-- Any other term is answered with its node. -/
  answered : ∀ (i : Nat) t shape, ts[i]? = some t → t.infer signature = .ok shape →
    ∃ id, answers[i]? = some (.ok id) ∧ s.At t id ∧ (s.node id).shape = shape
  same : ∀ (i j : Nat) t u, ts[i]? = some t → ts[j]? = some u → t.identity?.isSome →
    t.identity? = u.identity? → answers[i]? = answers[j]?
  different : ∀ (i j : Nat) t u x y, ts[i]? = some t → ts[j]? = some u → answers[i]? = some (.ok x) →
    answers[j]? = some (.ok y) → t.identity?.isSome → u.identity?.isSome →
    t.identity? ≠ u.identity? → x ≠ y
  /-- Every call in a term that was answered with a node is remembered. -/
  reached : ∀ (i : Nat) t x site op args, ts[i]? = some t → answers[i]? = some (.ok x) →
    .apply site op args ∈ t.subterms → ∃ id, s.sites.find? site = some id
  /-- What is remembered of a call site is the node of its call. -/
  call : ∀ site id, s.sites.find? site = some id →
    ∃ op args, .apply site op args ∈ Term.allSubterms ts ∧ s.IsCall site op args id
  /-- Every node of an operator is that of one call site. -/
  node : ∀ id < s.nodes.size, (s.node id).isComputed → ∃! site, s.sites.find? site = some id
  leaf : ∀ t id, s.leaves.find? t = some id ↔ id < s.nodes.size ∧ (s.node id).kind = .tensor t
  /-- A dropout site has one mask. -/
  mask : ∀ site id rate, s.sites.find? site = some id → (s.node id).kind = .op (.dropout rate) →
    ∃! i, s.ReadsMask id i ∧ s.masks[i]? = some ⟨rate, (s.node id).size⟩
  /-- A mask has one dropout site. -/
  maskSite : ∀ i < s.masks.size, ∃! site, ∃ id, s.sites.find? site = some id ∧ s.ReadsMask id i
  /-- What cannot be lowered is not remembered, and fails again. -/
  again : ∀ u ∈ Term.allSubterms ts, ∀ e, u.infer signature = .error e →
    (∀ site, u.site? = some site → s.sites.find? site = none) ∧ answerOf (lower u s) = .error e
  /-- What an earlier state remembers stays, with its node. -/
  kept : ∀ k, (lowerEach (ts.take k) (.start signature)).2.Grows s

/-- A product with the sum of the layer whose shapes do not fit. -/
def layerMismatch : Term := .apply 5 .matmul [layerSum, .tensor 1]

end Lowering

end TensorKernels
