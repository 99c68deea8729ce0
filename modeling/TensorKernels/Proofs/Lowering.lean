import TensorKernels.Proofs.Arena
import TensorKernels.Proofs.Steps
import TensorKernels.Plan.Compile

/-!
# Lowering builds the arena of its term

`Lowering.lower_spec` is the specification of lowering: it fails exactly with the error of shape
inference, and otherwise it returns a node that stands for the term, in a well-formed arena that
extends the one it started from. Everything it adds is reached from the node it returns, a call site
or tensor that was lowered before is found again, and the masks stand in the order in which the
dropout sites are first completed.

The induction is on the term. Its invariant `Lowering.Inv` is relative to a set `U` of terms, closed
under subterms, in which a call site always stands for the same application; this is what makes a
remembered node stand for the term at hand.
-/

set_option autoImplicit false

namespace TensorKernels

/-! ## Noting sites in order -/

/-- The sites, followed by those of `l` that are not among them, each once and in order. -/
def noting (sites l : List Nat) : List Nat :=
  l.foldl (fun sites site => if site ∈ sites then sites else sites ++ [site]) sites

/-- Sites of two lists are noted one list after the other. -/
theorem noting_append (sites a b : List Nat) :
    noting sites (a ++ b) = noting (noting sites a) b := List.foldl_append

/-- Noted sites follow the earlier ones, each new one once. -/
theorem noting_eq (sites l : List Nat) :
    noting sites l = sites ++ (l.filter fun x => x ∉ sites).eraseDups := by
  induction l generalizing sites with
  | nil => simp [noting]
  | cons a l ih =>
    by_cases ha : a ∈ sites
    · have hstep : noting sites (a :: l) = noting sites l := by simp [noting, ha]
      rw [hstep, ih, List.filter_cons_of_neg (by simpa using ha)]
    · have hstep : noting sites (a :: l) = noting (sites ++ [a]) l := by simp [noting, ha]
      rw [hstep, ih, List.filter_cons_of_pos (by simpa using ha), List.eraseDups_cons,
        List.filter_filter, List.append_assoc, List.singleton_append]
      congr 3
      refine List.filter_congr fun x _ => ?_
      by_cases hx : x = a <;> simp [hx]

/-- The sites that were known stay at the front. -/
theorem prefix_noting (sites l : List Nat) : sites <+: noting sites l :=
  ⟨_, (noting_eq sites l).symm⟩

/-- A site is noted if it was known or is in the list. -/
theorem mem_noting {sites l : List Nat} {x : Nat} : x ∈ noting sites l ↔ x ∈ sites ∨ x ∈ l := by
  rw [noting_eq]
  by_cases hx : x ∈ sites <;> simp [hx]

/-- Sites that are known are not noted again. -/
theorem noting_of_subset {sites l : List Nat} (h : ∀ x ∈ l, x ∈ sites) : noting sites l = sites := by
  have hnil : (l.filter fun x => x ∉ sites) = [] := by
    rw [List.filter_eq_nil_iff]
    intro x hx
    simpa using h x hx
  rw [noting_eq, hnil]
  simp

/-! ## Subterms -/

namespace Term

mutual

/-- A subterm of a subterm is a subterm. -/
theorem subterms_trans {u v : Term} (t : Term) (hu : u ∈ t.subterms) (hv : v ∈ u.subterms) :
    v ∈ t.subterms := by
  match t with
  | .constant value =>
    obtain rfl : u = .constant value := by simpa [subterms] using hu
    exact hv
  | .tensor id =>
    obtain rfl : u = .tensor id := by simpa [subterms] using hu
    exact hv
  | .apply site op args =>
    rw [subterms, List.mem_append, List.mem_singleton] at hu
    rcases hu with hu | rfl
    · rw [subterms, List.mem_append]
      exact .inl (allSubterms_trans args hu hv)
    · exact hv

/-- A subterm of a subterm of a list of terms is one of the list. -/
theorem allSubterms_trans {u v : Term} (ts : List Term) (hu : u ∈ allSubterms ts)
    (hv : v ∈ u.subterms) : v ∈ allSubterms ts := by
  match ts with
  | [] => simp [allSubterms] at hu
  | t :: rest =>
    rw [allSubterms, List.mem_append] at hu ⊢
    exact hu.imp (fun h => subterms_trans t h hv) fun h => allSubterms_trans rest h hv

end

/-- A term is a subterm of itself. -/
theorem mem_subterms_self (t : Term) : t ∈ t.subterms := by
  cases t <;> simp [subterms]

/-- The subterms of a list are those of its terms. -/
theorem mem_allSubterms {u : Term} {ts : List Term} :
    u ∈ allSubterms ts ↔ ∃ t ∈ ts, u ∈ t.subterms := by
  induction ts with
  | nil => simp [allSubterms]
  | cons t ts ih => simp [allSubterms, ih]

/-- The terms of a list are among its subterms. -/
theorem mem_allSubterms_of_mem {t : Term} {ts : List Term} (h : t ∈ ts) : t ∈ allSubterms ts :=
  mem_allSubterms.2 ⟨t, h, mem_subterms_self t⟩

mutual

/-- A subterm is not larger than the term. -/
theorem sizeOf_le_of_mem_subterms {u : Term} (t : Term) (h : u ∈ t.subterms) :
    sizeOf u ≤ sizeOf t := by
  match t with
  | .constant value =>
    obtain rfl : u = .constant value := by simpa [subterms] using h
    exact Nat.le_refl _
  | .tensor id =>
    obtain rfl : u = .tensor id := by simpa [subterms] using h
    exact Nat.le_refl _
  | .apply site op args =>
    rw [subterms, List.mem_append, List.mem_singleton] at h
    rcases h with h | rfl
    · have := sizeOf_lt_of_mem_allSubterms args h
      rw [Term.apply.sizeOf_spec]
      omega
    · exact Nat.le_refl _

/-- A subterm of a list of terms is smaller than the list. -/
theorem sizeOf_lt_of_mem_allSubterms {u : Term} (ts : List Term) (h : u ∈ allSubterms ts) :
    sizeOf u < sizeOf ts := by
  match ts with
  | [] => simp [allSubterms] at h
  | t :: rest =>
    rw [allSubterms, List.mem_append] at h
    rw [List.cons.sizeOf_spec]
    rcases h with h | h
    · have := sizeOf_le_of_mem_subterms t h
      omega
    · have := sizeOf_lt_of_mem_allSubterms rest h
      omega

end

/-- A set of terms that is closed under subterms, in which every application has as many arguments as
its operator takes and a call site always stands for the same application. -/
structure Universe (U : Term → Prop) : Prop where
  args : ∀ site op args, U (.apply site op args) → ∀ u ∈ allSubterms args, U u
  argCount : ∀ site op args, U (.apply site op args) → args.length = op.argCount
  shared : ∀ site op args op' args', U (.apply site op args) → U (.apply site op' args') →
    op = op' ∧ args = args'

/-- The subterms of a built term. -/
theorem Built.universe {t : Term} (h : t.Built) : Universe (· ∈ t.subterms) where
  args site op args hmem u hu := by
    refine subterms_trans t hmem ?_
    rw [subterms, List.mem_append]
    exact .inl hu
  argCount := h.argCount
  shared := h.shared

end Term

namespace Lowering

/-! ## What the steps do -/

/-- A pushed node gets the next number. -/
theorem push_eq (n : Node) (s : Lowering) :
    push n s = .ok s.nodes.size { s with nodes := s.nodes.push n } := rfl

/-- The node of `op` on the given operands. -/
def opNode (s : Lowering) (op : Op) (operands : List Nat) (r : Inferred) : Node :=
  ⟨.op op, operands.zip r.access, r.shape, s.stageOf op.opClass (operands.zip r.access), []⟩

/-- The nodes with one for `op` at the end, which its operands know as their reader. -/
def nodesWith (s : Lowering) (op : Op) (operands : List Nat) (r : Inferred) : Array Node :=
  addConsumer (s.nodes.push (s.opNode op operands r)) s.nodes.size operands

/-- Adding an operator infers its shape first, and changes nothing if that fails. -/
theorem addOp_eq (op : Op) (operands : List Nat) (s : Lowering) :
    addOp op operands s =
      match op.inferCounted (operands.map fun o => (s.node o).shape) with
      | .error e => .error e s
      | .ok r => .ok s.nodes.size { s with nodes := s.nodesWith op operands r } := by
  unfold addOp
  simp only [bind, EStateM.bind, run_get]
  cases op.inferCounted (operands.map fun o => (s.node o).shape) <;> rfl

/-- A dropout gets a mask if its rate is allowed; every other operator keeps its operands. -/
theorem withMask_eq (op : Op) (operands : List Nat) (s : Lowering) :
    withMask op operands s =
      match op with
      | .dropout rate =>
        if isDropoutRate rate then
          .ok (operands ++ [s.nodes.size])
            { s with
              masks := s.masks.push ⟨rate, (s.node (operands.headD 0)).shape.size⟩
              nodes := s.nodes.push (.leaf (.mask s.masks.size) (s.node (operands.headD 0)).shape) }
        else .error (.dropoutRate rate) s
      | _ => .ok operands s := by
  cases op <;> try rfl
  simp only [withMask]
  split <;> rfl

/-- How the lowering of a tensor ends: its leaf is remembered, it is not declared, or it gets a leaf. -/
inductive TensorEnds (id : Nat) (s : Lowering) : EStateM.Result Error Lowering Nat → Prop
  | remembered {n : Nat} (hid : s.leaves.find? id = some n) : TensorEnds id s (.ok n s)
  | unknown {e : Error} (hd : s.signature.get id = .error e) : TensorEnds id s (.error e s)
  | added {d : TensorDecl} (hd : s.signature.get? id = some d) (hnew : s.leaves.find? id = none) :
    TensorEnds id s (.ok s.nodes.size
      { s with
        nodes := s.nodes.push (.leaf (.tensor id) d.shape)
        leaves := s.leaves.insert id s.nodes.size })

/-- The ways in which the lowering of a tensor can end. -/
theorem lowerTensor_ends (id : Nat) (s : Lowering) : TensorEnds id s (lowerTensor id s) := by
  unfold lowerTensor
  simp only [bind, EStateM.bind, run_get]
  cases hleaf : s.leaves.find? id with
  | some n => exact .remembered hleaf
  | none =>
    cases hd : s.signature.get? id with
    | none =>
      simp only [Signature.get, hd]
      exact .unknown (by simp only [Signature.get, hd])
    | some d =>
      simp only [Signature.get, hd]
      exact .added hd hleaf

/-- How the lowering of a call ends: its node is remembered, its arguments, its rate or its shapes are
refused, or it gets a node. -/
inductive CallEnds (site : Nat) (op : Op) (args : List Term) (s : Lowering) :
    EStateM.Result Error Lowering Nat → Prop
  | remembered {id : Nat} (hid : s.sites.find? site = some id) : CallEnds site op args s (.ok id s)
  | argsRefused {e : Error} {s₁ : Lowering} (hargs : lowerAll args s = .error e s₁) :
    CallEnds site op args s (.error e s₁)
  | rateRefused {ids : List Nat} {e : Error} {s₁ s₂ : Lowering} (hnew : s.sites.find? site = none)
    (hargs : lowerAll args s = .ok ids s₁) (hmask : withMask op ids s₁ = .error e s₂) :
    CallEnds site op args s (.error e s₂)
  | shapesRefused {ids operands : List Nat} {e : Error} {s₁ s₂ s₃ : Lowering}
    (hnew : s.sites.find? site = none) (hargs : lowerAll args s = .ok ids s₁)
    (hmask : withMask op ids s₁ = .ok operands s₂) (hadd : addOp op operands s₂ = .error e s₃) :
    CallEnds site op args s (.error e s₃)
  | added {ids operands : List Nat} {id : Nat} {s₁ s₂ s₃ : Lowering}
    (hnew : s.sites.find? site = none) (hargs : lowerAll args s = .ok ids s₁)
    (hmask : withMask op ids s₁ = .ok operands s₂) (hadd : addOp op operands s₂ = .ok id s₃) :
    CallEnds site op args s (.ok id { s₃ with sites := s₃.sites.insert site id })

/-- The ways in which the lowering of a call can end. -/
theorem lower_apply_ends (site : Nat) (op : Op) (args : List Term) (s : Lowering) :
    CallEnds site op args s (lower (.apply site op args) s) := by
  rw [lower]
  simp only [bind, EStateM.bind, run_get]
  cases hsite : s.sites.find? site with
  | some n => exact .remembered hsite
  | none =>
    simp only [EStateM.bind]
    cases hargs : lowerAll args s with
    | error e s₁ => exact .argsRefused hargs
    | ok ids s₁ =>
      dsimp only
      cases hmask : withMask op ids s₁ with
      | error e s₂ => exact .rateRefused hsite hargs hmask
      | ok operands s₂ =>
        dsimp only
        cases hadd : addOp op operands s₂ with
        | error e s₃ => exact .shapesRefused hsite hargs hmask hadd
        | ok id s₃ => exact .added hsite hargs hmask hadd

/-- How the lowering of several terms ends: the first or one of the others is refused, or all get
nodes. -/
inductive ConsEnds (t : Term) (rest : List Term) (s : Lowering) :
    EStateM.Result Error Lowering (List Nat) → Prop
  | headRefused {e : Error} {s₁ : Lowering} (ht : lower t s = .error e s₁) :
    ConsEnds t rest s (.error e s₁)
  | restRefused {id : Nat} {e : Error} {s₁ s₂ : Lowering} (ht : lower t s = .ok id s₁)
    (hrest : lowerAll rest s₁ = .error e s₂) : ConsEnds t rest s (.error e s₂)
  | added {id : Nat} {ids : List Nat} {s₁ s₂ : Lowering} (ht : lower t s = .ok id s₁)
    (hrest : lowerAll rest s₁ = .ok ids s₂) : ConsEnds t rest s (.ok (id :: ids) s₂)

/-- The ways in which the lowering of a list of terms can end. -/
theorem lowerAll_cons_ends (t : Term) (rest : List Term) (s : Lowering) :
    ConsEnds t rest s (lowerAll (t :: rest) s) := by
  rw [lowerAll]
  simp only [bind, EStateM.bind]
  cases ht : lower t s with
  | error e s₁ => exact .headRefused ht
  | ok id s₁ =>
    dsimp only
    cases hrest : lowerAll rest s₁ with
    | error e s₂ => exact .restRefused ht hrest
    | ok ids s₂ => exact .added ht hrest

/-- `t` continues `s`: nodes and masks are only added. -/
structure Extends (s t : Lowering) : Prop where
  signature : t.signature = s.signature
  nodes : NodesExtend s.nodes t.nodes
  masks : ∀ (i : Nat) m, s.masks[i]? = some m → t.masks[i]? = some m

/-- A state continues itself. -/
theorem Extends.refl (s : Lowering) : s.Extends s := ⟨rfl, .refl _, fun _ _ h => h⟩

/-- Continuations compose. -/
theorem Extends.trans {s t u : Lowering} (h : s.Extends t) (h' : t.Extends u) : s.Extends u :=
  ⟨h'.signature.trans h.signature, h.nodes.trans h'.nodes,
    fun i m hm => h'.masks i m (h.masks i m hm)⟩

/-- One node reads another, directly or through others. -/
def Reaches (nodes : Array Node) : Nat → Nat → Prop :=
  Relation.ReflTransGen fun a b => b ∈ (nodeAt nodes a).operands.map Prod.fst ∧ a < nodes.size

/-- What reads what is kept when nodes are added. -/
theorem Reaches.mono {nodes nodes' : Array Node} (hext : NodesExtend nodes nodes') {a b : Nat}
    (h : Reaches nodes a b) : Reaches nodes' a b := by
  induction h with
  | refl => exact .refl
  | tail _ hstep ih =>
    obtain ⟨hmem, hlt⟩ := hstep
    refine ih.tail ⟨?_, Nat.lt_of_lt_of_le hlt hext.size_le⟩
    rwa [Node.operands_of_core (hext.core_eq hlt)]

/-- What holds of every state of a lowering. `sites` lists the dropout sites by the index of their
mask. -/
structure Inv (U : Term → Prop) (sites : List Nat) (s : Lowering) : Prop where
  arena : Arena s.signature s.masks s.nodes
  memo : ∀ site id, s.sites.find? site = some id → ∃ op args, U (.apply site op args) ∧
    (Term.apply site op args).LoweredTo s.nodes sites id
  leaf : ∀ t id, s.leaves.find? t = some id → (Term.tensor t).LoweredTo s.nodes sites id
  /-- A tensor has one node. -/
  leafOnce : ∀ id n t, s.nodes[id]? = some n → n.kind = .tensor t → s.leaves.find? t = some id
  count : s.masks.size = sites.length
  rates : ∀ m ∈ s.masks, isDropoutRate m.rate
  nodup : sites.Nodup

/-- The sites are remembered. -/
def Noted (sites : List Nat) (s : Lowering) : Prop := ∀ site ∈ sites, (s.sites.find? site).isSome

/-- The invariant holds at the start. -/
theorem start_inv (U : Term → Prop) (signature : Signature) : (start signature).Inv U [] := by
  refine ⟨?_, ?_, ?_, ?_, rfl, ?_, List.nodup_nil⟩
  · intro id n hn
    simp [start] at hn
  · intro site id h
    simp [start] at h
  · intro t id h
    simp [start] at h
  · intro id n t hn
    simp [start] at hn
  · intro m hm
    simp [start] at hm

/-- What is remembered of a call site stays true when nodes and masks are added. -/
theorem Inv.memo_mono {U : Term → Prop} {sites sites' : List Nat} {s : Lowering} (h : s.Inv U sites)
    {nodes : Array Node} (hext : NodesExtend s.nodes nodes) (hpre : sites <+: sites') {site id : Nat}
    (hid : s.sites.find? site = some id) :
    ∃ op args, U (.apply site op args) ∧ (Term.apply site op args).LoweredTo nodes sites' id := by
  obtain ⟨op, args, hU, hlow⟩ := h.memo site id hid
  exact ⟨op, args, hU, hlow.mono hext hpre⟩

/-- Adding one node that is no tensor, with the masks and their sites. -/
theorem Inv.addNode {U : Term → Prop} {sites sites' : List Nat} {s s' : Lowering} (h : s.Inv U sites)
    (hext : s.Extends s') (hsites : s'.sites = s.sites) (hleaves : s'.leaves = s.leaves)
    (hsize : s'.nodes.size = s.nodes.size + 1) {n : Node} (hn : s'.nodes[s.nodes.size]? = some n)
    (hok : NodeOk s.signature s'.masks s'.nodes s.nodes.size n) (hkind : ∀ t, n.kind ≠ .tensor t)
    (hpre : sites <+: sites') (hcount : s'.masks.size = sites'.length)
    (hrates : ∀ m ∈ s'.masks, isDropoutRate m.rate) (hnodup : sites'.Nodup) : s'.Inv U sites' := by
  refine ⟨?_, ?_, ?_, ?_, hcount, hrates, hnodup⟩
  · rw [hext.signature]
    exact h.arena.addNode hext.nodes hext.masks hsize hn hok
  · intro site id hid
    exact h.memo_mono hext.nodes hpre (hsites ▸ hid)
  · intro t id hid
    exact (h.leaf t id (hleaves ▸ hid)).mono hext.nodes hpre
  · intro id m t hm hk
    rw [hleaves]
    rcases hext.nodes.last_or_old hsize hm with rfl | ⟨m', hm', hcore⟩
    · obtain rfl : m = n := by simpa [hm] using hn
      exact absurd hk (hkind t)
    · exact h.leafOnce id m' t hm' ((Node.kind_of_core hcore).symm.trans hk)

/-- A constant is lowered to a new leaf. -/
theorem lower_constant_spec {U : Term → Prop} {sites : List Nat} {s : Lowering} (h : s.Inv U sites)
    (value : Float32) :
    let t := { s with nodes := s.nodes.push (.leaf (.constant value) [1]) }
    s.Extends t ∧ t.Inv U sites ∧ (Term.constant value).LoweredTo t.nodes sites s.nodes.size := by
  have hext : s.Extends { s with nodes := s.nodes.push (.leaf (.constant value) [1]) } :=
    ⟨rfl, .push s.nodes _, fun _ _ h => h⟩
  refine ⟨hext, ?_, ?_⟩
  · exact h.addNode hext rfl rfl (Array.size_push _) Array.getElem?_push_size ⟨rfl, rfl, rfl⟩
      (fun _ hk => by cases hk) (List.prefix_refl _) h.count h.rates h.nodup
  · rw [Term.LoweredTo]
    exact ⟨_, Array.getElem?_push_size, rfl⟩

/-- A tensor that is lowered for the first time gets a new leaf. -/
theorem lower_tensor_spec {U : Term → Prop} {sites : List Nat} {s : Lowering} (h : s.Inv U sites)
    {t : Nat} {d : TensorDecl} (hd : s.signature.get? t = some d)
    (hnew : s.leaves.find? t = none) :
    let s' := { s with
      nodes := s.nodes.push (.leaf (.tensor t) d.shape)
      leaves := s.leaves.insert t s.nodes.size }
    s.Extends s' ∧ s'.Inv U sites ∧ (Term.tensor t).LoweredTo s'.nodes sites s.nodes.size := by
  have hext := NodesExtend.push s.nodes (.leaf (.tensor t) d.shape)
  have hself : (Term.tensor t).LoweredTo (s.nodes.push (.leaf (.tensor t) d.shape)) sites
      s.nodes.size := by
    rw [Term.LoweredTo]
    exact ⟨_, Array.getElem?_push_size, rfl⟩
  refine ⟨⟨rfl, hext, fun _ _ h => h⟩, ?_, hself⟩
  refine ⟨?_, ?_, ?_, ?_, h.count, h.rates, h.nodup⟩
  · exact h.arena.addNode hext (fun _ _ h => h) (Array.size_push _) Array.getElem?_push_size
      ⟨rfl, rfl, d, hd, rfl⟩
  · intro site id hid
    exact h.memo_mono hext (List.prefix_refl _) hid
  · intro t' id hid
    rw [Table.find?_insert] at hid
    split at hid
    · next he =>
      subst he
      cases hid
      exact hself
    · exact (h.leaf t' id hid).mono hext (List.prefix_refl _)
  · intro id n t' hn hk
    rw [Array.getElem?_push] at hn
    rw [Table.find?_insert]
    split at hn
    · next he =>
      cases hn
      cases hk
      simp [he]
    · have hfind := h.leafOnce id n t' hn hk
      rw [if_neg, hfind]
      rintro rfl
      rw [hnew] at hfind
      cases hfind

/-- What `withMask` returns: the operands of a node for `op` on the nodes `ids`. -/
structure Prepared (U : Term → Prop) (sites : List Nat) (site : Nat) (op : Op) (ids : List Nat)
    (s : Lowering) (operands : List Nat) (s' : Lowering) : Prop where
  continues : s.Extends s'
  inv : s'.Inv U (noting sites (Term.apply site op []).dropoutSite?.toList)
  sites_eq : s'.sites = s.sites
  operandsOf : op.OperandsOf s'.nodes (noting sites (Term.apply site op []).dropoutSite?.toList) site
    ids operands
  shapes : op.operandShapes (ids.map fun id => (s.node id).shape) =
    .ok (operands.map fun id => (s'.node id).shape)
  lt_size : ∀ o ∈ operands, o < s'.nodes.size
  length : operands.length = op.arity
  mask : ∀ rate, op = .dropout rate → isDropoutRate rate ∧ ∃ x m i, operands = [x, m] ∧
    (nodeAt s'.nodes m).kind = .mask i ∧ (nodeAt s'.nodes m).shape = (nodeAt s'.nodes x).shape ∧
    s'.masks[i]? = some ⟨rate, (nodeAt s'.nodes x).size⟩
  reach : ∀ x, s.nodes.size ≤ x → x < s'.nodes.size → x ∈ operands

/-- The state with a mask for the node `x`, which a dropout of the given rate reads. -/
def withMaskOf (s : Lowering) (rate : Float32) (x : Nat) : Lowering :=
  { s with
    masks := s.masks.push ⟨rate, (s.node x).shape.size⟩
    nodes := s.nodes.push (.leaf (.mask s.masks.size) (s.node x).shape) }

/-- Adding a mask continues the state. -/
theorem withMaskOf_extends (s : Lowering) (rate : Float32) (x : Nat) : s.Extends (s.withMaskOf rate x) := by
  refine ⟨rfl, .push s.nodes _, fun i m hm => ?_⟩
  have := lt_size_of_getElem? hm
  show (s.masks.push _)[i]? = some m
  rw [Array.getElem?_push, if_neg (by omega), hm]

/-- The masks of a dropout site and its rate are noted together. -/
theorem Inv.withMaskOf {U : Term → Prop} {sites : List Nat} {s : Lowering} (h : s.Inv U sites)
    {rate : Float32} (hrate : isDropoutRate rate) {site : Nat} (hsite : site ∉ sites) {x : Nat}
    (hx : x < s.nodes.size) : (s.withMaskOf rate x).Inv U (sites ++ [site]) := by
  refine h.addNode (s.withMaskOf_extends rate x) rfl rfl (Array.size_push _) Array.getElem?_push_size
    ⟨rfl, rfl, h.arena.isCountable hx, _, Array.getElem?_push_size, rfl⟩ (fun _ hk => by cases hk) (List.prefix_append _ _)
    ?_ ?_ ?_
  · show (s.masks.push _).size = _
    simp [h.count]
  · intro m hm
    rcases Array.mem_push.1 hm with hm | rfl
    · exact h.rates m hm
    · exact hrate
  · rw [List.nodup_append]
    refine ⟨h.nodup, by simp, ?_⟩
    rintro a ha b hb rfl
    rw [List.mem_singleton] at hb
    exact hsite (hb ▸ ha)

/-- A dropout is prepared by its mask. -/
theorem prepared_dropout {U : Term → Prop} {sites : List Nat} {s : Lowering} (h : s.Inv U sites)
    {rate : Float32} {site x : Nat} (hx : x < s.nodes.size) (hrate : isDropoutRate rate)
    (hsite : site ∉ sites) :
    Prepared U sites site (.dropout rate) [x] s [x, s.nodes.size] (s.withMaskOf rate x) := by
  have hnoting : noting sites (Term.apply site (.dropout rate) []).dropoutSite?.toList =
      sites ++ [site] := by simp [noting, Term.dropoutSite?, hsite]
  have hnew : (s.withMaskOf rate x).nodes[s.nodes.size]? =
      some (.leaf (.mask s.masks.size) (s.node x).shape) := Array.getElem?_push_size
  have hold : (nodeAt (s.withMaskOf rate x).nodes x).shape = (s.node x).shape :=
    Node.shape_of_core ((s.withMaskOf_extends rate x).nodes.core_eq hx)
  have hmask : (nodeAt (s.withMaskOf rate x).nodes s.nodes.size).shape = (s.node x).shape := by
    rw [nodeAt_of_getElem? hnew]
    rfl
  have hsize : (s.withMaskOf rate x).nodes.size = s.nodes.size + 1 := Array.size_push _
  refine ⟨s.withMaskOf_extends rate x, ?_, rfl, ?_, ?_, ?_, rfl, ?_, ?_⟩
  · rw [hnoting]
    exact h.withMaskOf hrate hsite hx
  · rw [hnoting]
    refine ⟨s.nodes.size, _, s.masks.size, rfl, hnew, rfl, ?_⟩
    rw [h.count, List.getElem?_append_right (Nat.le_refl _), Nat.sub_self]
    rfl
  · simp only [Op.operandShapes, hrate, if_true, List.map_cons, List.map_nil, List.headD_cons,
      List.singleton_append]
    simp only [node_eq] at hold hmask ⊢
    rw [hold, hmask]
  · intro o ho
    simp only [List.mem_cons, List.not_mem_nil, or_false] at ho
    omega
  · intro r hr
    cases hr
    refine ⟨hrate, x, s.nodes.size, s.masks.size, rfl, ?_, hmask.trans hold.symm, ?_⟩
    · rw [nodeAt_of_getElem? hnew]
      rfl
    · rw [Node.size, hold]
      exact Array.getElem?_push_size
  · intro y hy hlt
    obtain rfl : y = s.nodes.size := by omega
    simp

/-- Operands are prepared, or the rate of a dropout is refused and nothing has changed. -/
theorem withMask_spec {U : Term → Prop} {sites : List Nat} {s : Lowering} (h : s.Inv U sites)
    {op : Op} {site : Nat} {ids : List Nat} (hids : ∀ id ∈ ids, id < s.nodes.size)
    (hlen : ids.length = op.argCount) (hsite : ∀ rate, op = .dropout rate → site ∉ sites) :
    match withMask op ids s with
    | .error e s' => s' = s ∧ op.operandShapes (ids.map fun id => (s.node id).shape) = .error e
    | .ok operands s' => Prepared U sites site op ids s operands s' := by
  rw [withMask_eq]
  cases op
  case dropout rate =>
    obtain ⟨x, rfl⟩ := List.length_eq_one_iff.1 hlen
    by_cases hrate : isDropoutRate rate = true
    · simp only [hrate, if_true, List.headD_cons, List.singleton_append]
      exact prepared_dropout h (hids x (by simp)) hrate (hsite rate rfl)
    · simp [Op.operandShapes, hrate]
  all_goals
    refine ⟨.refl s, by simpa [Term.dropoutSite?, noting] using h, rfl, rfl, rfl, hids, hlen, ?_, ?_⟩
    · intro rate hr
      cases hr
    · intro x hx hlt
      omega

/-- What `addOp` returns on operands that were prepared: a node for `op` at the end. -/
structure Added (U : Term → Prop) (sites : List Nat) (op : Op) (operands : List Nat) (s : Lowering)
    (id : Nat) (s' : Lowering) : Prop where
  continues : s.Extends s'
  inv : s'.Inv U sites
  sites_eq : s'.sites = s.sites
  id_eq : id = s.nodes.size
  size_eq : s'.nodes.size = s.nodes.size + 1
  node : ∃ n, s'.nodes[id]? = some n ∧ n.kind = .op op ∧ n.operands.map Prod.fst = operands

section NodesWith

variable {s : Lowering} {op : Op} {operands : List Nat} {r : Inferred}

/-- An operator adds one node. -/
theorem size_nodesWith : (s.nodesWith op operands r).size = s.nodes.size + 1 := by
  rw [nodesWith, size_addConsumer, Array.size_push]

/-- Adding an operator extends the array of nodes. -/
theorem nodesWith_extends : NodesExtend s.nodes (s.nodesWith op operands r) :=
  (NodesExtend.push s.nodes _).trans (addConsumer_extends _ _ _)

/-- The node at the end is the new one, up to who reads it. -/
theorem exists_last_nodesWith (s : Lowering) (op : Op) (operands : List Nat) (r : Inferred) :
    ∃ n, (s.nodesWith op operands r)[s.nodes.size]? = some n ∧ n.core = s.opNode op operands r := by
  obtain ⟨n, hn, hcore, -⟩ := addConsumer_extends (s.nodes.push (s.opNode op operands r)) s.nodes.size
    operands s.nodes.size _ Array.getElem?_push_size
  exact ⟨n, hn, hcore⟩

/-- Inference gives one access per operand. -/
theorem length_access_of_infer (hlen : operands.length = op.arity)
    (hinfer : op.infer (operands.map fun id => (s.node id).shape) = .ok r) :
    r.access.length = operands.length := by
  rw [Op.length_access (by simpa using hlen) hinfer, hlen]

/-- A node for `op` on operands that are there fits them. -/
theorem opNodeOk_nodesWith (hlt : ∀ o ∈ operands, o < s.nodes.size) (hlen : operands.length = op.arity)
    (hmask : ∀ rate, op = .dropout rate → isDropoutRate rate ∧ ∃ x m i, operands = [x, m] ∧
      (nodeAt s.nodes m).kind = .mask i ∧ (nodeAt s.nodes m).shape = (nodeAt s.nodes x).shape ∧
      s.masks[i]? = some ⟨rate, (nodeAt s.nodes x).size⟩)
    (hinfer : op.infer (operands.map fun id => (s.node id).shape) = .ok r) (hcount : r.shape.isCountable)
    {n : Node} (hcore : n.core = s.opNode op operands r) :
    OpNodeOk s.masks (s.nodesWith op operands r) s.nodes.size op n := by
  have hacc := length_access_of_infer hlen hinfer
  have hops : n.operands = operands.zip r.access := congrArg Node.operands hcore
  have hold : ∀ o ∈ operands, (nodeAt (s.nodesWith op operands r) o).core = (s.node o).core :=
    fun o ho => nodesWith_extends.core_eq (hlt o ho)
  have hmem : ∀ o ∈ n.operands, o.1 ∈ operands := by
    intro o ho
    rw [hops] at ho
    exact (List.of_mem_zip ho).1
  constructor
  case operand_lt =>
    intro o ho
    exact hlt o.1 (hmem o ho)
  case arity =>
    rw [hops, List.length_zip, hacc, Nat.min_self, hlen]
  case inferred =>
    have hshape : n.shape = r.shape := congrArg Node.shape hcore
    rw [hops, hshape, List.map_snd_zip (Nat.le_of_eq hacc), ← hinfer]
    congr 1
    calc (operands.zip r.access).map (fun o => (nodeAt (s.nodesWith op operands r) o.1).shape)
        = ((operands.zip r.access).map Prod.fst).map
          (fun o => (nodeAt (s.nodesWith op operands r) o).shape) := by
          rw [List.map_map]
          rfl
      _ = operands.map fun o => (s.node o).shape := by
          rw [List.map_fst_zip (Nat.le_of_eq hacc.symm)]
          exact List.map_congr_left fun o ho => Node.shape_of_core (hold o ho)
  case countable =>
    have hshape : n.shape = r.shape := congrArg Node.shape hcore
    rwa [hshape]
  case stage =>
    have hstage : n.stage = s.stageOf op.opClass (operands.zip r.access) := congrArg Node.stage hcore
    rw [hstage, hops]
    refine List.foldl_ext _ _ _ fun stage o ho => ?_
    rw [Node.operandStage_of_core (hold o.1 (List.of_mem_zip ho).1)]
  case consumer =>
    intro o ho
    refine mem_consumers_addConsumer (hmem o ho) ?_
    rw [Array.size_push]
    exact Nat.lt_succ_of_lt (hlt o.1 (hmem o ho))
  case mask =>
    intro rate hrate
    obtain ⟨hr, x, m, i, hxm, hm, hshape, hi⟩ := hmask rate hrate
    have hx := hold x (by simp [hxm])
    have hm' := hold m (by simp [hxm])
    subst hrate
    have hr' : r.access = [.aligned, .aligned] := by
      cases hinfer
      rfl
    refine ⟨hr, x, .aligned, m, .aligned, i, ?_, ?_, ?_, ?_⟩
    · rw [hops, hxm, hr']
      rfl
    · rw [Node.kind_of_core hm']
      exact hm
    · rw [Node.shape_of_core hm', Node.shape_of_core hx]
      exact hshape
    · rw [Node.size, Node.shape_of_core hx]
      exact hi

end NodesWith

/-- An operator is added, or refused for its shapes and nothing has changed. -/
theorem addOp_spec {U : Term → Prop} {sites : List Nat} {s : Lowering} (h : s.Inv U sites) {op : Op}
    {operands : List Nat} (hlt : ∀ o ∈ operands, o < s.nodes.size)
    (hlen : operands.length = op.arity)
    (hmask : ∀ rate, op = .dropout rate → isDropoutRate rate ∧ ∃ x m i, operands = [x, m] ∧
      (nodeAt s.nodes m).kind = .mask i ∧ (nodeAt s.nodes m).shape = (nodeAt s.nodes x).shape ∧
      s.masks[i]? = some ⟨rate, (nodeAt s.nodes x).size⟩) :
    match addOp op operands s with
    | .error e s' => s' = s ∧ op.inferCounted (operands.map fun id => (s.node id).shape) = .error e
    | .ok id s' => Added U sites op operands s id s' := by
  rw [addOp_eq]
  cases hcounted : op.inferCounted (operands.map fun id => (s.node id).shape) with
  | error e => exact ⟨rfl, rfl⟩
  | ok r =>
    obtain ⟨hinfer, hcount⟩ := Op.inferCounted_ok hcounted
    obtain ⟨n, hn, hcore⟩ := exists_last_nodesWith s op operands r
    have hkind : n.kind = .op op := congrArg Node.kind hcore
    have hops : n.operands = operands.zip r.access := congrArg Node.operands hcore
    have hok : NodeOk s.signature s.masks (s.nodesWith op operands r) s.nodes.size n := by
      simpa only [NodeOk, hkind] using opNodeOk_nodesWith hlt hlen hmask hinfer hcount hcore
    have hext : s.Extends { s with nodes := s.nodesWith op operands r } :=
      ⟨rfl, nodesWith_extends, fun _ _ h => h⟩
    refine ⟨hext, ?_, rfl, rfl, size_nodesWith, n, hn, hkind, ?_⟩
    · exact h.addNode hext rfl rfl size_nodesWith hn hok (fun t => by simp [hkind])
        (List.prefix_refl _) h.count h.rates h.nodup
    · rw [hops]
      exact List.map_fst_zip (Nat.le_of_eq (length_access_of_infer hlen hinfer).symm)

/-- What a new node reads is reached from it. -/
theorem Added.reaches {U : Term → Prop} {sites operands : List Nat} {s s' : Lowering} {op : Op} {id : Nat}
    (h : Added U sites op operands s id s') {o : Nat} (ho : o ∈ operands) : Reaches s'.nodes id o := by
  obtain ⟨n, hn, -, hfst⟩ := h.node
  refine .single ⟨?_, lt_size_of_getElem? hn⟩
  rwa [nodeAt_of_getElem? hn, hfst]

end Lowering

/-! ## Shapes of lowered terms -/

/-- What the shape of a call was inferred from. -/
theorem Term.infer_apply_ok {signature : Signature} {site : Nat} {op : Op} {args : List Term} {s : Shape}
    (h : (Term.apply site op args).infer signature = .ok s) :
    ∃ found operands r, inferAll signature args = .ok found ∧ op.operandShapes found = .ok operands ∧
      op.inferCounted operands = .ok r ∧ r.shape = s := by
  rw [infer] at h
  cases hfound : inferAll signature args with
  | error e => simp [hfound, bind, Except.bind] at h
  | ok found =>
    cases hoperands : op.operandShapes found with
    | error e => simp [hfound, hoperands, bind, Except.bind] at h
    | ok operands =>
      cases hr : op.inferCounted operands with
      | error e => simp [hfound, hoperands, hr, bind, Except.bind] at h
      | ok r =>
        simp only [hfound, hoperands, hr, bind, Except.bind, Except.ok.injEq] at h
        exact ⟨found, operands, r, rfl, hoperands, hr, h⟩

/-- The elements of a term that has a shape can be counted. -/
theorem Term.isCountable_of_infer {signature : Signature} {t : Term} {s : Shape}
    (h : t.infer signature = .ok s) : s.isCountable := by
  cases t with
  | constant value =>
    rw [infer] at h
    cases h
    rfl
  | tensor id =>
    rw [infer, Signature.get] at h
    cases hd : signature.get? id with
    | none => simp [hd, Except.map] at h
    | some d =>
      simp only [hd, Except.map, Except.ok.injEq] at h
      exact h ▸ signature.countable d (List.mem_of_getElem? hd)
  | apply site op args =>
    obtain ⟨found, operands, r, -, -, hr, rfl⟩ := infer_apply_ok h
    exact (Op.inferCounted_ok hr).2

/-- A reshape of one operand has the given shape and reads the operand in place. -/
theorem OpNodeOk.reshape_eq {masks : Array MaskSite} {nodes : Array Node} {id base : Nat} {n : Node}
    {shape : Shape} (h : OpNodeOk masks nodes id (.reshape shape) n)
    (hfst : n.operands.map Prod.fst = [base]) : n.shape = shape ∧ n.operands = [(base, .aligned)] := by
  obtain ⟨⟨o, a⟩, hops, rfl⟩ := List.map_eq_singleton_iff.1 hfst
  have hinferred := h.inferred
  rw [hops] at hinferred
  obtain ⟨hr, -, -⟩ := inferReshape_ok hinferred
  simp only [List.map_cons, List.map_nil, Inferred.mk.injEq, List.cons.injEq, and_true] at hr
  obtain ⟨hshape, rfl⟩ := hr
  exact ⟨hshape, hops⟩

namespace Term

variable {signature : Signature} {masks : Array MaskSite} {nodes : Array Node} {sites : List Nat}

/-- The operands of a well-formed node have the shapes that its operator asks for. -/
theorem operandShapes_eq {op : Op} {n : Node} {id site : Nat} {ids : List Nat}
    (hok : OpNodeOk masks nodes id op n)
    (hops : op.OperandsOf nodes sites site ids (n.operands.map Prod.fst)) :
    op.operandShapes (ids.map fun id => (nodeAt nodes id).shape) =
      .ok (n.operands.map fun o => (nodeAt nodes o.1).shape) := by
  have hmap : n.operands.map (fun o => (nodeAt nodes o.1).shape) =
      (n.operands.map Prod.fst).map fun o => (nodeAt nodes o).shape := by
    rw [List.map_map]
    rfl
  rw [hmap]
  cases op
  case dropout rate =>
    obtain ⟨hrate, x, a, m, b, i, hxm, -, hshape, -⟩ := hok.mask rate rfl
    obtain ⟨m', n', i', hids, -, -, -⟩ := hops
    rw [hxm] at hids
    obtain ⟨rfl, rfl⟩ : ids = [x] ∧ m' = m := by
      match ids, hids with
      | [y], hids =>
        simp only [List.map_cons, List.map_nil, List.singleton_append, List.cons.injEq, and_true]
          at hids
        exact ⟨by rw [hids.1], hids.2.symm⟩
      | [], hids => simp at hids
      | _ :: _ :: _, hids => simp at hids
    rw [hxm]
    simp [Op.operandShapes, hrate, hshape]
  all_goals
    simp only [Op.OperandsOf] at hops
    rw [hops]
    rfl

mutual

/-- A lowered term has the shape of its node. -/
theorem LoweredTo.infer_eq (harena : Arena signature masks nodes) (t : Term) (id : Nat)
    (h : LoweredTo nodes sites t id) : t.infer signature = .ok (nodeAt nodes id).shape := by
  match t with
  | .constant value =>
    rw [LoweredTo] at h
    obtain ⟨n, hn, hk⟩ := h
    have hok := harena id n hn
    simp only [NodeOk, hk] at hok
    rw [infer, nodeAt_of_getElem? hn, hok.2.2]
  | .tensor x =>
    rw [LoweredTo] at h
    obtain ⟨n, hn, hk⟩ := h
    have hok := harena id n hn
    simp only [NodeOk, hk] at hok
    obtain ⟨-, -, d, hd, hshape⟩ := hok
    simp only [infer, Signature.get, hd, nodeAt_of_getElem? hn, ← hshape]
    rfl
  | .apply site op args =>
    rw [LoweredTo] at h
    obtain ⟨n, ids, hn, hk, hargs, hops⟩ := h
    have hok := harena.opNode hn hk
    rw [infer, AllLoweredTo.inferAll_eq harena args ids hargs, nodeAt_of_getElem? hn]
    simp only [bind, Except.bind, operandShapes_eq hok hops, hok.inferCounted_eq]

/-- The shapes of lowered terms are inferred as those of their nodes. -/
theorem AllLoweredTo.inferAll_eq (harena : Arena signature masks nodes) (ts : List Term)
    (ids : List Nat) (h : AllLoweredTo nodes sites ts ids) :
    inferAll signature ts = .ok (ids.map fun id => (nodeAt nodes id).shape) := by
  match ts with
  | [] =>
    rw [AllLoweredTo] at h
    rw [inferAll, h]
    rfl
  | t :: rest =>
    rw [AllLoweredTo] at h
    obtain ⟨id, ids', rfl, ht, hrest⟩ := h
    rw [inferAll, LoweredTo.infer_eq harena t id ht, AllLoweredTo.inferAll_eq harena rest ids' hrest]
    rfl

end

mutual

/-- Every subterm of a lowered term is lowered. -/
theorem LoweredTo.of_subterm {u : Term} (t : Term) (id : Nat) (h : LoweredTo nodes sites t id)
    (hu : u ∈ t.subterms) : ∃ x, LoweredTo nodes sites u x := by
  match t with
  | .constant value =>
    rw [subterms, List.mem_singleton] at hu
    exact ⟨id, hu ▸ h⟩
  | .tensor x =>
    rw [subterms, List.mem_singleton] at hu
    exact ⟨id, hu ▸ h⟩
  | .apply site op args =>
    rw [subterms, List.mem_append, List.mem_singleton] at hu
    rcases hu with hu | rfl
    · rw [LoweredTo] at h
      obtain ⟨n, ids, -, -, hargs, -⟩ := h
      exact AllLoweredTo.of_subterm args ids hargs hu
    · exact ⟨id, h⟩

/-- The terms inside of lowered terms are lowered. -/
theorem AllLoweredTo.of_subterm {u : Term} (ts : List Term) (ids : List Nat)
    (h : AllLoweredTo nodes sites ts ids) (hu : u ∈ allSubterms ts) :
    ∃ x, LoweredTo nodes sites u x := by
  match ts with
  | [] => simp [allSubterms] at hu
  | t :: rest =>
    rw [allSubterms, List.mem_append] at hu
    rw [AllLoweredTo] at h
    obtain ⟨id, ids', rfl, ht, hrest⟩ := h
    rcases hu with hu | hu
    · exact LoweredTo.of_subterm t id ht hu
    · exact AllLoweredTo.of_subterm rest ids' hrest hu

end

end Term

/-! ## The specification of lowering -/

namespace Lowering

/-- What a lowering of terms with the given dropout sites returns. -/
structure Lowered (U : Term → Prop) (sites dropouts : List Nat) (s : Lowering) (ids : List Nat)
    (s' : Lowering) : Prop where
  continues : s.Extends s'
  inv : s'.Inv U (noting sites dropouts)
  noted : s'.Noted (noting sites dropouts)
  /-- Every new node is read by one of the returned ones, directly or through others. -/
  reach : ∀ x, s.nodes.size ≤ x → x < s'.nodes.size → ∃ id ∈ ids, Reaches s'.nodes id x

/-- Nothing was added. -/
theorem Lowered.unchanged {U : Term → Prop} {sites dropouts ids : List Nat} {s : Lowering}
    (h : s.Inv U sites) (hnoted : s.Noted sites) (hsub : ∀ x ∈ dropouts, x ∈ sites) :
    Lowered U sites dropouts s ids s := by
  have hsites := noting_of_subset hsub
  refine ⟨.refl s, by rwa [hsites], by rwa [hsites], ?_⟩
  intro x hx hlt
  omega

/-- One node was added, the one that is returned. -/
theorem Lowered.single {U : Term → Prop} {sites : List Nat} {s s' : Lowering} (hext : s.Extends s')
    (hinv : s'.Inv U sites) (hnoted : s'.Noted sites) (hsize : s'.nodes.size = s.nodes.size + 1) :
    Lowered U sites [] s [s.nodes.size] s' := by
  refine ⟨hext, hinv, hnoted, fun x hx hlt => ⟨_, List.mem_singleton_self _, ?_⟩⟩
  rw [show x = s.nodes.size by omega]
  exact .refl

/-- A term was lowered, then others. -/
theorem Lowered.cons {U : Term → Prop} {sites dropouts dropouts' ids : List Nat} {s s₁ s₂ : Lowering}
    {id : Nat} (h : Lowered U sites dropouts s [id] s₁)
    (h' : Lowered U (noting sites dropouts) dropouts' s₁ ids s₂) :
    Lowered U sites (dropouts ++ dropouts') s (id :: ids) s₂ := by
  refine ⟨h.continues.trans h'.continues, ?_, ?_, ?_⟩
  · rw [noting_append]
    exact h'.inv
  · rw [noting_append]
    exact h'.noted
  · intro x hx hlt
    by_cases hx₁ : x < s₁.nodes.size
    · obtain ⟨o, ho, hreach⟩ := h.reach x hx hx₁
      rw [List.mem_singleton] at ho
      exact ⟨id, by simp, (ho ▸ hreach).mono h'.continues.nodes⟩
    · obtain ⟨o, ho, hreach⟩ := h'.reach x (by omega) hlt
      exact ⟨o, List.mem_cons_of_mem _ ho, hreach⟩

/-- A lowered term has the shape that inference gives it. -/
theorem Lowered.infer_eq {U : Term → Prop} {sites dropouts ids : List Nat} {s s' : Lowering}
    (h : Lowered U sites dropouts s ids s') {t : Term} {id : Nat}
    (ht : t.LoweredTo s'.nodes (noting sites dropouts) id) :
    t.infer s.signature = .ok (s'.node id).shape := by
  rw [← h.continues.signature]
  exact ht.infer_eq h.inv.arena

/-- The shapes of terms are inferred as those of the nodes to which they were lowered. -/
theorem Lowered.inferAll_eq {U : Term → Prop} {sites dropouts ids : List Nat} {s s' : Lowering}
    (h : Lowered U sites dropouts s ids s') {ts : List Term}
    (hts : Term.AllLoweredTo s'.nodes (noting sites dropouts) ts ids) :
    Term.inferAll s.signature ts = .ok (ids.map fun id => (s'.node id).shape) := by
  rw [← h.continues.signature]
  exact hts.inferAll_eq h.inv.arena

/-- A call site that is being lowered has not been given a mask yet: it is not among the sites of its
own arguments, since those are smaller terms. -/
theorem not_mem_noting_of_apply {U : Term → Prop} (hU : Term.Universe U) {sites : List Nat}
    {s : Lowering} (hnoted : s.Noted sites) {site : Nat} {op : Op} {args : List Term}
    (ht : U (.apply site op args)) (hnone : s.sites.find? site = none) :
    site ∉ noting sites ((Term.allSubterms args).filterMap Term.dropoutSite?) := by
  intro hmem
  rcases mem_noting.1 hmem with hmem | hmem
  · have := hnoted site hmem
    rw [hnone] at this
    cases this
  · obtain ⟨u, hu, hsite⟩ := List.mem_filterMap.1 hmem
    match u, hsite with
    | .apply site' (.dropout rate) args', hsite =>
      obtain rfl : site' = site := by simpa [Term.dropoutSite?] using hsite
      obtain ⟨-, hargs⟩ := hU.shared _ _ _ _ _ ht (hU.args _ _ _ ht _ hu)
      have hsize := Term.sizeOf_lt_of_mem_allSubterms args hu
      rw [Term.apply.sizeOf_spec, ← hargs] at hsize
      omega

/-- Remembering the node of a call site. -/
theorem Inv.remember {U : Term → Prop} {sites : List Nat} {s : Lowering} (h : s.Inv U sites)
    {site : Nat} {op : Op} {args : List Term} {id : Nat} (ht : U (.apply site op args))
    (hid : (Term.apply site op args).LoweredTo s.nodes sites id) :
    Inv U sites { s with sites := s.sites.insert site id } := by
  refine ⟨h.arena, ?_, h.leaf, h.leafOnce, h.count, h.rates, h.nodup⟩
  intro site' id' hid'
  rw [Table.find?_insert] at hid'
  split at hid'
  · next he =>
    subst he
    cases hid'
    exact ⟨op, args, ht, hid⟩
  · exact h.memo site' id' hid'

/-! ### Calls -/

/-- The sites of the dropouts after a call. -/
abbrev sitesAfter (sites : List Nat) (site : Nat) (op : Op) : List Nat :=
  noting sites (Term.apply site op []).dropoutSite?.toList

/-- The dropout sites of a call are those of its arguments, and its own at the end. -/
theorem dropoutSites_apply (site : Nat) (op : Op) (args : List Term) :
    (Term.apply site op args).subterms.filterMap Term.dropoutSite? =
      (Term.allSubterms args).filterMap Term.dropoutSite? ++
        (Term.apply site op []).dropoutSite?.toList := by
  rw [Term.subterms, List.filterMap_append]
  cases op <;> rfl

section Call

variable {U : Term → Prop} {s s₁ s₂ : Lowering} {site id : Nat} {op : Op} {args : List Term}
  {ids operands sites : List Nat}

/-- What a call does with the nodes of its arguments: the operands are prepared. -/
theorem call_prepared (hU : Term.Universe U) (h : s.Inv U sites) (hfresh : site ∉ sites)
    (ht : U (.apply site op args)) (hall : Term.AllLoweredTo s.nodes sites args ids)
    (hmask : withMask op ids s = .ok operands s₁) : Prepared U sites site op ids s operands s₁ := by
  have hprepared := @withMask_spec U sites s h op site ids hall.lt_size
    (hall.length_eq.trans (hU.argCount _ _ _ ht)) fun _ _ => hfresh
  rwa [hmask] at hprepared

/-- What a call does with its operands: a node is added. -/
theorem Prepared.added (h : Prepared U sites site op ids s operands s₁)
    (hadd : addOp op operands s₁ = .ok id s₂) :
    Added U (sitesAfter sites site op) op operands s₁ id s₂ := by
  have hadded := addOp_spec h.inv h.lt_size h.length h.mask
  rwa [hadd] at hadded

/-- The node of a call stands for it. -/
theorem loweredTo_of_call (hall : Term.AllLoweredTo s.nodes sites args ids)
    (hprepared : Prepared U sites site op ids s operands s₁)
    (hadded : Added U (sitesAfter sites site op) op operands s₁ id s₂) :
    (Term.apply site op args).LoweredTo s₂.nodes (sitesAfter sites site op) id := by
  obtain ⟨n, hn, hk, hfst⟩ := hadded.node
  rw [Term.LoweredTo]
  refine ⟨n, ids, hn, hk,
    hall.mono (hprepared.continues.trans hadded.continues).nodes (prefix_noting _ _), ?_⟩
  rw [hfst]
  exact Term.operandsOf_mono hadded.continues.nodes (List.prefix_refl _) hprepared.operandsOf

/-- The site of a dropout is remembered with its node. -/
theorem Noted.call (h : s.Noted sites) (hsites : s₂.sites = s.sites) :
    Noted (sitesAfter sites site op) { s₂ with sites := s₂.sites.insert site id } := by
  intro x hx
  show ((s₂.sites.insert site id).find? x).isSome
  rw [Table.find?_insert]
  split
  · rfl
  · next hne =>
    rw [hsites]
    rcases mem_noting.1 hx with hx | hx
    · exact h x hx
    · cases op <;> simp [Term.dropoutSite?] at hx
      exact absurd hx.symm hne

/-- A call whose arguments were lowered: its node reads all that is new. -/
theorem Lowered.call {dropouts : List Nat} {s₃ : Lowering} (hargs : Lowered U sites dropouts s ids s₁)
    (hall : Term.AllLoweredTo s₁.nodes (noting sites dropouts) args ids) (ht : U (.apply site op args))
    (hprepared : Prepared U (noting sites dropouts) site op ids s₁ operands s₂)
    (hadded : Added U (sitesAfter (noting sites dropouts) site op) op operands s₂ id s₃) :
    Lowered U sites (dropouts ++ (Term.apply site op []).dropoutSite?.toList) s [id]
      { s₃ with sites := s₃.sites.insert site id } := by
  have hext : s₁.Extends s₃ := hprepared.continues.trans hadded.continues
  refine ⟨?_, ?_, ?_, ?_⟩
  · have := hargs.continues.trans hext
    exact ⟨this.signature, this.nodes, this.masks⟩
  · rw [noting_append]
    exact hadded.inv.remember ht (loweredTo_of_call hall hprepared hadded)
  · rw [noting_append]
    exact hargs.noted.call (hadded.sites_eq.trans hprepared.sites_eq)
  · intro x hx hlt
    have hlt : x < s₃.nodes.size := hlt
    refine ⟨id, List.mem_singleton_self _, ?_⟩
    by_cases hx₁ : x < s₁.nodes.size
    · obtain ⟨o, ho, hreach⟩ := hargs.reach x hx hx₁
      exact (hadded.reaches (hprepared.operandsOf.initial.subset ho)).trans (hreach.mono hext.nodes)
    · by_cases hx₂ : x < s₂.nodes.size
      · exact hadded.reaches (hprepared.reach x (by omega) hx₂)
      · have hsize := hadded.size_eq
        rw [show x = id by have := hadded.id_eq; omega]
        exact .refl

end Call

mutual

/-- Lowering a term fails exactly with the error of shape inference; otherwise it returns a node that
stands for the term. -/
theorem lower_spec {U : Term → Prop} (hU : Term.Universe U) (t : Term) (ht : U t) (s : Lowering)
    (sites : List Nat) (h : s.Inv U sites) (hnoted : s.Noted sites) :
    match lower t s with
    | .error e s' => t.infer s.signature = .error e ∧ ∀ m ∈ s'.masks, isDropoutRate m.rate
    | .ok id s' => Lowered U sites (t.subterms.filterMap Term.dropoutSite?) s [id] s' ∧
      t.LoweredTo s'.nodes (noting sites (t.subterms.filterMap Term.dropoutSite?)) id := by
  match t with
  | .constant value =>
    obtain ⟨hext, hinv, hlow⟩ := lower_constant_spec h value
    rw [lower, push_eq]
    exact ⟨.single hext hinv hnoted (Array.size_push _), hlow⟩
  | .tensor id =>
    rw [lower]
    have hends := lowerTensor_ends id s
    generalize lowerTensor id s = r at hends
    cases hends with
    | remembered hid =>
      exact ⟨Lowered.unchanged h hnoted (by simp [Term.subterms, Term.dropoutSite?]), h.leaf id _ hid⟩
    | unknown hd => exact ⟨by simp [Term.infer, hd, Except.map], h.rates⟩
    | added hd hnew =>
      obtain ⟨hext, hinv, hlow⟩ := lower_tensor_spec h hd hnew
      exact ⟨.single hext hinv hnoted (Array.size_push _), hlow⟩
  | .apply site op args =>
    have hall := lowerAll_spec hU args (hU.args _ _ _ ht) s sites h hnoted
    have hends := lower_apply_ends site op args s
    generalize lower (.apply site op args) s = r at hends
    cases hends with
    | remembered hid =>
      obtain ⟨op', args', hU', hlow⟩ := h.memo site _ hid
      obtain ⟨rfl, rfl⟩ := hU.shared _ _ _ _ _ ht hU'
      have hsub := hlow.dropoutSite_mem
      refine ⟨Lowered.unchanged h hnoted hsub, ?_⟩
      rwa [noting_of_subset hsub]
    | argsRefused hargs =>
      rw [hargs] at hall
      refine ⟨?_, hall.2⟩
      rw [Term.infer, hall.1]
      rfl
    | rateRefused hnew hargs hmask =>
      rw [hargs] at hall
      obtain ⟨hlow, hids⟩ := hall
      have hrefused := @withMask_spec U _ _ hlow.inv op site _ hids.lt_size
        (hids.length_eq.trans (hU.argCount _ _ _ ht)) fun _ _ => not_mem_noting_of_apply hU hnoted ht hnew
      rw [hmask] at hrefused
      obtain ⟨rfl, herr⟩ := hrefused
      refine ⟨?_, hlow.inv.rates⟩
      simp only [Term.infer, hlow.inferAll_eq hids, bind, Except.bind, herr]
    | shapesRefused hnew hargs hmask hadd =>
      rw [hargs] at hall
      obtain ⟨hlow, hids⟩ := hall
      have hprepared := call_prepared hU hlow.inv (not_mem_noting_of_apply hU hnoted ht hnew) ht hids hmask
      have hrefused := addOp_spec hprepared.inv hprepared.lt_size hprepared.length hprepared.mask
      rw [hadd] at hrefused
      obtain ⟨rfl, herr⟩ := hrefused
      refine ⟨?_, hprepared.inv.rates⟩
      simp only [Term.infer, hlow.inferAll_eq hids, bind, Except.bind, hprepared.shapes, herr]
    | added hnew hargs hmask hadd =>
      rw [hargs] at hall
      obtain ⟨hlow, hids⟩ := hall
      have hprepared := call_prepared hU hlow.inv (not_mem_noting_of_apply hU hnoted ht hnew) ht hids hmask
      have hadded := hprepared.added hadd
      have hcall := loweredTo_of_call hids hprepared hadded
      rw [dropoutSites_apply]
      refine ⟨hlow.call hids ht hprepared hadded, ?_⟩
      rw [noting_append]
      exact hcall

/-- Lowering terms fails exactly where shape inference fails; otherwise every term is lowered to its
node. -/
theorem lowerAll_spec {U : Term → Prop} (hU : Term.Universe U) (ts : List Term)
    (hts : ∀ u ∈ Term.allSubterms ts, U u) (s : Lowering) (sites : List Nat) (h : s.Inv U sites)
    (hnoted : s.Noted sites) :
    match lowerAll ts s with
    | .error e s' => Term.inferAll s.signature ts = .error e ∧ ∀ m ∈ s'.masks, isDropoutRate m.rate
    | .ok ids s' => Lowered U sites ((Term.allSubterms ts).filterMap Term.dropoutSite?) s ids s' ∧
      Term.AllLoweredTo s'.nodes
        (noting sites ((Term.allSubterms ts).filterMap Term.dropoutSite?)) ts ids := by
  match ts with
  | [] =>
    exact ⟨Lowered.unchanged h hnoted (by simp [Term.allSubterms]), rfl⟩
  | t :: rest =>
    rw [Term.allSubterms] at hts
    have hhead := lower_spec hU t (hts t (List.mem_append_left _ t.mem_subterms_self)) s sites h hnoted
    have htail := lowerAll_spec hU rest fun u hu => hts u (List.mem_append_right _ hu)
    have hends := lowerAll_cons_ends t rest s
    generalize lowerAll (t :: rest) s = r at hends
    cases hends with
    | headRefused ht =>
      rw [ht] at hhead
      refine ⟨?_, hhead.2⟩
      rw [Term.inferAll, hhead.1]
      rfl
    | restRefused ht hrest =>
      rw [ht] at hhead
      obtain ⟨hlow, hid⟩ := hhead
      have hrefused := htail _ _ hlow.inv hlow.noted
      rw [hrest] at hrefused
      refine ⟨?_, hrefused.2⟩
      rw [Term.inferAll, hlow.infer_eq hid, ← hlow.continues.signature, hrefused.1]
      rfl
    | added ht hrest =>
      rw [ht] at hhead
      obtain ⟨hlow, hid⟩ := hhead
      have hlowered := htail _ _ hlow.inv hlow.noted
      rw [hrest] at hlowered
      obtain ⟨hlow', hids⟩ := hlowered
      rw [Term.allSubterms, List.filterMap_append]
      refine ⟨hlow.cons hlow', ?_⟩
      rw [noting_append, Term.AllLoweredTo]
      exact ⟨_, _, rfl, hid.mono hlow'.continues.nodes (prefix_noting _ _), hids⟩

end

/-! ## Roots -/

/-- What lowering a root returns: a computed node from which every node is reached. It stands for the
root, or it is a reshape of the leaf that does. -/
structure RootLowered (signature : Signature) (root : Term) (shape : Shape) (id : Nat)
    (s : Lowering) : Prop where
  signature_eq : s.signature = signature
  inv : s.Inv (· ∈ root.subterms) root.dropoutSites
  lt_size : id < s.nodes.size
  reach : ∀ x, x < s.nodes.size → Reaches s.nodes id x
  size_eq : (s.node id).size = shape.size
  computed : (s.node id).isComputed
  stands : ∃ base, root.LoweredTo s.nodes root.dropoutSites base ∧
    (s.node base).size = shape.size ∧
    (id = base ∨ ((s.node base).isComputed = false ∧ (s.node id).kind = .op (.reshape shape) ∧
      (s.node id).operands = [(base, .aligned)]))
  /-- The elements of the output can be counted. -/
  countable : shape.isCountable

/-- What is checked when a root is lowered, in the order of the checks. -/
theorem lowerRoot_eq (root : Term) (shape : Shape) (s : Lowering) :
    lowerRoot root shape s =
      match lower root s with
      | .error e s => .error e s
      | .ok id s =>
        if !shape.isCountable then .error .overflow s
        else if (s.node id).shape.size ≠ shape.size then
          .error (.shapeMismatch "output" (s.node id).shape shape) s
        else if (s.node id).isComputed then .ok id s
        else addOp (.reshape shape) [id] s := by
  unfold lowerRoot
  simp only [bind, EStateM.bind]
  cases lower root s with
  | error e s => rfl
  | ok id s =>
    simp only [run_get]
    split
    · rfl
    · simp only [pure]
      split
      · rfl
      · simp only [EStateM.bind, run_get]
        split <;> rfl

/-- A leaf gets a reshape around it. -/
theorem RootLowered.reshape {signature : Signature} {root : Term} {shape : Shape} {base id : Nat}
    {s s₁ : Lowering} (hsig : s.signature = signature)
    (hbase : root.LoweredTo s.nodes root.dropoutSites base)
    (hreach : ∀ x, x < s.nodes.size → Reaches s.nodes base x)
    (hsize : (s.node base).shape.size = shape.size) (hleaf : (s.node base).isComputed = false)
    (hcount : shape.isCountable) (hadded : Added (· ∈ root.subterms) root.dropoutSites (.reshape shape) [base] s id s₁) :
    RootLowered signature root shape id s₁ := by
  obtain ⟨n, hn, hk, hfst⟩ := hadded.node
  have hnode : s₁.node id = n := nodeAt_of_getElem? hn
  have hcore := hadded.continues.nodes.core_eq hbase.lt_size
  have hsize' : (nodeAt s₁.nodes base).shape.size = shape.size := by
    rw [Node.shape_of_core hcore]
    exact hsize
  obtain ⟨hshape, hops⟩ := (hadded.inv.arena.opNode hn hk).reshape_eq hfst
  refine ⟨hadded.continues.signature.trans hsig, hadded.inv, lt_size_of_getElem? hn, ?_, ?_, ?_,
    ⟨base, hbase.mono hadded.continues.nodes (List.prefix_refl _), hsize', .inr ⟨?_, ?_, ?_⟩⟩, hcount⟩
  · intro x hx
    by_cases hx' : x < s.nodes.size
    · exact (hadded.reaches (by simp)).trans ((hreach x hx').mono hadded.continues.nodes)
    · have := hadded.size_eq
      have := hadded.id_eq
      rw [show x = id by omega]
      exact .refl
  · rw [hnode, Node.size, hshape]
  · rw [hnode, Node.isComputed, hk]
  · rw [node_eq, Node.isComputed, Node.kind_of_core hcore]
    exact hleaf
  · rw [hnode, hk]
  · rw [hnode, hops]

/-- Lowering a built root fails exactly where shape inference fails, where the elements of the output
cannot be counted, or where the element counts of the root and of the output shape differ. -/
theorem lowerRoot_spec (signature : Signature) {root : Term} (hroot : root.Built) (shape : Shape) :
    match lowerRoot root shape (start signature) with
    | .error e s => (root.infer signature = .error e ∨
        (∃ found, root.infer signature = .ok found ∧ found.size ≠ shape.size ∧
          e = .shapeMismatch "output" found shape) ∨
        e = .overflow ∧ ¬ shape.isCountable) ∧ ∀ m ∈ s.masks, isDropoutRate m.rate
    | .ok id s => RootLowered signature root shape id s := by
  have hspec := lower_spec hroot.universe root root.mem_subterms_self (start signature) []
    (start_inv _ signature) (by intro x hx; cases hx)
  have hsites : noting [] (root.subterms.filterMap Term.dropoutSite?) = root.dropoutSites := by
    rw [noting_eq, Term.dropoutSites]
    simp
  rw [lowerRoot_eq]
  cases hl : lower root (start signature) with
  | error e s =>
    rw [hl] at hspec
    exact ⟨.inl hspec.1, hspec.2⟩
  | ok base s =>
    rw [hl] at hspec
    obtain ⟨hlow, hbase⟩ := hspec
    have hinfer : root.infer signature = .ok (s.node base).shape := hlow.infer_eq hbase
    have hinv := hlow.inv
    rw [hsites] at hinv hbase
    have hsig : s.signature = signature := hlow.continues.signature
    have hreach : ∀ x, x < s.nodes.size → Reaches s.nodes base x := by
      intro x hx
      obtain ⟨o, ho, hr⟩ := hlow.reach x (Nat.zero_le _) hx
      rw [List.mem_singleton] at ho
      exact ho ▸ hr
    dsimp only
    by_cases hcount : shape.isCountable = true
    swap
    · rw [if_pos (by simp [hcount])]
      exact ⟨.inr (.inr ⟨rfl, hcount⟩), hlow.inv.rates⟩
    rw [if_neg (by simp [hcount])]
    by_cases hsize : (s.node base).shape.size = shape.size
    · rw [if_neg (not_not.2 hsize)]
      by_cases hcomp : (s.node base).isComputed = true
      · rw [if_pos hcomp]
        exact ⟨hsig, hinv, hbase.lt_size, hreach, hsize, hcomp, ⟨base, hbase, hsize, .inl rfl⟩, hcount⟩
      · rw [if_neg hcomp]
        have hadd := @addOp_spec _ _ s hinv (.reshape shape) [base]
          (by simpa using hbase.lt_size) rfl (by intro rate hrate; cases hrate)
        cases ha : addOp (.reshape shape) [base] s with
        | error e s₁ =>
          rw [ha] at hadd
          -- both shapes can be counted
          have hreshape : (Op.reshape shape).inferCounted [(s.node base).shape] =
              .ok ⟨shape, [.aligned]⟩ :=
            Op.inferCounted_eq (inferReshape_eq (Term.isCountable_of_infer hinfer) hcount hsize) hcount
          have herror : (Op.reshape shape).inferCounted [(s.node base).shape] = .error e := hadd.2
          rw [hreshape] at herror
          cases herror
        | ok id s₁ =>
          rw [ha] at hadd
          exact .reshape hsig hbase hreach hsize (Bool.eq_false_iff.2 hcomp) hcount hadd
    · rw [if_pos hsize]
      exact ⟨.inr (.inl ⟨_, hinfer, hsize, rfl⟩), hlow.inv.rates⟩

/-- What the node of a call reads stands for an argument, or is the mask of a dropout, which has the
shape of the argument. -/
theorem operand_cases {masks : Array MaskSite} {nodes : Array Node} {sites ids : List Nat} {id site : Nat}
    {op : Op} {args : List Term} {n : Node} (hok : OpNodeOk masks nodes id op n)
    (hargs : Term.AllLoweredTo nodes sites args ids)
    (hops : op.OperandsOf nodes sites site ids (n.operands.map Prod.fst)) {x : Nat}
    (hx : x ∈ n.operands.map Prod.fst) :
    (∃ u ∈ args, u.LoweredTo nodes sites x) ∨
      ∃ u ∈ args, ∃ y i, u.LoweredTo nodes sites y ∧ (nodeAt nodes x).kind = .mask i ∧
        (nodeAt nodes x).shape = (nodeAt nodes y).shape := by
  cases op
  case dropout rate =>
    obtain ⟨-, y, a, m, b, i, hym, hkind, hshape, -⟩ := hok.mask rate rfl
    obtain ⟨m', -, -, hids, -⟩ := hops
    rw [hym] at hids hx
    -- the mask stands at the end, so the argument is the first operand
    have hy : y ∈ ids := by
      cases ids with
      | nil => simp at hids
      | cons z ids =>
        simp only [List.map_cons, List.cons_append, List.cons.injEq] at hids
        simp [hids.1]
    obtain ⟨u, hu, hlow⟩ := hargs.exists_of_mem hy
    simp only [List.map_cons, List.map_nil, List.mem_cons, List.not_mem_nil, or_false] at hx
    rcases hx with rfl | rfl
    · exact .inl ⟨u, hu, hlow⟩
    · exact .inr ⟨u, hu, y, i, hlow, hkind, hshape⟩
  all_goals
    simp only [Op.OperandsOf] at hops
    rw [hops] at hx
    exact .inl (hargs.exists_of_mem hx)

/-- A node that is reached from that of a term stands for a subterm, or is the mask of a dropout of
one. -/
theorem node_cases {signature : Signature} {masks : Array MaskSite} {nodes : Array Node}
    {sites : List Nat} (harena : Arena signature masks nodes) {root : Term} {base x : Nat}
    (hbase : root.LoweredTo nodes sites base) (hreach : Reaches nodes base x) :
    (∃ u ∈ root.subterms, u.LoweredTo nodes sites x) ∨
      ∃ u ∈ root.subterms, ∃ y i, u.LoweredTo nodes sites y ∧ (nodeAt nodes x).kind = .mask i ∧
        (nodeAt nodes x).shape = (nodeAt nodes y).shape := by
  induction hreach with
  | refl => exact .inl ⟨root, root.mem_subterms_self, hbase⟩
  | @tail a b _ hstep ih =>
    obtain ⟨hb, ha⟩ := hstep
    obtain ⟨o, ho, rfl⟩ := List.mem_map.1 hb
    -- only the node of a call reads another
    have hcomp := harena.isComputed_of_mem ha ho
    rcases ih with ⟨u, hu, hlow⟩ | ⟨u, hu, y, i, -, hkind, -⟩
    · match u with
      | .constant value =>
        rw [Term.LoweredTo] at hlow
        obtain ⟨n, hn, hk⟩ := hlow
        simp [Node.isComputed, nodeAt_of_getElem? hn, hk] at hcomp
      | .tensor t =>
        rw [Term.LoweredTo] at hlow
        obtain ⟨n, hn, hk⟩ := hlow
        simp [Node.isComputed, nodeAt_of_getElem? hn, hk] at hcomp
      | .apply site op args =>
        rw [Term.LoweredTo] at hlow
        obtain ⟨n, ids, hn, hk, hargs, hops⟩ := hlow
        rw [nodeAt_of_getElem? hn] at hb
        have hsub : ∀ v ∈ args, v ∈ root.subterms := by
          intro v hv
          refine Term.subterms_trans root hu ?_
          rw [Term.subterms, List.mem_append]
          exact .inl (Term.mem_allSubterms_of_mem hv)
        rcases operand_cases (harena.opNode hn hk) hargs hops hb with ⟨v, hv, hlow⟩ | ⟨v, hv, hmask⟩
        · exact .inl ⟨v, hsub v hv, hlow⟩
        · exact .inr ⟨v, hsub v hv, hmask⟩
    · simp [Node.isComputed, hkind] at hcomp

/-- Where every subterm has fewer than `2 ^ 32` elements, every node has. -/
theorem RootLowered.size_lt {signature : Signature} {root : Term} {shape : Shape} {id : Nat}
    {s : Lowering} (h : RootLowered signature root shape id s) (hfits : root.Fits signature) {x : Nat}
    (hx : x < s.nodes.size) : (s.node x).size < 2 ^ 32 := by
  have harena : Arena signature s.masks s.nodes := h.signature_eq ▸ h.inv.arena
  have hterm : ∀ u ∈ root.subterms, ∀ y, u.LoweredTo s.nodes root.dropoutSites y →
      (s.node y).size < 2 ^ 32 :=
    fun u hu y hlow => hfits u hu _ (hlow.infer_eq harena)
  obtain ⟨base, hbase, hsize, hid⟩ := h.stands
  have hreached : ∀ y, Reaches s.nodes base y → (s.node y).size < 2 ^ 32 := by
    intro y hy
    rcases node_cases harena hbase hy with ⟨u, hu, hlow⟩ | ⟨u, hu, z, i, hlow, -, hshape⟩
    · exact hterm u hu y hlow
    · rw [node_eq, Node.size, hshape]
      exact hterm u hu z hlow
  rcases hid with rfl | ⟨-, -, hops⟩
  · exact hreached x (h.reach x hx)
  · rcases (h.reach x hx).cases_head with rfl | ⟨y, ⟨hy, -⟩, hrest⟩
    · rw [h.size_eq, ← hsize]
      exact hterm root root.mem_subterms_self base hbase
    · rw [← node_eq, hops, List.map_singleton, List.mem_singleton] at hy
      subst hy
      exact hreached x hrest

end Lowering

end TensorKernels
