import TensorKernels.Proofs.CallSites

/-!
# Lowering step by step

What a lowering leaves behind is made in steps of three kinds: a constant gets a node, a tensor gets its
leaf, and a call whose arguments have nodes gets its node, together with its mask if it is a dropout
(`Lowering.Step`). This is so whether the lowering succeeds or fails, and wherever it fails
(`Lowering.lower_run`): a call that is refused adds nothing of its own, since the rate of a dropout is
checked before its mask is made, and with a mask the call cannot be refused any more.

So what every step keeps (`Lowering.Sound`) holds of every state that any sequence of lowerings can reach.
-/

set_option autoImplicit false

namespace TensorKernels

namespace Lowering

/-- One step of a lowering of terms of `U`. -/
inductive Step (U : Term → Prop) : Lowering → Lowering → Prop
  | constant (s : Lowering) (value : Float32) :
    Step U s { s with nodes := s.nodes.push (.leaf (.constant value) [1]) }
  | tensor {s : Lowering} {t : Nat} {d : TensorDecl} (hd : s.signature.get? t = some d)
    (hnew : s.leaves.find? t = none) :
    Step U s { s with
      nodes := s.nodes.push (.leaf (.tensor t) d.shape)
      leaves := s.leaves.insert t s.nodes.size }
  | call {s s₁ s₂ : Lowering} {site id : Nat} {op : Op} {args : List Term} {ids operands : List Nat}
    (ht : U (.apply site op args)) (hnew : s.sites.find? site = none)
    (hargs : List.Forall₂ s.At args ids) (hmask : withMask op ids s = .ok operands s₁)
    (hadd : addOp op operands s₁ = .ok id s₂) :
    Step U s { s₂ with sites := s₂.sites.insert site id }

/-- Steps one after the other. -/
abbrev Run (U : Term → Prop) : Lowering → Lowering → Prop := Relation.ReflTransGen (Step U)

/-- Every node lists its readers once for each operand slot in which they read it, and nothing else. -/
def Counted (nodes : Array Node) : Prop :=
  ∀ x < nodes.size, ∀ c,
    (nodeAt nodes x).consumers.count c = ((nodeAt nodes c).operands.map Prod.fst).count x

/-- What holds of every state that a lowering of terms of `U` can reach. -/
structure Sound (U : Term → Prop) (s : Lowering) : Prop where
  /-- The masks belong to dropout sites that are remembered. -/
  noted : ∃ sites, s.Inv U sites ∧ s.Noted sites ∧
    ∀ site ∈ sites, ∃ rate args, U (.apply site (.dropout rate) args)
  placed : s.Placed U
  counted : Counted s.nodes

variable {U : Term → Prop} {s s' : Lowering}

/-- The nodes of a sound state are a well-formed arena. -/
theorem Sound.arena (h : s.Sound U) : Arena s.signature s.masks s.nodes := by
  obtain ⟨sites, hinv, -⟩ := h.noted
  exact hinv.arena

/-- The state at the start is sound. -/
theorem start_sound (U : Term → Prop) (signature : Signature) : (start signature).Sound U where
  noted := by
    refine ⟨[], start_inv U signature, ?_, ?_⟩
    · intro site hsite
      cases hsite
    · intro site hsite
      cases hsite
  placed := start_placed U signature
  counted := fun _ h => by cases h

/-! ## Readers -/

/-- Beyond the end there is a leaf with one element. -/
theorem nodeAt_of_size_le {nodes : Array Node} {x : Nat} (h : nodes.size ≤ x) :
    nodeAt nodes x = .leaf (.constant 0.0) [1] := by
  simp [nodeAt, Array.getD_eq_getD_getElem?, h]

/-- A pushed node stands at the end, and all others are as before. -/
theorem nodeAt_push (nodes : Array Node) (n : Node) (x : Nat) :
    nodeAt (nodes.push n) x = if x = nodes.size then n else nodeAt nodes x := by
  simp only [nodeAt, Array.getD_eq_getD_getElem?, Array.getElem?_push]
  split <;> rfl

/-- Changing one node leaves all others as they are. -/
theorem nodeAt_modify {nodes : Array Node} (f : Node → Node) (o : Nat) {x : Nat} (hx : x < nodes.size) :
    nodeAt (nodes.modify o f) x = if o = x then f (nodeAt nodes x) else nodeAt nodes x := by
  refine nodeAt_of_getElem? ?_
  rw [Array.getElem?_modify, getElem?_nodeAt hx]
  split <;> rfl

/-- A node gains a reader once for each time it is among the reader's operands. -/
theorem consumers_addConsumer (consumer : Nat) (operands : List Nat) {nodes : Array Node} {x : Nat}
    (hx : x < nodes.size) :
    (nodeAt (addConsumer nodes consumer operands) x).consumers =
      (nodeAt nodes x).consumers ++ List.replicate (operands.count x) consumer := by
  induction operands generalizing nodes with
  | nil => simp [addConsumer]
  | cons o operands ih =>
    have hstep : addConsumer nodes consumer (o :: operands) =
        addConsumer (nodes.modify o fun n => { n with consumers := n.consumers ++ [consumer] })
          consumer operands := rfl
    rw [hstep, ih (by rwa [Array.size_modify]), nodeAt_modify _ _ hx]
    by_cases ho : o = x
    · subst ho
      simp [List.replicate_succ]
    · simp [ho]

/-- A node that is not there has no readers. -/
theorem count_operands_of_size_le {signature : Signature} {masks : Array MaskSite} {nodes : Array Node}
    (harena : Arena signature masks nodes) {x : Nat} (hx : nodes.size ≤ x) (c : Nat) :
    ((nodeAt nodes c).operands.map Prod.fst).count x = 0 := by
  by_cases hc : c < nodes.size
  · rw [List.count_eq_zero]
    intro hmem
    obtain ⟨o, ho, rfl⟩ := List.mem_map.1 hmem
    have := harena.operand_lt hc o ho
    omega
  · rw [nodeAt_of_size_le (Nat.le_of_not_lt hc)]
    rfl

/-- Adding a leaf. -/
theorem Counted.leaf {signature : Signature} {masks : Array MaskSite} {nodes : Array Node}
    (harena : Arena signature masks nodes) (h : Counted nodes) (kind : NodeKind) (shape : Shape) :
    Counted (nodes.push (.leaf kind shape)) := by
  have hoperands : ∀ c, (nodeAt (nodes.push (.leaf kind shape)) c).operands = (nodeAt nodes c).operands := by
    intro c
    rw [nodeAt_push]
    split
    · next hc =>
      rw [nodeAt_of_size_le (Nat.le_of_eq hc.symm)]
      rfl
    · rfl
  intro x hx c
  rw [Array.size_push] at hx
  rw [hoperands, nodeAt_push]
  split
  · next hsize =>
    rw [count_operands_of_size_le harena (Nat.le_of_eq hsize.symm)]
    rfl
  · exact h x (by omega) c

/-- Adding a node with its operands. -/
theorem Counted.op {signature : Signature} {masks : Array MaskSite} {nodes : Array Node} {n : Node}
    (harena : Arena signature masks nodes) (h : Counted nodes) (hconsumers : n.consumers = [])
    (hlt : ∀ o ∈ n.operands, o.1 < nodes.size) :
    Counted (addConsumer (nodes.push n) nodes.size (n.operands.map Prod.fst)) := by
  have hsize : (addConsumer (nodes.push n) nodes.size (n.operands.map Prod.fst)).size = nodes.size + 1 := by
    rw [size_addConsumer, Array.size_push]
  have hoperands : ∀ c,
      (nodeAt (addConsumer (nodes.push n) nodes.size (n.operands.map Prod.fst)) c).operands =
        if c = nodes.size then n.operands else (nodeAt nodes c).operands := by
    intro c
    by_cases hc : c < nodes.size + 1
    · rw [Node.operands_of_core ((addConsumer_extends _ _ _).core_eq (by rwa [Array.size_push])),
        nodeAt_push]
      split <;> rfl
    · rw [nodeAt_of_size_le (by omega), nodeAt_of_size_le (by omega), if_neg (by omega)]
  -- operands come first, so the new node does not read itself
  have hself : (n.operands.map Prod.fst).count nodes.size = 0 := by
    rw [List.count_eq_zero]
    intro hmem
    obtain ⟨o, ho, heq⟩ := List.mem_map.1 hmem
    have := hlt o ho
    omega
  intro x hx c
  rw [hsize] at hx
  rw [hoperands, consumers_addConsumer _ _ (by rwa [Array.size_push]), List.count_append,
    List.count_replicate, nodeAt_push]
  by_cases hxn : x = nodes.size
  · subst hxn
    rw [if_pos rfl, hconsumers, hself, ite_self]
    by_cases hcn : c = nodes.size
    · rw [if_pos hcn, hself]
      rfl
    · rw [if_neg hcn, count_operands_of_size_le harena (Nat.le_refl _)]
      rfl
  · rw [if_neg hxn, h x (by omega) c]
    by_cases hcn : c = nodes.size
    · subst hcn
      rw [if_pos rfl, nodeAt_of_size_le (Nat.le_refl _)]
      simp [Node.leaf]
    · rw [if_neg hcn, if_neg (by simpa using Ne.symm hcn), Nat.add_zero]

/-! ## What a step keeps -/

/-- A node that is given out for a term stands for it. -/
theorem At.loweredTo (hU : Term.Universe U) {sites : List Nat} (h : s.Inv U sites) {t : Term} (ht : U t)
    {id : Nat} (hat : s.At t id) : t.LoweredTo s.nodes sites id := by
  cases t with
  | constant value =>
    rw [Term.LoweredTo]
    exact hat
  | tensor t =>
    rw [Term.LoweredTo]
    exact hat
  | apply site op args =>
    obtain ⟨op', args', ht', hlow⟩ := h.memo site id hat
    obtain ⟨rfl, rfl⟩ := hU.shared _ _ _ _ _ ht ht'
    exact hlow

/-- Terms that are at their nodes are lowered to them. -/
theorem allLoweredTo_of_at (hU : Term.Universe U) {sites : List Nat} (h : s.Inv U sites) {ts : List Term}
    (hts : ∀ t ∈ ts, U t) {ids : List Nat} (hat : List.Forall₂ s.At ts ids) :
    Term.AllLoweredTo s.nodes sites ts ids := by
  induction hat with
  | nil =>
    rw [Term.AllLoweredTo]
  | cons hid _ ih =>
    rw [Term.AllLoweredTo]
    exact ⟨_, _, rfl, hid.loweredTo hU h (hts _ List.mem_cons_self),
      ih fun t ht => hts t (List.mem_cons_of_mem _ ht)⟩

/-- Adding a mask keeps the lists of readers exact. -/
theorem withMask_counted {op : Op} {ids operands : List Nat} (h : s.Sound U)
    (hmask : withMask op ids s = .ok operands s') : Counted s'.nodes := by
  rw [withMask_eq] at hmask
  cases op
  case dropout rate =>
    dsimp only at hmask
    split at hmask
    · cases hmask
      exact h.counted.leaf h.arena _ _
    · cases hmask
  all_goals
    cases hmask
    exact h.counted

/-- Adding an operator keeps the lists of readers exact. -/
theorem addOp_counted {op : Op} {operands : List Nat} {id : Nat}
    (harena : Arena s.signature s.masks s.nodes) (h : Counted s.nodes)
    (hlt : ∀ o ∈ operands, o < s.nodes.size) (hlen : operands.length = op.arity)
    (hadd : addOp op operands s = .ok id s') : Counted s'.nodes := by
  rw [addOp_eq] at hadd
  cases hinfer : op.inferCounted (operands.map fun o => (s.node o).shape) with
  | error e =>
    rw [hinfer] at hadd
    cases hadd
  | ok r =>
    rw [hinfer] at hadd
    cases hadd
    have hfst : (operands.zip r.access).map Prod.fst = operands :=
      List.map_fst_zip (Nat.le_of_eq (length_access_of_infer hlen (Op.inferCounted_ok hinfer).1).symm)
    have hop := h.op harena (n := s.opNode op operands r) rfl fun o ho => hlt o.1 (List.of_mem_zip ho).1
    simp only [opNode, hfst] at hop
    exact hop

/-- `t` continues `s`, and remembers what `s` remembers. -/
structure Grows (s t : Lowering) : Prop where
  continues : s.Extends t
  sites : ∀ site id, s.sites.find? site = some id → t.sites.find? site = some id
  leaves : ∀ x id, s.leaves.find? x = some id → t.leaves.find? x = some id

/-- A state grows out of itself. -/
theorem Grows.refl (s : Lowering) : s.Grows s := ⟨.refl s, fun _ _ h => h, fun _ _ h => h⟩

/-- Growing states compose. -/
theorem Grows.trans {s t u : Lowering} (h : s.Grows t) (h' : t.Grows u) : s.Grows u :=
  ⟨h.continues.trans h'.continues, fun site id hid => h'.sites site id (h.sites site id hid),
    fun x id hid => h'.leaves x id (h.leaves x id hid)⟩

/-- The leaf of a tensor is found again, since a tensor has one node. -/
theorem Inv.leaves_kept {sites sites' : List Nat} (h : s.Inv U sites) (h' : s'.Inv U sites')
    (hext : s.Extends s') (x id : Nat) (hid : s.leaves.find? x = some id) : s'.leaves.find? x = some id := by
  have hlow := h.leaf x id hid
  rw [Term.LoweredTo] at hlow
  obtain ⟨n, hn, hk⟩ := hlow
  obtain ⟨n', hn', hcore, -⟩ := hext.nodes id n hn
  exact h'.leafOnce id n' x hn' ((Node.kind_of_core hcore).trans hk)

/-- A step keeps the state sound, and what is there stays. -/
theorem Step.sound (hU : Term.Universe U) (h : s.Sound U) (hstep : Step U s s') :
    s'.Sound U ∧ s.Grows s' := by
  obtain ⟨sites, hinv, hnoted, hdropouts⟩ := h.noted
  cases hstep with
  | constant value =>
    obtain ⟨hext, hinv', -⟩ := lower_constant_spec hinv value
    exact ⟨⟨⟨sites, hinv', hnoted, hdropouts⟩, h.placed.leaf rfl rfl rfl, h.counted.leaf h.arena _ _⟩,
      hext, fun _ _ hid => hid, hinv.leaves_kept hinv' hext⟩
  | tensor hd hnew =>
    obtain ⟨hext, hinv', -⟩ := lower_tensor_spec hinv hd hnew
    exact ⟨⟨⟨sites, hinv', hnoted, hdropouts⟩, h.placed.leaf rfl rfl rfl, h.counted.leaf h.arena _ _⟩,
      hext, fun _ _ hid => hid, hinv.leaves_kept hinv' hext⟩
  | @call s₁ s₂ site id op args ids operands ht hnew hargs hmask hadd =>
    have hfresh : site ∉ sites := by
      intro hmem
      have := hnoted site hmem
      rw [hnew] at this
      cases this
    have hall := allLoweredTo_of_at hU hinv
      (fun t ht' => hU.args _ _ _ ht t (Term.mem_allSubterms_of_mem ht')) hargs
    have hprepared := call_prepared hU hinv hfresh ht hall hmask
    have hadded := hprepared.added hadd
    have hinv' := hadded.inv.remember ht (loweredTo_of_call hall hprepared hadded)
    have hext : s.Extends { s₂ with sites := s₂.sites.insert site id } := by
      have := hprepared.continues.trans hadded.continues
      exact ⟨this.signature, this.nodes, this.masks⟩
    have hsites : s₂.sites = s.sites := hadded.sites_eq.trans hprepared.sites_eq
    refine ⟨⟨⟨sitesAfter sites site op, hinv', hnoted.call hsites, ?_⟩,
      h.placed.of_call ht hnew hargs hmask hprepared hadded, ?_⟩, hext, ?_,
      hinv.leaves_kept hinv' hext⟩
    · intro site' hsite'
      rcases mem_noting.1 hsite' with hsite' | hsite'
      · exact hdropouts site' hsite'
      · cases op <;> simp [Term.dropoutSite?] at hsite'
        subst hsite'
        exact ⟨_, args, ht⟩
    · show Counted s₂.nodes
      exact addOp_counted hprepared.inv.arena (withMask_counted h hmask) hprepared.lt_size
        hprepared.length hadd
    · show ∀ site' id', s.sites.find? site' = some id' → (s₂.sites.insert site id).find? site' = some id'
      rw [hsites]
      exact (Remembers.insert hnew id op args).kept

/-- Steps keep the state sound, and what is there stays. -/
theorem Run.sound (hU : Term.Universe U) (h : s.Sound U) (hrun : Run U s s') :
    s'.Sound U ∧ s.Grows s' := by
  induction hrun with
  | refl => exact ⟨h, .refl s⟩
  | tail _ hstep ih =>
    obtain ⟨hsound, hgrows⟩ := ih
    obtain ⟨hsound', hgrows'⟩ := hstep.sound hU hsound
    exact ⟨hsound', hgrows.trans hgrows'⟩

/-! ## Lowerings are runs -/

/-- The state that a computation leaves behind, whether it succeeds or fails. -/
def stateAfter {ε σ β : Type} : EStateM.Result ε σ β → σ
  | .ok _ s => s
  | .error _ s => s

/-- A dropout that is refused for its rate leaves the state as it is. -/
theorem eq_of_rate_refused {op : Op} {ids : List Nat} {e : Error} (hmask : withMask op ids s = .error e s') :
    s' = s := by
  rw [withMask_eq] at hmask
  cases op
  case dropout rate =>
    dsimp only at hmask
    split at hmask
    · cases hmask
    · cases hmask
      rfl
  all_goals cases hmask

/-- A call that is refused for its shapes leaves the state as it is: a dropout is not, so no mask was
made. -/
theorem eq_of_shapes_refused {op : Op} {ids operands : List Nat} {e : Error} {s₁ s₂ : Lowering}
    (hids : ∀ rate, op = .dropout rate →
      ∃ x, ids = [x] ∧ x < s.nodes.size ∧ (s.node x).shape.isCountable)
    (hmask : withMask op ids s = .ok operands s₁) (hadd : addOp op operands s₁ = .error e s₂) :
    s₂ = s := by
  rw [addOp_eq] at hadd
  cases hinfer : op.inferCounted (operands.map fun o => (s₁.node o).shape) with
  | ok r =>
    rw [hinfer] at hadd
    cases hadd
  | error e =>
    rw [hinfer] at hadd
    cases hadd
    rw [withMask_eq] at hmask
    cases op
    case dropout rate =>
      obtain ⟨x, rfl, hx, hcount⟩ := hids rate rfl
      dsimp only at hmask
      split at hmask
      · cases hmask
        -- the result has the shape of the argument, whose elements were counted
        have hshape := Node.shape_of_core ((s.withMaskOf_extends rate x).nodes.core_eq hx)
        have hresult : (nodeAt (s.withMaskOf rate x).nodes x).shape.isCountable := hshape ▸ hcount
        exact absurd (hinfer.symm.trans (Op.inferCounted_eq rfl hresult)) (by simp)
      · cases hmask
    all_goals
      cases hmask
      rfl

mutual

/-- However a lowering ends, it made steps. -/
theorem lower_run (hU : Term.Universe U) (t : Term) (ht : U t) (s : Lowering) (h : s.Sound U) :
    Run U s (stateAfter (lower t s)) := by
  match t with
  | .constant value =>
    rw [lower, push_eq]
    exact .single (.constant s value)
  | .tensor id =>
    rw [lower]
    have hends := lowerTensor_ends id s
    generalize lowerTensor id s = r at hends
    cases hends with
    | remembered hid => exact .refl
    | unknown hd => exact .refl
    | added hd hnew => exact .single (.tensor hd hnew)
  | .apply site op args =>
    have hrun := lowerAll_run hU args (hU.args _ _ _ ht) s h
    have hends := lower_apply_ends site op args s
    generalize lower (.apply site op args) s = r at hends
    cases hends with
    | remembered hid => exact .refl
    | argsRefused hargs =>
      rw [hargs] at hrun
      exact hrun
    | rateRefused hnew hargs hmask =>
      rw [hargs] at hrun
      rw [eq_of_rate_refused hmask]
      exact hrun
    | @shapesRefused ids operands e s₁ s₂ s₃ hnew hargs hmask hadd =>
      rw [hargs] at hrun
      obtain ⟨sites, hinv, hnoted, -⟩ := h.noted
      obtain ⟨-, hat, -⟩ :=
        lowerAll_placed hU args (hU.args _ _ _ ht) s sites hinv hnoted h.placed hargs
      obtain ⟨sites₁, hinv₁, -⟩ := (hrun.sound hU h).1.noted
      have hall := allLoweredTo_of_at hU hinv₁
        (fun u hu => hU.args _ _ _ ht u (Term.mem_allSubterms_of_mem hu)) hat
      have hids : ∀ rate, op = .dropout rate →
          ∃ x, ids = [x] ∧ x < s₁.nodes.size ∧ (s₁.node x).shape.isCountable := by
        rintro rate rfl
        obtain ⟨x, rfl⟩ := List.length_eq_one_iff.1 (hall.length_eq.trans (hU.argCount _ _ _ ht))
        obtain ⟨u, -, hlow⟩ := hall.exists_of_mem List.mem_cons_self
        exact ⟨x, rfl, hlow.lt_size, Term.isCountable_of_infer (hlow.infer_eq hinv₁.arena)⟩
      rw [eq_of_shapes_refused hids hmask hadd]
      exact hrun
    | added hnew hargs hmask hadd =>
      rw [hargs] at hrun
      obtain ⟨sites, hinv, hnoted, -⟩ := h.noted
      obtain ⟨-, hat, hremembers⟩ :=
        lowerAll_placed hU args (hU.args _ _ _ ht) s sites hinv hnoted h.placed hargs
      exact hrun.tail (.call ht (hremembers.fresh hU ht hnew) hat hmask hadd)

/-- However the lowering of a list of terms ends, it made steps. -/
theorem lowerAll_run (hU : Term.Universe U) (ts : List Term) (hts : ∀ u ∈ Term.allSubterms ts, U u)
    (s : Lowering) (h : s.Sound U) : Run U s (stateAfter (lowerAll ts s)) := by
  match ts with
  | [] => exact .refl
  | t :: rest =>
    rw [Term.allSubterms] at hts
    have hrun := lower_run hU t (hts t (List.mem_append_left _ t.mem_subterms_self)) s h
    have hends := lowerAll_cons_ends t rest s
    generalize lowerAll (t :: rest) s = r at hends
    -- what is left behind after the first term is sound, so the others run on from there
    have htail : ∀ {id s₁}, lower t s = .ok id s₁ → Run U s (stateAfter (lowerAll rest s₁)) := by
      intro id s₁ ht
      rw [ht] at hrun
      exact hrun.trans (lowerAll_run hU rest (fun u hu => hts u (List.mem_append_right _ hu)) s₁
        (hrun.sound hU h).1)
    cases hends with
    | headRefused ht =>
      rw [ht] at hrun
      exact hrun
    | restRefused ht hrest =>
      have hrun' := htail ht
      rw [hrest] at hrun'
      exact hrun'
    | added ht hrest =>
      have hrun' := htail ht
      rw [hrest] at hrun'
      exact hrun'

end

end Lowering

end TensorKernels
