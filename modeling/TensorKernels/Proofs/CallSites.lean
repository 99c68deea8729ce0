import TensorKernels.Proofs.Compilation

/-!
# One node per call site

Lowering remembers the node of every call site, and gives it out again when the site is met again. So
call sites and nodes of operators correspond one to one, and the operands of a node are the nodes of
the arguments themselves, not copies of them (`Lowering.Placed`). The only other node of an operator is
the reshape around a root that is a leaf.
-/

set_option autoImplicit false

namespace TensorKernels

namespace Lowering

/-- The node of a term, as it is given out: that of its call site, or a leaf for it. -/
def At (s : Lowering) : Term → Nat → Prop
  | .apply site _ _, id => s.sites.find? site = some id
  | .tensor t, id => ∃ n, s.nodes[id]? = some n ∧ n.kind = .tensor t
  | .constant value, id => ∃ n, s.nodes[id]? = some n ∧ n.kind = .constant value

/-- Call sites and nodes of operators correspond, and nodes read the nodes of their arguments. -/
structure Placed (U : Term → Prop) (s : Lowering) : Prop where
  call : ∀ site id, s.sites.find? site = some id → ∃ op args n ids, U (.apply site op args) ∧
    s.nodes[id]? = some n ∧ n.kind = .op op ∧ ids <+: n.operands.map Prod.fst ∧
    List.Forall₂ s.At args ids
  once : ∀ site site' id, s.sites.find? site = some id → s.sites.find? site' = some id → site = site'
  node : ∀ id n op, s.nodes[id]? = some n → n.kind = .op op → ∃ site, s.sites.find? site = some id

/-- Call sites stay remembered, and new ones are among the given terms. -/
structure Remembers (old new : Table Nat Nat) (ts : List Term) : Prop where
  kept : ∀ site id, old.find? site = some id → new.find? site = some id
  met : ∀ site, old.find? site = none → new.find? site ≠ none → ∃ op args, Term.apply site op args ∈ ts

/-- An unchanged memory has kept all sites and met none. -/
theorem Remembers.refl (t : Table Nat Nat) (ts : List Term) : Remembers t t ts :=
  ⟨fun _ _ hid => hid, fun _ hnone hsome => absurd hnone hsome⟩

/-- What is remembered after terms of one list, and then of another. -/
theorem Remembers.append {a b c : Table Nat Nat} {ts ts' : List Term} (h : Remembers a b ts)
    (h' : Remembers b c ts') : Remembers a c (ts ++ ts') := by
  refine ⟨fun site id hid => h'.kept site id (h.kept site id hid), fun site hnone hsome => ?_⟩
  by_cases hmid : b.find? site = none
  · obtain ⟨op, args, hmem⟩ := h'.met site hmid hsome
    exact ⟨op, args, List.mem_append_right _ hmem⟩
  · obtain ⟨op, args, hmem⟩ := h.met site hnone hmid
    exact ⟨op, args, List.mem_append_left _ hmem⟩

/-- A new call site is remembered. -/
theorem Remembers.insert {t : Table Nat Nat} {site : Nat} (hnew : t.find? site = none) (id : Nat) (op : Op)
    (args : List Term) : Remembers t (t.insert site id) [.apply site op args] := by
  refine ⟨?_, ?_⟩
  · intro site' id' hid
    rw [Table.find?_insert, if_neg, hid]
    rintro rfl
    rw [hnew] at hid
    cases hid
  · intro site' hnone hsome
    rw [Table.find?_insert] at hsome
    split at hsome
    · next heq => exact ⟨op, args, by rw [heq]; simp⟩
    · exact absurd hnone hsome

/-- A term stays at its node when nodes and sites are added. -/
theorem At.mono {s s' : Lowering} (hext : NodesExtend s.nodes s'.nodes)
    (hsites : ∀ site id, s.sites.find? site = some id → s'.sites.find? site = some id) {t : Term}
    {id : Nat} (h : s.At t id) : s'.At t id := by
  cases t with
  | apply site op args => exact hsites site id h
  | tensor t =>
    obtain ⟨n, hn, hk⟩ := h
    obtain ⟨n', hn', hcore, -⟩ := hext id n hn
    exact ⟨n', hn', (Node.kind_of_core hcore).trans hk⟩
  | constant value =>
    obtain ⟨n, hn, hk⟩ := h
    obtain ⟨n', hn', hcore, -⟩ := hext id n hn
    exact ⟨n', hn', (Node.kind_of_core hcore).trans hk⟩

variable {U : Term → Prop} {s s' : Lowering} {site : Nat} {op : Op} {args : List Term}

/-- At the start no site is remembered, so all remembered calls are in place. -/
theorem start_placed (U : Term → Prop) (signature : Signature) : (start signature).Placed U := by
  refine ⟨?_, ?_, ?_⟩
  · intro site id hid
    simp [start, Table.find?_empty] at hid
  · intro site site' id hid
    simp [start, Table.find?_empty] at hid
  · intro id n op hn
    simp [start] at hn

/-- What is remembered of a call site stays true. -/
theorem Placed.call_mono (h : s.Placed U) (hext : NodesExtend s.nodes s'.nodes)
    (hsites : ∀ site id, s.sites.find? site = some id → s'.sites.find? site = some id) {site id : Nat}
    (hid : s.sites.find? site = some id) : ∃ op args n ids, U (.apply site op args) ∧
      s'.nodes[id]? = some n ∧ n.kind = .op op ∧ ids <+: n.operands.map Prod.fst ∧
      List.Forall₂ s'.At args ids := by
  obtain ⟨op, args, n, ids, hU, hn, hk, hids, hat⟩ := h.call site id hid
  obtain ⟨n', hn', hcore, -⟩ := hext id n hn
  refine ⟨op, args, n', ids, hU, hn', (Node.kind_of_core hcore).trans hk, ?_,
    hat.imp fun _ _ hat => hat.mono hext hsites⟩
  rwa [Node.operands_of_core hcore]

/-- Adding a leaf. -/
theorem Placed.leaf (h : s.Placed U) {n : Node} (hleaf : n.isComputed = false)
    (hnodes : s'.nodes = s.nodes.push n) (hsites : s'.sites = s.sites) : s'.Placed U := by
  have hext : NodesExtend s.nodes s'.nodes := hnodes ▸ .push s.nodes n
  have hkept : ∀ site id, s.sites.find? site = some id → s'.sites.find? site = some id :=
    fun site id hid => hsites ▸ hid
  refine ⟨?_, ?_, ?_⟩
  · intro site id hid
    exact h.call_mono hext hkept (hsites ▸ hid)
  · rw [hsites]
    exact h.once
  · intro id n' op hn' hk
    rw [hnodes, Array.getElem?_push] at hn'
    rw [hsites]
    split at hn'
    · cases hn'
      simp [Node.isComputed, hk] at hleaf
    · exact h.node id n' op hn' hk

/-- Adding a mask keeps the remembered calls in place. -/
theorem withMask_placed (h : s.Placed U) {ids operands : List Nat}
    (hw : withMask op ids s = .ok operands s') : s'.Placed U := by
  rw [withMask_eq] at hw
  cases op
  case dropout rate =>
    dsimp only at hw
    split at hw
    · cases hw
      exact h.leaf rfl rfl rfl
    · cases hw
  all_goals
    cases hw
    exact h

/-- Adding the node of a new call site. -/
theorem Placed.apply (h : s.Placed U) (hext : NodesExtend s.nodes s'.nodes)
    (hsize : s'.nodes.size = s.nodes.size + 1) {site : Nat} (hfresh : s.sites.find? site = none)
    (hsites : s'.sites = s.sites.insert site s.nodes.size) {op : Op} {args : List Term} {n : Node}
    {ids : List Nat} (hU : U (.apply site op args)) (hn : s'.nodes[s.nodes.size]? = some n)
    (hk : n.kind = .op op) (hids : ids <+: n.operands.map Prod.fst) (hat : List.Forall₂ s.At args ids) :
    s'.Placed U := by
  have hfind : ∀ site', s'.sites.find? site' =
      if site = site' then some s.nodes.size else s.sites.find? site' := by
    intro site'
    rw [hsites, Table.find?_insert]
  have hkept : ∀ site' id, s.sites.find? site' = some id → s'.sites.find? site' = some id := by
    rw [hsites]
    exact (Remembers.insert hfresh s.nodes.size op args).kept
  have hold : ∀ site' id, s.sites.find? site' = some id → id < s.nodes.size := by
    intro site' id hid
    obtain ⟨_, _, _, _, _, hn', _⟩ := h.call site' id hid
    exact lt_size_of_getElem? hn'
  refine ⟨?_, ?_, ?_⟩
  · intro site' id hid
    rw [hfind] at hid
    split at hid
    · next heq =>
      subst heq
      cases hid
      exact ⟨op, args, n, ids, hU, hn, hk, hids, hat.imp fun _ _ hat => hat.mono hext hkept⟩
    · exact h.call_mono hext hkept hid
  · intro a b id ha hb
    rw [hfind] at ha hb
    split at ha
    · next hsa =>
      split at hb
      · next hsb => rw [← hsa, ← hsb]
      · cases ha
        exact absurd (hold b _ hb) (Nat.lt_irrefl _)
    · split at hb
      · cases hb
        exact absurd (hold a _ ha) (Nat.lt_irrefl _)
      · exact h.once a b id ha hb
  · intro id n' op' hn' hk'
    rcases hext.last_or_old hsize hn' with rfl | ⟨m, hm, hcore⟩
    · exact ⟨site, by rw [hfind, if_pos rfl]⟩
    · obtain ⟨site', hsite'⟩ := h.node id m op' hm ((Node.kind_of_core hcore).symm.trans hk')
      exact ⟨site', hkept site' id hsite'⟩

/-- A call on nodes that were given out for its arguments. -/
theorem Placed.of_call {s₁ s₂ : Lowering} {ids operands sites : List Nat} {id : Nat} (h : s.Placed U)
    (ht : U (.apply site op args)) (hnew : s.sites.find? site = none)
    (hat : List.Forall₂ s.At args ids) (hmask : withMask op ids s = .ok operands s₁)
    (hprepared : Prepared U sites site op ids s operands s₁)
    (hadded : Added U (sitesAfter sites site op) op operands s₁ id s₂) :
    Placed U { s₂ with sites := s₂.sites.insert site id } := by
  obtain ⟨n, hn, hk, hfst⟩ := hadded.node
  obtain rfl := hadded.id_eq
  have hats : List.Forall₂ s₁.At args ids := hat.imp fun _ _ hat =>
    hat.mono hprepared.continues.nodes fun _ _ hid => hprepared.sites_eq ▸ hid
  refine (withMask_placed h hmask).apply hadded.continues.nodes hadded.size_eq
    (by rw [hprepared.sites_eq]; exact hnew) (by rw [hadded.sites_eq]) ht hn hk ?_ hats
  rw [hfst]
  exact hprepared.operandsOf.initial

/-- A call site that is being lowered has not been met in its own arguments: those are smaller terms. -/
theorem Remembers.fresh (h : Remembers s.sites s'.sites (Term.allSubterms args)) (hU : Term.Universe U)
    (ht : U (.apply site op args)) (hnone : s.sites.find? site = none) :
    s'.sites.find? site = none := by
  by_contra hfound
  obtain ⟨op', args', hmem⟩ := h.met site hnone hfound
  obtain ⟨-, rfl⟩ := hU.shared _ _ _ _ _ ht (hU.args _ _ _ ht _ hmem)
  have hsize := Term.sizeOf_lt_of_mem_allSubterms args hmem
  rw [Term.apply.sizeOf_spec] at hsize
  omega

mutual

/-- Lowering a term gives out its node. -/
theorem lower_placed (hU : Term.Universe U) (t : Term) (ht : U t) (s : Lowering) (sites : List Nat)
    (h : s.Inv U sites) (hnoted : s.Noted sites) (hplaced : s.Placed U) {id : Nat} {s' : Lowering}
    (hl : lower t s = .ok id s') : s'.Placed U ∧ s'.At t id ∧ Remembers s.sites s'.sites t.subterms := by
  match t with
  | .constant value =>
    rw [lower, push_eq] at hl
    cases hl
    exact ⟨hplaced.leaf rfl rfl rfl, ⟨_, Array.getElem?_push_size, rfl⟩, .refl _ _⟩
  | .tensor t =>
    have hends := lowerTensor_ends t s
    rw [lower] at hl
    rw [hl] at hends
    cases hends with
    | remembered hid => exact ⟨hplaced, by simpa [Term.LoweredTo, At] using h.leaf t _ hid, .refl _ _⟩
    | added hd hnew =>
      exact ⟨hplaced.leaf rfl rfl rfl, ⟨_, Array.getElem?_push_size, rfl⟩, .refl _ _⟩
  | .apply site op args =>
    have hends := lower_apply_ends site op args s
    rw [hl] at hends
    cases hends with
    | remembered hid => exact ⟨hplaced, hid, .refl _ _⟩
    | @added ids operands _ s₁ s₂ s₃ hnew hargs hmask hadd =>
      have hall := lowerAll_spec hU args (hU.args _ _ _ ht) s sites h hnoted
      rw [hargs] at hall
      obtain ⟨hlow, hids⟩ := hall
      obtain ⟨hplaced₁, hat, hremembers⟩ :=
        lowerAll_placed hU args (hU.args _ _ _ ht) s sites h hnoted hplaced hargs
      have hprepared := call_prepared hU hlow.inv (not_mem_noting_of_apply hU hnoted ht hnew) ht hids hmask
      have hadded := hprepared.added hadd
      have hfresh := hremembers.fresh hU ht hnew
      refine ⟨hplaced₁.of_call ht hfresh hat hmask hprepared hadded, ?_, ?_⟩
      · show (s₃.sites.insert site id).find? site = some id
        rw [Table.find?_insert, if_pos rfl]
      · show Remembers s.sites (s₃.sites.insert site id) _
        rw [Term.subterms, hadded.sites_eq, hprepared.sites_eq]
        exact hremembers.append (.insert hfresh id op args)

/-- Lowering terms keeps the remembered calls in place, puts every term at its node, and remembers
exactly the new calls. -/
theorem lowerAll_placed (hU : Term.Universe U) (ts : List Term) (hts : ∀ u ∈ Term.allSubterms ts, U u)
    (s : Lowering) (sites : List Nat) (h : s.Inv U sites) (hnoted : s.Noted sites)
    (hplaced : s.Placed U) {ids : List Nat} {s' : Lowering} (hl : lowerAll ts s = .ok ids s') :
    s'.Placed U ∧ List.Forall₂ s'.At ts ids ∧ Remembers s.sites s'.sites (Term.allSubterms ts) := by
  match ts with
  | [] =>
    cases hl
    exact ⟨hplaced, .nil, .refl _ _⟩
  | t :: rest =>
    rw [Term.allSubterms] at hts ⊢
    have hU' : U t := hts t (List.mem_append_left _ t.mem_subterms_self)
    have hrestU : ∀ u ∈ Term.allSubterms rest, U u := fun u hu => hts u (List.mem_append_right _ hu)
    have hends := lowerAll_cons_ends t rest s
    rw [hl] at hends
    cases hends with
    | added ht hrest =>
      have hlow := lower_spec hU t hU' s sites h hnoted
      rw [ht] at hlow
      obtain ⟨hlow, -⟩ := hlow
      have hlow' := lowerAll_spec hU rest hrestU _ _ hlow.inv hlow.noted
      rw [hrest] at hlow'
      obtain ⟨hplaced₁, hat, hremembers⟩ := lower_placed hU t hU' s sites h hnoted hplaced ht
      obtain ⟨hplaced₂, hats, hremembers₂⟩ :=
        lowerAll_placed hU rest hrestU _ _ hlow.inv hlow.noted hplaced₁ hrest
      exact ⟨hplaced₂, .cons (hat.mono hlow'.1.continues.nodes hremembers₂.kept) hats,
        hremembers.append hremembers₂⟩

end

/-! ## Subterms and roots -/

/-- The node of a call, with the nodes of its arguments. -/
theorem Placed.node_of_call (h : s.Placed U) (hU : Term.Universe U) (ht : U (.apply site op args))
    {id : Nat} (hid : s.At (.apply site op args) id) : ∃ n ids, s.nodes[id]? = some n ∧ n.kind = .op op ∧
      ids <+: n.operands.map Prod.fst ∧ List.Forall₂ s.At args ids := by
  obtain ⟨op', args', n, ids, hU', hn, hk, hids, hat⟩ := h.call site id hid
  obtain ⟨rfl, rfl⟩ := hU.shared _ _ _ _ _ ht hU'
  exact ⟨n, ids, hn, hk, hids, hat⟩

mutual

/-- The subterms of a term that has a node have nodes. -/
theorem Placed.subterm (h : s.Placed U) (hU : Term.Universe U) {u : Term} (t : Term) (ht : U t)
    {id : Nat} (hid : s.At t id) (hu : u ∈ t.subterms) : ∃ id', s.At u id' := by
  match t with
  | .constant value =>
    rw [Term.subterms, List.mem_singleton] at hu
    exact ⟨id, hu ▸ hid⟩
  | .tensor t =>
    rw [Term.subterms, List.mem_singleton] at hu
    exact ⟨id, hu ▸ hid⟩
  | .apply site op args =>
    rw [Term.subterms, List.mem_append, List.mem_singleton] at hu
    rcases hu with hu | rfl
    · obtain ⟨n, ids, -, -, -, hat⟩ := h.node_of_call hU ht hid
      exact h.subterm_of_all hU args (hU.args _ _ _ ht) hat hu
    · exact ⟨id, hid⟩

/-- If terms are in place, so are the terms inside of them. -/
theorem Placed.subterm_of_all (h : s.Placed U) (hU : Term.Universe U) {u : Term} (ts : List Term)
    (hts : ∀ v ∈ Term.allSubterms ts, U v) {ids : List Nat} (hids : List.Forall₂ s.At ts ids)
    (hu : u ∈ Term.allSubterms ts) : ∃ id', s.At u id' := by
  match ts with
  | [] => cases hu
  | t :: rest =>
    rw [Term.allSubterms] at hts hu
    cases hids with
    | cons hid hids =>
      rcases List.mem_append.1 hu with hu | hu
      · exact h.subterm hU t (hts t (List.mem_append_left _ t.mem_subterms_self)) hid hu
      · exact h.subterm_of_all hU rest (fun v hv => hts v (List.mem_append_right _ hv)) hids hu

end

/-- A root that is a call is given out as it is. -/
theorem lowerRoot_placed {signature : Signature} {shape : Shape} {id : Nat}
    (hroot : (Term.apply site op args).Built)
    (hl : lowerRoot (.apply site op args) shape (.start signature) = .ok id s) :
    s.Placed (· ∈ (Term.apply site op args).subterms) ∧ s.At (.apply site op args) id := by
  have hself := (Term.apply site op args).mem_subterms_self
  have hnoted : (start signature).Noted [] := fun _ hx => by cases hx
  rw [lowerRoot_eq] at hl
  cases hlower : lower (.apply site op args) (.start signature) with
  | error e s₁ =>
    rw [hlower] at hl
    cases hl
  | ok base s₁ =>
    obtain ⟨hplaced, hat, -⟩ := lower_placed hroot.universe _ hself (.start signature) []
      (start_inv _ signature) hnoted (start_placed _ signature) hlower
    obtain ⟨n, -, hn, hk, -⟩ := hplaced.node_of_call hroot.universe hself hat
    have hcomp : (s₁.node base).isComputed = true := by
      simp [node_eq, Node.isComputed, nodeAt_of_getElem? hn, hk]
    simp only [hlower, hcomp, if_true] at hl
    split at hl
    · cases hl
    · split at hl
      · cases hl
      · cases hl
        exact ⟨hplaced, hat⟩

end Lowering

end TensorKernels
