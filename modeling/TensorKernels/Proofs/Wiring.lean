import TensorKernels.Plan.Compile
import TensorKernels.Proofs.BackwardKernel
import TensorKernels.Proofs.Dataflow

/-!
# Wiring

The kernels of a sound layout can be wired into a plan: every check of a compilation passes
(`Layout.Sound.plan_ok`), and the copies supply every kernel with what it reads. A value is read from
the kernel of its context, which stands earlier; a partial buffer is read from the backward kernel that
wrote it, and contexts are taken in reverse order there.
-/

set_option autoImplicit false

namespace TensorKernels

/-- Steps that all succeed, one after the other. -/
theorem mapM_eq_ok {ε β γ : Type} {f : β → Except ε γ} {g : β → γ} {l : List β}
    (h : ∀ x ∈ l, f x = .ok (g x)) : l.mapM f = .ok (l.map g) := by
  induction l with
  | nil => rfl
  | cons x l ih =>
    rw [List.mapM_cons, h x (by simp), ih fun y hy => h y (by simp [hy])]
    rfl

/-- Checks that all pass, one after the other. -/
theorem forM_eq_ok {ε β : Type} {f : β → Except ε PUnit} {l : List β} (h : ∀ x ∈ l, f x = .ok ⟨⟩) :
    l.forM f = .ok ⟨⟩ := by
  induction l with
  | nil => rfl
  | cons x l ih =>
    show (f x >>= fun _ => l.forM f) = _
    rw [h x (by simp)]
    exact ih fun y hy => h y (by simp [hy])

namespace Plan

/-- Kernels in an order in which every owned input has an earlier writer of the same length. -/
structure Connected (kernels : List Kernel) : Prop where
  owns : ∀ k ∈ kernels, ∀ b ∈ k.outputs.entries, b.source = .ownBuffer
  apart : ∀ k ∈ kernels, ∀ b ∈ k.inputs.entries, ∀ b' ∈ k.outputs.entries, b.name ≠ b'.name
  supplied : ∀ before k after, kernels = before ++ k :: after → ∀ b ∈ ownedInputs k,
    ∃ k' ∈ before, outputName b.name ∈ k'.outputs.names
  len : ∀ k ∈ kernels, ∀ b ∈ ownedInputs k, ∀ k' ∈ kernels, ∀ b' ∈ k'.outputs.entries,
    b'.name = outputName b.name → b'.len = b.len

/-- There is a last writer where there is any. -/
theorem lastWriter_spec {kernels : List Kernel} {name : String}
    (h : ∃ k ∈ kernels, name ∈ k.outputs.names) :
    ∃ i k, lastWriter kernels name = some i ∧ kernels[i]? = some k ∧ name ∈ k.outputs.names := by
  obtain ⟨k, hk, hname⟩ := h
  unfold lastWriter
  cases hfind : kernels.reverse.findIdx? fun k => k.outputs.contains name with
  | none =>
    rw [List.findIdx?_eq_none_iff] at hfind
    have := hfind k (List.mem_reverse.2 hk)
    rw [(Bindings.contains_iff _ _).2 hname] at this
    cases this
  | some j =>
    obtain ⟨hj, hwrites, -⟩ := List.findIdx?_eq_some_iff_getElem.1 hfind
    rw [List.length_reverse] at hj
    rw [List.getElem_reverse] at hwrites
    have hlt : kernels.length - 1 - j < kernels.length := by omega
    exact ⟨kernels.length - 1 - j, kernels[kernels.length - 1 - j], rfl, List.getElem?_eq_getElem hlt,
      (Bindings.contains_iff _ _).1 hwrites⟩

/-- In connected kernels, every owned input of a kernel has a copy that fills it. -/
theorem copiesFor_ok {kernels before after : List Kernel} {k : Kernel} (h : Connected kernels)
    (hsplit : kernels = before ++ k :: after) :
    ∃ cs, copiesFor before k = .ok cs ∧
      List.Forall₂ (Supplies kernels before.length) (ownedInputs k) cs := by
  have hgen : ∀ bs ⊆ ownedInputs k, ∃ cs, bs.mapM (copyFor before k) = .ok cs ∧
      List.Forall₂ (Supplies kernels before.length) bs cs := by
    intro bs
    induction bs with
    | nil => exact fun _ => ⟨[], rfl, .nil⟩
    | cons b bs ih =>
      intro hbs
      have hb : b ∈ ownedInputs k := hbs (by simp)
      obtain ⟨cs, hcs, hrest⟩ := ih fun x hx => hbs (by simp [hx])
      obtain ⟨i, k', hwriter, hk', hname⟩ := lastWriter_spec (h.supplied before k after hsplit b hb)
      obtain ⟨b', hb', hname'⟩ := List.mem_map.1 hname
      have hi : i < before.length := (List.getElem?_eq_some_iff.1 hk').1
      have hk'' : kernels[i]? = some k' := by
        rw [hsplit, List.getElem?_append_left hi]
        exact hk'
      refine ⟨⟨i, outputName b.name, b.name, b.len⟩ :: cs, ?_, .cons ⟨rfl, rfl, rfl, hi, ?_⟩ hrest⟩
      · rw [List.mapM_cons, hcs, copyFor, hwriter]
        rfl
      · refine ⟨k', hk'', b', hb', hname', ?_⟩
        exact h.len k (by simp [hsplit]) b hb k' (List.mem_of_getElem? hk'') b' hb' hname'
  exact hgen _ (List.Subset.refl _)

/-- In connected kernels, every kernel has its copies. -/
theorem allCopies_ok {kernels : List Kernel} (h : Connected kernels) (before after : List Kernel)
    (hsplit : kernels = before ++ after) :
    ∃ css, allCopies before after = .ok css ∧ ∀ i k, after[i]? = some k →
      ∃ cs, css[i]? = some cs ∧
        List.Forall₂ (Supplies kernels (before.length + i)) (ownedInputs k) cs := by
  induction after generalizing before with
  | nil => exact ⟨[], rfl, by simp⟩
  | cons k after ih =>
    obtain ⟨cs, hcs, hsupplies⟩ := copiesFor_ok h hsplit
    obtain ⟨css, hcss, hrest⟩ := ih (before ++ [k]) (by rw [hsplit, List.append_assoc]; rfl)
    refine ⟨cs :: css, ?_, ?_⟩
    · rw [allCopies, hcs, hcss]
      rfl
    · intro i k' hk'
      cases i with
      | zero =>
        cases hk'
        exact ⟨cs, rfl, hsupplies⟩
      | succ i =>
        obtain ⟨cs', hcs', hs⟩ := hrest i k' hk'
        refine ⟨cs', hcs', ?_⟩
        rw [List.length_append, List.length_singleton] at hs
        rwa [show before.length + (i + 1) = before.length + 1 + i by omega]

/-- A buffer is written by one of the kernels. -/
def IsWritten (kernels : List Kernel) (r : BufferRef) : Prop :=
  ∃ k, kernels[r.kernel]? = some k ∧ r.name ∈ k.outputs.names

/-- A buffer that a kernel writes passes the check. -/
theorem checkWritten_eq_ok {kernels : List Kernel} {r : BufferRef} (h : IsWritten kernels r) :
    checkWritten kernels r = .ok () := by
  obtain ⟨k, hk, hname⟩ := h
  unfold checkWritten
  rw [hk]
  exact if_pos ((Bindings.contains_iff _ _).2 hname)

/-- Connected kernels are wired without an error. -/
theorem wire_ok {kernels : List Kernel} (h : Connected kernels) {count : Nat}
    (hcount : count ≤ kernels.length) {output : BufferRef} (houtput : IsWritten kernels output)
    (hposition : output.kernel < count) {partials : List ParameterPartial}
    (hpartials : ∀ e ∈ partials, IsWritten kernels e.buffer) :
    ∃ p, wire kernels count output partials = .ok p ∧ p.Wired ∧ p.kernels = kernels ∧
      p.forwardCount = count ∧ p.output = output ∧ p.partials = partials := by
  obtain ⟨css, hcss, hcopies⟩ := allCopies_ok h [] kernels rfl
  have hforM : partials.forM (fun e => checkWritten kernels e.buffer) = .ok () :=
    forM_eq_ok fun e he => checkWritten_eq_ok (hpartials e he)
  have hforM' : forM partials (fun e => checkWritten kernels e.buffer) = .ok () := hforM
  refine ⟨⟨kernels, css, count, output, partials⟩, ?_, ?_, rfl, rfl, rfl, rfl⟩
  · simp [wire, hcss, checkWritten_eq_ok houtput, hforM', bind, Except.bind]
  · have hwrites : ∀ {r : BufferRef}, IsWritten kernels r →
        ∃ len, Writes ⟨kernels, css, count, output, partials⟩ r len := by
      rintro r ⟨k, hk, hname⟩
      obtain ⟨b, hb, hname'⟩ := List.mem_map.1 hname
      exact ⟨b.len, k, hk, b, hb, hname', rfl⟩
    refine ⟨hcount, h.owns, h.apart, ?_, ⟨hposition, hwrites houtput⟩, fun e he => hwrites (hpartials e he)⟩
    intro i k hk
    obtain ⟨cs, hcs, hs⟩ := hcopies i k hk
    rw [List.length_nil, Nat.zero_add] at hs
    exact ⟨cs, hcs, hs⟩

end Plan

/-! ## The order of contexts -/

/-- The last position of a number that does not occur again. -/
theorem lastPosition_eq {before after : List Nat} {c : Nat} (h : c ∉ after) :
    Partition.lastPosition (before ++ c :: after) c = some before.length := by
  have hnone : after.reverse.findIdx? (fun x => decide (x = c)) = none := by
    rw [List.findIdx?_eq_none_iff]
    intro x hx
    rw [decide_eq_false_iff_not]
    rintro rfl
    exact h (List.mem_reverse.1 hx)
  have hfind : (before ++ c :: after).reverse.findIdx? (fun x => decide (x = c)) = some after.length := by
    rw [List.reverse_append, List.reverse_cons, List.append_assoc, List.findIdx?_append, hnone]
    simp [List.findIdx?_cons]
  unfold Partition.lastPosition
  rw [hfind, Option.map_some]
  simp

namespace Layout

variable {l : Layout} {masks : Array MaskSite}

/-- No context reads from a later one. -/
theorem Sound.readsLater_eq_false (h : l.Sound masks) {c id o : Nat} {a : Access}
    (hid : l.home id = some c) (ho : (o, a) ∈ (l.node id).operands) :
    Partition.readsLater l.order c (l.home o) = false := by
  obtain ⟨before, after, horder⟩ := List.append_of_mem ((h.mem_order c).2 ⟨id, hid⟩)
  have hnodup := h.order_nodup
  rw [horder] at hnodup
  have hafter : c ∉ after := by
    rw [List.nodup_append, List.nodup_cons] at hnodup
    exact hnodup.2.1.1
  have hc : Partition.lastPosition l.order c = some before.length := by
    rw [horder, lastPosition_eq hafter]
  unfold Partition.readsLater
  cases hhome : l.home o with
  | none => rfl
  | some c' =>
    rw [Option.bind_some, hc]
    rcases h.edge id c o a c' hid ho hhome with ⟨rfl, -⟩ | ⟨hne, hbefore⟩
    · rw [hc]
      simp
    · obtain ⟨b₁, b₂, hb⟩ := List.append_of_mem (hbefore before after horder)
      have hsplit : l.order = b₁ ++ c' :: (b₂ ++ c :: after) := by
        rw [horder, hb]
        simp
      have hnot : c' ∉ b₂ ++ c :: after := by
        have := h.order_nodup
        rw [hsplit, List.nodup_append, List.nodup_cons] at this
        exact this.2.1.1
      have hlt : b₁.length < before.length := by
        rw [hb, List.length_append, List.length_cons]
        omega
      have hc' : Partition.lastPosition l.order c' = some b₁.length := by
        rw [hsplit, lastPosition_eq hnot]
      rw [hc']
      simp
      omega

/-- The order of a sound layout passes its check. -/
theorem Sound.verifyOrder_ok (h : l.Sound masks) :
    l.placement.partition.verifyOrder l.nodes l.placement.home l.order = .ok () := by
  unfold Partition.verifyOrder
  refine forM_eq_ok ?_
  intro c hc
  obtain ⟨id, hid⟩ := (h.mem_order c).1 hc
  have hmem := (h.mem_members c id).2 hid
  cases hctx : l.placement.partition.contexts[c]? with
  | none =>
    have : l.context? c = none := hctx
    simp [members, this] at hmem
  | some ctx =>
    have hctx' : l.context? c = some ctx := hctx
    refine forM_eq_ok (l := ctx.nodes) ?_
    intro x hx
    have hhome : l.home x = some c := by
      refine (h.mem_members c x).1 ?_
      simp only [members, hctx', Option.elim_some, List.mem_mergeSort]
      exact hx
    have hlt := (h.home_lt x c hhome).1
    rw [getElem?_nodeAt hlt]
    refine forM_eq_ok (l := (l.node x).operands) ?_
    rintro ⟨o, a⟩ ho
    have holt : o < l.placement.home.size := by
      rw [h.home_size]
      exact Nat.lt_trans (h.operand_lt hlt ho) hlt
    have hproducer : l.placement.home[o]? = some (l.home o) := by
      rw [Array.getElem?_eq_getElem holt]
      simp [home, homeOf, Array.getD, holt]
    have hlater := h.readsLater_eq_false hhome ho
    simp [hproducer, hlater, bind, Except.bind, pure, Except.pure]

/-- The context of the root has a position in the order. -/
theorem Sound.rootPosition_ok (h : l.Sound masks) :
    ∃ i c, l.rootPosition = .ok i ∧ l.order[i]? = some c ∧ l.home l.root = some c := by
  obtain ⟨c, hc⟩ := h.placed l.root h.root_lt h.root_computed
  have hmem := (h.mem_order c).2 ⟨l.root, hc⟩
  unfold rootPosition
  rw [hc]
  dsimp only
  cases hfind : l.order.findIdx? (fun x => decide (x = c)) with
  | none =>
    rw [List.findIdx?_eq_none_iff] at hfind
    have := hfind c hmem
    simp at this
  | some i =>
    obtain ⟨hi, heq, -⟩ := List.findIdx?_eq_some_iff_getElem.1 hfind
    rw [decide_eq_true_eq] at heq
    exact ⟨i, c, rfl, by rw [List.getElem?_eq_getElem hi, heq], rfl⟩

/-! ## The backward pass -/

/-- The partial buffers that a part of the backward pass writes. -/
def passPartials (es : List (Nat × Option BackwardKernel)) : List PartialBuffer :=
  es.flatMap fun e => e.2.elim [] BackwardKernel.partials

/-- The partial buffers of a backward pass are those of its kernels. -/
theorem mem_passPartials {es : List (Nat × Option BackwardKernel)} {p : PartialBuffer} :
    p ∈ passPartials es ↔ ∃ c b, (c, some b) ∈ es ∧ p ∈ b.partials := by
  unfold passPartials
  rw [List.mem_flatMap]
  constructor
  · rintro ⟨⟨c, ob⟩, he, hp⟩
    cases ob with
    | none => cases hp
    | some b => exact ⟨c, b, he, hp⟩
  · rintro ⟨c, b, he, hp⟩
    exact ⟨(c, some b), he, hp⟩

/-- A part of a backward pass has a part of its partial buffers. -/
theorem passPartials_subset {es es' : List (Nat × Option BackwardKernel)} (h : es ⊆ es') :
    passPartials es ⊆ passPartials es' := by
  intro p hp
  obtain ⟨c, b, hb, hpb⟩ := mem_passPartials.1 hp
  exact mem_passPartials.2 ⟨c, b, h hb, hpb⟩

/-- A backward pass visits the contexts in the given order. -/
theorem map_fst_backwardPass (l : Layout) (partials : List PartialBuffer) (contexts : List Nat) :
    (l.backwardPass partials contexts).map Prod.fst = contexts := by
  induction contexts generalizing partials with
  | nil => rfl
  | cons c contexts ih => rw [backwardPass, List.map_cons, ih]

/-- The backward pass goes through the contexts from the last to the first. -/
theorem map_fst_backwardKernels (l : Layout) : l.backwardKernels.map Prod.fst = l.order.reverse :=
  map_fst_backwardPass l [] l.order.reverse

/-- What the backward pass visited before a context stands after it in the order. -/
theorem order_eq_of_split {es₁ es₂ : List (Nat × Option BackwardKernel)} {c : Nat}
    {ob : Option BackwardKernel} (h : l.backwardKernels = es₁ ++ (c, ob) :: es₂) :
    l.order = (es₂.map Prod.fst).reverse ++ c :: (es₁.map Prod.fst).reverse := by
  have hfst := map_fst_backwardKernels l
  rw [h, List.map_append, List.map_cons] at hfst
  rw [← List.reverse_reverse l.order, ← hfst]
  simp

/-- A context comes once in the backward pass. -/
theorem Sound.nodup_backwardKernels (h : l.Sound masks) : (l.backwardKernels.map Prod.fst).Nodup := by
  rw [map_fst_backwardKernels]
  exact List.nodup_reverse.2 h.order_nodup

/-- A backward kernel knows the partial buffers of those before it. -/
theorem backwardPass_split {partials : List PartialBuffer} {contexts : List Nat}
    {es₁ es₂ : List (Nat × Option BackwardKernel)} {c : Nat} {ob : Option BackwardKernel}
    (h : l.backwardPass partials contexts = es₁ ++ (c, ob) :: es₂) :
    ob = l.backwardKernel (partials ++ passPartials es₁) c := by
  induction contexts generalizing partials es₁ with
  | nil => simp [backwardPass] at h
  | cons c' contexts ih =>
    rw [backwardPass] at h
    cases es₁ with
    | nil =>
      simp only [List.nil_append, List.cons.injEq, Prod.mk.injEq] at h
      obtain ⟨⟨rfl, rfl⟩, -⟩ := h
      simp [passPartials]
    | cons e es₁ =>
      rw [List.cons_append, List.cons.injEq] at h
      obtain ⟨rfl, h⟩ := h
      rw [ih h, List.append_assoc]
      rfl

/-- A backward kernel is generated from partial buffers of the same pass. -/
theorem exists_backwardKernel {c : Nat} {b : BackwardKernel} (hb : (c, some b) ∈ l.backwardKernels) :
    ∃ partials ⊆ passPartials l.backwardKernels, l.backwardKernel partials c = some b := by
  obtain ⟨es₁, es₂, hsplit⟩ := List.append_of_mem hb
  refine ⟨passPartials es₁, passPartials_subset ?_, (backwardPass_split hsplit).symm⟩
  rw [hsplit]
  exact List.subset_append_left _ _

/-- A backward kernel is well formed, given the partial buffers written before it. -/
theorem Sound.backward_ok (h : l.Sound masks) {es₁ es₂ : List (Nat × Option BackwardKernel)} {c : Nat}
    {b : BackwardKernel} (hsplit : l.backwardKernels = es₁ ++ (c, some b) :: es₂) :
    l.BackwardOk (passPartials es₁) c b := by
  have hkernel := backwardPass_split (l := l) hsplit
  rw [List.nil_append] at hkernel
  exact h.backwardKernel_ok hkernel.symm

/-- Every backward kernel is well formed. -/
theorem Sound.backward_ok_of_mem (h : l.Sound masks) {c : Nat} {b : BackwardKernel}
    (hb : (c, some b) ∈ l.backwardKernels) : ∃ partials, l.BackwardOk partials c b := by
  obtain ⟨es₁, es₂, hsplit⟩ := List.append_of_mem hb
  exact ⟨_, h.backward_ok hsplit⟩

/-- A context has one backward kernel. -/
theorem Sound.backward_unique (h : l.Sound masks) {c : Nat} {ob ob' : Option BackwardKernel}
    (hb : (c, ob) ∈ l.backwardKernels) (hb' : (c, ob') ∈ l.backwardKernels) : ob = ob' :=
  congrArg Prod.snd (List.inj_on_of_nodup_map h.nodup_backwardKernels hb hb' rfl)

/-- The name of a partial buffer tells the kernel that writes it. -/
theorem Sound.kernel_unique (h : l.Sound masks) {c c' : Nat} {b b' : BackwardKernel} {p p' : PartialBuffer}
    (hb : (c, some b) ∈ l.backwardKernels) (hp : p ∈ b.partials) (hb' : (c', some b') ∈ l.backwardKernels)
    (hp' : p' ∈ b'.partials) (hname : p.name = p'.name) : c = c' ∧ b = b' := by
  obtain ⟨_, hok⟩ := h.backward_ok_of_mem hb
  obtain ⟨_, hok'⟩ := h.backward_ok_of_mem hb'
  obtain ⟨-, base, k, hk⟩ := hok.named p hp
  obtain ⟨-, base', k', hk'⟩ := hok'.named p' hp'
  obtain rfl : c = c' := PartialBuffer.candidate_context (by rw [← hk, ← hk', hname])
  exact ⟨rfl, Option.some.inj (h.backward_unique hb hb')⟩

/-- A partial buffer is determined by its name. -/
theorem Sound.partial_unique (h : l.Sound masks) {p p' : PartialBuffer}
    (hp : p ∈ passPartials l.backwardKernels) (hp' : p' ∈ passPartials l.backwardKernels)
    (hname : p.name = p'.name) : p = p' := by
  obtain ⟨c, b, hb, hpb⟩ := mem_passPartials.1 hp
  obtain ⟨c', b', hb', hpb'⟩ := mem_passPartials.1 hp'
  -- the name tells the kernel, and in one kernel no name is used twice
  obtain ⟨rfl, rfl⟩ := h.kernel_unique hb hpb hb' hpb' hname
  obtain ⟨_, hok⟩ := h.backward_ok_of_mem hb
  have hnodup := b.kernel.outputs.nodup
  rw [hok.outputs, List.map_map] at hnodup
  exact List.inj_on_of_nodup_map hnodup hpb hpb' (congrArg outputName hname)

/-! ## The kernels of a layout -/

/-- The backward kernels that are there. -/
def backwardList (l : Layout) : List BackwardKernel := l.backwardKernels.filterMap Prod.snd

/-- The list of backward kernels has those of all contexts. -/
theorem mem_backwardList {b : BackwardKernel} :
    b ∈ l.backwardList ↔ ∃ c, (c, some b) ∈ l.backwardKernels := by
  unfold backwardList
  rw [List.mem_filterMap]
  constructor
  · rintro ⟨⟨c, ob⟩, he, hob⟩
    cases hob
    exact ⟨c, he⟩
  · rintro ⟨c, he⟩
    exact ⟨(c, some b), he, rfl⟩

/-- The kernels of a plan: forward kernels in order, then backward kernels. -/
def kernelList (l : Layout) : List Kernel :=
  (l.order.map fun c => (l.forwardKernel c).trimmed) ++ l.backwardList.map fun b => b.kernel.trimmed

/-- All kernels of a sound layout pass their check. -/
theorem Sound.kernels_ok (h : l.Sound masks) : l.kernels = .ok l.kernelList := by
  have hbackward : (l.backwardKernels.filterMap Prod.snd).mapM (fun b => b.kernel.checked) =
      .ok (l.backwardList.map fun b => b.kernel.trimmed) := by
    refine mapM_eq_ok ?_
    intro b hb
    obtain ⟨c, hc⟩ := mem_backwardList.1 hb
    obtain ⟨_, hok⟩ := h.backward_ok_of_mem hc
    exact Kernel.checked_eq_ok hok.typed.loads hok.typed.stores
  have hforward : l.order.mapM (fun c => (l.forwardKernel c).checked) =
      .ok (l.order.map fun c => (l.forwardKernel c).trimmed) :=
    mapM_eq_ok fun c _ => h.forward_checked c
  unfold kernels
  rw [hbackward, hforward]
  rfl

/-- An output of a kernel is an export or a partial buffer. -/
theorem Sound.kernelList_outputs (h : l.Sound masks) {k : Kernel} (hk : k ∈ l.kernelList) {b : Binding}
    (hb : b ∈ k.outputs.entries) :
    (∃ id, b = l.exportBinding id) ∨ ∃ p ∈ passPartials l.backwardKernels, b = p.outputBinding := by
  rcases List.mem_append.1 hk with hk | hk
  · obtain ⟨c, -, rfl⟩ := List.mem_map.1 hk
    obtain ⟨id, -, rfl⟩ := forward_outputs (Kernel.mem_trimmed_outputs.1 hb).1
    exact .inl ⟨id, rfl⟩
  · obtain ⟨bk, hbk, rfl⟩ := List.mem_map.1 hk
    obtain ⟨c, hc⟩ := mem_backwardList.1 hbk
    obtain ⟨_, hok⟩ := h.backward_ok_of_mem hc
    have hb' := (Kernel.mem_trimmed_outputs.1 hb).1
    rw [hok.outputs] at hb'
    obtain ⟨p, hp, rfl⟩ := List.mem_map.1 hb'
    exact .inr ⟨p, mem_passPartials.2 ⟨c, bk, hc, hp⟩, rfl⟩

/-- An input of a kernel is the binding of a node or a partial buffer. -/
theorem Sound.kernelList_inputs (h : l.Sound masks) {k : Kernel} (hk : k ∈ l.kernelList) {b : Binding}
    (hb : b ∈ k.inputs.entries) :
    l.HandedOut b ∨ ∃ p ∈ passPartials l.backwardKernels, b = p.binding := by
  rcases List.mem_append.1 hk with hk | hk
  · obtain ⟨c, -, rfl⟩ := List.mem_map.1 hk
    obtain ⟨id, o, a, hid, ho, hne, hbind⟩ := h.forward_inputs (Kernel.mem_trimmed_inputs.1 hb).1
    have hlt := (h.home_lt id c hid).1
    refine .inl ⟨o, Nat.lt_trans (h.operand_lt hlt ho) hlt, hbind, ?_⟩
    intro c' hc'
    exact h.mem_exports_of_read hid ho hc' fun heq => hne (heq ▸ hc')
  · obtain ⟨bk, hbk, rfl⟩ := List.mem_map.1 hk
    obtain ⟨c, hc⟩ := mem_backwardList.1 hbk
    obtain ⟨partials, hsub, hkernel⟩ := exists_backwardKernel hc
    rcases (h.backwardKernel_ok hkernel).inputs b (Kernel.mem_trimmed_inputs.1 hb).1 with
      ⟨p, hp, rfl⟩ | hout
    · exact .inr ⟨p, hsub hp, rfl⟩
    · exact .inl hout

/-- A kernel is that of a context's forward pass, of a regular context's backward pass or of a
reduction's. -/
theorem Sound.kernelList_cases (h : l.Sound masks) {k : Kernel} (hk : k ∈ l.kernelList) :
    (∃ c ∈ l.order, k = (l.forwardKernel c).trimmed) ∨
      (∃ partials c, partials ⊆ passPartials l.backwardKernels ∧ l.classOf c = .regular ∧
        (l.regularBackward partials c).partials ⊆ passPartials l.backwardKernels ∧
        k = (l.regularBackward partials c).kernel.trimmed) ∨
      ∃ partials c id op, partials ⊆ passPartials l.backwardKernels ∧ l.home id = some c ∧
        (l.node id).kind = .op op ∧ op.opClass = .reduction ∧
        (l.reductionBackward partials c id op).partials ⊆ passPartials l.backwardKernels ∧
        k = (l.reductionBackward partials c id op).kernel.trimmed := by
  rcases List.mem_append.1 hk with hk | hk
  · obtain ⟨c, hc, rfl⟩ := List.mem_map.1 hk
    exact .inl ⟨c, hc, rfl⟩
  · obtain ⟨b, hb, rfl⟩ := List.mem_map.1 hk
    obtain ⟨c, hc⟩ := mem_backwardList.1 hb
    obtain ⟨partials, hsub, hkernel⟩ := exists_backwardKernel hc
    have hown : b.partials ⊆ passPartials l.backwardKernels :=
      fun p hp => mem_passPartials.2 ⟨c, b, hc, hp⟩
    rcases h.backwardKernel_cases hkernel with ⟨hreg, rfl⟩ | ⟨id, op, hid, hop, hred, rfl⟩
    · exact .inr (.inl ⟨_, c, hsub, hreg, hown, rfl⟩)
    · exact .inr (.inr ⟨_, c, id, op, hsub, hid, hop, hred, hown, rfl⟩)

/-- The names of partial buffers are those that were tried for them. -/
theorem Sound.partial_name (h : l.Sound masks) {p : PartialBuffer}
    (hp : p ∈ passPartials l.backwardKernels) : ∃ base c k, p.name = PartialBuffer.candidate base c k := by
  obtain ⟨c, b, hb, hpb⟩ := mem_passPartials.1 hp
  obtain ⟨_, hok⟩ := h.backward_ok_of_mem hb
  obtain ⟨-, base, k, hk⟩ := hok.named p hpb
  exact ⟨base, c, k, hk⟩

/-- Names under which kernels read are never names under which they write. -/
theorem Sound.input_name_ne (h : l.Sound masks) {b : Binding}
    (hb : l.HandedOut b ∨ ∃ p ∈ passPartials l.backwardKernels, b = p.binding) (x : String)
    (hx : x.toList.head? = some 'v' ∨ x.toList.head? = some 'g') : b.name ≠ outputName x := by
  rcases hb with ⟨o, ho, hbind, -⟩ | ⟨p, hp, rfl⟩
  · have hhead : ∀ {s : String}, s.toList.head? ≠ some 'v' → s.toList.head? ≠ some 'g' →
        s ≠ outputName x := by
      rintro s hv hg rfl
      have hne : x.toList ≠ [] := by
        intro hnil
        rw [hnil] at hx
        rcases hx with hx | hx <;> cases hx
      unfold outputName at hv hg
      rw [String.toList_append, List.head?_append_of_ne_nil _ hne] at hv hg
      rcases hx with hx | hx
      · exact hv hx
      · exact hg hx
    rcases h.binding?_cases ho hbind with ⟨op, -, rfl⟩ | ⟨i, m, -, -, rfl⟩ | ⟨t, d, -, -, rfl⟩
    · exact varName_ne_outputName o x
    · exact hhead (by rw [head?_maskName]; decide) (by rw [head?_maskName]; decide)
    · rcases d.head?_bindingName with hd | hd
      · exact hhead (by rw [hd]; decide) (by rw [hd]; decide)
      · exact hhead (by rw [hd]; decide) (by rw [hd]; decide)
  · obtain ⟨base, c, k, hk⟩ := h.partial_name hp
    show p.name ≠ _
    rw [hk]
    exact PartialBuffer.candidate_ne_outputName base x c k

/-- No value has the name of a partial buffer. -/
theorem Sound.binding_name_ne_candidate (h : l.Sound masks) {id : Nat} (hid : id < l.nodes.size)
    {b : Binding} (hb : l.binding? id = some b) {p : PartialBuffer}
    (hp : p ∈ passPartials l.backwardKernels) : b.name ≠ p.name := by
  obtain ⟨base, c, k, hk⟩ := h.partial_name hp
  have hhead := PartialBuffer.head?_toList_candidate base c k
  rw [hk]
  intro heq
  rw [← heq] at hhead
  rcases h.binding?_cases hid hb with ⟨op, -, rfl⟩ | ⟨i, m, -, -, rfl⟩ | ⟨t, d, -, -, rfl⟩
  · rw [head?_varName] at hhead
    cases hhead
  · rw [head?_maskName] at hhead
    cases hhead
  · rcases d.head?_bindingName with hd | hd <;> rw [hd] at hhead <;> cases hhead

/-- A handed out value of a node that is computed is an output of the forward kernel of its context. -/
theorem Sound.exists_writer (h : l.Sound masks) {b : Binding} (hb : l.HandedOut b)
    (hown : b.source = .ownBuffer) :
    ∃ o c, o < l.nodes.size ∧ l.binding? o = some b ∧ b = ⟨Node.varName o, (l.node o).size, .ownBuffer⟩ ∧
      l.home o = some c ∧ l.exportBinding o ∈ (l.forwardKernel c).trimmed.outputs.entries := by
  obtain ⟨o, ho, hbind, hexport⟩ := hb
  rcases h.binding?_cases ho hbind with ⟨op, hk, rfl⟩ | ⟨i, m, -, -, rfl⟩ | ⟨t, d, -, -, rfl⟩
  · obtain ⟨c, hc⟩ := h.placed o ho (by simp [Node.isComputed, hk])
    exact ⟨o, c, ho, hbind, rfl, hc, mem_forward_outputs (hexport c hc)⟩
  · cases hown
  · cases hown

/-- The inputs that copies fill are those without a tensor or mask behind them. -/
theorem mem_ownedInputs {k : Kernel} {b : Binding} :
    b ∈ Plan.ownedInputs k ↔ b ∈ k.inputs.entries ∧ b.source = .ownBuffer := by
  unfold Plan.ownedInputs
  rw [List.mem_filter, decide_eq_true_eq]

/-- Where a kernel stands in the list. -/
theorem kernelList_split {before after : List Kernel} {k : Kernel}
    (h : l.kernelList = before ++ k :: after) :
    (∃ order₁ c order₂, l.order = order₁ ++ c :: order₂ ∧
        before = order₁.map (fun c => (l.forwardKernel c).trimmed) ∧ k = (l.forwardKernel c).trimmed) ∨
      ∃ es₁ c bk es₂, l.backwardKernels = es₁ ++ (c, some bk) :: es₂ ∧ k = bk.kernel.trimmed ∧
        before = (l.order.map fun c => (l.forwardKernel c).trimmed) ++
          (es₁.filterMap Prod.snd).map fun b => b.kernel.trimmed := by
  have hbackward : ∀ rest, before = (l.order.map fun c => (l.forwardKernel c).trimmed) ++ rest →
      (l.backwardList.map fun b => b.kernel.trimmed) = rest ++ k :: after →
      ∃ es₁ c bk es₂, l.backwardKernels = es₁ ++ (c, some bk) :: es₂ ∧ k = bk.kernel.trimmed ∧
        before = (l.order.map fun c => (l.forwardKernel c).trimmed) ++
          (es₁.filterMap Prod.snd).map fun b => b.kernel.trimmed := by
    intro rest hbefore hrest
    obtain ⟨bs₁, bs₂, hbs, rfl, hbs₂⟩ := List.map_eq_append_iff.1 hrest
    obtain ⟨bk, bs₃, rfl, rfl, -⟩ := List.map_eq_cons_iff.1 hbs₂
    obtain ⟨es₁, es₂, hes, rfl, hes₂⟩ := List.filterMap_eq_append_iff.1 hbs
    obtain ⟨es₃, ⟨c, ob⟩, es₄, rfl, hnone, hob, -⟩ := List.filterMap_eq_cons_iff.1 hes₂
    cases hob
    refine ⟨es₁ ++ es₃, c, bk, es₄, by rw [hes, List.append_assoc], rfl, ?_⟩
    rw [hbefore, List.filterMap_append, List.filterMap_eq_nil_iff.2 hnone, List.append_nil]
  rcases List.append_eq_append_iff.1 h with ⟨rest, hbefore, hrest⟩ | ⟨rest, hforward, hrest⟩
  · exact .inr (hbackward rest hbefore hrest)
  · cases rest with
    | nil =>
      rw [List.append_nil] at hforward
      exact .inr (hbackward [] (by rw [List.append_nil, hforward]) hrest.symm)
    | cons k' rest =>
      rw [List.cons_append, List.cons.injEq] at hrest
      obtain ⟨order₁, order', horder, rfl, horder'⟩ := List.map_eq_append_iff.1 hforward
      obtain ⟨c, order₂, rfl, hk, -⟩ := List.map_eq_cons_iff.1 horder'
      exact .inl ⟨order₁, c, order₂, horder, rfl, hrest.1.trans hk.symm⟩

/-- Everything a kernel owns has been written before it. -/
theorem Sound.kernelList_supplied (h : l.Sound masks) {before after : List Kernel} {k : Kernel}
    (hsplit : l.kernelList = before ++ k :: after) {b : Binding} (hb : b ∈ Plan.ownedInputs k) :
    ∃ k' ∈ before, outputName b.name ∈ k'.outputs.names := by
  obtain ⟨hin, hown⟩ := mem_ownedInputs.1 hb
  rcases kernelList_split hsplit with ⟨order₁, c, order₂, horder, rfl, rfl⟩ |
    ⟨es₁, c, bk, es₂, hes, rfl, rfl⟩
  · obtain ⟨id, o, a, hid, ho, hne, hbind⟩ := h.forward_inputs (Kernel.mem_trimmed_inputs.1 hin).1
    have hlt := (h.home_lt id c hid).1
    have holt := Nat.lt_trans (h.operand_lt hlt ho) hlt
    rcases h.binding?_cases holt hbind with ⟨op, hk, rfl⟩ | ⟨i, m, -, -, rfl⟩ | ⟨t, d, -, -, rfl⟩
    · -- the context of the operand stands before this one
      obtain ⟨c', hc'⟩ := h.placed o holt (by simp [Node.isComputed, hk])
      have hcc' : c' ≠ c := fun heq => hne (heq ▸ hc')
      rcases h.edge id c o a c' hid ho hc' with ⟨heq, -⟩ | ⟨-, hbefore⟩
      · exact absurd heq hcc'
      · refine ⟨_, List.mem_map.2 ⟨c', hbefore order₁ order₂ horder, rfl⟩, ?_⟩
        exact List.mem_map.2 ⟨_, mem_forward_outputs (h.mem_exports_of_read hid ho hc' hcc'), rfl⟩
    · cases hown
    · cases hown
  · rcases (h.backward_ok hes).inputs b (Kernel.mem_trimmed_inputs.1 hin).1 with ⟨p, hp, rfl⟩ | hout
    · -- a partial buffer of an earlier backward kernel
      obtain ⟨c', b', hmem, hpb⟩ := mem_passPartials.1 hp
      refine ⟨b'.kernel.trimmed, List.mem_append_right _ (List.mem_map.2 ⟨b', ?_, rfl⟩), ?_⟩
      · exact List.mem_filterMap.2 ⟨(c', some b'), hmem, rfl⟩
      · obtain ⟨_, hok⟩ := h.backward_ok_of_mem (c := c') (b := b') (by rw [hes]; simp [hmem])
        refine List.mem_map.2 ⟨p.outputBinding, Kernel.mem_trimmed_outputs.2 ⟨?_, hok.stored p hpb⟩, rfl⟩
        rw [hok.outputs]
        exact List.mem_map.2 ⟨p, hpb, rfl⟩
    · obtain ⟨o, c', -, -, rfl, hc', hwritten⟩ := h.exists_writer hout hown
      refine ⟨(l.forwardKernel c').trimmed, List.mem_append_left _ (List.mem_map.2 ⟨c', ?_, rfl⟩), ?_⟩
      · exact (h.mem_order c').2 ⟨o, hc'⟩
      · exact List.mem_map.2 ⟨_, hwritten, rfl⟩

/-- A reader and the writers of what it reads agree on the length. -/
theorem Sound.kernelList_len (h : l.Sound masks) {k k' : Kernel} (hk : k ∈ l.kernelList)
    (hk' : k' ∈ l.kernelList) {b b' : Binding} (hb : b ∈ Plan.ownedInputs k)
    (hb' : b' ∈ k'.outputs.entries) (hname : b'.name = outputName b.name) : b'.len = b.len := by
  obtain ⟨hin, hown⟩ := mem_ownedInputs.1 hb
  rcases h.kernelList_inputs hk hin with hout | ⟨p, hp, rfl⟩
  · obtain ⟨o, c, -, -, rfl, -, -⟩ := h.exists_writer hout hown
    rcases h.kernelList_outputs hk' hb' with ⟨id, rfl⟩ | ⟨p, hp, rfl⟩
    · obtain rfl := exportName_injective hname
      rfl
    · obtain ⟨base, c', j, hj⟩ := h.partial_name hp
      have := outputName_injective hname
      rw [hj] at this
      exact absurd this (PartialBuffer.candidate_ne_varName base c' j o)
  · rcases h.kernelList_outputs hk' hb' with ⟨id, rfl⟩ | ⟨p', hp', rfl⟩
    · obtain ⟨base, c', j, hj⟩ := h.partial_name hp
      have := outputName_injective hname
      rw [show p.binding.name = p.name from rfl, hj] at this
      exact absurd this.symm (PartialBuffer.candidate_ne_varName base c' j id)
    · obtain rfl := h.partial_unique hp' hp (outputName_injective hname)
      rfl

/-- The kernels of a sound layout are connected. -/
theorem Sound.connected (h : l.Sound masks) : Plan.Connected l.kernelList where
  owns k hk b hb := by
    rcases h.kernelList_outputs hk hb with ⟨id, rfl⟩ | ⟨p, -, rfl⟩
    · rfl
    · rfl
  apart k hk b hb b' hb' := by
    have hin := h.kernelList_inputs hk hb
    rcases h.kernelList_outputs hk hb' with ⟨id, rfl⟩ | ⟨p, hp, rfl⟩
    · exact h.input_name_ne hin _ (.inl (head?_varName id))
    · obtain ⟨base, c, j, hj⟩ := h.partial_name hp
      refine h.input_name_ne hin _ (.inr ?_)
      rw [hj]
      exact PartialBuffer.head?_toList_candidate base c j
  supplied _ _ _ hsplit _ hb := h.kernelList_supplied hsplit hb
  len _ hk _ hb _ hk' _ hb' hname := h.kernelList_len hk hk' hb hb' hname

/-! ## The plan of a layout -/

/-- A root is handed out by its context. -/
theorem Sound.root_mem_exports (h : l.Sound masks) {c : Nat} (hc : l.home l.root = some c) :
    l.root ∈ l.exports c := by
  refine List.mem_filter.2 ⟨(h.mem_members c l.root).2 hc, ?_⟩
  simp

/-- A backward kernel is found at the position of its context. -/
theorem getElem?_idxOf_filterMap {es : List (Nat × Option BackwardKernel)}
    (hnodup : (es.map Prod.fst).Nodup) {c : Nat} {b : BackwardKernel} (hb : (c, some b) ∈ es) :
    (es.filterMap Prod.snd)[(es.filterMap fun e => e.2.map fun _ => e.1).idxOf c]? = some b := by
  induction es with
  | nil => cases hb
  | cons e es ih =>
    obtain ⟨c', ob⟩ := e
    rw [List.map_cons, List.nodup_cons] at hnodup
    cases ob with
    | none =>
      rcases List.mem_cons.1 hb with heq | hb
      · cases heq
      · simpa using ih hnodup.2 hb
    | some b' =>
      rcases List.mem_cons.1 hb with heq | hb
      · cases heq
        simp
      · have hne : c' ≠ c := by
          rintro rfl
          exact hnodup.1 (List.mem_map.2 ⟨_, hb, rfl⟩)
        have := ih hnodup.2 hb
        simpa [List.idxOf_cons_ne _ hne] using this

/-- The position of the backward kernel of a context. -/
theorem Sound.backward_position (h : l.Sound masks) {c : Nat} {b : BackwardKernel}
    (hb : (c, some b) ∈ l.backwardKernels) :
    l.kernelList[l.order.length + l.backwardContexts.idxOf c]? = some b.kernel.trimmed := by
  have hget : l.backwardList[l.backwardContexts.idxOf c]? = some b :=
    getElem?_idxOf_filterMap h.nodup_backwardKernels hb
  unfold kernelList
  rw [List.getElem?_append_right (by simp), List.length_map, Nat.add_sub_cancel_left, List.getElem?_map,
    hget]
  rfl

/-- The host reads the partial buffers of parameters. -/
theorem mem_parameterPartials {e : ParameterPartial} :
    e ∈ l.parameterPartials ↔ ∃ p ∈ passPartials l.backwardKernels, p.owner = .parameter e.tensor ∧
      e.buffer = ⟨l.order.length + l.backwardContexts.idxOf p.context, outputName p.name⟩ ∧
      e.access = p.access := by
  unfold parameterPartials
  rw [List.mem_filterMap]
  constructor
  · rintro ⟨p, hp, hmatch⟩
    cases howner : p.owner with
    | node id =>
      rw [howner] at hmatch
      cases hmatch
    | parameter t =>
      rw [howner] at hmatch
      cases hmatch
      exact ⟨p, hp, howner, rfl, rfl⟩
  · rintro ⟨p, hp, howner, hbuffer, haccess⟩
    refine ⟨p, hp, ?_⟩
    rw [howner]
    obtain ⟨tensor, buffer, access⟩ := e
    simp only at hbuffer haccess
    rw [hbuffer, haccess]

/-- A partial buffer is an output of the backward kernel of its context. -/
theorem Sound.partial_writes (h : l.Sound masks) {p : PartialBuffer}
    (hp : p ∈ passPartials l.backwardKernels) :
    ∃ k, l.kernelList[l.order.length + l.backwardContexts.idxOf p.context]? = some k ∧
      p.outputBinding ∈ k.outputs.entries := by
  obtain ⟨c, b, hb, hpb⟩ := mem_passPartials.1 hp
  obtain ⟨_, hok⟩ := h.backward_ok_of_mem hb
  rw [(hok.named p hpb).1]
  refine ⟨_, h.backward_position hb, Kernel.mem_trimmed_outputs.2 ⟨?_, hok.stored p hpb⟩⟩
  rw [hok.outputs]
  exact List.mem_map.2 ⟨p, hpb, rfl⟩

/-- All checks of a compilation pass. -/
theorem Sound.plan_ok (h : l.Sound masks) :
    ∃ p, l.plan = .ok p ∧ p.Wired ∧ p.kernels = l.kernelList ∧ p.forwardCount = l.order.length ∧
      p.output.name = exportName l.root ∧ p.partials = l.parameterPartials := by
  obtain ⟨i, c, hposition, hi, hc⟩ := h.rootPosition_ok
  have hlt := (List.getElem?_eq_some_iff.1 hi).1
  have houtput : Plan.IsWritten l.kernelList ⟨i, exportName l.root⟩ := by
    refine ⟨(l.forwardKernel c).trimmed, ?_, ?_⟩
    · unfold kernelList
      rw [List.getElem?_append_left (by rwa [List.length_map]), List.getElem?_map, hi]
      rfl
    · exact List.mem_map.2 ⟨_, mem_forward_outputs (h.root_mem_exports hc), rfl⟩
  have hpartials : ∀ e ∈ l.parameterPartials, Plan.IsWritten l.kernelList e.buffer := by
    intro e he
    obtain ⟨p, hp, -, hbuffer, -⟩ := mem_parameterPartials.1 he
    obtain ⟨k, hk, hb⟩ := h.partial_writes hp
    rw [hbuffer]
    exact ⟨k, hk, List.mem_map.2 ⟨_, hb, rfl⟩⟩
  have hcount : l.order.length ≤ l.kernelList.length := by simp [kernelList]
  obtain ⟨p, hp, hwired, hkernels, hforward, hout, hparts⟩ :=
    Plan.wire_ok h.connected hcount houtput hlt hpartials
  refine ⟨p, ?_, hwired, hkernels, hforward, by rw [hout], hparts⟩
  unfold plan
  rw [h.verifyOrder_ok, hposition, h.kernels_ok]
  exact hp

end Layout

end TensorKernels
