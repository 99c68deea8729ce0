import Mathlib.Data.List.Sort
import TensorKernels.Proofs.Compilation
import TensorKernels.Proofs.LoweringSteps

/-!
# Resolved operands

`Partition.resolve` looks at one operand from one context. It says how the code reads the operand, notes
the buffer as an input of the context, and notes the operand as an export of the context that computes
it. A layout says the same of all contexts at once, and plans are made from layouts.

`CompiledAs.resolveAll_eq` joins the two. Resolving all operands of a compiled term, context by context,
never fails. It returns the operands of the forward kernels, and it leaves in every context the inputs
of its forward kernel, their shapes, the label of the kernel, and exactly the values that other contexts
read.

`Layout.Noted` says what a list of reads leaves behind. One read adds itself
(`Layout.Sound.resolve_noted`), and lists of reads are put together by `Layout.mapM_noted`.

`Layout.Sound.rules_answer` says the same of the operators' rules: asked for a node of a compiled term, they
answer with the code of its kernels.
-/

set_option autoImplicit false

namespace TensorKernels

/-- The members of an ascending list into which a number was inserted. -/
theorem mem_insertAscending {n y : Nat} {l : List Nat} :
    y ∈ insertAscending n l ↔ y = n ∨ y ∈ l := by
  induction l with
  | nil => simp [insertAscending]
  | cons m rest ih =>
    rw [insertAscending]
    split
    · simp
    · split
      · next heq => simp [heq]
      · rw [List.mem_cons, ih, List.mem_cons]
        exact or_left_comm

/-- Inserting keeps a list ascending and without repetition. -/
theorem pairwise_insertAscending (n : Nat) {l : List Nat} (h : l.Pairwise (· < ·)) :
    (insertAscending n l).Pairwise (· < ·) := by
  induction l with
  | nil => simp [insertAscending]
  | cons m rest ih =>
    rw [List.pairwise_cons] at h
    rw [insertAscending]
    split
    · next hlt =>
      rw [List.pairwise_cons, List.pairwise_cons]
      refine ⟨?_, h⟩
      intro y hy
      rcases List.mem_cons.1 hy with rfl | hy
      · exact hlt
      · exact Nat.lt_trans hlt (h.1 y hy)
    · split
      · exact List.pairwise_cons.2 h
      · refine List.pairwise_cons.2 ⟨?_, ih h.2⟩
        intro y hy
        rcases mem_insertAscending.1 hy with rfl | hy
        · omega
        · exact h.1 y hy

/-- A list all of whose parts but one are empty. -/
theorem flatMap_eq_of_nodup {β γ : Type} {xs : List β} (hnodup : xs.Nodup) {x : β} (hx : x ∈ xs)
    {f : β → List γ} (hf : ∀ y ∈ xs, y ≠ x → f y = []) : xs.flatMap f = f x := by
  obtain ⟨before, after, rfl⟩ := List.append_of_mem hx
  obtain ⟨-, hafter, hdisjoint⟩ := List.nodup_append.1 hnodup
  have hbefore : before.flatMap f = [] := List.flatMap_eq_nil_iff.2 fun y hy =>
    hf y (List.mem_append_left _ hy) (hdisjoint y hy x List.mem_cons_self)
  have hrest : after.flatMap f = [] := List.flatMap_eq_nil_iff.2 fun y hy =>
    hf y (List.mem_append_right _ (List.mem_cons_of_mem _ hy))
      (fun heq => (List.nodup_cons.1 hafter).1 (heq ▸ hy))
  rw [List.flatMap_append, List.flatMap_cons, hbefore, hrest, List.nil_append, List.append_nil]

namespace Layout

/-- Resolves the operands of all nodes, context by context. -/
def resolveAll (l : Layout) : EStateM Error Partition (List (List (List Operand))) :=
  l.order.mapM fun c => (l.members c).mapM fun id => (l.node id).operands.mapM fun o =>
    Partition.resolve l.signature l.nodes l.placement.home c o.1 o.2

/-- The reads of a layout: an operand, with the context of the node that reads it. -/
def allReads (l : Layout) : List (Nat × Nat) :=
  l.order.flatMap fun c => (l.members c).flatMap fun id => (l.node id).operands.map fun o => (c, o.1)

/-- The buffer that a read needs in the context `x`: none where another context reads, where `x` computes
the operand, and for constants. -/
def readIn? (l : Layout) (x : Nat) (read : Nat × Nat) : Option Binding :=
  if read.1 = x then (if l.isMember x read.2 then none else l.binding? read.2) else none

/-- Every input of the context is the buffer of a node, with a shape of as many elements. -/
def Described (l : Layout) (ctx : Context) : Prop :=
  ∀ b ∈ ctx.inputs.entries, (∃ o < l.nodes.size, l.binding? o = some b) ∧
    ∃ shape, ctx.shapes.find? b.name = some shape ∧ shape.size = b.len

/-- The contexts keep their numbers, their exports ascend, and their inputs are described. -/
structure Tidy (l : Layout) (p : Partition) : Prop where
  size : p.contexts.size = l.placement.partition.contexts.size
  ids : ∀ (x : Nat) ctx, p.contexts[x]? = some ctx → ctx.id = x
  ascending : ∀ (x : Nat) ctx, p.contexts[x]? = some ctx → ctx.exports.Pairwise (· < ·)
  described : ∀ (x : Nat) ctx, p.contexts[x]? = some ctx → l.Described ctx

/-- What reads leave behind: each context has gained the buffers that it reads, and the operands of its own
that other contexts read. -/
structure Noted (l : Layout) (reads : List (Nat × Nat)) (p p' : Partition) : Prop where
  tidy : l.Tidy p'
  context : ∀ (x : Nat) ctx, p.contexts[x]? = some ctx → ∃ ctx', p'.contexts[x]? = some ctx' ∧
    ctx'.inputs = ctx.inputs.registerAll (reads.filterMap (l.readIn? x)) ∧
    ∀ y, y ∈ ctx'.exports ↔ y ∈ ctx.exports ∨ ∃ c, (c, y) ∈ reads ∧ l.home y = some x ∧ x ≠ c

variable {l : Layout} {masks : Array MaskSite} {p p' p'' : Partition}

/-- No read leaves everything as it is. -/
theorem Noted.nil (h : l.Tidy p) : l.Noted [] p p where
  tidy := h
  context := fun _ ctx hctx => ⟨ctx, hctx, rfl, fun _ => by simp⟩

/-- Reads one after the other. -/
theorem Noted.trans {rs rs' : List (Nat × Nat)} (h : l.Noted rs p p') (h' : l.Noted rs' p' p'') :
    l.Noted (rs ++ rs') p p'' where
  tidy := h'.tidy
  context := by
    intro x ctx hctx
    obtain ⟨ctx', hctx', hinputs, hexports⟩ := h.context x ctx hctx
    obtain ⟨ctx'', hctx'', hinputs', hexports'⟩ := h'.context x ctx' hctx'
    refine ⟨ctx'', hctx'', ?_, fun y => ?_⟩
    · rw [hinputs', hinputs, List.filterMap_append]
      unfold Bindings.registerAll
      rw [List.foldl_append]
    · rw [hexports', hexports, or_assoc]
      refine or_congr_right ⟨?_, ?_⟩
      · rintro (⟨c, hc, hy⟩ | ⟨c, hc, hy⟩)
        · exact ⟨c, List.mem_append_left _ hc, hy⟩
        · exact ⟨c, List.mem_append_right _ hc, hy⟩
      · rintro ⟨c, hc, hy⟩
        exact (List.mem_append.1 hc).imp (fun hc => ⟨c, hc, hy⟩) (fun hc => ⟨c, hc, hy⟩)

/-- Steps that each note their reads, one after the other. -/
theorem mapM_noted {β γ : Type} {f : β → EStateM Error Partition γ} {g : β → γ}
    {rs : β → List (Nat × Nat)} {bs : List β}
    (h : ∀ b ∈ bs, ∀ p, l.Tidy p → ∃ p', f b p = .ok (g b) p' ∧ l.Noted (rs b) p p')
    (hp : l.Tidy p) : ∃ p', bs.mapM f p = .ok (bs.map g) p' ∧ l.Noted (bs.flatMap rs) p p' := by
  induction bs generalizing p with
  | nil => exact ⟨p, rfl, .nil hp⟩
  | cons b bs ih =>
    obtain ⟨p₁, hb, hnoted⟩ := h b List.mem_cons_self p hp
    obtain ⟨p₂, hbs, hnoted'⟩ := ih (fun x hx => h x (List.mem_cons_of_mem _ hx)) hnoted.tidy
    refine ⟨p₂, ?_, hnoted.trans hnoted'⟩
    rw [List.mapM_cons, bind_of_ok hb, bind_of_ok hbs]
    rfl

/-! ## One read -/

/-- A partition in which one context was changed. -/
theorem getElem?_modify_cases {contexts : Array Context} {c x : Nat} {f : Context → Context}
    {ctx' : Context} (h : (contexts.modify c f)[x]? = some ctx') :
    ∃ ctx, contexts[x]? = some ctx ∧ ctx' = if c = x then f ctx else ctx := by
  rw [Array.getElem?_modify] at h
  split at h
  · next hx =>
    obtain ⟨ctx, hctx, rfl⟩ := Option.map_eq_some_iff.1 h
    exact ⟨ctx, hctx, by rw [if_pos hx]⟩
  · next hx => exact ⟨ctx', h, by rw [if_neg hx]⟩

/-- Every context is still there, after one was changed. -/
theorem getElem?_modify_of_some {contexts : Array Context} {x : Nat} {ctx : Context}
    (h : contexts[x]? = some ctx) (c : Nat) (f : Context → Context) :
    (contexts.modify c f)[x]? = some (if c = x then f ctx else ctx) := by
  rw [Array.getElem?_modify, h]
  split <;> rfl

/-- A buffer of a node that is noted with a shape of as many elements leaves a context described. -/
theorem Sound.described_bind (h : l.Sound masks) {ctx : Context} (hctx : l.Described ctx) {o : Nat}
    (ho : o < l.nodes.size) {b : Binding} (hb : l.binding? o = some b) {shape : Shape}
    (hsize : shape.size = b.len) :
    l.Described
      { ctx with inputs := ctx.inputs.register b, shapes := ctx.shapes.insert b.name shape } := by
  intro b' hb'
  have hnode : ∃ o' < l.nodes.size, l.binding? o' = some b' := by
    rcases Bindings.mem_entries_register hb' with hold | rfl
    · exact (hctx b' hold).1
    · exact ⟨o, ho, hb⟩
  refine ⟨hnode, ?_⟩
  dsimp only
  rw [Table.find?_insert]
  by_cases hname : b.name = b'.name
  · -- buffers of one name are one buffer
    obtain ⟨o', ho', hbinding⟩ := hnode
    obtain rfl := h.binding?_unique ho ho' hb hbinding hname
    exact ⟨shape, by rw [if_pos rfl], hsize⟩
  · rw [if_neg hname]
    rcases Bindings.mem_entries_register hb' with hold | rfl
    · exact (hctx b' hold).2
    · exact absurd rfl hname

/-- Noting a buffer with its shape changes the inputs of one context, and nothing else. -/
theorem Sound.bind_eq (h : l.Sound masks) (hp : l.Tidy p) {c o : Nat} (hc : c < p.contexts.size)
    (ho : o < l.nodes.size) {b : Binding} (hb : l.binding? o = some b) {shape : Shape}
    (hcount : shape.isCountable) (hsize : shape.size = b.len) :
    ∃ p', Partition.bind c b shape p = .ok () p' ∧ l.Tidy p' ∧
      ∀ (x : Nat) ctx, p.contexts[x]? = some ctx → ∃ ctx', p'.contexts[x]? = some ctx' ∧
        ctx'.exports = ctx.exports ∧
        ctx'.inputs = if c = x then ctx.inputs.register b else ctx.inputs := by
  refine ⟨{ p with contexts := p.contexts.modify c fun ctx =>
    { ctx with inputs := ctx.inputs.register b, shapes := ctx.shapes.insert b.name shape } }, ?_, ?_, ?_⟩
  · simp [Partition.bind, bind, EStateM.bind, run_get, hc, hcount]
    rfl
  · constructor
    case size => exact (Array.size_modify ..).trans hp.size
    case ids =>
      intro x ctx' hctx'
      obtain ⟨ctx, hctx, rfl⟩ := getElem?_modify_cases hctx'
      split <;> exact hp.ids x ctx hctx
    case ascending =>
      intro x ctx' hctx'
      obtain ⟨ctx, hctx, rfl⟩ := getElem?_modify_cases hctx'
      split <;> exact hp.ascending x ctx hctx
    case described =>
      intro x ctx' hctx'
      obtain ⟨ctx, hctx, rfl⟩ := getElem?_modify_cases hctx'
      split
      · exact h.described_bind (hp.described x ctx hctx) ho hb hsize
      · exact hp.described x ctx hctx
  · intro x ctx hctx
    refine ⟨_, getElem?_modify_of_some hctx c _, ?_, ?_⟩ <;> split <;> rfl

/-- Noting an export changes the exports of one context, and nothing else. -/
theorem Tidy.addExport_eq (hp : l.Tidy p) {c : Nat} (hc : c < p.contexts.size) (id : Nat) :
    ∃ p', Partition.addExport c id p = .ok () p' ∧ l.Tidy p' ∧
      ∀ (x : Nat) ctx, p.contexts[x]? = some ctx → ∃ ctx', p'.contexts[x]? = some ctx' ∧
        ctx'.inputs = ctx.inputs ∧ ∀ y, y ∈ ctx'.exports ↔ y ∈ ctx.exports ∨ y = id ∧ c = x := by
  refine ⟨{ p with contexts := p.contexts.modify c fun ctx =>
    { ctx with exports := insertAscending id ctx.exports } }, ?_, ?_, ?_⟩
  · simp [Partition.addExport, bind, EStateM.bind, run_get, hc]
    rfl
  · constructor
    case size => exact (Array.size_modify ..).trans hp.size
    case ids =>
      intro x ctx' hctx'
      obtain ⟨ctx, hctx, rfl⟩ := getElem?_modify_cases hctx'
      split <;> exact hp.ids x ctx hctx
    case ascending =>
      intro x ctx' hctx'
      obtain ⟨ctx, hctx, rfl⟩ := getElem?_modify_cases hctx'
      split
      · exact pairwise_insertAscending id (hp.ascending x ctx hctx)
      · exact hp.ascending x ctx hctx
    case described =>
      intro x ctx' hctx'
      obtain ⟨ctx, hctx, rfl⟩ := getElem?_modify_cases hctx'
      split <;> exact hp.described x ctx hctx
  · intro x ctx hctx
    refine ⟨_, getElem?_modify_of_some hctx c _, ?_, fun y => ?_⟩
    · split <;> rfl
    · split
      · next hx => simp [mem_insertAscending, hx, or_comm]
      · next hx => simp [hx]

/-- A context that computes a node exists. -/
theorem Sound.exists_context (h : l.Sound masks) {id c : Nat} (hid : l.home id = some c) :
    ∃ ctx, l.context? c = some ctx := by
  have hmem := (h.mem_members c id).2 hid
  cases hctx : l.context? c with
  | none => simp [members, hctx] at hmem
  | some ctx => exact ⟨ctx, rfl⟩

/-- A context that computes a node exists at all times. -/
theorem Sound.lt_size_of_home (h : l.Sound masks) (hp : l.Tidy p) {id c : Nat}
    (hid : l.home id = some c) : c < p.contexts.size := by
  obtain ⟨ctx, hctx⟩ := h.exists_context hid
  rw [hp.size]
  exact lt_size_of_getElem? hctx

/-- The read of a leaf, which no context computes. -/
theorem Sound.noted_of_leaf (h : l.Sound masks) {c o : Nat} (hleaf : (l.node o).isComputed = false)
    (hp' : l.Tidy p')
    (hcontexts : ∀ (x : Nat) ctx, p.contexts[x]? = some ctx → ∃ ctx', p'.contexts[x]? = some ctx' ∧
      ctx'.exports = ctx.exports ∧
      ctx'.inputs = if c = x then ctx.inputs.registerAll (l.binding? o).toList else ctx.inputs) :
    l.Noted [(c, o)] p p' where
  tidy := hp'
  context := by
    have hhome : l.home o = none := by
      cases hhome : l.home o with
      | none => rfl
      | some x => rw [(h.home_lt o x hhome).2] at hleaf; cases hleaf
    intro x ctx hctx
    obtain ⟨ctx', hctx', hexports, hinputs⟩ := hcontexts x ctx hctx
    refine ⟨ctx', hctx', ?_, fun y => ?_⟩
    · have hnot : l.isMember x o = false := by
        rw [Bool.eq_false_iff, ne_eq, h.isMember_iff, hhome]
        exact nofun
      rw [hinputs]
      by_cases hx : c = x
      · rw [if_pos hx]
        cases hb : l.binding? o <;> simp [readIn?, hx, hnot, hb]
      · rw [if_neg hx]
        simp [readIn?, hx, Bindings.registerAll]
    · rw [hexports]
      refine ⟨.inl, fun hnew => hnew.elim id ?_⟩
      rintro ⟨c', hc', hy, -⟩
      rw [List.mem_singleton, Prod.mk.injEq] at hc'
      rw [hc'.2, hhome] at hy
      cases hy

/-- Noting the buffer of a leaf notes the read. -/
theorem Sound.bind_noted (h : l.Sound masks) (hp : l.Tidy p) {c o : Nat} (hc : c < p.contexts.size)
    (ho : o < l.nodes.size) (hleaf : (l.node o).isComputed = false) {b : Binding}
    (hb : l.binding? o = some b) {shape : Shape} (hcount : shape.isCountable)
    (hsize : shape.size = b.len) :
    ∃ p', Partition.bind c b shape p = .ok () p' ∧ l.Noted [(c, o)] p p' := by
  obtain ⟨p', hbind, hp', hcontexts⟩ := h.bind_eq hp hc ho hb hcount hsize
  refine ⟨p', hbind, h.noted_of_leaf hleaf hp' fun x ctx hctx => ?_⟩
  obtain ⟨ctx', hctx', hexports, hinputs⟩ := hcontexts x ctx hctx
  exact ⟨ctx', hctx', hexports, by rw [hinputs, hb]; rfl⟩

/-- The read of a computed node: another context hands it over through a buffer. -/
theorem Sound.noted_of_op (h : l.Sound masks) {c c' o : Nat} (hhome : l.home o = some c') (hne : c' ≠ c)
    {b : Binding} (hb : l.binding? o = some b) (hp' : l.Tidy p')
    (hcontexts : ∀ (x : Nat) ctx, p.contexts[x]? = some ctx → ∃ ctx', p'.contexts[x]? = some ctx' ∧
      (∀ y, y ∈ ctx'.exports ↔ y ∈ ctx.exports ∨ y = o ∧ c' = x) ∧
      ctx'.inputs = if c = x then ctx.inputs.register b else ctx.inputs) :
    l.Noted [(c, o)] p p' where
  tidy := hp'
  context := by
    intro x ctx hctx
    obtain ⟨ctx', hctx', hexports, hinputs⟩ := hcontexts x ctx hctx
    refine ⟨ctx', hctx', ?_, fun y => ?_⟩
    · rw [hinputs]
      by_cases hx : c = x
      · subst hx
        have hnot : l.isMember c o = false := by
          rw [Bool.eq_false_iff, ne_eq, h.isMember_iff, hhome, Option.some.injEq]
          exact hne
        simp [readIn?, hnot, hb, Bindings.registerAll]
      · simp [readIn?, hx, Bindings.registerAll]
    · rw [hexports]
      refine or_congr_right ⟨?_, ?_⟩
      · rintro ⟨rfl, rfl⟩
        exact ⟨c, List.mem_singleton_self _, hhome, hne⟩
      · rintro ⟨d, hd, hy, -⟩
        rw [List.mem_singleton, Prod.mk.injEq] at hd
        obtain ⟨-, rfl⟩ := hd
        rw [hhome, Option.some.injEq] at hy
        exact ⟨rfl, hy⟩

/-- The read of a node of the same context leaves no trace. -/
theorem Sound.noted_of_local (h : l.Sound masks) {c o : Nat} (hhome : l.home o = some c) (hp : l.Tidy p) :
    l.Noted [(c, o)] p p where
  tidy := hp
  context := by
    intro x ctx hctx
    refine ⟨ctx, hctx, ?_, fun y => ⟨.inl, fun hnew => hnew.elim id ?_⟩⟩
    · by_cases hx : c = x
      · subst hx
        simp [readIn?, (h.isMember_iff c o).2 hhome, Bindings.registerAll]
      · simp [readIn?, hx, Bindings.registerAll]
    · rintro ⟨d, hd, hy, hne⟩
      rw [List.mem_singleton, Prod.mk.injEq] at hd
      obtain ⟨rfl, rfl⟩ := hd
      rw [hhome, Option.some.injEq] at hy
      exact absurd hy.symm hne

/-- Resolving an operand succeeds, says how the forward code reads it, and notes the read. -/
theorem Sound.resolve_noted (h : l.Sound masks) {c id o : Nat} {a : Access} (hid : l.home id = some c)
    (ho : (o, a) ∈ (l.node id).operands) (hp : l.Tidy p) :
    ∃ p', Partition.resolve l.signature l.nodes l.placement.home c o a p =
        .ok (operandIn l.signature l.placement.home c (l.node o) o a) p' ∧ l.Noted [(c, o)] p p' := by
  have hlt : o < l.nodes.size :=
    Nat.lt_trans (h.operand_lt (h.home_lt id c hid).1 ho) (h.home_lt id c hid).1
  have hc := h.lt_size_of_home hp hid
  have hcount : (l.node o).shape.isCountable := h.arena.isCountable hlt
  have hok : NodeOk l.signature masks l.nodes o (l.node o) := h.arena o _ (getElem?_nodeAt hlt)
  have hnode : l.nodes[o]? = some (l.node o) := getElem?_nodeAt hlt
  unfold Partition.resolve
  simp only [hnode]
  cases hk : (l.node o).kind with
  | constant x =>
    have hb : l.binding? o = none := by simp [binding?, Node.binding?, hk]
    refine ⟨p, rfl, h.noted_of_leaf (by simp [Node.isComputed, hk]) hp fun x ctx hctx => ?_⟩
    exact ⟨ctx, hctx, rfl, by simp [hb, Bindings.registerAll]⟩
  | tensor t =>
    simp only [NodeOk, hk] at hok
    obtain ⟨-, -, d, hd, hshape⟩ := hok
    have hb := binding?_tensor hk hd
    obtain ⟨p', hbind, hnoted⟩ :=
      h.bind_noted hp hc hlt (by simp [Node.isComputed, hk]) hb (hshape ▸ hcount) rfl
    refine ⟨p', ?_, hnoted⟩
    simp only [show (l.node o).binding? l.signature o = _ from hb, hd, Option.elim_some]
    rw [bind_of_ok hbind]
    rfl
  | mask i =>
    have hb := binding?_mask hk
    obtain ⟨p', hbind, hnoted⟩ :=
      h.bind_noted hp hc hlt (by simp [Node.isComputed, hk]) hb hcount rfl
    refine ⟨p', ?_, hnoted⟩
    simp only [show (l.node o).binding? l.signature o = _ from hb]
    rw [bind_of_ok hbind]
    rfl
  | op op =>
    have hb := binding?_op hk
    obtain ⟨c', hhome⟩ := h.placed o hlt (by simp [Node.isComputed, hk])
    simp only [show (l.node o).binding? l.signature o = _ from hb,
      show homeOf l.placement.home o = _ from hhome]
    by_cases hcc : c' = c
    · subst hcc
      refine ⟨p, ?_, h.noted_of_local hhome hp⟩
      rw [if_pos rfl]
      rfl
    · obtain ⟨p₁, hexport, hp₁, hexported⟩ := hp.addExport_eq (h.lt_size_of_home hp hhome) o
      obtain ⟨p₂, hbind, hp₂, hbound⟩ :=
        h.bind_eq hp₁ (h.lt_size_of_home hp₁ hid) hlt hb hcount rfl
      refine ⟨p₂, ?_, h.noted_of_op hhome hcc hb hp₂ fun x ctx hctx => ?_⟩
      · rw [if_neg hcc, bind_of_ok hexport, bind_of_ok hbind]
        rfl
      · obtain ⟨ctx₁, hctx₁, hinputs₁, hexports₁⟩ := hexported x ctx hctx
        obtain ⟨ctx₂, hctx₂, hexports₂, hinputs₂⟩ := hbound x ctx₁ hctx₁
        exact ⟨ctx₂, hctx₂, fun y => by rw [hexports₂, hexports₁], by rw [hinputs₂, hinputs₁]⟩

/-! ## Rules with all operands given

The rules of an operator can be asked for with any list of operands, and answer only where what they look
at is given. The node of a compiled term has as many operands as its operator takes, so the rules always
answer there, with the code of the kernels. -/

/-- A gradient rule reads no operand beyond those that its operator takes. -/
theorem lt_arity_of_mem_reads {op : Op} {i : Nat} (h : .operand i ∈ op.reads) : i < op.arity := by
  cases op with
  | unary f =>
    cases f <;> simp [Op.reads, UnaryOp.reads, Op.arity] at h ⊢ <;> omega
  | binary f =>
    cases f <;> simp [Op.reads, BinaryOp.reads, Op.arity] at h ⊢ <;> omega
  | _ =>
    simp [Op.reads, Op.arity] at h ⊢ <;> omega

/-- The gradient code of a reduction looks at no operand beyond those that the operator takes. -/
theorem reductionArity_le_arity (op : Op) : op.reductionArity ≤ op.arity := by
  cases op <;> simp [Op.reductionArity, Op.arity]

/-- For a node of a context, the rules answer with the forward code, the gradient terms and the gradient
code that the kernels of the context hold. -/
theorem Sound.rules_answer (h : l.Sound masks) {id c : Nat} {op : Op} (hid : l.home id = some c)
    (hk : (l.node id).kind = .op op) :
    op.forward? (Node.varName id) (l.forwardOperands c id) = some (l.forwardCode c id) ∧
      op.gradients? (.var (gradName id)) (.load (Node.varName id) .index) (l.backwardOperands id) =
        some (l.terms id) ∧
      ∀ partials i, op.reductionGradient? i (l.reductionFrame partials id i) =
        some (op.reductionGradient i (l.reductionFrame partials id i)) := by
  have harity : (l.node id).operands.length = op.arity :=
    (h.arena.opNode (getElem?_nodeAt (h.home_lt id c hid).1) hk).arity
  refine ⟨?_, ?_, fun partials i => ?_⟩
  · rw [Op.forward?, if_pos (by rw [forwardOperands, List.length_map, harity])]
    simp only [forwardCode, hk]
  · rw [Op.gradients?, if_pos]
    · simp only [terms, hk]
    · refine List.all_eq_true.2 fun v hv => ?_
      cases v with
      | output => rfl
      | operand i =>
        simpa [backwardOperands, harity] using lt_arity_of_mem_reads hv
  · refine if_pos ?_
    rw [reductionFrame, backwardOperands, List.length_map, harity]
    exact reductionArity_le_arity op

/-! ## All reads -/

/-- The contexts of a placement, before anything is resolved. -/
theorem Sound.tidy (h : l.Sound masks) : l.Tidy l.placement.partition where
  size := rfl
  ids := fun x ctx hctx => (h.contexts x ctx hctx).1
  ascending := fun x ctx hctx => by
    rw [(h.contexts x ctx hctx).2.2]
    exact .nil
  described := fun x ctx hctx b hb => by
    rw [(h.contexts x ctx hctx).2.1] at hb
    cases hb

/-- Resolving everything returns the operands of the forward kernels, and notes all reads. -/
theorem Sound.resolveAll_noted (h : l.Sound masks) :
    ∃ p, l.resolveAll l.placement.partition =
        .ok (l.order.map fun c => (l.members c).map (l.forwardOperands c)) p ∧
      l.Noted l.allReads l.placement.partition p := by
  refine mapM_noted (fun c _ p hp => ?_) h.tidy
  refine mapM_noted (fun id hid p hp => ?_) hp
  have hmap : (l.node id).operands.map (fun o => (c, o.1)) =
      (l.node id).operands.flatMap fun o => [(c, o.1)] := List.map_eq_flatMap
  rw [hmap]
  exact mapM_noted (fun o ho p hp => h.resolve_noted ((h.mem_members c id).1 hid) ho hp) hp

/-- An operand is read by the context of the node whose operand it is. -/
theorem Sound.mem_allReads (h : l.Sound masks) {c o : Nat} :
    (c, o) ∈ l.allReads ↔ ∃ id, l.home id = some c ∧ o ∈ (l.node id).operands.map Prod.fst := by
  simp only [allReads, List.mem_flatMap, List.mem_map, Prod.mk.injEq, h.mem_members]
  constructor
  · rintro ⟨c', -, id, hid, x, hx, rfl, rfl⟩
    exact ⟨id, hid, x, hx, rfl⟩
  · rintro ⟨id, hid, x, hx, rfl⟩
    exact ⟨c, (h.mem_order c).2 ⟨id, hid⟩, id, hid, x, hx, rfl, rfl⟩

/-- The buffers that a context needs for its reads are those that its code reads. -/
theorem Sound.filterMap_allReads (h : l.Sound masks) {c : Nat} (hc : c ∈ l.order) :
    l.allReads.filterMap (l.readIn? c) = (l.members c).flatMap (l.readBindings c) := by
  have hread : ∀ x id, ((l.node id).operands.map fun o => (x, o.1)).filterMap (l.readIn? c) =
      if x = c then l.readBindings c id else [] := by
    intro x id
    rw [List.filterMap_map]
    by_cases hx : x = c
    · rw [if_pos hx, readBindings]
      refine List.filterMap_congr fun o _ => ?_
      simp [readIn?, hx]
    · rw [if_neg hx]
      refine List.filterMap_eq_nil_iff.2 fun o _ => ?_
      simp [readIn?, hx]
  simp only [allReads, List.filterMap_flatMap, hread]
  rw [flatMap_eq_of_nodup h.order_nodup hc]
  · simp only [if_true]
  · intro x _ hx
    simp [hx]

/-- Where every node lists its readers and nothing else, the operands that other contexts read are those
with a reader elsewhere. -/
theorem Sound.exists_read_iff (h : l.Sound masks) (hcounted : Lowering.Counted l.nodes) {c y : Nat} :
    (∃ x, (x, y) ∈ l.allReads ∧ l.home y = some c ∧ c ≠ x) ↔
      y ∈ (l.members c).filter (l.isReadElsewhere c) := by
  rw [List.mem_filter, h.mem_members, isReadElsewhere, List.any_eq_true]
  constructor
  · rintro ⟨x, hx, hy, hne⟩
    obtain ⟨id, hid, ho⟩ := h.mem_allReads.1 hx
    refine ⟨hy, id, ?_, by simp [hid, Ne.symm hne]⟩
    have hlt : y < l.nodes.size := (h.home_lt y c hy).1
    have hcount := hcounted y hlt id
    rw [← List.count_pos_iff]
    show 0 < (nodeAt l.nodes y).consumers.count id
    rw [hcount]
    exact List.count_pos_iff.2 ho
  · rintro ⟨hy, id, hid, helse⟩
    obtain ⟨x, hx⟩ : ∃ x, l.home id = some x := by
      rw [Bool.and_eq_true] at helse
      exact Option.isSome_iff_exists.1 helse.1
    have hne : c ≠ x := by
      rintro rfl
      simp [hx] at helse
    refine ⟨x, h.mem_allReads.2 ⟨id, hx, ?_⟩, hy, hne⟩
    have hcount := hcounted y (h.home_lt y c hy).1 id
    rw [← List.count_pos_iff]
    show 0 < ((nodeAt l.nodes id).operands.map Prod.fst).count y
    rw [← hcount]
    exact List.count_pos_iff.2 hid

end Layout

namespace Lowering

/-- A lowered root lists the readers of every node, and nothing else. -/
theorem counted_of_lowerRoot {signature : Signature} {root : Term} (hroot : root.Built) {shape : Shape}
    {id : Nat} {s : Lowering} (h : lowerRoot root shape (.start signature) = .ok id s) :
    Counted s.nodes := by
  have hrun := lower_run hroot.universe root root.mem_subterms_self (.start signature)
    (start_sound _ signature)
  have hspec := lower_spec hroot.universe root root.mem_subterms_self (.start signature) []
    (start_inv _ signature) (by intro x hx; cases hx)
  rw [lowerRoot_eq] at h
  cases hl : lower root (.start signature) with
  | error e s₁ =>
    rw [hl] at h
    cases h
  | ok base s₁ =>
    rw [hl] at h hrun hspec
    have hsound : s₁.Sound _ := (hrun.sound hroot.universe (start_sound _ signature)).1
    dsimp only at h
    split at h
    · cases h
    · split at h
      · cases h
      · split at h
        · cases h
          exact hsound.counted
        · exact addOp_counted hsound.arena hsound.counted (by simpa using hspec.2.lt_size) rfl h

end Lowering

/-- Resolving all operands of a compiled term never fails. It returns the operands of the forward kernels,
and leaves in every context the inputs of its forward kernel, each with a shape of as many elements, the
label of the kernel, and the values that other contexts read. -/
theorem CompiledAs.resolveAll_eq {signature : Signature} {root : Term} (hroot : root.Built) {shape : Shape}
    {plan : Plan} {id : Nat} {s : Lowering} (h : CompiledAs signature root shape plan id s) :
    let l := Layout.ofRoot signature s.nodes id
    ∃ p, l.resolveAll l.placement.partition =
        .ok (l.order.map fun c => (l.members c).map (l.forwardOperands c)) p ∧
      ∀ c ∈ l.order, ∃ ctx, p.contexts[c]? = some ctx ∧ ctx.inputs = (l.forwardKernel c).inputs ∧
        (∀ b ∈ ctx.inputs.entries,
          ∃ shape, ctx.shapes.find? b.name = some shape ∧ shape.size = b.len) ∧
        ctx.exports = (l.members c).filter (l.isReadElsewhere c) ∧
        Partition.labelOf c p = .ok (l.forwardKernel c).label p := by
  intro l
  have hsound : l.Sound s.masks := h.sound
  obtain ⟨p, hp, hnoted⟩ := hsound.resolveAll_noted
  refine ⟨p, hp, fun c hc => ?_⟩
  obtain ⟨x, hx⟩ := (hsound.mem_order c).1 hc
  obtain ⟨before, hbefore⟩ := hsound.exists_context hx
  obtain ⟨-, hinputs₀, hexports₀⟩ := hsound.contexts c before hbefore
  obtain ⟨ctx, hctx, hinputs, hexports⟩ := hnoted.context c before hbefore
  refine ⟨ctx, hctx, ?_, fun b hb => (hnoted.tidy.described c ctx hctx b hb).2, ?_, ?_⟩
  · rw [hinputs, hinputs₀, hsound.filterMap_allReads hc]
    rfl
  · refine List.Pairwise.eq_of_mem_iff (hnoted.tidy.ascending c ctx hctx)
      ((hsound.members_sorted c).filter _) fun y => ?_
    rw [hexports, hexports₀, ← hsound.exists_read_iff (Lowering.counted_of_lowerRoot hroot h.lowering)]
    simp
  · have hlabel : ctx.label = (l.forwardKernel c).label := by
      rw [Context.label, hnoted.tidy.ids c ctx hctx]
      rfl
    rw [← hlabel]
    unfold Partition.labelOf
    rw [bind_of_ok (run_get _)]
    simp only [hctx]
    rfl

end TensorKernels
