import TensorKernels.Proofs.Building
import TensorKernels.Proofs.Compilation
import TensorKernels.Proofs.StorePlaces

/-!
# Invocations in any order

No kernel of a compiled plan loads what it stores, and its invocations together store every element of
every output exactly once (`Kernel.Emits.fills`). The stores of an invocation depend on the inputs only,
so the outputs are the same whatever the order of the invocations and whatever the outputs held before
(`kernels_race_free`).

Both need element counts below `2 ^ 32`: the guard of a kernel compares words.
-/

set_option autoImplicit false

namespace TensorKernels

variable {α : Type} (ops : Arithmetic α)

/-! ## Each element once -/

/-- The positions at which an access stores are all the positions, in another order. -/
theorem Access.Covers.stored_perm {a : Access} {m n : Nat} (h : a.Covers m n) :
    ((List.range n).map a.stored).Perm (List.range n) := by
  cases a with
  | permuted rows cols =>
    obtain ⟨-, rfl⟩ := h
    have hlt : ∀ i < rows * cols, (Access.permuted rows cols).position i < rows * cols :=
      fun i hi => Access.Covers.position_lt (a := .permuted rows cols) ⟨rfl, rfl⟩ hi
    have hnodup : ((List.range (rows * cols)).map (Access.permuted rows cols).stored).Nodup := by
      refine List.Nodup.map_on ?_ List.nodup_range
      intro i hi j hj heq
      have hi := List.mem_range.1 hi
      have hj := List.mem_range.1 hj
      -- both are the only index that reads the common position
      exact ((Access.position_permuted_iff hi (hlt j hj)).1 heq).trans
        ((Access.position_permuted_iff hj (hlt j hj)).1 rfl).symm
    refine (List.subperm_of_subset hnodup ?_).perm_of_length_le ?_
    · intro j hj
      obtain ⟨i, hi, rfl⟩ := List.mem_map.1 hj
      exact List.mem_range.2 (hlt i (List.mem_range.1 hi))
    · simp
  | _ => exact (List.map_id' _) ▸ List.Perm.refl _

/-- Only the first indices of a range contribute. -/
theorem flatMap_range_of_le {β : Type} {n m : Nat} (hle : n ≤ m) (f : Nat → β) :
    ((List.range m).flatMap fun i => if i < n then [f i] else []) = (List.range n).map f := by
  obtain ⟨d, rfl⟩ := Nat.exists_eq_add_of_le hle
  rw [List.range_add, List.flatMap_append]
  have hrest : ((List.range d).map (n + ·)).flatMap (fun i => if i < n then [f i] else []) = [] := by
    simp
  have hfirst : ((List.range n).flatMap fun i => if i < n then [f i] else []) =
      (List.range n).flatMap fun i => [f i] :=
    List.flatMap_congr fun i hi => if_pos (List.mem_range.1 hi)
  rw [hrest, hfirst, List.append_nil]
  exact List.map_eq_flatMap.symm

/-- The stores fill the outputs of the kernel: every element of every output exactly once, and nothing
else is stored. -/
structure Kernel.Filled (k : Kernel) (ws : List (Write α)) : Prop where
  once : ∀ b ∈ k.outputs.entries,
    ((ws.filter fun w => w.buffer = b.name).map Write.position).Perm (List.range b.len)
  within : ∀ w ∈ ws, w.buffer ∈ k.outputs.names

/-- Stores that fill the outputs leave the same outputs in any order and whatever was there. -/
theorem Kernel.Filled.find?_applyWrites_eq {k : Kernel} {ws ws' : List (Write α)} (h : k.Filled ws)
    (hperm : ws.Perm ws') {outputs outputs' : Buffers α} (hfor : outputs.For k.outputs)
    (hfor' : outputs'.For k.outputs) (name : String) :
    (outputs.applyWrites ws).find? name = (outputs'.applyWrites ws').find? name := by
  rw [Buffers.find?_applyWrites, Buffers.find?_applyWrites]
  by_cases hname : name ∈ k.outputs.names
  · obtain ⟨b, hb, rfl⟩ := List.mem_map.1 hname
    obtain ⟨data, hdata, hsize⟩ := hfor.found b hb
    obtain ⟨data', hdata', hsize'⟩ := hfor'.found b hb
    rw [hdata, hdata']
    exact congrArg some (Write.foldl_setIn_eq_of_perm (hperm.filter _) (h.once b hb) hsize hsize')
  · rw [hfor.find?_eq_none hname, hfor'.find?_eq_none hname]
    rfl

/-! ## The stores of all invocations -/

namespace Kernel

variable {k : Kernel} {outlets : List Outlet}

/-- Where an invocation stores to one output. -/
theorem Emits.positions (h : k.Emits ops outlets) {inputs outputs : Buffers α}
    (hinputs : ∀ b ∈ k.inputs.names, (inputs.find? b).isSome)
    (houtputs : ∀ b ∈ k.outputs.names, (outputs.find? b).isSome) {o : Outlet} (ho : o ∈ outlets) (i : Nat) :
    ((k.writes ops inputs outputs i).filter fun w => w.buffer = o.name).map Write.position =
      ((o.at? (UInt32.ofNat i)).map Prod.snd).toList := by
  have hplaces : ((k.writes ops inputs outputs i).filter fun w => w.buffer = o.name).map Write.position =
      (((k.writes ops inputs outputs i).map Write.place).filter fun e => e.1 = o.name).map Prod.snd := by
    rw [List.filter_map, List.map_map]
    rfl
  rw [hplaces, h.places inputs outputs hinputs houtputs i]
  have hname : ∀ (o : Outlet) u e, o.at? u = some e → e.1 = o.name := by
    intro o u e he
    unfold Outlet.at? at he
    split at he
    · cases he
      rfl
    · cases he
  -- of outlets with distinct names only `o` stores there
  have hother : ∀ l : List Outlet, o.name ∉ l.map Outlet.name →
      (l.filterMap fun o => o.at? (UInt32.ofNat i)).filter (fun e => e.1 = o.name) = [] := by
    intro l hl
    refine List.filter_eq_nil_iff.2 fun e he => ?_
    obtain ⟨o', ho', hat⟩ := List.mem_filterMap.1 he
    simp only [decide_eq_true_eq]
    exact fun heq => hl (List.mem_map.2 ⟨o', ho', (hname o' _ e hat).symm.trans heq⟩)
  obtain ⟨before, after, rfl⟩ := List.append_of_mem ho
  have hnodup := h.nodup
  rw [List.map_append, List.map_cons, List.nodup_middle, List.nodup_cons] at hnodup
  have hnot := fun hmem => hnodup.1 (List.mem_append.2 hmem)
  rw [List.filterMap_append, List.filter_append, hother before fun hmem => hnot (.inl hmem),
    List.filterMap_cons]
  cases hat : o.at? (UInt32.ofNat i) with
  | none =>
    rw [hother after fun hmem => hnot (.inr hmem)]
    rfl
  | some e =>
    rw [List.filter_cons_of_pos (by simpa using hname o _ e hat),
      hother after fun hmem => hnot (.inr hmem)]
    rfl

/-- All invocations of a kernel with fewer than `2 ^ 32` elements together fill its outputs, whatever
each of them finds there. -/
theorem Emits.fills (h : k.Emits ops outlets) (hsize : k.size < 2 ^ 32) {inputs : Buffers α}
    (hinputs : ∀ b ∈ k.inputs.names, (inputs.find? b).isSome) {found : Nat → Buffers α}
    (hfound : ∀ i, ∀ b ∈ k.outputs.names, ((found i).find? b).isSome) :
    k.Filled ((List.range k.invocations).flatMap fun i => k.writes ops inputs (found i) i) := by
  obtain ⟨kinds, hbody⟩ := h.typed
  refine ⟨?_, ?_⟩
  · intro b hb
    obtain ⟨o, ho, hname, hlen⟩ := h.outlet b hb
    obtain ⟨m, hcovers⟩ := h.covers o ho
    obtain ⟨hle, hinvocations⟩ := le_invocations hsize
    have hlen_le := h.len_le o ho
    have hat : ∀ i ∈ List.range k.invocations, ((o.at? (UInt32.ofNat i)).map Prod.snd).toList =
        if i < o.len then [o.access.stored i] else [] := by
      intro i hi
      have hi : i < 2 ^ 32 := Nat.lt_of_lt_of_le (List.mem_range.1 hi) hinvocations
      have hlt : UInt32.ofNat i < UInt32.ofNat o.len ↔ i < o.len := by
        rw [UInt32.lt_iff_toNat_lt, UInt32.toNat_ofNat_of_lt' hi,
          UInt32.toNat_ofNat_of_lt' (Nat.lt_of_le_of_lt hlen_le hsize)]
      unfold Outlet.at?
      by_cases hb : i < o.len
      · rw [if_pos (hlt.2 hb), if_pos hb, Option.map_some,
          Access.toNat_place hcovers (Nat.lt_of_le_of_lt hlen_le hsize) hb]
        rfl
      · rw [if_neg fun hb' => hb (hlt.1 hb'), if_neg hb]
        rfl
    rw [← hname, ← hlen, List.filter_flatMap, List.map_flatMap]
    have hpositions := List.flatMap_congr fun i hi =>
      (h.positions ops hinputs (hfound i) ho i).trans (hat i hi)
    rw [hpositions, flatMap_range_of_le (Nat.le_trans hlen_le hle)]
    exact hcovers.stored_perm
  · intro w hw
    obtain ⟨i, -, hw⟩ := List.mem_flatMap.1 hw
    exact hbody.stores (Stmt.buffer_mem_blockStores ops k.body hw)

end Kernel

/-! ## The sizes of kernels -/

/-- A running maximum stays below a bound of its start and its terms. -/
theorem foldl_max_lt {β : Type} {f : β → Nat} {l : List β} {init bound : Nat} (hinit : init < bound)
    (h : ∀ x ∈ l, f x < bound) : l.foldl (fun m x => max m (f x)) init < bound := by
  induction l generalizing init with
  | nil => exact hinit
  | cons x l ih =>
    exact ih (Nat.max_lt.2 ⟨hinit, h x List.mem_cons_self⟩) fun y hy => h y (List.mem_cons_of_mem _ hy)

namespace Layout

variable {l : Layout} {masks : Array MaskSite}

/-- The size of a context is below a bound of all nodes. -/
theorem Sound.sizeOf_lt (h : l.Sound masks) {bound : Nat}
    (hbound : ∀ id < l.nodes.size, (l.node id).size < bound) {c : Nat} (hc : c ∈ l.order) :
    l.sizeOf c < bound := by
  obtain ⟨id, hid⟩ := (h.mem_order c).1 hc
  rw [h.sizeOf_eq id c hid]
  exact hbound id (h.home_lt id c hid).1

/-- Contexts of the backward pass are contexts of the layout. -/
theorem mem_order_of_mem_backwardKernels {e : Nat × Option BackwardKernel} (he : e ∈ l.backwardKernels) :
    e.1 ∈ l.order := by
  refine List.mem_reverse.1 ?_
  rw [← map_fst_backwardKernels]
  exact List.mem_map_of_mem he

/-- No partial buffer has more elements than the largest node. -/
theorem Sound.partial_len_lt (h : l.Sound masks) {bound : Nat}
    (hbound : ∀ id < l.nodes.size, (l.node id).size < bound) {c : Nat} {b : BackwardKernel}
    (hb : (c, some b) ∈ l.backwardKernels) {p : PartialBuffer} (hp : p ∈ b.partials) : p.len < bound := by
  obtain ⟨partials, -, hkernel⟩ := exists_backwardKernel hb
  rcases h.backwardKernel_cases hkernel with ⟨hreg, rfl⟩ | ⟨id, op, hid, hop, hred, rfl⟩
  · obtain ⟨-, -, -, -, hlen⟩ := exists_of_forall₂ (layOut_spec c (l.sizeOf c) (l.contextKeys c)).2 hp
    rw [hlen]
    exact h.sizeOf_lt hbound (mem_order_of_mem_backwardKernels hb)
  · -- the partial buffers of a reduction are as long as its operands
    obtain ⟨o, ho, -, hcovers⟩ := (h.reductionBackward_ok partials hid hop hred).owned p hp
    obtain ⟨-, -, -, haccess, -⟩ := exists_of_forall₂ (reductionBackward_body partials c id op).2 hp
    rw [haccess] at hcovers
    exact hcovers ▸ hbound o ho

/-- The partial buffers that hold contributions to a node fit the node. -/
theorem Sound.incoming_covers (h : l.Sound masks)
    (hbound : ∀ id < l.nodes.size, (l.node id).size < 2 ^ 32) {partials : List PartialBuffer}
    (hpartials : partials ⊆ passPartials l.backwardKernels) {id : Nat} {p : PartialBuffer}
    (hp : p ∈ incoming partials id) :
    p ∈ passPartials l.backwardKernels ∧ p.access.Covers (l.node id).size p.len ∧ p.len < 2 ^ 32 := by
  obtain ⟨hp, howner⟩ := List.mem_filter.1 hp
  have hmem := hpartials hp
  obtain ⟨c, b, hb, hpb⟩ := mem_passPartials.1 hmem
  obtain ⟨_, hok⟩ := h.backward_ok_of_mem hb
  obtain ⟨o, -, howns, hcovers⟩ := hok.owned p hpb
  rw [of_decide_eq_true howner] at howns
  obtain ⟨rfl, -⟩ := howns
  exact ⟨hmem, hcovers, h.partial_len_lt hbound hb hpb⟩

/-- No kernel has more elements than the largest node. -/
theorem Sound.size_lt_of_mem_kernelList (h : l.Sound masks) {bound : Nat} (hpos : 0 < bound)
    (hbound : ∀ id < l.nodes.size, (l.node id).size < bound) {k : Kernel} (hk : k ∈ l.kernelList) :
    k.size < bound := by
  rcases List.mem_append.1 hk with hk | hk
  · obtain ⟨c, hc, rfl⟩ := List.mem_map.1 hk
    exact h.sizeOf_lt hbound hc
  · obtain ⟨b, hb, rfl⟩ := List.mem_map.1 hk
    obtain ⟨c, hb⟩ := mem_backwardList.1 hb
    obtain ⟨partials, -, hkernel⟩ := exists_backwardKernel hb
    rcases h.backwardKernel_cases hkernel with ⟨hreg, rfl⟩ | ⟨id, op, hid, hop, hred, rfl⟩
    · exact h.sizeOf_lt hbound (mem_order_of_mem_backwardKernels hb)
    · exact foldl_max_lt hpos fun p hp => h.partial_len_lt hbound hb hp

end Layout

/-! ## Kernels of compiled plans -/

/-- In a kernel of a compiled plan with fewer than `2 ^ 32` elements per node, no invocation loads from
an output; all invocations together store every element of every output exactly once and nothing else,
whatever each finds in the outputs; and invocations in any order leave the outputs that the dispatch in
ascending order leaves, whatever the outputs held before. -/
theorem kernels_race_free {signature : Signature} {root : Term} {shape : Shape} {plan : Plan}
    (hroot : root.Built) (hplan : (compile signature root shape).plan = .ok plan)
    (hfits : root.Fits signature) {k : Kernel} (hk : k ∈ plan.kernels) {inputs : Buffers α}
    (hinputs : ∀ b ∈ k.inputs.names, (inputs.find? b).isSome) :
    (∀ b ∈ k.outputs.names, b ∉ k.loads) ∧
    (∀ found : Nat → Buffers α, (∀ i, (found i).For k.outputs) →
      k.Filled ((List.range k.invocations).flatMap fun i => k.writes ops inputs (found i) i)) ∧
    ∀ outputs outputs' : Buffers α, outputs.For k.outputs → outputs'.For k.outputs →
      ∀ schedule : List Nat, schedule.Perm (List.range k.invocations) →
        ∃ final final', Kernel.invokeAll ops k.body inputs schedule outputs = (none, final) ∧
          k.dispatch ops inputs outputs' = (none, final') ∧
          ∀ name, final.find? name = final'.find? name := by
  obtain ⟨id, s, -, hcompiled⟩ := compiledAs_of_ok hroot hplan
  have hk' := hk
  rw [hcompiled.kernels] at hk'
  obtain ⟨outlets, hemits⟩ := hcompiled.sound.emits ops hk'
  have hsize : k.size < 2 ^ 32 := hcompiled.sound.size_lt_of_mem_kernelList (by decide)
    (fun x hx => hcompiled.lowered.size_lt hfits hx) hk'
  refine ⟨?_, ?_, ?_⟩
  · obtain ⟨kinds, hbody⟩ := hemits.typed
    intro b hb hload
    obtain ⟨o, ho, rfl⟩ := List.mem_map.1 hb
    obtain ⟨i, hi, hname⟩ := List.mem_map.1 (hbody.loads hload)
    exact hcompiled.wired.apart k hk i hi o ho hname
  · intro found hfound
    exact hemits.fills ops hsize hinputs fun i => (hfound i).isSome_find?
  · intro outputs outputs' hfor hfor' schedule hschedule
    refine ⟨_, _, hemits.typed.invokeAll_eq ops hinputs hfor.isSome_find? schedule fun _ => rfl,
      hemits.typed.invokeAll_eq ops hinputs hfor.isSome_find? (List.range k.invocations) (hfor'.contains_eq hfor), ?_⟩
    have hfilled : k.Filled ((List.range k.invocations).flatMap (k.writes ops inputs outputs)) :=
      hemits.fills ops hsize hinputs fun _ => hfor.isSome_find?
    exact fun name => (hfilled.find?_applyWrites_eq (hschedule.flatMap_right _).symm hfor' hfor name).symm

/-- A buffer of zeros for every binding. -/
def Buffers.zeros (bindings : Bindings) : Buffers α :=
  .ofList (bindings.entries.map fun b => (b.name, Machine.zeros ops b.len))

/-- Zeros of the right sizes fit their bindings. -/
theorem Buffers.zeros_for (bindings : Bindings) : (zeros ops bindings).For bindings := by
  have hnodup : ((bindings.entries.map fun b => (b.name, Machine.zeros ops b.len)).map Prod.fst).Nodup := by
    rw [List.map_map]
    exact bindings.nodup
  refine ⟨?_, ?_⟩
  · intro b hb
    refine ⟨Machine.zeros ops b.len, ?_, Array.size_replicate⟩
    rw [zeros, Table.find?_ofList hnodup]
    exact Table.lookup_eq_some_of_mem hnodup (List.mem_map.2 ⟨b, hb, rfl⟩)
  · intro name data hdata
    rw [zeros, Table.find?_ofList hnodup] at hdata
    obtain ⟨b, hb, heq⟩ := List.mem_map.1 (Table.mem_of_lookup_eq_some hdata)
    cases heq
    exact List.mem_map.2 ⟨b, hb, rfl⟩

/-- The kernels of the layer, with their invocations in descending order. -/
theorem layer_kernels_in_reverse :
    ∃ plan, (compile layerSignature layerTerm [2, 2]).plan = .ok plan ∧ plan.kernels ≠ [] ∧
      ∀ k ∈ plan.kernels, ∃ final final',
        Kernel.invokeAll .binary32 k.body (.zeros .binary32 k.inputs) (List.range k.invocations).reverse
          (.zeros .binary32 k.outputs) = (none, final) ∧
        k.dispatch .binary32 (.zeros .binary32 k.inputs) (.zeros .binary32 k.outputs) = (none, final') ∧
        ∀ name, final.find? name = final'.find? name := by
  obtain ⟨plan, hplan⟩ := exists_layer_plan
  refine ⟨plan, hplan, ?_, ?_⟩
  · obtain ⟨id, s, -, hcompiled⟩ := compiledAs_of_ok layerTerm_built hplan
    have hlength : 0 < plan.kernels.length := Nat.lt_of_lt_of_le
      (Nat.lt_of_le_of_lt (Nat.zero_le _) hcompiled.wired.output.1) hcompiled.wired.forward_le
    exact List.ne_nil_of_length_pos hlength
  · intro k hk
    have hfor := Buffers.zeros_for .binary32 k.outputs
    exact (kernels_race_free .binary32 layerTerm_built hplan layerTerm_fits hk
      (Buffers.zeros_for .binary32 k.inputs).isSome_find?).2.2 _ _ hfor hfor _ (List.reverse_perm _)

end TensorKernels
