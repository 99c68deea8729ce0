import TensorKernels.Proofs.HostFold
import TensorKernels.Proofs.StoreTrace
import TensorKernels.Proofs.Wiring

/-!
# Where generated kernels store

In a generated kernel, whether an invocation stores to an output and where depends on its index alone.
An `Outlet` says how: the invocations below its length store, each once and at the place that its access
gives. Every kernel of a layout has such outlets, one per output (`Layout.Sound.emits`), whatever the
sizes of its nodes.
-/

set_option autoImplicit false

namespace TensorKernels

variable {α : Type} (ops : Arithmetic α)

/-! ## Places -/

/-- Where an invocation stores, as a word. -/
def Access.place : Access → UInt32 → UInt32
  | .permuted rows cols, u =>
    (if UInt32.ofNat rows = 0 then 0 else u % UInt32.ofNat rows) * UInt32.ofNat cols +
      if UInt32.ofNat rows = 0 then u else u / UInt32.ofNat rows
  | _, u => u

/-- The code finds the place of an element in a partial buffer. -/
theorem Access.eval_partialIndex (a : Access) (s : Invocation α) :
    a.partialIndex.eval ops s = .ok (.word (a.place s.index)) := by
  cases a <;> rfl

/-- Below `2 ^ 32` elements nothing wraps. -/
theorem Access.toNat_place {a : Access} {m n i : Nat} (h : a.Covers m n) (hn : n < 2 ^ 32)
    (hi : i < n) : (a.place (UInt32.ofNat i)).toNat = a.stored i := by
  have hi' : i < 2 ^ 32 := Nat.lt_trans hi hn
  cases a with
  | permuted rows cols =>
    obtain ⟨hm, hrc⟩ := h
    rw [hrc] at hi hn
    have hrows : 0 < rows := Nat.pos_of_ne_zero fun h0 => by simp [h0] at hi
    have hcols : 0 < cols := Nat.pos_of_ne_zero fun h0 => by simp [h0] at hi
    have hrows' : rows < 2 ^ 32 := Nat.lt_of_le_of_lt (Nat.le_mul_of_pos_right rows hcols) hn
    have hlt : i % rows * cols + i / rows < rows * cols :=
      Access.Covers.position_lt (a := .permuted rows cols) ⟨rfl, rfl⟩ hi
    simp only [place, stored, position, if_neg (Expr.ofNat_ne_zero hrows' hrows)]
    rw [← UInt32.ofNat_mod hi' hrows', ← UInt32.ofNat_div hi' hrows', ← UInt32.ofNat_mul,
      ← UInt32.ofNat_add, UInt32.toNat_ofNat_of_lt' (Nat.lt_trans hlt hn)]
  | aligned => exact UInt32.toNat_ofNat_of_lt' hi'
  | scalar count => exact UInt32.toNat_ofNat_of_lt' hi'
  | row rows cols => exact UInt32.toNat_ofNat_of_lt' hi'
  | col cols => exact UInt32.toNat_ofNat_of_lt' hi'

/-- An output with the length below which invocations store to it, and how they do. -/
structure Outlet where
  name : String
  len : Nat
  access : Access

/-- The element that the invocation of an index stores to, if it does. -/
def Outlet.at? (o : Outlet) (u : UInt32) : Option (String × Nat) :=
  if u < UInt32.ofNat o.len then some (o.name, (o.access.place u).toNat) else none

/-- The buffer and the element of a store. -/
def Write.place (w : Write α) : String × Nat := (w.buffer, w.position)

namespace Stmt

/-- A guard leaves the stores to the invocations below its size. -/
theorem blockWrites_boundsGuard (s : Invocation α) (size : Nat) (rest : List Stmt) :
    blockWrites ops s (boundsGuard size :: rest) =
      (if s.index < UInt32.ofNat size then blockWrites ops s rest else []) ∧
    execBlock ops s (boundsGuard size :: rest) =
      if s.index < UInt32.ofNat size then execBlock ops s rest else .returned s := by
  have hcond : (Expr.index.ge (.ofNat size)).evalCond ops s =
      .ok (decide (UInt32.ofNat size ≤ s.index)) := rfl
  rw [blockWrites_cons, execBlock_cons, boundsGuard, exec, writes, hcond]
  by_cases hlt : s.index < UInt32.ofNat size
  · rw [if_pos hlt, if_pos hlt, decide_eq_false (UInt32.not_le.2 hlt)]
    exact ⟨rfl, rfl⟩
  · rw [if_neg hlt, if_neg hlt, decide_eq_true (UInt32.not_lt.1 hlt)]
    exact ⟨rfl, rfl⟩

/-- A store that does not fail is made where its access says. -/
theorem exec_store_place {name : String} {a : Access} {value : Expr} {s : Invocation α}
    (hfault : ((Stmt.store name a.partialIndex value).exec ops s).fault? = none) :
    ∃ x, (Stmt.store name a.partialIndex value).exec ops s =
        .next (s.write name (a.place s.index).toNat x) ∧
      (Stmt.store name a.partialIndex value).writes ops s = [⟨name, (a.place s.index).toNat, x⟩] := by
  have hposition : ∀ i x, Expr.storeOperands ops s a.partialIndex value = .ok (i, x) →
      i = a.place s.index := by
    intro i x hok
    unfold Expr.storeOperands at hok
    rw [a.eval_partialIndex] at hok
    cases hv : value.eval ops s with
    | error fault => simp [hv, bind, Except.bind, Value.toWord] at hok
    | ok v =>
      cases v with
      | scalar y =>
        simp only [hv, bind, Except.bind, Value.toWord, Value.toScalar, Except.ok.injEq,
          Prod.mk.injEq] at hok
        exact hok.1.symm
      | word n => simp [hv, bind, Except.bind, Value.toWord, Value.toScalar] at hok
      | truth b => simp [hv, bind, Except.bind, Value.toWord, Value.toScalar] at hok
  simp only [exec, writes] at hfault ⊢
  cases hoperands : Expr.storeOperands ops s a.partialIndex value with
  | error fault =>
    rw [hoperands] at hfault
    cases hfault
  | ok e =>
    obtain ⟨i, x⟩ := e
    obtain rfl := hposition i x hoperands
    rw [hoperands] at hfault
    simp only at hfault ⊢
    by_cases hbound : s.outputs.contains name
    · exact ⟨x, if_pos hbound, if_pos hbound⟩
    · rw [if_neg hbound] at hfault
      cases hfault

/-- What ends without a fault has begun without one. -/
theorem fault?_of_andThen {o : Outcome α} {f : Invocation α → Outcome α}
    (h : (o.andThen f).fault? = none) : o.fault? = none := by
  cases o with
  | next s => rfl
  | returned s => rfl
  | failed fault s => cases h

/-- Stores one after the other are made where their accesses say. -/
theorem places_stores (l : List (String × Access × Expr)) {s : Invocation α}
    (hfault : (execBlock ops s (l.map fun e => .store e.1 e.2.1.partialIndex e.2.2)).fault? = none) :
    (blockWrites ops s (l.map fun e => .store e.1 e.2.1.partialIndex e.2.2)).map Write.place =
      l.map fun e => (e.1, (e.2.1.place s.index).toNat) := by
  induction l generalizing s with
  | nil => rfl
  | cons e l ih =>
    rw [List.map_cons, execBlock_cons] at hfault
    obtain ⟨x, hexec, hwrites⟩ := exec_store_place ops (fault?_of_andThen hfault)
    rw [hexec] at hfault
    rw [List.map_cons, blockWrites_cons, hexec, hwrites]
    exact congrArg (_ :: ·) (ih (s := s.write e.1 (e.2.1.place s.index).toNat x) hfault)

/-- Code that ends in one store, run below a length. -/
def storeBelow (len : Nat) (code : List Stmt) (name : String) (value : Expr) : Stmt :=
  .ifThen (Expr.index.lt (.ofNat len)) (code ++ [.store name .index value])

/-- Guarded blocks one after the other store at the index, each where the index is below its length. -/
theorem places_storeBelow (l : List (Nat × List Stmt × String × Expr))
    (hquiet : ∀ e ∈ l, blockQuiet e.2.1 = true) {s : Invocation α}
    (hfault : (execBlock ops s (l.map fun e => storeBelow e.1 e.2.1 e.2.2.1 e.2.2.2)).fault? = none) :
    (blockWrites ops s (l.map fun e => storeBelow e.1 e.2.1 e.2.2.1 e.2.2.2)).map Write.place =
      l.filterMap fun e => Outlet.at? ⟨e.2.2.1, e.1, .aligned⟩ s.index := by
  induction l generalizing s with
  | nil => rfl
  | cons e l ih =>
    obtain ⟨len, code, name, value⟩ := e
    have hrest := fun {t : Invocation α} => ih (fun e he => hquiet e (List.mem_cons_of_mem _ he)) (s := t)
    have hcond : (Expr.index.lt (.ofNat len)).evalCond ops s =
        .ok (decide (s.index < UInt32.ofNat len)) := rfl
    rw [List.map_cons, execBlock_cons, storeBelow, exec, hcond] at hfault
    rw [List.map_cons, blockWrites_cons, storeBelow, exec, writes, hcond, List.filterMap_cons,
      Outlet.at?]
    by_cases hlt : s.index < UInt32.ofNat len
    · rw [decide_eq_true hlt] at hfault ⊢
      rw [if_pos hlt]
      simp only at hfault ⊢
      -- the block is quiet code and one store, which does not fail
      obtain ⟨t, -, hindex, hwrites, hexec⟩ :=
        blockWrites_quiet_append ops (hquiet _ List.mem_cons_self) (fault?_of_andThen hfault)
      rw [hexec, execBlock_singleton] at hfault
      rw [hwrites, hexec, execBlock_singleton]
      obtain ⟨x, hstore, hwrite⟩ := exec_store_place ops (a := .aligned) (fault?_of_andThen hfault)
      have hstore : (Stmt.store name .index value).exec ops t =
        .next (t.write name t.index.toNat x) := hstore
      have hwrite : (Stmt.store name .index value).writes ops t = [⟨name, t.index.toNat, x⟩] := hwrite
      rw [hstore] at hfault ⊢
      rw [blockWrites_cons, hwrite, hstore, ← hindex]
      exact congrArg (_ :: ·) (hrest (t := t.write name t.index.toNat x) hfault)
    · rw [decide_eq_false hlt] at hfault ⊢
      rw [if_neg hlt]
      exact hrest hfault

end Stmt

/-! ## Generated code is quiet -/

/-- Forward code is quiet. -/
theorem Op.quiet_forward (op : Op) (out : String) (operands : List Operand) :
    Stmt.blockQuiet (op.forward out operands) = true := by
  cases op <;> rfl

/-- Seeds are quiet. -/
theorem quiet_seedCode (name : String) (isRoot : Bool) (incoming : List PartialBuffer)
    (position : Expr) (loopVar : String) :
    Stmt.blockQuiet (seedCode name isRoot incoming position loopVar) = true := by
  show Stmt.blockQuiet (List.flatten _) = true
  refine Stmt.blockQuiet_flatten ?_
  intro block hblock
  obtain ⟨j, hj, rfl⟩ := List.mem_mapIdx.1 hblock
  cases incoming[j].access <;> rfl

/-- The gradient code of a reduction is quiet if its seeds are. -/
theorem Op.quiet_reductionGradient (op : Op) (i : Nat) {r : ReductionFrame}
    (hseed : ∀ name position loopVar, Stmt.blockQuiet (r.seed name position loopVar) = true) :
    Stmt.blockQuiet (op.reductionGradient i r).1 = true := by
  cases op with
  | matmul =>
    show (true && (true && (true && (Stmt.blockQuiet (r.seed _ _ _ ++ [_]) && true)))) = true
    rw [Stmt.blockQuiet_append, hseed]
    rfl
  | fold f axis => exact hseed _ _ _
  | softmax =>
    show Stmt.blockQuiet (([_] ++ r.seed _ _ _) ++ [_, .forLoop _ _ (r.seed _ _ _ ++ [_])]) = true
    simp only [Stmt.blockQuiet_append, Stmt.blockQuiet, Stmt.quiet, hseed, Bool.and_true, Bool.true_and]
    rfl
  | _ => rfl

/-- The kernel stores through outlets: one per output, each within the size of the kernel. -/
structure Kernel.Emits (k : Kernel) (outlets : List Outlet) : Prop where
  typed : k.Typed
  nodup : (outlets.map Outlet.name).Nodup
  outlet : ∀ b ∈ k.outputs.entries, ∃ o ∈ outlets, o.name = b.name ∧ o.len = b.len
  covers : ∀ o ∈ outlets, ∃ m, o.access.Covers m o.len
  len_le : ∀ o ∈ outlets, o.len ≤ k.size
  places : ∀ inputs outputs : Buffers α, (∀ b ∈ k.inputs.names, (inputs.find? b).isSome) →
    (∀ b ∈ k.outputs.names, (outputs.find? b).isSome) → ∀ i,
    (k.writes ops inputs outputs i).map Write.place =
      outlets.filterMap fun o => o.at? (UInt32.ofNat i)

namespace Layout

variable {l : Layout} {masks : Array MaskSite}

/-- The code of a node is quiet. -/
theorem quiet_forwardCode (c id : Nat) : Stmt.blockQuiet (l.forwardCode c id) = true := by
  unfold forwardCode
  cases (l.node id).kind with
  | op op => exact op.quiet_forward _ _
  | _ => rfl

/-- The seeds of a context are quiet. -/
theorem quiet_seeds (partials : List PartialBuffer) (ids : List Nat) :
    Stmt.blockQuiet (l.seeds partials ids) = true := by
  refine Stmt.blockQuiet_flatten ?_
  intro block hblock
  obtain ⟨id, -, rfl⟩ := List.mem_map.1 hblock
  exact quiet_seedCode _ _ _ _ _

/-- The collectors and rules of a context are quiet. -/
theorem quiet_rules (keys : List ((Nat × Access) × (String × Owner))) (cs : List Contribution) :
    Stmt.blockQuiet ((keys.mapIdx fun k _ => Stmt.varDecl (collectorName k) (.float 0.0)) ++
      cs.filterMap (ruleCode keys)) = true := by
  have hall : ∀ block : List Stmt, (∀ stmt ∈ block, stmt.quiet = true) → Stmt.blockQuiet block = true := by
    intro block
    induction block with
    | nil => exact fun _ => rfl
    | cons stmt block ih =>
      intro h
      rw [Stmt.blockQuiet, h stmt List.mem_cons_self, ih fun s hs => h s (List.mem_cons_of_mem _ hs)]
      rfl
  refine hall _ ?_
  intro stmt hstmt
  rcases List.mem_append.1 hstmt with hstmt | hstmt
  · obtain ⟨j, hj, rfl⟩ := List.mem_mapIdx.1 hstmt
    rfl
  · obtain ⟨x, -, hx⟩ := List.mem_filterMap.1 hstmt
    unfold ruleCode at hx
    split at hx <;> cases hx <;> rfl

/-! ## Kernels of a layout -/

/-- A map after a numbered map, as one numbered map. -/
theorem map_mapIdx {β γ δ : Type} (xs : List β) (f : Nat → β → γ) (g : γ → δ) :
    (xs.mapIdx f).map g = xs.mapIdx fun i x => g (f i x) := by
  rw [List.mapIdx_eq_zipIdx_map, List.mapIdx_eq_zipIdx_map, List.map_map]
  rfl

/-- A numbered map whose numbers do not matter to what is kept. -/
theorem filterMap_mapIdx {β γ δ : Type} {xs : List β} {f : Nat → β → γ} {g : γ → Option δ}
    {k : β → Option δ} (h : ∀ i, ∀ x ∈ xs, g (f i x) = k x) :
    (xs.mapIdx f).filterMap g = xs.filterMap k := by
  rw [List.mapIdx_eq_zipIdx_map, List.filterMap_map]
  conv_rhs => rw [← List.zipIdx_map_fst 0 xs, List.filterMap_map]
  refine List.filterMap_congr ?_
  rintro ⟨x, i⟩ hx
  exact h i x (List.fst_mem_of_mem_zipIdx hx)

/-- Zipped lists in which only the second entry matters to what is kept. -/
theorem filterMap_zipWith {β γ δ ε : Type} {R : β → γ → Prop} {xs : List β} {ys : List γ}
    (h : List.Forall₂ R xs ys) {f : β → γ → δ} {g : δ → Option ε} {k : γ → Option ε}
    (hk : ∀ x y, R x y → g (f x y) = k y) : (List.zipWith f xs ys).filterMap g = ys.filterMap k := by
  induction h with
  | nil => rfl
  | cons hxy _ ih => rw [List.zipWith_cons_cons, List.filterMap_cons, List.filterMap_cons, hk _ _ hxy, ih]

/-- A guard, quiet code and stores. -/
theorem places_guarded {k : Kernel} (htyped : k.Typed) {size : Nat} {code : List Stmt}
    (hquiet : Stmt.blockQuiet code = true) {stores : List (String × Access × Expr)}
    (hbody : k.body = .boundsGuard size ::
      (code ++ stores.map fun e => .store e.1 e.2.1.partialIndex e.2.2))
    {inputs outputs : Buffers α} (hinputs : ∀ b ∈ k.inputs.names, (inputs.find? b).isSome)
    (houtputs : ∀ b ∈ k.outputs.names, (outputs.find? b).isSome) (i : Nat) :
    (k.writes ops inputs outputs i).map Write.place =
      stores.filterMap fun e => Outlet.at? ⟨e.1, size, e.2.1⟩ (UInt32.ofNat i) := by
  have hfault := htyped.fault?_eq_none ops hinputs houtputs i
  unfold Kernel.invoke at hfault
  unfold Kernel.writes
  generalize hs : (⟨UInt32.ofNat i, .empty, inputs, outputs⟩ : Invocation α) = s at hfault ⊢
  have hindex : s.index = UInt32.ofNat i := by rw [← hs]
  rw [hbody] at hfault ⊢
  obtain ⟨hwrites, hexec⟩ := Stmt.blockWrites_boundsGuard ops s size
    (code ++ stores.map fun e => .store e.1 e.2.1.partialIndex e.2.2)
  rw [hexec] at hfault
  rw [hwrites, ← hindex]
  by_cases hlt : s.index < UInt32.ofNat size
  · rw [if_pos hlt] at hfault ⊢
    obtain ⟨t, -, hindex', hwrites', hexec'⟩ := Stmt.blockWrites_quiet_append ops hquiet hfault
    rw [hexec'] at hfault
    rw [hwrites', Stmt.places_stores ops stores hfault, hindex']
    simp only [Outlet.at?, if_pos hlt]
    exact (List.filterMap_eq_map (f := fun e : String × Access × Expr =>
      (e.1, (e.2.1.place s.index).toNat)) ▸ rfl)
  · rw [if_neg hlt]
    simp [Outlet.at?, hlt]

/-- A forward kernel stores its exports, each at the index of the invocation. -/
theorem Sound.forward_emits (h : l.Sound masks) (c : Nat) :
    (l.forwardKernel c).trimmed.Emits ops
      ((l.exports c).map fun id => ⟨outputName (Node.varName id), l.sizeOf c, .aligned⟩) := by
  have htyped : (l.forwardKernel c).trimmed.Typed := ⟨_, Kernel.trimmed_typed (h.forward_typed c)⟩
  refine ⟨htyped, ?_, ?_, ?_, ?_, ?_⟩
  · rw [List.map_map]
    refine List.Nodup.map ?_ (List.Nodup.sublist List.filter_sublist ?_)
    · exact fun id id' heq => Node.varName_injective (outputName_injective heq)
    · exact (h.members_sorted c).imp Nat.ne_of_lt
  · intro b hb
    rcases Bindings.mem_entries_registerAll (Kernel.mem_trimmed_outputs.1 hb).1 with hb | hb
    · cases hb
    · obtain ⟨id, hid, rfl⟩ := List.mem_map.1 hb
      refine ⟨_, List.mem_map.2 ⟨id, hid, rfl⟩, rfl, ?_⟩
      exact h.sizeOf_eq id c ((h.mem_members c id).1 (exports_subset c hid))
  · intro o ho
    obtain ⟨id, -, rfl⟩ := List.mem_map.1 ho
    exact ⟨l.sizeOf c, rfl⟩
  · intro o ho
    obtain ⟨id, -, rfl⟩ := List.mem_map.1 ho
    exact Nat.le_refl _
  · intro inputs outputs hinputs houtputs i
    have hquiet : Stmt.blockQuiet ((l.members c).flatMap (l.forwardCode c)) = true := by
      refine Stmt.blockQuiet_flatten ?_
      intro block hblock
      obtain ⟨id, -, rfl⟩ := List.mem_map.1 hblock
      exact quiet_forwardCode c id
    have hbody : (l.forwardKernel c).trimmed.body = .boundsGuard (l.sizeOf c) ::
        ((l.members c).flatMap (l.forwardCode c) ++
          ((l.exports c).map fun id => (outputName (Node.varName id), Access.aligned,
            Expr.var (Node.varName id))).map fun e => .store e.1 e.2.1.partialIndex e.2.2) := by
      rw [List.map_map]
      rfl
    rw [places_guarded ops htyped hquiet hbody hinputs houtputs, List.filterMap_map, List.filterMap_map]
    rfl

/-- The outlets of a backward kernel are those of its partial buffers. -/
def partialOutlets (ps : List PartialBuffer) : List Outlet :=
  ps.map fun p => ⟨outputName p.name, p.len, p.access⟩

/-- What is known of a backward kernel, but for its stores. -/
theorem BackwardOk.emits {partials : List PartialBuffer} {c : Nat} {b : BackwardKernel}
    (h : l.BackwardOk partials c b) (hsize : ∀ p ∈ b.partials, p.len ≤ b.kernel.size)
    (hplaces : ∀ inputs outputs : Buffers α,
      (∀ x ∈ b.kernel.trimmed.inputs.names, (inputs.find? x).isSome) →
      (∀ x ∈ b.kernel.trimmed.outputs.names, (outputs.find? x).isSome) → ∀ i,
      (b.kernel.trimmed.writes ops inputs outputs i).map Write.place =
        (partialOutlets b.partials).filterMap fun o => o.at? (UInt32.ofNat i)) :
    b.kernel.trimmed.Emits ops (partialOutlets b.partials) := by
  refine ⟨⟨_, Kernel.trimmed_typed h.typed⟩, ?_, ?_, ?_, ?_, hplaces⟩
  · have hnodup := b.kernel.outputs.nodup
    rw [h.outputs, List.map_map] at hnodup
    rw [partialOutlets, List.map_map]
    exact hnodup
  · intro x hx
    have hx := (Kernel.mem_trimmed_outputs.1 hx).1
    rw [h.outputs] at hx
    obtain ⟨p, hp, rfl⟩ := List.mem_map.1 hx
    exact ⟨_, List.mem_map.2 ⟨p, hp, rfl⟩, rfl, rfl⟩
  · intro o ho
    obtain ⟨p, hp, rfl⟩ := List.mem_map.1 ho
    obtain ⟨o, -, -, hcovers⟩ := h.owned p hp
    exact ⟨_, hcovers⟩
  · intro o ho
    obtain ⟨p, hp, rfl⟩ := List.mem_map.1 ho
    exact hsize p hp

/-- A regular backward kernel stores its partial buffers, each at the place of its access. -/
theorem Sound.regular_emits (h : l.Sound masks) (partials : List PartialBuffer) {c : Nat}
    (hreg : l.classOf c = .regular) :
    (l.regularBackward partials c).kernel.trimmed.Emits ops
      (partialOutlets (l.regularBackward partials c).partials) := by
  have hok := h.regularBackward_ok partials hreg
  have hlen : ∀ p ∈ (l.regularBackward partials c).partials, p.len = l.sizeOf c := by
    intro p hp
    obtain ⟨-, -, -, -, hlen⟩ := exists_of_forall₂ (layOut_spec c (l.sizeOf c) (l.contextKeys c)).2 hp
    exact hlen
  refine hok.emits ops (fun p hp => Nat.le_of_eq (hlen p hp)) ?_
  intro inputs outputs hinputs houtputs i
  have hquiet : Stmt.blockQuiet (l.seeds partials (l.members c) ++
      ((l.contextKeys c).mapIdx fun k _ => Stmt.varDecl (collectorName k) (.float 0.0)) ++
      (l.contextContributions c).filterMap (ruleCode (l.contextKeys c))) = true := by
    rw [List.append_assoc, Stmt.blockQuiet_append, quiet_seeds, quiet_rules]
    rfl
  have hbody : (l.regularBackward partials c).kernel.trimmed.body = .boundsGuard (l.sizeOf c) ::
      ((l.seeds partials (l.members c) ++
          ((l.contextKeys c).mapIdx fun k _ => Stmt.varDecl (collectorName k) (.float 0.0)) ++
          (l.contextContributions c).filterMap (ruleCode (l.contextKeys c))) ++
        ((l.regularBackward partials c).partials.mapIdx fun k p =>
          (outputName p.name, p.access, Expr.var (collectorName k))).map
            fun e => .store e.1 e.2.1.partialIndex e.2.2) := by
    rw [map_mapIdx]
    rfl
  rw [places_guarded ops ⟨_, Kernel.trimmed_typed hok.typed⟩ hquiet hbody hinputs houtputs,
    partialOutlets, List.filterMap_map]
  refine filterMap_mapIdx fun k p hp => ?_
  simp only [Function.comp_apply, hlen p hp]

/-- The backward kernel of a reduction stores its partial buffers, each up to its own length. -/
theorem Sound.reduction_emits (h : l.Sound masks) (partials : List PartialBuffer) {c id : Nat}
    (hid : l.home id = some c) {op : Op} (hop : (l.node id).kind = .op op)
    (hred : op.opClass = .reduction) :
    (l.reductionBackward partials c id op).kernel.trimmed.Emits ops
      (partialOutlets (l.reductionBackward partials c id op).partials) := by
  have hok := h.reductionBackward_ok partials hid hop hred
  obtain ⟨ps, -, hpartials, hbody, hps⟩ :=
    reductionBlocks_spec (l := l) partials c id op (l.node id).operands.zipIdx [] (.empty c)
  have hpartials : (l.reductionBackward partials c id op).partials = ps := hpartials
  refine hok.emits ops (fun p hp => ?_) ?_
  · exact (le_foldl_max PartialBuffer.len (l.reductionBackward partials c id op).partials 0).2 p hp
  intro inputs outputs hinputs houtputs i
  let piece (t : Nat × Nat × Owner) (p : PartialBuffer) : Nat × List Stmt × String × Expr :=
    ((l.node t.1).size, (op.reductionGradient t.2.1 (l.reductionFrame partials id t.2.1)).1,
      outputName p.name, (op.reductionGradient t.2.1 (l.reductionFrame partials id t.2.1)).2)
  have hbody : (l.reductionBackward partials c id op).kernel.trimmed.body =
      (List.zipWith piece (l.reductionTargets c (l.node id).operands.zipIdx) ps).map
        fun e => Stmt.storeBelow e.1 e.2.1 e.2.2.1 e.2.2.2 := by
    rw [List.map_zipWith]
    exact hbody
  have hfault := Kernel.Typed.fault?_eq_none ops ⟨_, Kernel.trimmed_typed hok.typed⟩ hinputs houtputs i
  unfold Kernel.invoke at hfault
  unfold Kernel.writes
  rw [hbody] at hfault ⊢
  rw [Stmt.places_storeBelow ops _ ?_ hfault, hpartials, partialOutlets, List.filterMap_map]
  · -- each partial buffer is as long as its operand and read in place
    refine filterMap_zipWith hps fun t p htp => ?_
    simp only [Function.comp_apply, piece, htp.2.1, htp.2.2]
  · intro e he
    obtain ⟨k, hk, rfl⟩ := List.mem_iff_getElem.1 he
    rw [List.getElem_zipWith]
    exact op.quiet_reductionGradient _ fun _ _ _ => quiet_seedCode _ _ _ _ _

/-- Every kernel of a layout stores through outlets. -/
theorem Sound.emits (h : l.Sound masks) {k : Kernel} (hk : k ∈ l.kernelList) :
    ∃ outlets, k.Emits ops outlets := by
  rcases h.kernelList_cases hk with ⟨c, -, rfl⟩ | ⟨partials, c, -, hreg, -, rfl⟩ |
    ⟨partials, c, id, op, -, hid, hop, hred, -, rfl⟩
  · exact ⟨_, h.forward_emits ops c⟩
  · exact ⟨_, h.regular_emits ops _ hreg⟩
  · exact ⟨_, h.reduction_emits ops _ hid hop hred⟩

end Layout

end TensorKernels
