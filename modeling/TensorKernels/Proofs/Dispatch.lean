import Mathlib.Data.List.Nodup
import TensorKernels.Proofs.Evaluation

/-!
# All invocations of a kernel

In generated kernels an invocation stores at most one element to each buffer. `write b i` says which
one invocation `i` stores to buffer `b`, if any; then a dispatch leaves in each buffer what the writes
of all invocations, in order, make of it (`Kernel.invokeAll_writes`). Where the writes cover a buffer
and agree on each element, the buffer ends up with exactly those elements (`foldl_write_eq_ofFn`).

Without any knowledge of values, scoped code runs without a fault and keeps the length of every
buffer (`Kernel.invokeAll_typed`).
-/

set_option autoImplicit false

namespace TensorKernels

variable {α : Type} (ops : Arithmetic α)

/-- The buffer with one element replaced, if there is anything to write. -/
def applyWrite (d : Array α) : Option (Nat × α) → Array α
  | none => d
  | some (j, x) => d.setIfInBounds j x

/-- A write keeps the size of a buffer. -/
@[simp] theorem size_applyWrite (d : Array α) (w : Option (Nat × α)) :
    (applyWrite d w).size = d.size := by
  cases w with
  | none => rfl
  | some w => simp [applyWrite]

/-- Writes that cover a buffer and agree on its elements determine it. -/
theorem foldl_write_eq_ofFn {n : Nat} (indices : List Nat) (write : Nat → Option (Nat × α))
    (f : Nat → α) (d : Array α) (hd : d.size = n)
    (hvalue : ∀ i ∈ indices, ∀ j x, write i = some (j, x) → j < n → x = f j)
    (hcover : ∀ j < n, ∃ i ∈ indices, ∃ x, write i = some (j, x)) :
    indices.foldl (fun d i => applyWrite d (write i)) d = Array.ofFn fun j : Fin n => f j := by
  -- after some invocations, every element that one of them wrote has its value
  have hkey : ∀ (indices : List Nat) (d : Array α), d.size = n →
      (∀ i ∈ indices, ∀ j x, write i = some (j, x) → j < n → x = f j) →
      (indices.foldl (fun d i => applyWrite d (write i)) d).size = n ∧
        ∀ j < n, ((∃ i ∈ indices, ∃ x, write i = some (j, x)) ∨ d[j]? = some (f j)) →
          (indices.foldl (fun d i => applyWrite d (write i)) d)[j]? = some (f j) := by
    intro indices
    induction indices with
    | nil =>
      intro d hd _
      refine ⟨hd, ?_⟩
      rintro j hj (⟨i, hi, -⟩ | hj')
      · cases hi
      · exact hj'
    | cons i indices ih =>
      intro d hd hval
      rw [List.foldl_cons]
      have hsize : (applyWrite d (write i)).size = n := by rw [size_applyWrite, hd]
      obtain ⟨hs, helem⟩ := ih _ hsize fun i' hi' => hval i' (by simp [hi'])
      refine ⟨hs, ?_⟩
      intro j hj hor
      refine helem j hj ?_
      by_cases hlater : ∃ i' ∈ indices, ∃ x, write i' = some (j, x)
      · exact .inl hlater
      · refine .inr ?_
        cases hw : write i with
        | none =>
          rcases hor with ⟨i', hi', x, hx⟩ | hj'
          · rcases List.mem_cons.1 hi' with rfl | hi'
            · rw [hw] at hx
              cases hx
            · exact absurd ⟨i', hi', x, hx⟩ hlater
          · exact hj'
        | some w =>
          obtain ⟨j', x⟩ := w
          simp only [applyWrite]
          rw [Array.getElem?_setIfInBounds]
          by_cases hjj : j' = j
          · subst hjj
            rw [if_pos rfl, if_pos (by omega), hval i (by simp) j' x hw hj]
          · rw [if_neg hjj]
            rcases hor with ⟨i', hi', y, hy⟩ | hj'
            · rcases List.mem_cons.1 hi' with rfl | hi'
              · rw [hw] at hy
                cases hy
                exact absurd rfl hjj
              · exact absurd ⟨i', hi', y, hy⟩ hlater
            · exact hj'
  obtain ⟨hs, helem⟩ := hkey indices d hd hvalue
  refine Array.ext (by rw [hs, Array.size_ofFn]) ?_
  intro j h₁ h₂
  have hj : j < n := by rwa [hs] at h₁
  have := helem j hj (.inl (hcover j hj))
  rw [Array.getElem?_eq_getElem h₁] at this
  simpa using this

/-- The buffers are bound under the same names and have the same lengths. -/
def Buffers.SameSizes (a b : Buffers α) : Prop :=
  ∀ name, (b.find? name).map Array.size = (a.find? name).map Array.size

/-- Buffers have the sizes that they have. -/
theorem Buffers.SameSizes.refl (a : Buffers α) : a.SameSizes a := fun _ => rfl

/-- Buffers of the same sizes as a third have the same sizes. -/
theorem Buffers.SameSizes.trans {a b c : Buffers α} (h : a.SameSizes b) (h' : b.SameSizes c) :
    a.SameSizes c := fun name => (h' name).trans (h name)

/-- Buffers of the same sizes have the same names. -/
theorem Buffers.SameSizes.isSome {a b : Buffers α} (h : a.SameSizes b) (name : String) :
    (b.find? name).isSome = (a.find? name).isSome := by
  have := congrArg Option.isSome (h name)
  simpa using this

/-- A buffer is found on the other side, with its size. -/
theorem Buffers.SameSizes.find? {a b : Buffers α} (h : a.SameSizes b) {name : String}
    {data : Array α} {n : Nat} (hdata : a.find? name = some data) (hsize : data.size = n) :
    ∃ data', b.find? name = some data' ∧ data'.size = n := by
  have := h name
  rw [hdata, Option.map_some, Option.map_eq_some_iff] at this
  obtain ⟨data', hdata', hs⟩ := this
  exact ⟨data', hdata', hs.trans hsize⟩

/-- A name is bound once. -/
theorem Bindings.eq_of_name {bs : Bindings} {b b' : Binding} (hb : b ∈ bs.entries)
    (hb' : b' ∈ bs.entries) (h : b.name = b'.name) : b = b' :=
  List.inj_on_of_nodup_map bs.nodup hb hb' h

/-- Buffers for bindings: one of the right length for each, and no others. -/
structure Buffers.For (bindings : Bindings) (bs : Buffers α) : Prop where
  found : ∀ b ∈ bindings.entries, ∃ data, bs.find? b.name = some data ∧ data.size = b.len
  only : ∀ name data, bs.find? name = some data → name ∈ bindings.names

namespace Kernel

/-- On inputs that satisfy `In` a dispatch ends without a fault, keeps the length of every output and
leaves outputs that satisfy `Out`. -/
def Meets (k : Kernel) (In Out : Binding → Array α → Prop) : Prop :=
  ∀ inputs outputs : Buffers α,
    (∀ b ∈ k.inputs.entries, ∃ data, inputs.find? b.name = some data ∧ In b data) →
    outputs.For k.outputs →
    ∃ final, k.dispatch ops inputs outputs = (none, final) ∧ outputs.SameSizes final ∧
      ∀ b ∈ k.outputs.entries, ∃ data, final.find? b.name = some data ∧ Out b data

/-- A kernel that meets a specification meets a weaker one. -/
theorem Meets.mono {k : Kernel} {In In' Out Out' : Binding → Array α → Prop}
    (h : k.Meets ops In Out) (hin : ∀ b ∈ k.inputs.entries, ∀ data, In' b data → In b data)
    (hout : ∀ b ∈ k.outputs.entries, ∀ data, Out b data → Out' b data) : k.Meets ops In' Out' := by
  intro inputs outputs hinputs houtputs
  obtain ⟨final, hdispatch, hsame, hfinal⟩ := h inputs outputs
    (fun b hb => (hinputs b hb).imp fun data hd => ⟨hd.1, hin b hb data hd.2⟩) houtputs
  exact ⟨final, hdispatch, hsame,
    fun b hb => (hfinal b hb).imp fun data hd => ⟨hd.1, hout b hb data hd.2⟩⟩

/-- What one invocation stores: it ends without a fault, and in each buffer at most one element is
replaced. -/
def Stores (body : List Stmt) (inputs outputs : Buffers α) (i : Nat)
    (write : String → Option (Nat × α)) : Prop :=
  (invoke ops body inputs outputs i).fault? = none ∧
    ∀ b, (invoke ops body inputs outputs i).state.outputs.find? b =
      (outputs.find? b).map fun d => applyWrite d (write b)

/-- All invocations together. -/
theorem invokeAll_writes (body : List Stmt) (inputs : Buffers α)
    (write : String → Nat → Option (Nat × α)) (outputs₀ : Buffers α) (indices : List Nat)
    (h : ∀ i ∈ indices, ∀ outputs : Buffers α, outputs₀.SameSizes outputs →
      Stores ops body inputs outputs i fun b => write b i)
    (outputs : Buffers α) (hsame : outputs₀.SameSizes outputs) :
    ∃ final, invokeAll ops body inputs indices outputs = (none, final) ∧
      ∀ b, final.find? b = (outputs.find? b).map fun d =>
        indices.foldl (fun d i => applyWrite d (write b i)) d := by
  induction indices generalizing outputs with
  | nil =>
    refine ⟨outputs, rfl, ?_⟩
    intro b
    cases outputs.find? b <;> rfl
  | cons i indices ih =>
    obtain ⟨hfault, hstate⟩ := h i (by simp) outputs hsame
    -- the outcome is no fault, so the remaining invocations run
    have hrun : invokeAll ops body inputs (i :: indices) outputs =
        invokeAll ops body inputs indices (invoke ops body inputs outputs i).state.outputs := by
      rw [invokeAll]
      cases ho : invoke ops body inputs outputs i with
      | next s => rfl
      | returned s => rfl
      | failed fault s =>
        rw [ho] at hfault
        cases hfault
    have hsame' : outputs₀.SameSizes (invoke ops body inputs outputs i).state.outputs := by
      refine hsame.trans ?_
      intro b
      rw [hstate b]
      cases outputs.find? b <;> simp
    obtain ⟨final, hfinal, hfind⟩ := ih (fun i' hi' => h i' (by simp [hi'])) _ hsame'
    refine ⟨final, by rw [hrun, hfinal], ?_⟩
    intro b
    rw [hfind b, hstate b, Option.map_map]
    rfl

/-- A buffer whose elements are all written, with agreeing values, by the invocations of a kernel. -/
theorem dispatch_eq_ofFn {k : Kernel} (inputs outputs : Buffers α)
    (write : String → Nat → Option (Nat × α)) (f : String → Nat → α)
    (h : ∀ i < k.invocations, ∀ outputs' : Buffers α, outputs.SameSizes outputs' →
      Stores ops k.body inputs outputs' i fun b => write b i)
    (hvalue : ∀ b d, outputs.find? b = some d → ∀ i < k.invocations, ∀ j x, write b i = some (j, x) →
      j < d.size → x = f b j)
    (hcover : ∀ b d, outputs.find? b = some d → ∀ j < d.size,
      ∃ i < k.invocations, ∃ x, write b i = some (j, x)) :
    ∃ final, k.dispatch ops inputs outputs = (none, final) ∧
      ∀ b, final.find? b = (outputs.find? b).map fun d => Array.ofFn fun j : Fin d.size => f b j := by
  obtain ⟨final, hfinal, hfind⟩ := invokeAll_writes ops k.body inputs write outputs
    (List.range k.invocations) (fun i hi => h i (List.mem_range.1 hi)) outputs (.refl outputs)
  refine ⟨final, hfinal, ?_⟩
  intro b
  rw [hfind b]
  cases hb : outputs.find? b with
  | none => rfl
  | some d =>
    rw [Option.map_some, Option.map_some]
    congr 1
    refine foldl_write_eq_ofFn _ _ _ d rfl ?_ ?_
    · intro i hi j x hw hj
      exact hvalue b d hb i (List.mem_range.1 hi) j x hw hj
    · intro j hj
      obtain ⟨i, hi, x, hx⟩ := hcover b d hb j hj
      exact ⟨i, List.mem_range.2 hi, x, hx⟩

/-- A dispatch binds no new outputs. -/
theorem keys_invokeAll (body : List Stmt) (inputs : Buffers α) (indices : List Nat)
    (outputs : Buffers α) : (invokeAll ops body inputs indices outputs).2.keys = outputs.keys := by
  induction indices generalizing outputs with
  | nil => rfl
  | cons i indices ih =>
    have hframe := Stmt.execBlock_frame ops ⟨UInt32.ofNat i, .empty, inputs, outputs⟩ body
    rw [invokeAll]
    unfold invoke
    cases ho : Stmt.execBlock ops ⟨UInt32.ofNat i, .empty, inputs, outputs⟩ body with
    | next s =>
      rw [ho] at hframe
      exact (ih s.outputs).trans hframe.keys
    | returned s =>
      rw [ho] at hframe
      exact (ih s.outputs).trans hframe.keys
    | failed fault s =>
      rw [ho] at hframe
      exact hframe.keys

/-- Scoped code on bound buffers runs without a fault and keeps the length of every buffer. -/
theorem invokeAll_typed {kinds : String → ValueKind} {body : List Stmt} {buffers outs : List String}
    (hbody : Stmt.BlockTyped kinds [] buffers outs body) (inputs : Buffers α) (indices : List Nat)
    (outputs : Buffers α) (hin : ∀ b ∈ buffers, (inputs.find? b).isSome)
    (hout : ∀ b ∈ outs, (outputs.find? b).isSome) :
    ∃ final, invokeAll ops body inputs indices outputs = (none, final) ∧
      outputs.SameSizes final := by
  induction indices generalizing outputs with
  | nil => exact ⟨outputs, rfl, .refl outputs⟩
  | cons i indices ih =>
    have hkinded : Invocation.Kinded kinds [] ⟨UInt32.ofNat i, .empty, inputs, outputs⟩ := by
      intro name hname
      cases hname
    have hfine := Stmt.execBlock_scoped ops hkinded body hbody.inScope
      (by
        intro b hb
        obtain ⟨data, hdata⟩ := Option.isSome_iff_exists.1 (hin b (hbody.loads hb))
        simp [Invocation.buffer?, hdata])
      (fun b hb => hout b (hbody.stores hb))
    have hstep : ∃ outputs', invokeAll ops body inputs (i :: indices) outputs =
        invokeAll ops body inputs indices outputs' ∧ outputs.SameSizes outputs' := by
      rw [invokeAll]
      unfold invoke
      cases ho : Stmt.execBlock ops ⟨UInt32.ofNat i, .empty, inputs, outputs⟩ body with
      | next s =>
        rw [ho] at hfine
        exact ⟨s.outputs, rfl, hfine.2.outputs⟩
      | returned s =>
        rw [ho] at hfine
        exact ⟨s.outputs, rfl, hfine.outputs⟩
      | failed fault s =>
        rw [ho] at hfine
        exact hfine.elim
    obtain ⟨outputs', hrun, hsame⟩ := hstep
    obtain ⟨final, hfinal, hsame'⟩ := ih outputs' fun b hb => by
      rw [hsame.isSome]
      exact hout b hb
    exact ⟨final, by rw [hrun, hfinal], hsame.trans hsame'⟩

/-- Scoped code meets the weakest contract: it runs, and every output keeps its length. -/
theorem Meets.of_typed {kinds : String → ValueKind} {k : Kernel}
    (hbody : Stmt.BlockTyped kinds [] k.inputs.names k.outputs.names k.body) :
    k.Meets ops (fun _ _ => True) fun b data => data.size = b.len := by
  intro inputs outputs hin hout
  obtain ⟨final, hfinal, hsame⟩ := invokeAll_typed ops hbody inputs (List.range k.invocations) outputs
    (by
      intro name hname
      obtain ⟨b, hb, rfl⟩ := List.mem_map.1 hname
      obtain ⟨data, hdata, -⟩ := hin b hb
      rw [hdata]
      rfl)
    (by
      intro name hname
      obtain ⟨b, hb, rfl⟩ := List.mem_map.1 hname
      obtain ⟨data, hdata, -⟩ := hout.found b hb
      rw [hdata]
      rfl)
  refine ⟨final, hfinal, hsame, ?_⟩
  intro b hb
  obtain ⟨data, hdata, hsize⟩ := hout.found b hb
  exact hsame.find? hdata hsize

/-- Whole workgroups cover the size of a kernel. -/
theorem le_invocations {k : Kernel} (h : k.size < 2 ^ 32) :
    k.size ≤ k.invocations ∧ k.invocations ≤ 2 ^ 32 := by
  unfold invocations workgroups
  have hlt : (k.size + workgroupSize - 1) / workgroupSize < 2 ^ 32 := by
    simp only [workgroupSize]
    omega
  rw [UInt32.toNat_ofNat_of_lt' hlt]
  simp only [workgroupSize]
  omega

end Kernel

/-! ## Guards and stores -/

namespace Stmt

/-- The guard of a kernel ends the invocations past its size. -/
theorem execBlock_boundsGuard {s : Invocation α} {i size : Nat} (hs : s.index = UInt32.ofNat i)
    (hi : i < 2 ^ 32) (hsize : size < 2 ^ 32) (rest : List Stmt) :
    execBlock ops s (boundsGuard size :: rest) =
      if i < size then execBlock ops s rest else .returned s := by
  have hcond : (Expr.index.ge (.ofNat size)).evalCond ops s = .ok (decide (size ≤ i)) := by
    simp [Expr.evalCond, Expr.eval_ge_word ops hi hsize (Expr.eval_index ops hs)
      (Expr.eval_ofNat ops size), bind, Except.bind, Value.toTruth]
  rw [execBlock_cons, boundsGuard, exec, hcond]
  by_cases hlt : i < size
  · rw [if_pos hlt, decide_eq_false (by omega)]
    rfl
  · rw [if_neg hlt, decide_eq_true (by omega)]
    rfl

namespace Ends

variable {ops}

/-- A list of stores to different buffers, where positions and values depend on locals only. -/
theorem stores {l : List (String × Expr × Expr)} {s : Invocation α}
    (hnodup : (l.map Prod.fst).Nodup) (pos : String → Nat) (val : String → α)
    (h : ∀ e ∈ l, (s.outputs.find? e.1).isSome ∧ pos e.1 < 2 ^ 32 ∧
      ∀ t : Invocation α, t.index = s.index → t.locals = s.locals → t.inputs = s.inputs →
        e.2.1.eval ops t = .ok (.word (UInt32.ofNat (pos e.1))) ∧
        e.2.2.eval ops t = .ok (.scalar (val e.1))) :
    Ends ops s (l.map fun e => .store e.1 e.2.1 e.2.2) fun t =>
      ∀ b, t.outputs.find? b = (s.outputs.find? b).map fun d =>
        applyWrite d (if b ∈ l.map Prod.fst then some (pos b, val b) else none) := by
  -- the statement is proved for every state that differs from `s` in the outputs only
  have hkey : ∀ (l : List (String × Expr × Expr)), (l.map Prod.fst).Nodup →
      (∀ e ∈ l, (s.outputs.find? e.1).isSome ∧ pos e.1 < 2 ^ 32 ∧
        ∀ t : Invocation α, t.index = s.index → t.locals = s.locals → t.inputs = s.inputs →
          e.2.1.eval ops t = .ok (.word (UInt32.ofNat (pos e.1))) ∧
          e.2.2.eval ops t = .ok (.scalar (val e.1))) →
      ∀ t : Invocation α, t.index = s.index → t.locals = s.locals → t.inputs = s.inputs →
      (∀ b, (t.outputs.find? b).isSome = (s.outputs.find? b).isSome) →
      Ends ops t (l.map fun e => .store e.1 e.2.1 e.2.2) fun u =>
        ∀ b, u.outputs.find? b = (t.outputs.find? b).map fun d =>
          applyWrite d (if b ∈ l.map Prod.fst then some (pos b, val b) else none) := by
    intro l
    induction l with
    | nil =>
      intro _ _ t _ _ _ _
      refine .nil ?_
      intro b
      cases t.outputs.find? b <;> simp [applyWrite]
    | cons e l ih =>
      intro hnodup h t hindex hlocals hinputs hbound
      obtain ⟨hsome, hlt, heval⟩ := h e (by simp)
      obtain ⟨hpos, hval⟩ := heval t hindex hlocals hinputs
      rw [← hbound] at hsome
      obtain ⟨data, hdata⟩ := Option.isSome_iff_exists.1 hsome
      rw [List.map_cons, List.nodup_cons] at hnodup
      rw [List.map_cons]
      refine .store hdata hpos hval ?_
      have hrest := ih hnodup.2 (fun e' he' => h e' (by simp [he']))
        (t.write e.1 (UInt32.ofNat (pos e.1)).toNat (val e.1)) hindex hlocals hinputs (by
          intro b
          rw [Invocation.find?_write, ← hbound b]
          split <;> simp)
      refine hrest.mono ?_
      intro u hu b
      rw [hu b, Invocation.find?_write, UInt32.toNat_ofNat_of_lt' hlt]
      by_cases hb : e.1 = b
      · subst hb
        rw [if_pos rfl, if_neg hnodup.1, Option.map_map]
        simp [applyWrite, Function.comp_def]
      · rw [if_neg hb]
        have hiff : b ∈ (e :: l).map Prod.fst ↔ b ∈ l.map Prod.fst := by
          rw [List.map_cons, List.mem_cons]
          exact ⟨fun h => h.resolve_left fun h' => hb h'.symm, .inr⟩
        simp only [hiff]
  exact hkey l hnodup h s rfl rfl rfl fun _ => rfl

end Ends

end Stmt

end TensorKernels
