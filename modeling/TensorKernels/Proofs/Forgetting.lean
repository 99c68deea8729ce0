import TensorKernels.Proofs.KernelSteps
import TensorKernels.Proofs.RaceFreedom
import TensorKernels.Proofs.Refinement

/-!
# Runs do not remember earlier runs

The buffers that kernels own keep their contents between runs. What a run reads back does not depend on
them, for kernels of fewer than `2 ^ 32` elements: two machines for one plan with the same leaves read
back the same (`runs_forget`).

The argument runs two machines side by side. `Machine.Alike` says that they agree on the leaves, on the
outputs of the kernels that have run, and on the elements that no kernel ever stores to; one kernel keeps
this and adds its own outputs (`Machine.Alike.runKernel`), and a run keeps it (`Machine.Alike.run`).

Below `2 ^ 32` elements all elements of outputs are stored, so nothing is asked of the buffers. From there
on the guard of a kernel compares with a size that was cut to 32 bits, and some elements are never stored.
A run keeps what they hold (`Machine.Complete.runKernels_keeps`) and reads it back
(`CompiledAs.run_keeps_output`, `product_remembers`). On a machine that was started from a plan they hold
zero forever (`CompiledAs.blank_of_reached`), so there is nothing to remember.
-/

set_option autoImplicit false

namespace TensorKernels

namespace Machine

variable {α : Type} (ops : Arithmetic α) {p : Plan} {n : Nat} {k : Kernel} {m m' : Machine α}

/-! ## Two machines side by side -/

/-- The machines hold the same tensors and masks, as far as kernels of the plan read them. -/
structure SameLeaves (p : Plan) (m m' : Machine α) : Prop where
  tensors : ∀ k ∈ p.kernels, ∀ b ∈ k.inputs.entries, ∀ t, b.source = .tensor t →
    m'.tensors.find? t = m.tensors.find? t
  masks : ∀ k ∈ p.kernels, ∀ b ∈ k.inputs.entries, ∀ i, b.source = .mask i →
    m'.masks.find? i = m.masks.find? i

/-- The machines agree on the elements of outputs that no invocation stores to. -/
def SameSkipped (p : Plan) (m m' : Machine α) : Prop :=
  ∀ i k, p.kernels[i]? = some k → ∀ b ∈ k.outputs.entries, ∀ j, k.Skips ops b.name j →
    ∀ data data', m.buffer? i b.name = some data → m'.buffer? i b.name = some data' → data'[j]? = data[j]?

/-- The machines agree on the leaves, on what the first `n` kernels have written and on the elements that
no kernel stores to. -/
structure Alike (p : Plan) (n : Nat) (m m' : Machine α) : Prop where
  leaves : SameLeaves p m m'
  written : ∀ i < n, ∀ k, p.kernels[i]? = some k → ∀ b ∈ k.outputs.entries,
    m'.buffer? i b.name = m.buffer? i b.name
  skipped : SameSkipped ops p m m'

variable {ops}

/-- Machines that are alike feed the same data to the next kernel. -/
theorem Alike.feeds_eq (h : Alike ops p n m m') (hp : p.Wired) (hm : m.Complete p) (hm' : m'.Complete p)
    (hk : p.kernels[n]? = some k) : m'.feeds n k = m.feeds n k := by
  have hfed : ∀ b ∈ k.inputs.entries, m'.fed? n b = m.fed? n b := by
    intro b hb
    unfold fed?
    cases hs : b.source with
    | tensor t => exact h.leaves.tensors k (List.mem_of_getElem? hk) b hb t hs
    | mask i => exact h.leaves.masks k (List.mem_of_getElem? hk) b hb i hs
    | ownBuffer =>
      have hown : b ∈ Plan.ownedInputs k := List.mem_filter.2 ⟨hb, by simp [hs]⟩
      obtain ⟨cs, hcs, -⟩ := hp.copies n k hk
      obtain ⟨c, hcopy, -, hsupplies⟩ := hp.exists_copyTo? hk hcs hown
      obtain ⟨k', hk', b', hb', hname, -⟩ := hsupplies.written
      -- the copy reads an output of an earlier kernel
      have hwritten := h.written c.fromKernel hsupplies.earlier k' hk' b' hb'
      rw [hname, ← hsupplies.source] at hwritten
      simp only [hm.plan, hm'.plan, hcopy, Option.bind_some]
      exact hwritten
  unfold feeds
  rw [List.map_congr_left fun b hb => by rw [hfed b hb]]

/-- The same kernel run on machines that are alike leaves machines that are alike, now in its outputs
too. -/
theorem Alike.runKernel (h : Alike ops p n m m') (hp : p.Wired) (hm : m.Complete p)
    (hm' : m'.Complete p) (hk : p.kernels[n]? = some k) {outlets : List Outlet}
    (hemits : k.Emits ops outlets) {m₁ m₁' : Machine α} (hstep : Stepped ops n k m m₁)
    (hstep' : Stepped ops n k m' m₁') : Alike ops p (n + 1) m₁ m₁' := by
  obtain ⟨final, hdispatch, houtputs⟩ := hstep.outputs
  obtain ⟨final', hdispatch', houtputs'⟩ := hstep'.outputs
  have hsame : ∀ b ∈ k.outputs.entries, m₁'.buffer? n b.name = m₁.buffer? n b.name := by
    intro b hb
    obtain ⟨f, f', hf, hf', hff'⟩ := hemits.dispatch_alike ops (isSome_find?_feeds m n k)
      (hm.held_for ops hk) (hm'.held_for ops hk) (by
        intro b hb j hskips data data' hdata hdata'
        rw [hm.find?_held ops hk hb] at hdata
        rw [hm'.find?_held ops hk hb] at hdata'
        exact h.skipped n k hk b hb j hskips data data' hdata hdata')
    rw [← h.feeds_eq hp hm hm' hk, hdispatch', Prod.mk.injEq] at hf'
    rw [hdispatch, Prod.mk.injEq] at hf
    rw [houtputs b hb, houtputs' b hb, hf.2, hf'.2, hff' b hb]
  refine ⟨⟨?_, ?_⟩, ?_, ?_⟩
  · rw [hstep.tensors, hstep'.tensors]
    exact h.leaves.tensors
  · rw [hstep.masks, hstep'.masks]
    exact h.leaves.masks
  · intro i hi k' hk' b hb
    by_cases hin : i = n
    · subst hin
      rw [hk, Option.some.injEq] at hk'
      subst hk'
      exact hsame b hb
    · rw [hstep.others i b.name hin, hstep'.others i b.name hin]
      exact h.written i (by omega) k' hk' b hb
  · intro i k' hk' b hb j hskips data data' hdata hdata'
    by_cases hin : i = n
    · subst hin
      rw [hk, Option.some.injEq] at hk'
      subst hk'
      rw [hsame b hb, hdata, Option.some.injEq] at hdata'
      rw [hdata']
    · rw [hstep.others i b.name hin] at hdata
      rw [hstep'.others i b.name hin] at hdata'
      exact h.skipped i k' hk' b hb j hskips data data' hdata hdata'

end Machine

/-- A run has no more kernels than the plan. -/
theorem Plan.Wired.kernelCount_le {p : Plan} (hp : p.Wired) (backward : Bool) :
    p.kernelCount backward ≤ p.kernels.length := by
  unfold Plan.kernelCount
  cases backward
  · exact hp.forward_le
  · exact Nat.le_refl _

namespace Machine

variable {α : Type} {ops : Arithmetic α} {p : Plan} {n : Nat} {m m' : Machine α} {k : Kernel}

/-- Two runs side by side. -/
theorem Alike.runKernels (hp : p.Wired) (hemits : ∀ k ∈ p.kernels, ∃ outlets, k.Emits ops outlets)
    (count : Nat) (h : Alike ops p n m m') (hm : m.Complete p) (hm' : m'.Complete p)
    (hle : n + count ≤ p.kernels.length) :
    ∃ m₁ m₁', runKernels ops count n m = .ok () m₁ ∧ runKernels ops count n m' = .ok () m₁' ∧
      m₁.Complete p ∧ m₁'.Complete p ∧ Alike ops p (n + count) m₁ m₁' := by
  induction count generalizing n m m' with
  | zero => exact ⟨m, m', rfl, rfl, hm, hm', h⟩
  | succ count ih =>
    have hn : n < p.kernels.length := by omega
    have hk := List.getElem?_eq_getElem hn
    obtain ⟨outlets, hk'⟩ := hemits _ (List.getElem_mem hn)
    obtain ⟨m₁, hrun, hm₁, hstep⟩ := hm.runKernel ops hp hk hk'.typed
    obtain ⟨m₁', hrun', hm₁', hstep'⟩ := hm'.runKernel ops hp hk hk'.typed
    obtain ⟨m₂, m₂', hrun₂, hrun₂', hm₂, hm₂', hlike⟩ :=
      ih (h.runKernel hp hm hm' hk hk' hstep hstep') hm₁ hm₁' (by omega)
    refine ⟨m₂, m₂', ?_, ?_, hm₂, hm₂', by rwa [show n + (count + 1) = n + 1 + count by omega]⟩
    · rw [Machine.runKernels, bind_of_ok hrun]
      exact hrun₂
    · rw [Machine.runKernels, bind_of_ok hrun']
      exact hrun₂'

/-- Before a run, machines with the same leaves only have to agree on elements that are never stored. -/
theorem Complete.alike (hm : m.Complete p) (hm' : m'.Complete p) (hleaves : SameLeaves p m m')
    (h : ∀ i k, p.kernels[i]? = some k → ∀ b ∈ k.outputs.entries, ∀ j < b.len, k.Skips ops b.name j →
      ∀ data data', m.buffer? i b.name = some data → m'.buffer? i b.name = some data' →
        data'[j]? = data[j]?) : Alike ops p 0 m m' := by
  refine ⟨hleaves, fun i hi => absurd hi (Nat.not_lt_zero i), ?_⟩
  intro i k hk b hb j hskips data data' hdata hdata'
  by_cases hj : j < b.len
  · exact h i k hk b hb j hj hskips data data' hdata hdata'
  · obtain ⟨_, hsized, hsize⟩ := hm.sized i k hk b (.inr hb)
    obtain ⟨_, hsized', hsize'⟩ := hm'.sized i k hk b (.inr hb)
    rw [hdata, Option.some.injEq] at hsized
    rw [hdata', Option.some.injEq] at hsized'
    rw [Array.getElem?_eq_none (by rw [hsized']; omega), Array.getElem?_eq_none (by rw [hsized]; omega)]

/-! ## What is read back -/

/-- What the output and the partial gradients of a plan hold. -/
def readback (p : Plan) (backward : Bool) (m : Machine α) : Readback α where
  output := (m.buffer? p.output.kernel p.output.name).getD #[]
  partials :=
    if backward then p.partials.map fun e => (m.buffer? e.buffer.kernel e.buffer.name).getD #[] else []

/-- In a complete machine, every buffer that a kernel writes can be read. -/
theorem Complete.readBuffer (h : m.Complete p) {r : BufferRef} {len : Nat} (hw : p.Writes r len) :
    readBuffer r.kernel r.name m = .ok ((m.buffer? r.kernel r.name).getD #[]) m := by
  obtain ⟨k, hk, b, hb, hname, -⟩ := hw
  obtain ⟨data, hdata, -⟩ := h.sized r.kernel k hk b (.inr hb)
  rw [hname] at hdata
  rw [readBuffer_eq hdata, hdata]
  rfl

/-- A run whose kernels succeed reads the output and the partial gradients back. -/
theorem Complete.run_eq (hp : p.Wired) (h : m.Complete p) {m' : Machine α} (h' : m'.Complete p)
    {backward : Bool} (hrun : runKernels ops (p.kernelCount backward) 0 m = .ok () m') :
    run ops backward m = .ok (m'.readback p backward) m' := by
  obtain ⟨-, len, hw⟩ := hp.output
  have hread := h'.readBuffer hw
  have hreads : p.partials.mapM (fun e => Machine.readBuffer e.buffer.kernel e.buffer.name) m' =
      .ok (p.partials.map fun e => (m'.buffer? e.buffer.kernel e.buffer.name).getD #[]) m' := by
    refine mapM_eq_map fun e he => ?_
    obtain ⟨len, hw⟩ := hp.partials e he
    exact h'.readBuffer hw
  unfold run
  rw [bind_of_ok (run_get m), h.plan, bind_of_ok hrun, bind_of_ok hread]
  cases backward with
  | false => rfl
  | true =>
    rw [if_pos rfl, bind_of_ok hreads]
    rfl

/-- Alike machines read back the same results. -/
theorem Alike.readback_eq {backward : Bool} (h : Alike ops p (p.kernelCount backward) m m')
    (hp : p.Wired) : m'.readback p backward = m.readback p backward := by
  have hwritten : ∀ {r : BufferRef} {len : Nat}, p.Writes r len → r.kernel < p.kernelCount backward →
      m'.buffer? r.kernel r.name = m.buffer? r.kernel r.name := by
    intro r len hw hr
    obtain ⟨k, hk, b, hb, hname, -⟩ := hw
    rw [← hname]
    exact h.written r.kernel hr k hk b hb
  obtain ⟨hposition, len, hw⟩ := hp.output
  have hle : p.forwardCount ≤ p.kernelCount backward := by
    have := hp.forward_le
    unfold Plan.kernelCount
    cases backward
    · exact Nat.le_refl _
    · exact this
  unfold readback
  rw [hwritten hw (Nat.lt_of_lt_of_le hposition hle)]
  cases backward with
  | false => rfl
  | true =>
    have hpartials : ∀ e ∈ p.partials, m'.buffer? e.buffer.kernel e.buffer.name =
        m.buffer? e.buffer.kernel e.buffer.name := by
      intro e he
      obtain ⟨len, hw⟩ := hp.partials e he
      obtain ⟨k, hk, -⟩ := hw
      exact hwritten (hp.partials e he).choose_spec (List.getElem?_eq_some_iff.1 hk).1
    rw [if_pos rfl, if_pos rfl, List.map_congr_left fun e he => by rw [hpartials e he]]

/-- Machines that are alike read back the same. -/
theorem Alike.run (h : Alike ops p 0 m m') (hp : p.Wired)
    (hemits : ∀ k ∈ p.kernels, ∃ outlets, k.Emits ops outlets) (hm : m.Complete p)
    (hm' : m'.Complete p) (backward : Bool) :
    ∃ r s s', run ops backward m = .ok r s ∧ run ops backward m' = .ok r s' := by
  obtain ⟨m₁, m₁', hrun, hrun', hm₁, hm₁', hlike⟩ :=
    Alike.runKernels hp hemits (p.kernelCount backward) h hm hm'
      (by rw [Nat.zero_add]; exact hp.kernelCount_le backward)
  rw [Nat.zero_add] at hlike
  refine ⟨_, m₁, m₁', hm.run_eq hp hm₁ hrun, ?_⟩
  rw [hm'.run_eq hp hm₁' hrun', hlike.readback_eq hp]

/-! ## Elements that nothing is stored to -/

/-- What is kept twice is kept, where the machine in between has all buffers. -/
theorem SameSkipped.trans {m'' : Machine α} (h : SameSkipped ops p m m') (hm' : m'.Complete p)
    (h' : SameSkipped ops p m' m'') : SameSkipped ops p m m'' := by
  intro i k hk b hb j hskips data data'' hdata hdata''
  obtain ⟨data', hdata', -⟩ := hm'.sized i k hk b (.inr hb)
  exact (h' i k hk b hb j hskips data' data'' hdata' hdata'').trans
    (h i k hk b hb j hskips data data' hdata hdata')

/-- A kernel keeps the elements that nothing is stored to. -/
theorem Stepped.sameSkipped (hstep : Stepped ops n k m m') (hm : m.Complete p)
    (hk : p.kernels[n]? = some k) {outlets : List Outlet} (hemits : k.Emits ops outlets) :
    SameSkipped ops p m m' := by
  intro i k' hk' b hb j hskips data data' hdata hdata'
  by_cases hin : i = n
  · subst hin
    rw [hk, Option.some.injEq] at hk'
    subst hk'
    obtain ⟨final, hdispatch, houtputs⟩ := hstep.outputs
    rw [houtputs b hb] at hdata'
    exact hemits.dispatch_skips ops (isSome_find?_feeds m i k) (hm.held_for ops hk) hdispatch hskips
      ((hm.find?_held ops hk hb).trans hdata) hdata'
  · rw [hstep.others i b.name hin, hdata, Option.some.injEq] at hdata'
    rw [hdata']

/-- So do kernels one after the other. -/
theorem Complete.runKernels_keeps (hp : p.Wired)
    (hemits : ∀ k ∈ p.kernels, ∃ outlets, k.Emits ops outlets) (count : Nat) (hm : m.Complete p)
    (hle : n + count ≤ p.kernels.length) :
    ∃ m', runKernels ops count n m = .ok () m' ∧ m'.Complete p ∧ SameSkipped ops p m m' := by
  induction count generalizing n m with
  | zero =>
    refine ⟨m, rfl, hm, ?_⟩
    intro i k hk b hb j _ data data' hdata hdata'
    rw [hdata, Option.some.injEq] at hdata'
    rw [hdata']
  | succ count ih =>
    have hn : n < p.kernels.length := by omega
    have hk := List.getElem?_eq_getElem hn
    obtain ⟨outlets, hk'⟩ := hemits _ (List.getElem_mem hn)
    obtain ⟨m₁, hrun, hm₁, hstep⟩ := hm.runKernel ops hp hk hk'.typed
    obtain ⟨m₂, hrun₂, hm₂, hsame⟩ := ih (n := n + 1) hm₁ (by omega)
    refine ⟨m₂, ?_, hm₂, (hstep.sameSkipped hm hk hk').trans hm₁ hsame⟩
    rw [Machine.runKernels, bind_of_ok hrun]
    exact hrun₂

/-- A run keeps the elements that nothing is stored to, and reads back what the machine holds then. -/
theorem Complete.run_keeps (hp : p.Wired) (hemits : ∀ k ∈ p.kernels, ∃ outlets, k.Emits ops outlets)
    (hm : m.Complete p) (backward : Bool) :
    ∃ m', run ops backward m = .ok (m'.readback p backward) m' ∧ m'.Complete p ∧
      SameSkipped ops p m m' := by
  obtain ⟨m', hrun, hm', hsame⟩ := hm.runKernels_keeps hp hemits (p.kernelCount backward)
    (by rw [Nat.zero_add]; exact hp.kernelCount_le backward)
  exact ⟨m', hm.run_eq hp hm' hrun, hm', hsame⟩

variable (ops) in
/-- Elements that no kernel stores to hold zero. -/
def Blank (p : Plan) (m : Machine α) : Prop :=
  ∀ i k, p.kernels[i]? = some k → ∀ b ∈ k.outputs.entries, ∀ j, k.Skips ops b.name j → ∀ data,
    m.buffer? i b.name = some data → ∀ x, data[j]? = some x → x = ops.zero

/-- Elements that are kept stay zero. -/
theorem Blank.of_sameSkipped (h : Blank ops p m) (hm : m.Complete p) (hsame : SameSkipped ops p m m') :
    Blank ops p m' := by
  intro i k hk b hb j hskips data' hdata' x hx
  obtain ⟨data, hdata, -⟩ := hm.sized i k hk b (.inr hb)
  rw [hsame i k hk b hb j hskips data data' hdata hdata'] at hx
  exact h i k hk b hb j hskips data hdata x hx

end Machine

/-! ## Machines of compiled plans -/

section Compiled

variable {α : Type} {ops : Arithmetic α} {signature : Signature} {root : Term} {shape : Shape} {plan : Plan}
  {id : Nat} {s : Lowering} {m m' : Machine α}

/-- The kernels of a compiled term emit through fixed outlets. -/
theorem CompiledAs.emits (ops : Arithmetic α) (h : CompiledAs signature root shape plan id s) :
    ∀ k ∈ plan.kernels, ∃ outlets, k.Emits ops outlets := by
  rw [h.kernels]
  exact fun k hk => h.sound.emits ops hk

/-- A machine that runs of the plan reach has all its buffers. -/
theorem CompiledAs.complete_of_reached (h : CompiledAs signature root shape plan id s)
    (hm : Machine.Reached ops plan signature.size s.masks.size m) : m.Complete plan := by
  obtain ⟨hpresent, hready⟩ := h.sound.ready_of_reached h.wired h.kernels hm
  have hruns : ∀ k ∈ plan.kernels, Machine.Runs ops m.tensors m.masks (fun _ _ => True) k :=
    fun k hk => h.sound.runs_scoped ops hpresent (h.kernels ▸ hk)
  exact ⟨hready.plan, hready.length, hready.sized, fun k hk => (hruns k hk).tensor,
    fun k hk => (hruns k hk).mask⟩

/-- A started machine has all its buffers. -/
theorem CompiledAs.complete_start (h : CompiledAs signature root shape plan id s) (ops : Arithmetic α)
    {tensors masks : List (Array α)} (htensors : tensors.length = signature.size)
    (hmasks : masks.length = s.masks.size) : (Machine.start ops plan tensors masks).Complete plan :=
  h.complete_of_reached (.start htensors hmasks)

/-- On a machine that is reached, elements that no kernel stores to are still zero. -/
theorem CompiledAs.blank_of_reached (h : CompiledAs signature root shape plan id s)
    (hm : Machine.Reached ops plan signature.size s.masks.size m) : m.Blank ops plan := by
  induction hm with
  | @start tensors maskValues ht hmasks =>
    intro i k hk b hb j _ data hdata x hx
    rw [Machine.buffer?_start ops h.wired tensors maskValues hk (.inr hb), Option.some.injEq] at hdata
    subst hdata
    exact (Array.eq_of_mem_replicate (Array.mem_of_getElem? hx))
  | writeTensor t data _ ih => exact ih
  | writeMask i data _ ih => exact ih
  | @run m m' r backward hreached hrun ih =>
    have hm := h.complete_of_reached hreached
    obtain ⟨m₁, hrun₁, -, hsame⟩ := hm.run_keeps h.wired (h.emits ops) backward
    rw [hrun₁] at hrun
    cases hrun
    exact ih.of_sameSkipped hm hsame

/-- Reached machines with the same leaves read back the same, whatever the number of elements. -/
theorem CompiledAs.run_eq_of_reached (h : CompiledAs signature root shape plan id s)
    (hm : Machine.Reached ops plan signature.size s.masks.size m)
    (hm' : Machine.Reached ops plan signature.size s.masks.size m') (hleaves : Machine.SameLeaves plan m m')
    (backward : Bool) :
    ∃ r s s', Machine.run ops backward m = .ok r s ∧ Machine.run ops backward m' = .ok r s' := by
  have hc := h.complete_of_reached hm
  have hc' := h.complete_of_reached hm'
  refine Machine.Alike.run (hc.alike hc' hleaves ?_) h.wired (h.emits ops) hc hc' backward
  intro i k hk b hb j hj hskips data data' hdata hdata'
  obtain ⟨_, hsized, hsize⟩ := hc.sized i k hk b (.inr hb)
  obtain ⟨_, hsized', hsize'⟩ := hc'.sized i k hk b (.inr hb)
  rw [hdata, Option.some.injEq] at hsized
  rw [hdata', Option.some.injEq] at hsized'
  subst hsized hsized'
  -- both elements are zero
  have hget : data[j]? = some data[j] := Array.getElem?_eq_getElem (hsize ▸ hj)
  have hget' : data'[j]? = some data'[j] := Array.getElem?_eq_getElem (hsize' ▸ hj)
  rw [hget, hget', h.blank_of_reached hm i k hk b hb j hskips data hdata _ hget,
    h.blank_of_reached hm' i k hk b hb j hskips data' hdata' _ hget']

/-- Below `2 ^ 32` elements per kernel, machines for the plan with the same leaves read back the same,
whatever their buffers hold. -/
theorem CompiledAs.run_eq_of_size_lt (h : CompiledAs signature root shape plan id s)
    (hsize : ∀ k ∈ plan.kernels, k.size < 2 ^ 32) (hm : m.Complete plan) (hm' : m'.Complete plan)
    (hleaves : Machine.SameLeaves plan m m') (backward : Bool) :
    ∃ r s s', Machine.run ops backward m = .ok r s ∧ Machine.run ops backward m' = .ok r s' := by
  refine Machine.Alike.run (hm.alike hm' hleaves ?_) h.wired (h.emits ops) hm hm' backward
  intro i k hk b hb j hj hskips
  -- all elements of the output are stored
  have hmem : k ∈ plan.kernels := List.mem_of_getElem? hk
  obtain ⟨outlets, hemits⟩ := h.emits ops k hmem
  have hinputs := Machine.isSome_find?_feeds m i k
  have houtputs := (hm.held_for ops hk).isSome_find?
  have hfilled := hemits.fills ops (hsize k hmem) hinputs fun _ => houtputs
  have hnone := (Kernel.lastAt_writesTo_eq_none ops).2 (hskips _ _ hinputs houtputs)
  exact absurd ((hfilled.once b hb).mem_iff.2 (List.mem_range.2 hj)) (Write.lastAt_eq_none.1 hnone)

/-- Where every node has fewer than `2 ^ 32` elements, so has every kernel. -/
theorem CompiledAs.size_lt_of_fits (h : CompiledAs signature root shape plan id s)
    (hfits : root.Fits signature) : ∀ k ∈ plan.kernels, k.size < 2 ^ 32 := by
  rw [h.kernels]
  exact fun k hk => h.sound.size_lt_of_mem_kernelList (by decide)
    (fun x hx => h.lowered.size_lt hfits hx) hk

/-! ## Outputs of `2 ^ 32` elements -/

/-- An output is written by a forward kernel, and has as many elements as the root. -/
theorem CompiledAs.output_written (h : CompiledAs signature root shape plan id s) :
    ∃ c, plan.kernels[plan.output.kernel]? =
        some ((Layout.ofRoot signature s.nodes id).forwardKernel c).trimmed ∧
      (Layout.ofRoot signature s.nodes id).exportBinding id ∈
        ((Layout.ofRoot signature s.nodes id).forwardKernel c).trimmed.outputs.entries ∧
      ((Layout.ofRoot signature s.nodes id).exportBinding id).name = plan.output.name := by
  obtain ⟨hlt, len, k, hk, b, hb, hname, -⟩ := h.wired.output
  rw [h.forwardCount] at hlt
  have hforward := hk
  rw [h.kernels, Layout.kernelList, List.getElem?_append_left (by rwa [List.length_map]),
    List.getElem?_map] at hforward
  obtain ⟨c, -, rfl⟩ := Option.map_eq_some_iff.1 hforward
  obtain ⟨id', -, rfl⟩ := Layout.forward_outputs (Kernel.mem_trimmed_outputs.1 hb).1
  rw [h.output] at hname
  obtain rfl := Layout.exportName_injective hname
  exact ⟨c, hk, hb, hname.trans h.output.symm⟩

variable (ops) in
/-- Of an output only as many elements are stored as the last 32 bits of their number say. -/
theorem Layout.Sound.forward_skips {l : Layout} {masks : Array MaskSite} (h : l.Sound masks) {c id : Nat}
    (hb : l.exportBinding id ∈ (l.forwardKernel c).trimmed.outputs.entries) {j : Nat}
    (hj : (l.node id).size % 2 ^ 32 ≤ j) :
    (l.forwardKernel c).trimmed.Skips ops (l.exportBinding id).name j := by
  have hemits := h.forward_emits ops c
  intro inputs outputs hinputs houtputs i _ hmem
  rw [hemits.places inputs outputs hinputs houtputs] at hmem
  obtain ⟨o, ho, hat⟩ := List.mem_filterMap.1 hmem
  -- the outlet of the name is the one with the length of the binding
  obtain ⟨o', ho', hname', hlen'⟩ := hemits.outlet _ hb
  unfold Outlet.at? at hat
  split at hat
  · next hlt =>
    rw [Option.some.injEq, Prod.mk.injEq] at hat
    obtain rfl : o = o' := List.inj_on_of_nodup_map hemits.nodup ho ho' (hat.1.trans hname'.symm)
    have haligned : o.access = .aligned := by
      obtain ⟨x, -, rfl⟩ := List.mem_map.1 ho
      rfl
    rw [haligned] at hat
    have hplace : (UInt32.ofNat i).toNat = j := hat.2
    rw [UInt32.lt_iff_toNat_lt, hplace, hlen', UInt32.toNat_ofNat'] at hlt
    exact absurd hlt (Nat.not_lt.2 hj)
  · cases hat

variable (ops) in
/-- What a run reads back of the other elements is what the buffer held before. -/
theorem CompiledAs.run_keeps_output (h : CompiledAs signature root shape plan id s)
    (hm : m.Complete plan) (backward : Bool) :
    ∃ r m', Machine.run ops backward m = .ok r m' ∧ ∀ j, shape.size % 2 ^ 32 ≤ j →
      r.output[j]? = ((m.buffer? plan.output.kernel plan.output.name).getD #[])[j]? := by
  obtain ⟨c, hk, hb, hname⟩ := h.output_written
  obtain ⟨m', hrun, hm', hsame⟩ := hm.run_keeps h.wired (h.emits ops) backward
  refine ⟨_, m', hrun, fun j hj => ?_⟩
  have hskips := h.sound.forward_skips ops hb (j := j) (by
    show (Lowering.node s id).size % 2 ^ 32 ≤ j
    rwa [h.lowered.size_eq])
  obtain ⟨data, hdata, -⟩ := hm.sized _ _ hk _ (.inr hb)
  obtain ⟨data', hdata', -⟩ := hm'.sized _ _ hk _ (.inr hb)
  have hkept := hsame _ _ hk _ hb j hskips data data' hdata hdata'
  rw [hname] at hdata hdata'
  show ((m'.buffer? plan.output.kernel plan.output.name).getD #[])[j]? = _
  rw [hdata, hdata']
  exact hkept

end Compiled

/-- A run does not remember earlier runs. Two machines for a compiled plan, with the same tensors and
masks where its kernels read some, read back the same output and the same partial gradients, in training
runs and others, whatever the buffers of their kernels hold, for kernels of fewer than `2 ^ 32` elements;
and for kernels of any size, whatever was run and written on them before. -/
theorem runs_forget {α : Type} (ops : Arithmetic α) {signature : Signature} {root : Term} {shape : Shape}
    {plan : Plan} (hroot : root.Built) (hplan : (compile signature root shape).plan = .ok plan)
    {m m' : Machine α} (hleaves : Machine.SameLeaves plan m m')
    (hmachines : (∀ k ∈ plan.kernels, k.size < 2 ^ 32) ∧ m.Complete plan ∧ m'.Complete plan ∨
      Machine.Reached ops plan signature.size root.dropoutSites.length m ∧
        Machine.Reached ops plan signature.size root.dropoutSites.length m') (backward : Bool) :
    ∃ r s s', Machine.run ops backward m = .ok r s ∧ Machine.run ops backward m' = .ok r s' := by
  obtain ⟨id, s, -, hcompiled⟩ := compiledAs_of_ok hroot hplan
  rcases hmachines with ⟨hsize, hm, hm'⟩ | ⟨hm, hm'⟩
  · exact hcompiled.run_eq_of_size_lt hsize hm hm' hleaves backward
  · rw [← hcompiled.lowered.inv.count] at hm hm'
    exact hcompiled.run_eq_of_reached hm hm' hleaves backward

/-- Machines that are started with the same values have the same leaves, whatever zero their buffers are
filled with. -/
theorem Machine.sameLeaves_start {α : Type} (ops ops' : Arithmetic α) (plan : Plan)
    (tensors masks : List (Array α)) :
    SameLeaves plan (start ops plan tensors masks) (start ops' plan tensors masks) :=
  ⟨fun _ _ _ _ _ _ => rfl, fun _ _ _ _ _ _ => rfl⟩

/-- Binary32 arithmetic in which every literal, and so the zero of fresh buffers, is one. -/
def Arithmetic.allOnes : Arithmetic Float32 := { Arithmetic.binary32 with lit := fun _ => 1.0 }

/-- The layer is run for training on a machine whose buffers hold zeros and on one whose buffers hold
ones. -/
theorem layer_forgets_ones :
    ∃ plan r s s', (compile layerSignature layerTerm [2, 2]).plan = .ok plan ∧
      Machine.run .binary32 true (Machine.start .binary32 plan
        [layerValues.tensor 0, layerValues.tensor 1, layerValues.tensor 2] [layerValues.mask 3]) =
          .ok r s ∧
      Machine.run .binary32 true (Machine.start .allOnes plan
        [layerValues.tensor 0, layerValues.tensor 1, layerValues.tensor 2] [layerValues.mask 3]) =
          .ok r s' := by
  obtain ⟨plan, hplan⟩ := exists_layer_plan
  obtain ⟨id, s, -, hcompiled⟩ := compiledAs_of_ok layerTerm_built hplan
  have hmasks : 1 = s.masks.size := hcompiled.lowered.inv.count.symm
  let machine (ops : Arithmetic Float32) : Machine Float32 := Machine.start ops plan
    [layerValues.tensor 0, layerValues.tensor 1, layerValues.tensor 2] [layerValues.mask 3]
  have hcomplete : ∀ ops, (machine ops).Complete plan := fun ops =>
    hcompiled.complete_start ops rfl hmasks
  have hleaves : Machine.SameLeaves plan (machine .binary32) (machine .allOnes) :=
    Machine.sameLeaves_start _ _ plan _ _
  obtain ⟨r, t, t', hrun, hrun'⟩ := runs_forget .binary32 layerTerm_built hplan hleaves
    (.inl ⟨hcompiled.size_lt_of_fits layerTerm_fits, hcomplete .binary32, hcomplete .allOnes⟩) true
  exact ⟨plan, r, t, t', hplan, hrun, hrun'⟩

/-! ## A product of `2 ^ 32` elements -/

/-- Two matrices without elements, whose product has `2 ^ 32`. -/
def productSignature : Signature where
  decls := [⟨"x", [65536, 0], .input⟩, ⟨"w", [0, 65536], .parameter⟩]
  valid := by decide
  nodup := by decide
  countable := by decide

/-- The product. -/
def productTerm : Term := .apply 0 .matmul [.tensor 0, .tensor 1]

/-- The product is built. -/
theorem productTerm_built : productTerm.Built := by
  have h := Build.known_leaves [.tensor 0, .tensor 1] (by simp [Term.site?])
  have h := h.apply .matmul [.tensor 0, .tensor 1] (by simp [Term.allSubterms, Term.subterms]) rfl
  exact h.built (Term.mem_allSubterms_of_mem List.mem_cons_self)

/-- A run of the product does remember: from buffers of zeros it reads back zeros and from buffers of ones
it reads back ones, though the tensors are the same. -/
theorem product_remembers :
    ∃ plan m m' r r' s s', (compile productSignature productTerm [65536, 65536]).plan = .ok plan ∧
      Machine.SameLeaves plan m m' ∧ m.Complete plan ∧ m'.Complete plan ∧
      Machine.run .binary32 false m = .ok r s ∧ Machine.run .binary32 false m' = .ok r' s' ∧
      r.output[0]? = some (0.0 : Float32) ∧ r'.output[0]? = some (1.0 : Float32) ∧
      r.output ≠ r'.output := by
  obtain ⟨plan, hplan⟩ := exists_plan productTerm_built (show Shape.isCountable [65536, 65536] from rfl)
    (rfl : productTerm.infer productSignature = .ok [65536, 65536]) rfl
  obtain ⟨id, s, -, hcompiled⟩ := compiledAs_of_ok productTerm_built hplan
  have hmasks : 0 = s.masks.size := hcompiled.lowered.inv.count.symm
  let machine (ops : Arithmetic Float32) : Machine Float32 := Machine.start ops plan [#[], #[]] []
  have hcomplete : ∀ ops, (machine ops).Complete plan := fun ops =>
    hcompiled.complete_start ops rfl hmasks
  obtain ⟨c, hk, hb, hname⟩ := hcompiled.output_written
  have hlen : ((Layout.ofRoot productSignature s.nodes id).exportBinding id).len = 2 ^ 32 :=
    hcompiled.lowered.size_eq
  -- the output buffer of a started machine is filled with the zero of its arithmetic
  have hread : ∀ ops : Arithmetic Float32, ∃ r t, Machine.run .binary32 false (machine ops) = .ok r t ∧
      r.output[0]? = some ops.zero := by
    intro ops
    obtain ⟨r, t, hrun, hkept⟩ := hcompiled.run_keeps_output .binary32 (hcomplete ops) false
    refine ⟨r, t, hrun, ?_⟩
    have hstart := Machine.buffer?_start ops hcompiled.wired [#[], #[]] [] hk (.inr hb)
    rw [hname, hlen] at hstart
    rw [hkept 0 (by decide), show (machine ops).buffer? _ _ = _ from hstart, Option.getD_some]
    rw [Machine.zeros, Array.getElem?_replicate, if_pos (by decide)]
  obtain ⟨r, t, hrun, hzero⟩ := hread .binary32
  obtain ⟨r', t', hrun', hone⟩ := hread .allOnes
  refine ⟨plan, machine .binary32, machine .allOnes, r, r', t, t', hplan,
    Machine.sameLeaves_start _ _ plan _ _, hcomplete _, hcomplete _, hrun, hrun', hzero, hone, ?_⟩
  intro heq
  rw [heq, hone, Option.some.injEq] at hzero
  exact absurd hzero (by decide)

end TensorKernels
