import TensorKernels.Proofs.RaceFreedom

/-!
# Deposits

A backward kernel fills its partial buffers by deposits: the invocation of an index puts one value into
each buffer, at the place that the access of the buffer gives for the index. If every invocation makes
its deposits, then after the dispatch every deposit is in its place (`Deposit.meets`), whatever the
buffers held before. Deposits make a share if every element of the buffer's owner gets the deposits of
the indices that read the element (`Deposit.Makes`).
-/

set_option autoImplicit false

namespace TensorKernels

variable {α : Type} (ops : Arithmetic α)

/-- The index of a consumer that keeps its contribution at a place of a partial buffer. -/
def Access.depositor : Access → Nat → Nat
  | .permuted rows cols, j => j % cols * rows + j / cols
  | _, j => j

/-- Elements are stored inside of the buffer. -/
theorem Access.Covers.stored_lt {a : Access} {m n i : Nat} (h : a.Covers m n) (hi : i < n) :
    a.stored i < n :=
  List.mem_range.1 (h.stored_perm.mem_iff.1 (List.mem_map.2 ⟨i, List.mem_range.2 hi, rfl⟩))

/-- An element that was stored belongs to the invocation that stored it. -/
theorem Access.Covers.depositor_stored {a : Access} {m n i : Nat} (h : a.Covers m n) (hi : i < n) :
    a.depositor (a.stored i) = i := by
  cases a with
  | permuted rows cols =>
    have hlt := h.stored_lt hi
    obtain ⟨-, rfl⟩ := h
    exact ((Access.position_permuted_iff hi hlt).1 rfl).symm
  | _ => rfl

/-- What the invocations of a kernel put into a partial buffer: each one value at most. -/
structure Deposit (α : Type) where
  buffer : PartialBuffer
  value : Nat → α

namespace Deposit

/-- What an invocation writes to a buffer. -/
def write (ds : List (Deposit α)) (name : String) (i : Nat) : Option (Nat × α) :=
  (ds.find? fun d => outputName d.buffer.name = name).bind fun d =>
    if i < d.buffer.len then some (d.buffer.access.stored i, d.value i) else none

/-- The data has the deposit of every index in its place. -/
def Kept (d : Deposit α) (data : Array α) : Prop :=
  ∀ i < d.buffer.len, data.getD (d.buffer.access.stored i) ops.zero = d.value i

/-- The deposits add up to a share: every element of the owner gets those of the indices that read it. -/
def Makes [AddCommMonoid α] (d : Deposit α) (e : Owner × (Nat → α)) : Prop :=
  d.buffer.owner = e.1 ∧ ∀ m, d.buffer.access.Covers m d.buffer.len → ∀ j < m,
    ∑ i ∈ Finset.range d.buffer.len with d.buffer.access.position i = j, d.value i = e.2 j

variable {ds : List (Deposit α)}

/-- With distinct names, a deposit is found by the name of its buffer. -/
theorem find?_eq (hnodup : (ds.map fun d => d.buffer.name).Nodup) {d : Deposit α} (hd : d ∈ ds) :
    (ds.find? fun e => outputName e.buffer.name = outputName d.buffer.name) = some d := by
  obtain ⟨e, he⟩ : ∃ e, (ds.find? fun e => outputName e.buffer.name = outputName d.buffer.name) =
      some e := by
    rw [← Option.isSome_iff_exists, List.find?_isSome]
    exact ⟨d, hd, by simp⟩
  have hname := List.find?_some he
  rw [decide_eq_true_eq] at hname
  rw [he, List.inj_on_of_nodup_map hnodup (List.mem_of_find?_eq_some he) hd (outputName_injective hname)]

/-- What an invocation writes into the buffer of a deposit. -/
theorem write_eq (hnodup : (ds.map fun d => d.buffer.name).Nodup) {d : Deposit α} (hd : d ∈ ds)
    (i : Nat) : write ds (outputName d.buffer.name) i =
      if i < d.buffer.len then some (d.buffer.access.stored i, d.value i) else none := by
  rw [write, find?_eq hnodup hd, Option.bind_some]

/-- What is left at a place of a buffer after all deposits. -/
def settled (ds : List (Deposit α)) (name : String) (j : Nat) : α :=
  ((ds.find? fun d => outputName d.buffer.name = name).map fun d =>
    d.value (d.buffer.access.depositor j)).getD ops.zero

/-- Every place of a deposited buffer holds the value of its invocation. -/
theorem settled_stored (hnodup : (ds.map fun d => d.buffer.name).Nodup) {d : Deposit α} (hd : d ∈ ds)
    {m i : Nat} (hcov : d.buffer.access.Covers m d.buffer.len) (hi : i < d.buffer.len) :
    settled ops ds (outputName d.buffer.name) (d.buffer.access.stored i) = d.value i := by
  rw [settled, find?_eq hnodup hd, Option.map_some, Option.getD_some, hcov.depositor_stored hi]

/-- No write is lost: an invocation writes what is left in the end. -/
theorem eq_settled_of_write (hnodup : (ds.map fun d => d.buffer.name).Nodup) {d : Deposit α} (hd : d ∈ ds)
    {m i j : Nat} {x : α} (hcov : d.buffer.access.Covers m d.buffer.len)
    (hwrite : write ds (outputName d.buffer.name) i = some (j, x)) :
    x = settled ops ds (outputName d.buffer.name) j := by
  rw [write_eq hnodup hd] at hwrite
  by_cases hi : i < d.buffer.len
  · rw [if_pos hi, Option.some.injEq, Prod.mk.injEq] at hwrite
    obtain ⟨rfl, rfl⟩ := hwrite
    rw [settled_stored ops hnodup hd hcov hi]
  · rw [if_neg hi] at hwrite
    cases hwrite

/-- Every place of a buffer is written. -/
theorem exists_write (hnodup : (ds.map fun d => d.buffer.name).Nodup) {d : Deposit α} (hd : d ∈ ds)
    {m j : Nat} (hcov : d.buffer.access.Covers m d.buffer.len) (hj : j < d.buffer.len) :
    ∃ i < d.buffer.len, write ds (outputName d.buffer.name) i = some (j, d.value i) := by
  obtain ⟨i, hi, rfl⟩ := List.mem_map.1 (hcov.stored_perm.mem_iff.2 (List.mem_range.2 hj))
  have hi := List.mem_range.1 hi
  exact ⟨i, hi, by rw [write_eq hnodup hd, if_pos hi]⟩

/-- A kernel whose invocations make deposits leaves every deposit in its place. -/
theorem meets {k : Kernel} (In : Binding → Array α → Prop)
    (hnodup : (ds.map fun d => d.buffer.name).Nodup)
    (houtputs : ∀ b, b ∈ k.outputs.entries ↔ ∃ d ∈ ds, b = d.buffer.outputBinding)
    (hcovers : ∀ d ∈ ds, ∃ m, d.buffer.access.Covers m d.buffer.len)
    (hlen : ∀ d ∈ ds, d.buffer.len ≤ k.size) (hsize : k.size < 2 ^ 32)
    (hstores : ∀ inputs outputs : Buffers α,
      (∀ b ∈ k.inputs.entries, ∃ data, inputs.find? b.name = some data ∧ In b data) →
      (∀ d ∈ ds, (outputs.find? (outputName d.buffer.name)).isSome) → ∀ i < 2 ^ 32,
      Kernel.Stores ops k.body inputs outputs i fun name => write ds name i) :
    k.Meets ops In fun b data => ∀ d ∈ ds, b.name = outputName d.buffer.name → d.Kept ops data := by
  intro inputs outputs hin hout
  obtain ⟨hcovered, hinvocations⟩ := Kernel.le_invocations hsize
  have hfound : ∀ d ∈ ds, ∃ data, outputs.find? (outputName d.buffer.name) = some data ∧
      data.size = d.buffer.len :=
    fun d hd => hout.found d.buffer.outputBinding ((houtputs _).2 ⟨d, hd, rfl⟩)
  have hdeposit : ∀ name data, outputs.find? name = some data →
      ∃ d ∈ ds, name = outputName d.buffer.name ∧ data.size = d.buffer.len := by
    intro name data hdata
    obtain ⟨b, hb, rfl⟩ := Bindings.mem_names.1 (hout.only name data hdata)
    obtain ⟨d, hd, rfl⟩ := (houtputs b).1 hb
    obtain ⟨data', hdata', hs⟩ := hfound d hd
    have heq := hdata.symm.trans hdata'
    rw [Option.some.injEq] at heq
    exact ⟨d, hd, rfl, by rw [heq, hs]⟩
  have hwrites : ∀ i < k.invocations, ∀ outputs' : Buffers α, outputs.SameSizes outputs' →
      Kernel.Stores ops k.body inputs outputs' i fun name => write ds name i := by
    intro i hi outputs' hsame
    refine hstores inputs outputs' hin ?_ i (by omega)
    intro d hd
    obtain ⟨data, hdata, -⟩ := hfound d hd
    rw [hsame.isSome, hdata]
    rfl
  obtain ⟨final, hfinal, hfind⟩ :=
    Kernel.dispatch_eq_ofFn ops inputs outputs (write ds) (settled ops ds) hwrites
    (by
      intro name data hdata i _ j x hwrite _
      obtain ⟨d, hd, rfl, -⟩ := hdeposit name data hdata
      obtain ⟨m, hcov⟩ := hcovers d hd
      exact eq_settled_of_write ops hnodup hd hcov hwrite)
    (by
      intro name data hdata j hj
      obtain ⟨d, hd, rfl, hs⟩ := hdeposit name data hdata
      obtain ⟨m, hcov⟩ := hcovers d hd
      obtain ⟨i, hi, hwrite⟩ := exists_write hnodup hd hcov (hs ▸ hj)
      exact ⟨i, Nat.lt_of_lt_of_le hi (Nat.le_trans (hlen d hd) hcovered), d.value i, hwrite⟩)
  refine ⟨final, hfinal, ?_, ?_⟩
  · intro name
    rw [hfind name, Option.map_map]
    cases outputs.find? name <;> simp
  · intro b hb
    obtain ⟨data, hdata, -⟩ := hout.found b hb
    refine ⟨_, by rw [hfind, hdata, Option.map_some], ?_⟩
    intro d hd hname i hi
    obtain ⟨m, hcov⟩ := hcovers d hd
    obtain ⟨data', hdata', hs'⟩ := hfound d hd
    rw [hname, hdata', Option.some.injEq] at hdata
    have hlt : d.buffer.access.stored i < data.size := by
      rw [← hdata, hs']
      exact hcov.stored_lt hi
    simp [Array.getD, hlt, hname, settled_stored ops hnodup hd hcov hi]

/-- The place that an invocation writes in a buffer. -/
def placeIn (ds : List (Deposit α)) (i : Nat) (name : String) : Nat :=
  ((ds.find? fun d => outputName d.buffer.name = name).map fun d => d.buffer.access.stored i).getD 0

/-- The value that an invocation writes to a buffer. -/
def valueIn (ds : List (Deposit α)) (i : Nat) (name : String) : α :=
  ((ds.find? fun d => outputName d.buffer.name = name).map fun d => d.value i).getD ops.zero

/-- The place of a deposit in its buffer. -/
theorem placeIn_eq (hnodup : (ds.map fun d => d.buffer.name).Nodup) {d : Deposit α} (hd : d ∈ ds)
    (i : Nat) : placeIn ds i (outputName d.buffer.name) = d.buffer.access.stored i := by
  rw [placeIn, find?_eq hnodup hd, Option.map_some, Option.getD_some]

/-- The value of a deposit. -/
theorem valueIn_eq (hnodup : (ds.map fun d => d.buffer.name).Nodup) {d : Deposit α} (hd : d ∈ ds)
    (i : Nat) : valueIn ops ds i (outputName d.buffer.name) = d.value i := by
  rw [valueIn, find?_eq hnodup hd, Option.map_some, Option.getD_some]

/-- Where an invocation deposits in every buffer, a write is found by its name. -/
theorem write_of_lt (hnodup : (ds.map fun d => d.buffer.name).Nodup) {i : Nat}
    (hi : ∀ d ∈ ds, i < d.buffer.len) (name : String) : write ds name i =
      if name ∈ ds.map fun d => outputName d.buffer.name then
        some (placeIn ds i name, valueIn ops ds i name)
      else none := by
  by_cases hname : name ∈ ds.map fun d => outputName d.buffer.name
  · obtain ⟨d, hd, rfl⟩ := List.mem_map.1 hname
    rw [if_pos hname, write_eq hnodup hd, if_pos (hi d hd), placeIn_eq hnodup hd, valueIn_eq ops hnodup hd]
  · rw [if_neg hname, write, List.find?_eq_none.2, Option.bind_none]
    intro d hd heq
    exact hname (List.mem_map.2 ⟨d, hd, of_decide_eq_true heq⟩)

/-- The stores of the collectors: a buffer, a place in it and a value for each. -/
def collectorStores (ds : List (Deposit α)) : List (String × Expr × Expr) :=
  (ds.map Deposit.buffer).mapIdx fun k p =>
    (outputName p.name, p.access.partialIndex, .var (Layout.collectorName k))

/-- The stores of collectors go to the buffers of their deposits. -/
theorem map_fst_collectorStores (ds : List (Deposit α)) :
    (collectorStores ds).map Prod.fst = ds.map fun d => outputName d.buffer.name :=
  List.ext_getElem (by simp [collectorStores]) (by intros; simp [collectorStores])

variable {ops}

/-- Stores of collectors make deposits. -/
theorem stores_ends (hnodup : (ds.map fun d => d.buffer.name).Nodup) {i n : Nat}
    (hi : i < n) (hn : n < 2 ^ 32)
    (hds : ∀ d ∈ ds, d.buffer.len = n ∧ ∃ m, d.buffer.access.Covers m n) {s : Invocation α}
    (hindex : s.index = UInt32.ofNat i)
    (hvalue : ∀ k d, ds[k]? = some d → s.locals.find? (Layout.collectorName k) = some (.scalar (d.value i)))
    (hout : ∀ d ∈ ds, (s.outputs.find? (outputName d.buffer.name)).isSome) :
    Stmt.Ends ops s ((ds.map Deposit.buffer).mapIdx fun k p =>
        .store (outputName p.name) p.access.partialIndex (.var (Layout.collectorName k))) fun t =>
      ∀ b, t.outputs.find? b = (s.outputs.find? b).map fun data =>
        applyWrite data (write ds b i) := by
  have hcode : (ds.map Deposit.buffer).mapIdx (fun k p =>
      Stmt.store (outputName p.name) p.access.partialIndex (.var (Layout.collectorName k))) =
      (collectorStores ds).map fun e => .store e.1 e.2.1 e.2.2 := by
    rw [collectorStores, Layout.map_mapIdx]
  rw [hcode]
  refine (Stmt.Ends.stores ?_ (placeIn ds i) (valueIn ops ds i) ?_).mono ?_
  · rw [map_fst_collectorStores]
    have hmap := hnodup.map (fun _ _ heq => outputName_injective heq)
    rwa [List.map_map] at hmap
  · intro e he
    obtain ⟨k, hk, rfl⟩ := List.mem_mapIdx.1 he
    have hk' : k < ds.length := by simpa using hk
    have hd := List.getElem_mem hk'
    obtain ⟨hlen, m, hcov⟩ := hds _ hd
    simp only [List.getElem_map]
    refine ⟨hout _ hd, ?_, ?_⟩
    · rw [placeIn_eq hnodup hd]
      exact Nat.lt_trans (hcov.stored_lt hi) hn
    · intro t htindex hlocals _
      refine ⟨?_, Expr.eval_var ops ?_⟩
      · rw [Access.eval_partialIndex, htindex, hindex, placeIn_eq hnodup hd,
          ← Access.toNat_place hcov hn hi, UInt32.ofNat_toNat]
      · rw [hlocals, hvalue k _ (List.getElem?_eq_getElem hk'), valueIn_eq ops hnodup hd]
  · intro t ht b
    rw [ht b, write_of_lt ops hnodup (fun d hd => (hds d hd).1 ▸ hi) b, map_fst_collectorStores]

end Deposit

end TensorKernels
