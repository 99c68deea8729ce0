import Mathlib.Data.List.Sort
import TensorKernels.Proofs.Adjoint
import TensorKernels.Proofs.Inference

/-!
# Folding partial gradients

A partial buffer holds one contribution per element of a consumer. `Access.readers` lists the indices that
read an element of the operand and `Access.kept` the positions of the buffer that hold contributions to it;
both are the same contributions in the same order (`Access.map_stored_readers`). What the buffer holds for
an element (`Access.folded`) is therefore the sum of the contributions at all indices that read it
(`Access.folded_stored`).

On the host a partial buffer is added to the gradient of the operand. Where the access covers the operand
every contribution finds its element, so the fold succeeds and keeps the number of elements
(`Access.foldHost_spec`). Every element gets the contributions kept for it, one after the other and in the
order of their positions (`Access.foldHost_folds`); only a single element is given their sum, which is the
same where addition is associative. In a commutative monoid this is what the buffer holds for the element
(`Access.foldHost_value`).
-/

set_option autoImplicit false

namespace TensorKernels

variable {α : Type} (ops : Arithmetic α)

section Sums

variable {ops} [AddCommMonoid α]

/-- Without rounding, adding up terms one by one gives their sum. -/
theorem Arithmetic.Sums.foldl_eq (hops : ops.Sums) (n : Nat) (f : Nat → α) (a : α) :
    (List.range n).foldl (fun x k => ops.add x (f k)) a = a + ∑ k ∈ Finset.range n, f k := by
  induction n with
  | zero => simp
  | succ n ih =>
    rw [List.range_succ, List.foldl_append, ih, Finset.sum_range_succ, ← add_assoc]
    exact hops.add _ _

/-- Without rounding, adding up the images of a list one by one gives their sum. -/
theorem Arithmetic.Sums.foldl_map_eq {β : Type} (hops : ops.Sums) (l : List β) (f : β → α) (a : α) :
    l.foldl (fun x e => ops.add x (f e)) a = a + (l.map f).sum := by
  induction l generalizing a with
  | nil => simp
  | cons e l ih => rw [List.foldl_cons, ih, hops.add, List.map_cons, List.sum_cons, add_assoc]

/-- The sum over the numbers that satisfy a condition, as a sum over a finite set. -/
theorem sum_filter_range (n : Nat) (p : Nat → Prop) [DecidablePred p] (f : Nat → α) :
    (((List.range n).filter fun i => p i).map f).sum = ∑ i ∈ Finset.range n with p i, f i := by
  rw [Finset.sum_filter]
  induction n with
  | zero => rfl
  | succ n ih =>
    rw [List.range_succ, List.filter_append, List.map_append, List.sum_append, ih,
      Finset.sum_range_succ]
    by_cases hn : p n <;> simp [hn]

end Sums

/-- Addition is associative, and what the host starts a sum from is neutral on the right. -/
structure Arithmetic.HostSums : Prop where
  assoc : ∀ x y z, ops.add (ops.add x y) z = ops.add x (ops.add y z)
  neutral : ∀ x, ops.add x (ops.lit (-0.0)) = x

/-- Adding a sum adds its elements one after the other. -/
theorem Arithmetic.HostSums.add_sum {ops : Arithmetic α} (hops : ops.HostSums) (x : α)
    (source : Array α) : ops.add x (ops.sum source) = source.toList.foldl ops.add x := by
  have hstart : ∀ (l : List α) (e : α),
      ops.add x (l.foldl ops.add e) = l.foldl ops.add (ops.add x e) := by
    intro l
    induction l with
    | nil => exact fun e => rfl
    | cons y l ih =>
      intro e
      rw [List.foldl_cons, ih, List.foldl_cons, hops.assoc]
  rw [Arithmetic.sum, ← Array.foldl_toList, hstart, hops.neutral]

/-- Sums without rounding satisfy what the host relies on. -/
theorem Arithmetic.Sums.hostSums [AddCommMonoid α] {ops : Arithmetic α} (hops : ops.Sums) :
    ops.HostSums where
  assoc x y z := by simp only [hops.add, add_assoc]
  neutral x := by rw [hops.add, hops.negZero, add_zero]

/-- The elements of an array with their positions. -/
theorem zipIdx_toList (source : Array α) (d : α) :
    source.toList.zipIdx = (List.range source.size).map fun i => (source.getD i d, i) := by
  refine List.ext_getElem (by simp) ?_
  intro i hi _
  have hi : i < source.size := by simpa using hi
  simp [hi]

namespace Access

/-! ## What partial buffers hold -/

/-- Where index `i` of a consumer keeps its contribution in a partial buffer. -/
def stored : Access → Nat → Nat
  | .permuted rows cols, i => (Access.permuted rows cols).position i
  | _, i => i

/-- The only index that reads element `j` through a transpose. -/
theorem position_permuted_iff {rows cols i j : Nat} (hi : i < rows * cols) (hj : j < rows * cols) :
    (Access.permuted rows cols).position i = j ↔ i = j % cols * rows + j / cols := by
  have hdiv : i / rows < cols := Nat.div_lt_of_lt_mul hi
  have hdiv' : j / cols < rows := Nat.div_lt_of_lt_mul (by rwa [Nat.mul_comm])
  show i % rows * cols + i / rows = j ↔ _
  constructor
  · rintro rfl
    rw [row_add_mod hdiv, row_add_div hdiv, Nat.mul_comm, Nat.div_add_mod]
  · rintro rfl
    rw [row_add_mod hdiv', row_add_div hdiv', Nat.mul_comm, Nat.div_add_mod]

/-- The indices below `n` that read element `j` of the operand, in ascending order. -/
def readers (a : Access) (n j : Nat) : List Nat := (List.range n).filter fun i => a.position i = j

/-- The positions of a partial buffer that hold the contributions to element `j`. -/
def kept (j : Nat) : Access → List Nat
  | .aligned => [j]
  | .permuted _ _ => [j]
  | .scalar count => List.range count
  | .row rows cols => (List.range rows).map fun k => k * cols + j
  | .col cols => (List.range cols).map fun k => j * cols + k

/-- The readers of an element are the positions that read it. -/
theorem mem_readers {a : Access} {n i j : Nat} : i ∈ a.readers n j ↔ i < n ∧ a.position i = j := by
  simp [readers]

/-- The readers of an element are listed in ascending order. -/
theorem readers_ascending (a : Access) (n j : Nat) : (a.readers n j).Pairwise (· < ·) :=
  List.pairwise_lt_range.filter _

/-- An ascending list of the indices that read an element. -/
theorem readers_eq {a : Access} {n j : Nat} {l : List Nat} (hl : l.Pairwise (· < ·))
    (hmem : ∀ i, i ∈ l ↔ i < n ∧ a.position i = j) : a.readers n j = l :=
  (a.readers_ascending n j).eq_of_mem_iff hl fun i => by rw [mem_readers, hmem]

/-- Element `k` of row `i`, in row-major order. -/
theorem rowMajor_iff {rows cols k c i : Nat} (hc : c < cols) :
    (k < rows ∧ k * cols + c = i) ↔ i < rows * cols ∧ i / cols = k ∧ i % cols = c := by
  constructor
  · rintro ⟨hk, rfl⟩
    exact ⟨row_add_lt hk hc, row_add_div hc, row_add_mod hc⟩
  · rintro ⟨hi, rfl, rfl⟩
    refine ⟨Nat.div_lt_of_lt_mul (by rwa [Nat.mul_comm]), ?_⟩
    rw [Nat.mul_comm, Nat.div_add_mod]

/-- What is kept for an element is what the indices that read it have contributed, in the order of the
indices. -/
theorem map_stored_readers {a : Access} {m n j : Nat} (h : a.Covers m n) (hj : j < m) :
    (a.readers n j).map a.stored = a.kept j := by
  have hplace : ∀ {l : List Nat}, a.readers n j = l → (∀ i, a.stored i = i) →
      (a.readers n j).map a.stored = l := by
    rintro l rfl hstored
    rw [funext hstored]
    exact List.map_id' _
  cases a with
  | aligned =>
    obtain rfl : m = n := h
    refine hplace (readers_eq (List.pairwise_singleton _ j) fun i => ?_) fun _ => rfl
    rw [kept, List.mem_singleton]
    exact ⟨fun h => ⟨h ▸ hj, h⟩, And.right⟩
  | permuted rows cols =>
    obtain ⟨rfl, rfl⟩ := h
    -- the only reader contributes straight to the element's own position
    have hcols : 0 < cols := Nat.pos_of_ne_zero fun h0 => by simp [h0] at hj
    have hdiv : j / cols < rows := Nat.div_lt_of_lt_mul (by rwa [Nat.mul_comm])
    have hi : j % cols * rows + j / cols < rows * cols := by
      rw [Nat.mul_comm rows]
      exact row_add_lt (Nat.mod_lt j hcols) hdiv
    have hreaders : (Access.permuted rows cols).readers (rows * cols) j =
        [j % cols * rows + j / cols] := by
      refine readers_eq (List.pairwise_singleton _ _) fun i => ?_
      rw [List.mem_singleton]
      constructor
      · rintro rfl
        exact ⟨hi, (position_permuted_iff hi hj).2 rfl⟩
      · rintro ⟨hlt, hpos⟩
        exact (position_permuted_iff hlt hj).1 hpos
    rw [hreaders]
    exact congrArg (fun p => [p]) ((position_permuted_iff hi hj).2 rfl)
  | scalar count =>
    obtain ⟨rfl, rfl⟩ := h
    obtain rfl : j = 0 := Nat.lt_one_iff.1 hj
    refine hplace (readers_eq List.pairwise_lt_range fun i => ?_) fun _ => rfl
    rw [kept, List.mem_range]
    exact (and_iff_left rfl).symm
  | row rows cols =>
    obtain ⟨rfl, rfl⟩ := h
    refine hplace (readers_eq ?_ fun i => ?_) fun _ => rfl
    · refine List.pairwise_map.2 (List.pairwise_lt_range.imp fun hlt => ?_)
      exact Nat.add_lt_add_right (Nat.mul_lt_mul_of_pos_right hlt (by omega)) j
    · rw [kept, List.mem_map]
      constructor
      · rintro ⟨k, hk, heq⟩
        obtain ⟨hi, -, hmod⟩ := (rowMajor_iff hj).1 ⟨List.mem_range.1 hk, heq⟩
        exact ⟨hi, hmod⟩
      · rintro ⟨hi, hmod⟩
        obtain ⟨hk, heq⟩ := (rowMajor_iff hj).2 ⟨hi, rfl, hmod⟩
        exact ⟨i / m, List.mem_range.2 hk, heq⟩
  | col cols =>
    obtain rfl : n = m * cols := h
    refine hplace (readers_eq ?_ fun i => ?_) fun _ => rfl
    · exact List.pairwise_map.2 (List.pairwise_lt_range.imp fun hlt => Nat.add_lt_add_left hlt _)
    · rw [kept, List.mem_map]
      constructor
      · rintro ⟨k, hk, heq⟩
        obtain ⟨hi, hdiv, -⟩ := (rowMajor_iff (List.mem_range.1 hk)).1 ⟨hj, heq⟩
        exact ⟨hi, hdiv⟩
      · rintro ⟨hi, hdiv⟩
        have hcols : 0 < cols := Nat.pos_of_ne_zero fun h0 => by simp [h0] at hi
        have hmod := Nat.mod_lt i hcols
        exact ⟨i % cols, List.mem_range.2 hmod, ((rowMajor_iff hmod).2 ⟨hi, hdiv, rfl⟩).2⟩

section Folded

variable [AddCommMonoid α]

/-- What a partial buffer holds for element `j` of the operand, where `f` gives its elements. -/
def folded (f : Nat → α) (j : Nat) : Access → α
  | .aligned => f j
  | .permuted _ _ => f j
  | .scalar count => ∑ k ∈ Finset.range count, f k
  | .row rows cols => ∑ k ∈ Finset.range rows, f (k * cols + j)
  | .col cols => ∑ k ∈ Finset.range cols, f (j * cols + k)

/-- A folded gradient is the sum over the elements that were kept. -/
theorem folded_eq_sum (a : Access) (f : Nat → α) (j : Nat) :
    a.folded f j = ((a.kept j).map f).sum := by
  cases a with
  | aligned => simp [folded, kept]
  | permuted rows cols => simp [folded, kept]
  | scalar count => rfl
  | row rows cols =>
    rw [kept, List.map_map]
    rfl
  | col cols =>
    rw [kept, List.map_map]
    rfl

/-- A partial buffer with the contribution of every index of a consumer holds, for each element of the
operand, the sum over the indices that read the element. -/
theorem folded_stored {a : Access} {m n j : Nat} (h : a.Covers m n) (hj : j < m) {f v : Nat → α}
    (hf : ∀ i < n, f (a.stored i) = v i) :
    a.folded f j = ∑ i ∈ Finset.range n with a.position i = j, v i := by
  have hsame : ((a.readers n j).map a.stored).map f = (a.readers n j).map v := by
    rw [List.map_map]
    exact List.map_congr_left fun i hi => hf i (mem_readers.1 hi).1
  rw [folded_eq_sum, ← map_stored_readers h hj, hsame]
  exact sum_filter_range n _ v

end Folded

/-! ## Folding on the host -/

/-- Contributions that are added one after the other: each goes to the element that `target` gives for
its position, and every element receives its own in order. -/
theorem foldlM_addAt (target : Nat → Option Nat) (es : List (α × Nat)) (grad : Array α)
    (h : ∀ e ∈ es, ∃ j, target e.2 = some j ∧ j < grad.size) :
    ∃ grad', es.foldlM (fun grad e => (target e.2).bind fun j => addAt ops grad j e.1) grad = some grad' ∧
      grad'.size = grad.size ∧ ∀ j : Nat, grad'[j]? = (grad[j]?).map fun g =>
        (es.filter fun e => target e.2 = some j).foldl (fun acc e => ops.add acc e.1) g := by
  induction es generalizing grad with
  | nil => exact ⟨grad, rfl, rfl, fun j => by simp⟩
  | cons e es ih =>
    obtain ⟨j, htarget, hj⟩ := h e List.mem_cons_self
    have hadd : addAt ops grad j e.1 = some (grad.set j (ops.add grad[j] e.1)) := by
      simp only [addAt, hj, dif_pos]
    obtain ⟨grad', hfold, hsize, hget⟩ := ih (grad.set j (ops.add grad[j] e.1)) (by
      intro e' he'
      rw [Array.size_set]
      exact h e' (List.mem_cons_of_mem _ he'))
    refine ⟨grad', ?_, by rw [hsize, Array.size_set], ?_⟩
    · rw [List.foldlM_cons, htarget, Option.bind_some, hadd]
      exact hfold
    · intro k
      rw [hget k, Array.getElem?_set hj]
      by_cases hjk : j = k
      · subst hjk
        rw [if_pos rfl, List.filter_cons_of_pos (by simpa using htarget)]
        simp [hj]
      · rw [if_neg hjk, List.filter_cons_of_neg (by simpa [htarget] using hjk)]

/-- A scatter succeeds if all targets exist, and adds to each element what is aimed at it, in order. -/
theorem scatter_spec {target : Nat → Option Nat} {source grad : Array α}
    (h : ∀ i < source.size, ∃ j, target i = some j ∧ j < grad.size) :
    ∃ grad', scatter ops target source grad = some grad' ∧ grad'.size = grad.size ∧
      ∀ j : Nat, grad'[j]? = (grad[j]?).map fun g =>
        (source.toList.zipIdx.filter fun e => target e.2 = some j).foldl (fun acc e => ops.add acc e.1) g := by
  refine foldlM_addAt ops target source.toList.zipIdx grad ?_
  rintro ⟨x, i⟩ he
  have hi := (List.getElem?_eq_some_iff.1 (List.mem_zipIdx_iff_getElem?.1 he)).1
  exact h i (by simpa using hi)

/-- Contributions that are scattered to the elements that an access designates: every element gets those
kept for it, one after the other. -/
theorem scatter_folds {a : Access} {target : Nat → Option Nat} {source grad : Array α}
    (h : a.Covers grad.size source.size) (hstored : ∀ i, a.stored i = i)
    (htarget : ∀ i < source.size, target i = some (a.position i)) :
    ∃ grad', scatter ops target source grad = some grad' ∧ grad'.size = grad.size ∧
      ∀ j < grad.size, grad'[j]? = (grad[j]?).map fun g =>
        (a.kept j).foldl (fun x p => ops.add x (source.getD p ops.zero)) g := by
  obtain ⟨grad', hfold, hsize, hget⟩ := scatter_spec ops fun i hi =>
    (⟨a.position i, htarget i hi, h.position_lt hi⟩ : ∃ j, target i = some j ∧ j < grad.size)
  refine ⟨grad', hfold, hsize, ?_⟩
  intro j hj
  have hreaders : (List.range source.size).filter (fun i => target i = some j) =
      a.readers source.size j := by
    refine List.filter_congr fun i hi => ?_
    simp only [htarget i (List.mem_range.1 hi), Option.some.injEq]
  have hkept : a.readers source.size j = a.kept j := by
    rw [← map_stored_readers h hj, funext hstored, List.map_id']
  rw [hget j, zipIdx_toList source ops.zero, List.filter_map]
  simp only [List.foldl_map]
  rw [← hkept, ← hreaders]
  rfl

/-- Where the access covers the operand, the fold succeeds and adds to every element the contributions kept
for it, one after the other. A single element is given their sum. -/
theorem foldHost_folds {a : Access} {source grad : Array α} (h : a.Covers grad.size source.size) :
    ∃ grad', a.foldHost ops source grad = some grad' ∧ grad'.size = grad.size ∧
      ((∀ count, a = .scalar count → ops.HostSums) → ∀ j < grad.size, grad'[j]? =
        (grad[j]?).map fun g => (a.kept j).foldl (fun x p => ops.add x (source.getD p ops.zero)) g) := by
  -- an access that keeps the elements in place adds the buffer element by element
  have hplain : source.size = grad.size → ∀ j < grad.size,
      (grad.mapIdx fun i g => (source[i]?).elim g (ops.add g))[j]? =
        (grad[j]?).map fun g => ops.add g (source.getD j ops.zero) := by
    intro hsize j hj
    simp [hj, hsize]
  cases a with
  | aligned => exact ⟨_, rfl, by simp, fun _ => hplain (Eq.symm h)⟩
  | permuted rows cols => exact ⟨_, rfl, by simp, fun _ => hplain (h.2.trans h.1.symm)⟩
  | scalar count =>
    have hone : grad.size = 1 := h.1
    have hcount : count = source.size := h.2
    have hpos : 0 < grad.size := by omega
    refine ⟨_, dif_pos hpos, by simp, ?_⟩
    intro hops j hj
    obtain rfl : j = 0 := by omega
    have hall : source.toList = (List.range count).map fun p => source.getD p ops.zero := by
      rw [← List.zipIdx_map_fst 0 source.toList, zipIdx_toList source ops.zero, List.map_map, hcount]
      rfl
    rw [Array.getElem?_set_self, Array.getElem?_eq_getElem hpos, Option.map_some,
      (hops count rfl).add_sum, hall, List.foldl_map, kept]
  | row rows cols =>
    obtain ⟨grad', hfold, hsize, hget⟩ := scatter_folds ops h (fun _ => rfl) fun i hi => by
      have hlt := h.position_lt hi
      have hcols : cols ≠ 0 := by
        have := h.1
        omega
      exact (if_neg hcols : (if cols = 0 then none else some (i % cols)) = some (i % cols))
    exact ⟨grad', hfold, hsize, fun _ => hget⟩
  | col cols =>
    obtain ⟨grad', hfold, hsize, hget⟩ := scatter_folds ops h (fun _ => rfl) fun i hi => by
      have hcols : cols ≠ 0 := by
        rintro rfl
        simp only [Covers, Nat.mul_zero] at h
        omega
      exact (if_neg hcols : (if cols = 0 then none else some (i / cols)) = some (i / cols))
    exact ⟨grad', hfold, hsize, fun _ => hget⟩

/-- Where the access covers the operand, the fold succeeds and keeps the number of elements. -/
theorem foldHost_spec {a : Access} {source grad : Array α} (h : a.Covers grad.size source.size) :
    ∃ grad', a.foldHost ops source grad = some grad' ∧ grad'.size = grad.size := by
  obtain ⟨grad', hfold, hsize, -⟩ := foldHost_folds ops h
  exact ⟨grad', hfold, hsize⟩

/-- Where the access covers the operand, every element of the gradient gets what the partial buffer holds
for it. -/
theorem foldHost_value [AddCommMonoid α] {ops : Arithmetic α} (hops : ops.Sums) {a : Access}
    {source grad grad' : Array α} (h : a.Covers grad.size source.size)
    (hgrad : a.foldHost ops source grad = some grad') {j : Nat} (hj : j < grad.size) :
    grad'.getD j ops.zero =
      grad.getD j ops.zero + a.folded (fun i => source.getD i ops.zero) j := by
  obtain ⟨grad'', hfold, -, hget⟩ := foldHost_folds ops h
  obtain rfl : grad'' = grad' := Option.some.inj (hfold.symm.trans hgrad)
  have hj' := hget (fun _ _ => hops.hostSums) j hj
  rw [Array.getElem?_eq_getElem hj, Option.map_some, hops.foldl_map_eq, ← folded_eq_sum] at hj'
  rw [Array.getD_eq_getD_getElem?, hj', Array.getD_eq_getD_getElem?, Array.getElem?_eq_getElem hj]
  rfl

end Access

end TensorKernels
