import Mathlib.Data.List.Nodup
import TensorKernels.Proofs.Deposits
import TensorKernels.Proofs.GradientValues

/-!
# Folds share out a partial buffer

A consumer of `n` elements keeps one contribution per index in a partial buffer, and an operand of `m`
elements has one fold per element. The positions where contributions are kept are a rearrangement of the
indices (`Access.Covers.stored_perm`), and every index reads exactly one element
(`Access.flatMap_readers_perm`), so the folds for all elements go through the whole buffer once.
`folds_share_out_partials` puts this together with what the code of an access and of a fold computes.
Addition is not interpreted there, so the result of a fold also shows the order of its contributions.

The gradients of parameters are folded on the host, those of other tensors in kernels. Both add the same
contributions in the same order (`host_fold_eq_kernel_fold`).
-/

set_option autoImplicit false

namespace TensorKernels

variable {α : Type} (ops : Arithmetic α)

namespace Access

/-- The code that says where a contribution is kept computes its position. -/
theorem Covers.eval_partialIndex {s : Invocation α} {i m n : Nat} {a : Access} (h : a.Covers m n)
    (hi : i < n) (hn : n < 2 ^ 32) (hs : s.index = UInt32.ofNat i) :
    a.partialIndex.eval ops s = .ok (.word (UInt32.ofNat (a.stored i))) := by
  rw [a.eval_partialIndex, hs, ← toNat_place h hn hi, UInt32.ofNat_toNat]

/-- Every index reads exactly one element of the operand. -/
theorem flatMap_readers_perm {a : Access} {m n : Nat} (h : a.Covers m n) :
    ((List.range m).flatMap (a.readers n)).Perm (List.range n) := by
  have hnodup : ((List.range m).flatMap (a.readers n)).Nodup := by
    refine List.nodup_flatMap.2 ⟨fun j _ => List.nodup_range.filter _, ?_⟩
    refine List.nodup_range.imp fun hne i hi hi' => hne ?_
    rw [← (mem_readers.1 hi).2, ← (mem_readers.1 hi').2]
  refine (List.perm_ext_iff_of_nodup hnodup List.nodup_range).2 fun i => ?_
  rw [List.mem_flatMap, List.mem_range]
  constructor
  · rintro ⟨j, -, hi⟩
    exact (mem_readers.1 hi).1
  · intro hi
    exact ⟨a.position i, List.mem_range.2 (h.position_lt hi), mem_readers.2 ⟨hi, rfl⟩⟩

end Access

/-- For an access to an operand of `m` elements by a consumer of `n`, both below `2 ^ 32`: at every index
the code of the access computes the element that is read, and the position where the contribution to it is
kept in a partial buffer of `n` elements. Folding such a buffer for an element adds to its variable the
contributions of the indices that read the element, each once and in ascending order of the indices, and
changes nothing else but the loop variable. The folds for all elements together go through every position
of the buffer exactly once, so no two of them share one. -/
theorem folds_share_out_partials {a : Access} {m n : Nat} (hcov : a.Covers m n) (hm : m < 2 ^ 32)
    (hn : n < 2 ^ 32) :
    (∀ i < n, ∀ s : Invocation α, s.index = UInt32.ofNat i →
      a.index.eval ops s = .ok (.word (UInt32.ofNat (a.position i))) ∧ a.position i < m ∧
      a.partialIndex.eval ops s = .ok (.word (UInt32.ofNat (a.stored i))) ∧ a.stored i < n) ∧
    (∀ j < m, ∀ {s : Invocation α} {acc source loopVar : String} {element : Expr} {data : Array α} {v : α},
      acc ≠ loopVar → (∀ name ∈ element.vars, name ≠ acc ∧ name ≠ loopVar) →
      s.locals.find? acc = some (.scalar v) → s.buffer? source = some data → data.size = n →
      element.eval ops s = .ok (.word (UInt32.ofNat j)) →
      Stmt.Ends ops s (a.foldInto acc source element loopVar) fun t =>
        Invocation.Frame [acc, loopVar] [] s t ∧ t.locals.find? acc = some (.scalar
          ((a.readers n j).foldl (fun x i => ops.add x (data.getD (a.stored i) ops.zero)) v))) ∧
    (∀ j, (a.readers n j).Pairwise (· < ·) ∧ ∀ i, i ∈ a.readers n j ↔ i < n ∧ a.position i = j) ∧
    ((List.range m).flatMap fun j => (a.readers n j).map a.stored).Perm (List.range n) := by
  refine ⟨?_, ?_, ?_, ?_⟩
  · intro i hi s hs
    exact ⟨Access.eval_index ops hcov hi hn hm hs, hcov.position_lt hi,
      hcov.eval_partialIndex ops hi hn hs, hcov.stored_lt hi⟩
  · rintro j hj s acc source loopVar element data v hne hvars hacc hdata rfl helement
    refine .withFrame (Access.foldInto_folds hne hvars hacc hdata helement hcov hj hn) ?_
    intro t hframe ht
    refine ⟨hframe.mono ?_ ?_, ?_⟩
    · intro name hname
      rcases Access.sets_foldInto a hname with rfl | rfl <;> simp
    · rw [Access.blockStores_foldInto]
      exact List.Subset.refl _
    · rw [ht, ← Access.map_stored_readers hcov hj, List.foldl_map]
  · intro j
    exact ⟨a.readers_ascending n j, fun i => Access.mem_readers⟩
  · have hmap : ((List.range m).flatMap fun j => (a.readers n j).map a.stored) =
        ((List.range m).flatMap (a.readers n)).map a.stored := by
      rw [List.map_flatMap]
    rw [hmap]
    exact ((Access.flatMap_readers_perm hcov).map a.stored).trans hcov.stored_perm

/-- A partial buffer of two rows, folded for the middle one of three columns. -/
theorem fold_middle_column :
    (Access.row 2 3).Covers 3 6 ∧
    Stmt.Ends .binary32
      (⟨0, .ofList [("g", .scalar 0.5)], .ofList [("p", #[1.0, 2.0, 3.0, 10.0, 20.0, 30.0])], .empty⟩ :
        Invocation Float32)
      ((Access.row 2 3).foldInto "g" "p" (.ofNat 1) "k") fun t =>
      t.locals.find? "g" = some (.scalar (Float32.add (Float32.add 0.5 2.0) 20.0)) := by
  have hcov : (Access.row 2 3).Covers 3 6 := ⟨rfl, rfl⟩
  refine ⟨hcov, ?_⟩
  refine ((folds_share_out_partials .binary32 hcov (by decide) (by decide)).2.1 1 (by decide) (by decide)
    (by simp [Expr.ofNat, Expr.vars]) rfl rfl rfl rfl).mono ?_
  rintro t ⟨-, ht⟩
  exact ht

/-- For an access to an operand with as many elements as `grad`, by a consumer with as many as `source`:
folding `source` on the host finds an element for every contribution, and it gives each element of `grad`
the value that the code of a fold computes from the element. For a single element, whose contributions the
host sums up first, addition has to be associative and the start of the sum neutral; otherwise nothing is
assumed about addition. -/
theorem host_fold_eq_kernel_fold {a : Access} {source grad : Array α}
    (hcov : a.Covers grad.size source.size) (hsize : source.size < 2 ^ 32) :
    ∃ grad', a.foldHost ops source grad = some grad' ∧ grad'.size = grad.size ∧
      ((∀ count, a = .scalar count → ops.HostSums) → ∀ (j : Nat) (g : α), grad[j]? = some g →
        ∃ g', grad'[j]? = some g' ∧
          ∀ {s : Invocation α} {acc buffer loopVar : String} {element : Expr}, acc ≠ loopVar →
            (∀ name ∈ element.vars, name ≠ acc ∧ name ≠ loopVar) →
            s.locals.find? acc = some (.scalar g) → s.buffer? buffer = some source →
            element.eval ops s = .ok (.word (UInt32.ofNat j)) →
            Stmt.Ends ops s (a.foldInto acc buffer element loopVar) fun t =>
              t.locals.find? acc = some (.scalar g')) := by
  obtain ⟨grad', hfold, hkeep, hget⟩ := Access.foldHost_folds ops hcov
  refine ⟨grad', hfold, hkeep, ?_⟩
  intro hops j g hg
  have hj : j < grad.size := (Array.getElem?_eq_some_iff.1 hg).1
  refine ⟨_, by rw [hget hops j hj, hg]; rfl, ?_⟩
  intro s acc buffer loopVar element hne hvars hacc hbuffer helement
  exact Access.foldInto_folds hne hvars hacc hbuffer helement hcov hj hsize

/-- Of a matrix of contributions to a column of two elements the second gets `0.5 + 10 + 20 + 30`, in this
order; a single element gets the sum of all contributions. -/
theorem host_folds_column_and_scalar :
    (Access.col 3).Covers 2 6 ∧ (Access.scalar 3).Covers 1 3 ∧
    (∃ grad', (Access.col 3).foldHost .binary32 #[1.0, 2.0, 3.0, 10.0, 20.0, 30.0] #[0.25, 0.5] = some grad' ∧
      ∃ g', grad'[1]? = some g' ∧
        Stmt.Ends .binary32
          (⟨0, .ofList [("g", .scalar 0.5)], .ofList [("p", #[1.0, 2.0, 3.0, 10.0, 20.0, 30.0])], .empty⟩ :
            Invocation Float32)
          ((Access.col 3).foldInto "g" "p" (.ofNat 1) "k") fun t =>
          t.locals.find? "g" = some (.scalar g')) ∧
    ∃ grad', (Access.scalar 3).foldHost .naturals #[4, 5, 6] #[7] = some grad' ∧
      ∃ g', grad'[0]? = some g' ∧
        Stmt.Ends .naturals
          (⟨0, .ofList [("g", .scalar 7)], .ofList [("p", #[4, 5, 6])], .empty⟩ : Invocation Nat)
          ((Access.scalar 3).foldInto "g" "p" (.ofNat 0) "k") fun t =>
          t.locals.find? "g" = some (.scalar g') := by
  refine ⟨rfl, ⟨rfl, rfl⟩, ?_, ?_⟩
  · have hcol : (Access.col 3).Covers (#[0.25, 0.5] : Array Float32).size
        (#[1.0, 2.0, 3.0, 10.0, 20.0, 30.0] : Array Float32).size := rfl
    obtain ⟨grad', hfold, -, hget⟩ := host_fold_eq_kernel_fold .binary32 hcol (by decide)
    obtain ⟨g', hg', hends⟩ := hget (by rintro count ⟨⟩) 1 0.5 rfl
    exact ⟨grad', hfold, g', hg', hends (by decide) (by simp [Expr.ofNat, Expr.vars]) rfl rfl rfl⟩
  · have hscalar : (Access.scalar 3).Covers (#[7] : Array Nat).size (#[4, 5, 6] : Array Nat).size := ⟨rfl, rfl⟩
    obtain ⟨grad', hfold, -, hget⟩ := host_fold_eq_kernel_fold .naturals hscalar (by decide)
    obtain ⟨g', hg', hends⟩ := hget (fun _ _ => Arithmetic.naturals_sums.hostSums) 0 7 rfl
    exact ⟨grad', hfold, g', hg', hends (by decide) (by simp [Expr.ofNat, Expr.vars]) rfl rfl rfl⟩

end TensorKernels
