import Mathlib.Algebra.Group.Nat.Units
import Mathlib.Algebra.Group.Units.Basic
import Mathlib.Data.List.TakeWhile
import TensorKernels.Proofs.Evaluation

/-!
# Broadcasting

The rule that `broadcast` follows, said on dimensions and coordinates: two shapes are aligned at their
last dimensions, missing leading dimensions count as units, and unit dimensions are repeated.
`Shape.repeated` is the shape that results and `Shape.repeatedIndex` the element of an operand that stands
at an index of it.

Of the pairs of countable shapes that fit together under the rule, `broadcast` accepts those of
`Shape.Matches` (`broadcast_ok_iff`). Swapping the operands swaps the accesses (`broadcast_swap`), and each
access designates the element that the rule repeats (`broadcast_repeats`). The code of a row or column
access holds the number of columns as a 32-bit word, so it designates that element where this number fits
in a word.
-/

set_option autoImplicit false

namespace TensorKernels

variable {α : Type} (ops : Arithmetic α)

namespace Shape

/-! ## The rule -/

/-- The coordinates of the element with flat index `i`, outermost first. -/
def coordinates : Shape → Nat → List Nat
  | [], _ => []
  | _ :: rest, i => i / size rest :: coordinates rest (i % size rest)

/-- The flat index of the element with the given coordinates. -/
def flatIndex : Shape → List Nat → Nat
  | _ :: rest, c :: cs => c * size rest + flatIndex rest cs
  | _, _ => 0

/-- The shape with unit dimensions in front of it, up to a rank. -/
def extended (rank : Nat) (s : Shape) : Shape := List.replicate (rank - s.length) 1 ++ s

/-- The coordinates of an operand's element, from those of the result: a unit dimension is repeated. -/
def repeatedCoordinates (operand : Shape) (cs : List Nat) : List Nat :=
  List.zipWith (fun d c => if d = 1 then 0 else c) operand cs

/-- The shape of the result of two operands. -/
def repeated (a b : Shape) : Shape :=
  let rank := max a.length b.length
  List.zipWith (fun m n => if m = 1 then n else m) (a.extended rank) (b.extended rank)

/-- The element of an operand that stands at flat index `i` of the result. -/
def repeatedIndex (operand result : Shape) (i : Nat) : Nat :=
  let operand := operand.extended result.length
  operand.flatIndex (operand.repeatedCoordinates (result.coordinates i))

/-- The second shape is that of a row or a column of a matrix of the first shape. -/
def Stretches (full small : Shape) : Prop :=
  ∃ rows cols, full = [rows, cols] ∧ (small = [cols] ∨ small = [1, cols] ∨ small = [rows, 1])

/-- The shapes are equal up to leading unit dimensions, or one of them has a single element, or one is a
row or a column of the other. -/
def Matches (a b : Shape) : Prop :=
  a.withoutLeadingOnes = b.withoutLeadingOnes ∨ a.size = 1 ∨ b.size = 1 ∨ Stretches a b ∨ Stretches b a

/-! ## Unit dimensions -/

/-- A shape has one element exactly if all dimensions are one. -/
theorem size_eq_one_iff (s : Shape) : s.size = 1 ↔ ∀ d ∈ s, d = 1 := by
  induction s with
  | nil => simp [size]
  | cons d s ih => simp [size, ih]

/-- A shape with elements has no empty dimension. -/
theorem pos_of_mem {s : Shape} (h : 0 < s.size) {d : Nat} (hd : d ∈ s) : 0 < d := by
  induction s with
  | nil => cases hd
  | cons e s ih =>
    rw [size] at h
    rcases List.mem_cons.1 hd with rfl | hd
    · exact Nat.pos_of_mul_pos_right h
    · exact ih (Nat.pos_of_mul_pos_left h) hd

/-- A shape with one element has only ones, and all of them lead. -/
theorem withoutLeadingOnes_eq_nil {s : Shape} (h : s.size = 1) : s.withoutLeadingOnes = [] :=
  List.dropWhile_eq_nil_iff.2 fun d hd => by simpa using (size_eq_one_iff s).1 h d hd

/-- A shape extended to a rank has that rank. -/
theorem length_extended {rank : Nat} {s : Shape} (h : s.length ≤ rank) :
    (s.extended rank).length = rank := by
  simp [extended, h]

/-- A shape is its own extension to its rank. -/
theorem extended_self (s : Shape) : s.extended s.length = s := by
  simp [extended]

/-- Leading unit dimensions make no difference where others are put in front. -/
theorem extended_withoutLeadingOnes {rank : Nat} (s : Shape) (h : s.length ≤ rank) :
    s.withoutLeadingOnes.extended rank = s.extended rank := by
  unfold withoutLeadingOnes
  induction s with
  | nil => rfl
  | cons d s ih =>
    by_cases hd : d = 1
    · have hlen : rank - s.length = rank - (s.length + 1) + 1 := by
        rw [List.length_cons] at h
        omega
      rw [List.dropWhile_cons_of_pos (by simpa using hd), ih (Nat.le_of_succ_le h), extended, extended,
        hlen, List.replicate_succ', hd]
      simp
    · rw [List.dropWhile_cons_of_neg (by simpa using hd)]

/-- Shapes that agree without leading ones have the same extensions. -/
theorem extended_eq {rank : Nat} {a b : Shape} (h : a.withoutLeadingOnes = b.withoutLeadingOnes)
    (ha : a.length ≤ rank) (hb : b.length ≤ rank) : a.extended rank = b.extended rank := by
  rw [← extended_withoutLeadingOnes a ha, h, extended_withoutLeadingOnes b hb]

/-- The extension of a shape with one element consists of ones. -/
theorem extended_of_size_one {rank : Nat} {s : Shape} (h : s.size = 1) (hs : s.length ≤ rank) :
    s.extended rank = List.replicate rank 1 := by
  rw [← extended_withoutLeadingOnes s hs, withoutLeadingOnes_eq_nil h]
  simp [extended]

/-- Extending a shape keeps the number of elements. -/
@[simp] theorem size_extended (rank : Nat) (s : Shape) : (s.extended rank).size = s.size := by
  unfold extended
  induction rank - s.length with
  | zero => rfl
  | succ k ih => simpa [List.replicate_succ, size] using ih

/-! ## Shapes of results -/

/-- Shapes that agree without leading ones are repeated to the longer of the two. -/
theorem repeated_of_equal {a b : Shape} (h : a.withoutLeadingOnes = b.withoutLeadingOnes) :
    repeated a b = a.extended (max a.length b.length) := by
  rw [repeated, ← extended_eq h (Nat.le_max_left _ _) (Nat.le_max_right _ _), List.zipWith_self]
  simp

/-- A single element on the right is repeated to the shape on the left. -/
theorem repeated_of_single_right (a : Shape) {b : Shape} (h : b.size = 1) :
    repeated a b = a.extended (max a.length b.length) := by
  rw [repeated, extended_of_size_one h (Nat.le_max_right _ _)]
  refine List.ext_getElem (by simp [length_extended (Nat.le_max_left a.length b.length)]) ?_
  intro k _ _
  simp +contextual

/-- A single element on the left is repeated to the shape on the right. -/
theorem repeated_of_single_left {a : Shape} (h : a.size = 1) (b : Shape) :
    repeated a b = b.extended (max a.length b.length) := by
  rw [repeated, extended_of_size_one h (Nat.le_max_left _ _)]
  refine List.ext_getElem (by simp [length_extended (Nat.le_max_right a.length b.length)]) ?_
  intro k _ _
  simp

/-! ## Elements of operands -/

/-- An operand of the result's shape is read in place. -/
theorem flatIndex_coordinates (s : Shape) {i : Nat} (hi : i < s.size) :
    s.flatIndex (s.repeatedCoordinates (s.coordinates i)) = i := by
  induction s generalizing i with
  | nil =>
    obtain rfl : i = 0 := by simpa [size] using hi
    rfl
  | cons d s ih =>
    rw [size] at hi
    have hpos : 0 < size s := Nat.pos_of_ne_zero fun h0 => by simp [h0] at hi
    have hfirst : (if d = 1 then 0 else i / size s) = i / size s := by
      split
      · next hd =>
        rw [hd, Nat.one_mul] at hi
        rw [Nat.div_eq_of_lt hi]
      · rfl
    have hrest := ih (Nat.mod_lt i hpos)
    rw [repeatedCoordinates] at hrest ⊢
    rw [coordinates, List.zipWith_cons_cons, flatIndex, hrest, hfirst, Nat.mul_comm, Nat.div_add_mod]

/-- An operand of unit dimensions has only its first element to read. -/
theorem flatIndex_units {s : Shape} (h : ∀ d ∈ s, d = 1) (cs : List Nat) :
    s.flatIndex (s.repeatedCoordinates cs) = 0 := by
  induction s generalizing cs with
  | nil => rfl
  | cons d s ih =>
    cases cs with
    | nil => rfl
    | cons c cs =>
      have hrest := ih (fun e he => h e (List.mem_cons_of_mem d he)) cs
      rw [repeatedCoordinates] at hrest ⊢
      rw [List.zipWith_cons_cons, if_pos (h d List.mem_cons_self), flatIndex, hrest, Nat.zero_mul]

/-- A shape repeated to its own extension is read element by element. -/
theorem repeatedIndex_extended {operand s : Shape} {rank : Nat} (hrank : s.length ≤ rank)
    (h : operand.extended rank = s.extended rank) {i : Nat} (hi : i < s.size) :
    repeatedIndex operand (s.extended rank) i = i := by
  rw [repeatedIndex, length_extended hrank, h]
  exact flatIndex_coordinates _ (by rwa [size_extended])

/-- A shape repeated to itself is read element by element. -/
theorem repeatedIndex_self {s : Shape} {i : Nat} (hi : i < s.size) : repeatedIndex s s i = i := by
  have h : repeatedIndex s (s.extended s.length) i = i :=
    repeatedIndex_extended (Nat.le_refl s.length) rfl hi
  rwa [extended_self] at h

/-- A single element is read at position zero everywhere. -/
theorem repeatedIndex_of_single {operand : Shape} (h : operand.size = 1) (result : Shape) (i : Nat) :
    repeatedIndex operand result i = 0 :=
  flatIndex_units ((size_eq_one_iff _).1 (by rw [size_extended, h])) _

end Shape

/-! ## Rows and columns -/

open Shape

/-- A row or a column is recognized in either of its forms. -/
theorem rowOrCol_cases {full small : Shape} {x : Access} (h : rowOrCol full small = some x) :
    ∃ rows cols, full = [rows, cols] ∧
      ((small = [cols] ∨ small = [1, cols]) ∧ x = .row rows cols ∨
        small = [rows, 1] ∧ x = .col cols) := by
  unfold rowOrCol at h
  split at h
  · next rows cols c =>
    split at h
    · next hc =>
      cases h
      exact ⟨rows, cols, rfl, .inl ⟨.inl (by rw [hc]), rfl⟩⟩
    · cases h
  · next rows cols m n =>
    split at h
    · next hrow =>
      cases h
      exact ⟨rows, cols, rfl, .inl ⟨.inr (by rw [hrow.1, hrow.2]), rfl⟩⟩
    · split at h
      · next hcol =>
        cases h
        exact ⟨rows, cols, rfl, .inr ⟨by rw [hcol.1, hcol.2], rfl⟩⟩
      · cases h
  · cases h

/-- A row or column access is found exactly if one shape stretches to the other. -/
theorem rowOrCol_isSome_iff (full small : Shape) :
    (rowOrCol full small).isSome ↔ Stretches full small := by
  constructor
  · intro h
    obtain ⟨x, hx⟩ := Option.isSome_iff_exists.1 h
    obtain ⟨rows, cols, hfull, ⟨hsmall | hsmall, -⟩ | ⟨hsmall, -⟩⟩ := rowOrCol_cases hx
    · exact ⟨rows, cols, hfull, .inl hsmall⟩
    · exact ⟨rows, cols, hfull, .inr (.inl hsmall)⟩
    · exact ⟨rows, cols, hfull, .inr (.inr hsmall)⟩
  · rintro ⟨rows, cols, rfl, rfl | rfl | rfl⟩
    · simp [rowOrCol]
    · simp [rowOrCol]
    · by_cases h : rows = 1 ∧ 1 = cols <;> simp [rowOrCol, h]

/-- Two shapes that are rows or columns of each other are equal. -/
theorem rowOrCol_antisymm {a b : Shape} {x y : Access} (hab : rowOrCol a b = some x)
    (hba : rowOrCol b a = some y) : a = b := by
  obtain ⟨rows, cols, rfl, hb⟩ := rowOrCol_cases hab
  obtain ⟨rows', cols', rfl, ha⟩ := rowOrCol_cases hba
  simp only [List.cons.injEq, and_true] at ha hb ⊢
  grind

/-- The matrix is the result of a broadcast with one of its rows or columns. -/
theorem rowOrCol_repeated {full small : Shape} {x : Access} (h : rowOrCol full small = some x) :
    small.length ≤ full.length ∧ repeated full small = full ∧ repeated small full = full := by
  obtain ⟨rows, cols, rfl, ⟨rfl | rfl, -⟩ | ⟨rfl, -⟩⟩ := rowOrCol_cases h <;>
    simp +contextual [repeated, extended, eq_comm]

/-- A row or column is read at the element that is repeated. -/
theorem rowOrCol_repeats {full small : Shape} {x : Access} (h : rowOrCol full small = some x) {i : Nat}
    (hi : i < full.size) : x.position i = repeatedIndex small full i := by
  obtain ⟨rows, cols, rfl, ⟨hsmall, rfl⟩ | ⟨rfl, rfl⟩⟩ := rowOrCol_cases h
  · have hextended : small.extended 2 = [1, cols] := by
      rcases hsmall with rfl | rfl <;> rfl
    have hvalue : repeatedIndex small [rows, cols] i = if cols = 1 then 0 else i % cols := by
      simp [repeatedIndex, hextended, repeatedCoordinates, coordinates, flatIndex, size]
    rw [hvalue, Access.position]
    split
    · next h1 => rw [h1, Nat.mod_one]
    · rfl
  · have hvalue : repeatedIndex [rows, 1] [rows, cols] i = if rows = 1 then 0 else i / cols := by
      simp [repeatedIndex, extended, repeatedCoordinates, coordinates, flatIndex, size]
    rw [hvalue, Access.position]
    split
    · next h1 =>
      rw [h1] at hi
      exact Nat.div_eq_of_lt (by simpa [size] using hi)
    · rfl

/-! ## Broadcasts -/

/-- What `broadcast` can return, in the order in which it tries. -/
inductive BroadcastCase (a b : Shape) : Inferred → Prop
  | equal (hab : a.withoutLeadingOnes = b.withoutLeadingOnes) :
    BroadcastCase a b ⟨a, [.aligned, .aligned]⟩
  | singleRight (hab : a.withoutLeadingOnes ≠ b.withoutLeadingOnes) (hb : b.size = 1) :
    BroadcastCase a b ⟨a, [.aligned, .scalar a.size]⟩
  | singleLeft (hab : a.withoutLeadingOnes ≠ b.withoutLeadingOnes) (hb : b.size ≠ 1) (ha : a.size = 1) :
    BroadcastCase a b ⟨b, [.scalar b.size, .aligned]⟩
  | stretchRight (hab : a.withoutLeadingOnes ≠ b.withoutLeadingOnes) (hb : b.size ≠ 1) (ha : a.size ≠ 1)
    {x : Access} (hx : rowOrCol a b = some x) : BroadcastCase a b ⟨a, [.aligned, x]⟩
  | stretchLeft (hab : a.withoutLeadingOnes ≠ b.withoutLeadingOnes) (hb : b.size ≠ 1) (ha : a.size ≠ 1)
    {x : Access} (hx : rowOrCol b a = some x) : BroadcastCase a b ⟨b, [x, .aligned]⟩

/-- Every success of `broadcast` is one of these. -/
theorem broadcast_cases {op : String} {a b : Shape} {r : Inferred} (h : broadcast op a b = .ok r) :
    BroadcastCase a b r := by
  replace h := (broadcast_ok h).2.2
  unfold matchShapes at h
  split at h
  · next hab =>
    cases h
    rcases hab with rfl | hab
    · exact .equal rfl
    · exact .equal hab
  · next hab =>
    have hab : a.withoutLeadingOnes ≠ b.withoutLeadingOnes := fun heq => hab (.inr heq)
    split at h
    · next hb =>
      cases h
      exact .singleRight hab hb
    · next hb =>
      split at h
      · next ha =>
        cases h
        exact .singleLeft hab hb ha
      · next ha =>
        split at h
        · next x hx =>
          cases h
          exact .stretchRight hab hb ha hx
        · next x _ hx =>
          cases h
          exact .stretchLeft hab hb ha hx
        · cases h

/-- The pairs of countable shapes that `broadcast` accepts. -/
theorem broadcast_ok_iff (op : String) {a b : Shape} (hca : a.isCountable) (hcb : b.isCountable) :
    (∃ r, broadcast op a b = .ok r) ↔ a.Matches b := by
  constructor
  · rintro ⟨r, h⟩
    cases broadcast_cases h with
    | equal hab => exact .inl hab
    | singleRight _ hb => exact .inr (.inr (.inl hb))
    | singleLeft _ _ ha => exact .inr (.inl ha)
    | stretchRight _ _ _ hx =>
      exact .inr (.inr (.inr (.inl ((rowOrCol_isSome_iff a b).1 (by simp [hx])))))
    | stretchLeft _ _ _ hx =>
      exact .inr (.inr (.inr (.inr ((rowOrCol_isSome_iff b a).1 (by simp [hx])))))
  · intro h
    rw [broadcast_eq op hca hcb]
    unfold matchShapes
    split
    · exact ⟨_, rfl⟩
    · next hab =>
      split
      · exact ⟨_, rfl⟩
      · next hb =>
        split
        · exact ⟨_, rfl⟩
        · next ha =>
          split
          · exact ⟨_, rfl⟩
          · exact ⟨_, rfl⟩
          · next hrow hcol =>
            -- no rule is left for the pair
            rcases h with h | h | h | h | h
            · exact absurd (.inr h) hab
            · exact absurd h ha
            · exact absurd h hb
            · simpa [hrow] using (rowOrCol_isSome_iff a b).2 h
            · simpa [hcol] using (rowOrCol_isSome_iff b a).2 h

/-- Swapping the operands swaps the accesses and keeps the element count. -/
theorem broadcast_swap {op : String} {a b : Shape} {r : Inferred} (h : broadcast op a b = .ok r) :
    ∃ r', broadcast op b a = .ok r' ∧ r'.access = r.access.reverse ∧ r'.shape.size = r.shape.size := by
  obtain ⟨hca, hcb, -⟩ := broadcast_ok h
  rw [broadcast_eq op hcb hca]
  have hswap : a.withoutLeadingOnes ≠ b.withoutLeadingOnes →
      ¬(b = a ∨ b.withoutLeadingOnes = a.withoutLeadingOnes) := by
    rintro hab (rfl | heq)
    · exact hab rfl
    · exact hab heq.symm
  cases broadcast_cases h with
  | equal hab =>
    have hsize : b.size = a.size := by
      rw [← b.size_withoutLeadingOnes, ← hab, a.size_withoutLeadingOnes]
    exact ⟨_, if_pos (.inr hab.symm), rfl, hsize⟩
  | singleRight hab hb =>
    -- two single elements would be equal up to leading units
    have ha : a.size ≠ 1 := fun ha =>
      hab (by rw [withoutLeadingOnes_eq_nil ha, withoutLeadingOnes_eq_nil hb])
    exact ⟨⟨a, [.scalar a.size, .aligned]⟩, by simp [matchShapes, hswap hab, ha, hb], rfl, rfl⟩
  | singleLeft hab hb ha =>
    exact ⟨⟨b, [.aligned, .scalar b.size]⟩, by simp [matchShapes, hswap hab, ha], rfl, rfl⟩
  | @stretchRight hab hb ha x hx =>
    have hnone : rowOrCol b a = none := by
      cases hy : rowOrCol b a with
      | none => rfl
      | some y => exact absurd (.inl (rowOrCol_antisymm hx hy).symm) (hswap hab)
    exact ⟨⟨a, [x, .aligned]⟩, by simp [matchShapes, hswap hab, ha, hb, hx, hnone], rfl, rfl⟩
  | @stretchLeft hab hb ha x hx =>
    exact ⟨⟨b, [.aligned, x]⟩, by simp [matchShapes, hswap hab, ha, hb, hx], rfl, rfl⟩

/-- The result has the shape of the rule, and each operand is read at the element that is repeated. -/
theorem broadcast_repeats {op : String} {a b : Shape} {r : Inferred} (h : broadcast op a b = .ok r) :
    repeated a b = r.shape.extended (max a.length b.length) ∧
    ∃ x y, r.access = [x, y] ∧ ∀ i < r.shape.size,
      x.position i = repeatedIndex a (repeated a b) i ∧
      y.position i = repeatedIndex b (repeated a b) i := by
  have hla : a.length ≤ max a.length b.length := Nat.le_max_left _ _
  have hlb : b.length ≤ max a.length b.length := Nat.le_max_right _ _
  cases broadcast_cases h with
  | equal hab =>
    have hshape := repeated_of_equal hab
    refine ⟨hshape, _, _, rfl, fun i hi => ?_⟩
    rw [hshape]
    exact ⟨(repeatedIndex_extended hla rfl hi).symm,
      (repeatedIndex_extended hla (extended_eq hab hla hlb).symm hi).symm⟩
  | singleRight _ hb =>
    have hshape := repeated_of_single_right a hb
    refine ⟨hshape, _, _, rfl, fun i hi => ⟨?_, (repeatedIndex_of_single hb _ i).symm⟩⟩
    rw [hshape]
    exact (repeatedIndex_extended hla rfl hi).symm
  | singleLeft _ _ ha =>
    have hshape := repeated_of_single_left ha b
    refine ⟨hshape, _, _, rfl, fun i hi => ⟨(repeatedIndex_of_single ha _ i).symm, ?_⟩⟩
    rw [hshape]
    exact (repeatedIndex_extended hlb rfl hi).symm
  | stretchRight _ _ _ hx =>
    obtain ⟨hlen, hshape, -⟩ := rowOrCol_repeated hx
    have hself : a.extended (max a.length b.length) = a := by
      rw [Nat.max_eq_left hlen, extended_self]
    refine ⟨hshape.trans hself.symm, _, _, rfl, fun i hi => ?_⟩
    rw [hshape]
    exact ⟨(repeatedIndex_self hi).symm, rowOrCol_repeats hx hi⟩
  | stretchLeft _ _ _ hx =>
    obtain ⟨hlen, -, hshape⟩ := rowOrCol_repeated hx
    have hself : b.extended (max a.length b.length) = b := by
      rw [Nat.max_eq_right hlen, extended_self]
    refine ⟨hshape.trans hself.symm, _, _, rfl, fun i hi => ?_⟩
    rw [hshape]
    exact ⟨rowOrCol_repeats hx hi, (repeatedIndex_self hi).symm⟩

/-- An operand is read in place, as a single element, or as a row or column of the result. -/
theorem broadcast_access {op : String} {a b : Shape} {r : Inferred} (h : broadcast op a b = .ok r)
    {x : Access} (hx : x ∈ r.access) :
    x = .aligned ∨ (∃ n, x = .scalar n) ∨ ∃ small, rowOrCol r.shape small = some x := by
  cases broadcast_cases h <;> grind

/-- The number of columns of a row or column access is a 32-bit word. Nothing is asked of others. -/
def Access.ColumnsFit (x : Access) : Prop :=
  ∀ rows cols, x = .row rows cols ∨ x = .col cols → cols < 2 ^ 32

/-- The code of an access computes the position that it designates, where the columns of a row or column
access fit in a word. -/
theorem broadcast_eval {op : String} {a b : Shape} {r : Inferred} (h : broadcast op a b = .ok r)
    {x : Access} (hx : x ∈ r.access) {s : Invocation α} (hi : s.index.toNat < r.shape.size)
    (hcolumns : x.ColumnsFit) :
    ∃ w, x.index.eval ops s = .ok (.word w) ∧ w.toNat = x.position s.index.toNat := by
  obtain rfl | ⟨n, rfl⟩ | ⟨small, hsmall⟩ := broadcast_access h hx
  · exact ⟨s.index, rfl, rfl⟩
  · exact ⟨0, rfl, rfl⟩
  · obtain ⟨rows, cols, hfull, hcase⟩ := rowOrCol_cases hsmall
    have hpos : 0 < cols := Shape.pos_of_mem (Nat.zero_lt_of_lt hi) (by simp [hfull])
    -- the divisor is the number of columns, and a remainder or quotient is not above the index
    have hcode : (∀ d ∈ x.divisor?, 0 < d ∧ d < 2 ^ 32) ∧
        x.position s.index.toNat ≤ s.index.toNat := by
      rcases hcase with ⟨-, rfl⟩ | ⟨-, rfl⟩
      · have hlt : cols < 2 ^ 32 := hcolumns rows cols (.inl rfl)
        exact ⟨by simpa [Access.divisor?] using ⟨hpos, hlt⟩, Nat.mod_le _ _⟩
      · have hlt : cols < 2 ^ 32 := hcolumns rows cols (.inr rfl)
        exact ⟨by simpa [Access.divisor?] using ⟨hpos, hlt⟩, Nat.div_le_self _ _⟩
    refine ⟨_, x.eval_index_of_divisor ops s.index.toNat_lt (UInt32.ofNat_toNat).symm hcode.1, ?_⟩
    exact UInt32.toNat_ofNat_of_lt (Nat.lt_of_le_of_lt hcode.2 s.index.toNat_lt)

/-! ## What inference promises about operands -/

/-- The accesses to the operands of a regular operator agree with the element counts. A dropout gets a mask
of its argument's shape. -/
theorem Op.infer_operands_cover {op : Op} (hop : op.opClass = .regular) {args shapes : List Shape}
    (hlen : args.length = op.argCount) (hshapes : op.operandShapes args = .ok shapes) {r : Inferred}
    (h : op.infer shapes = .ok r) :
    List.Forall₂ (fun (x : Access) (s : Shape) => x.Covers s.size r.shape.size) r.access shapes := by
  by_cases hdrop : ∃ rate, op = .dropout rate
  · obtain ⟨rate, rfl⟩ := hdrop
    obtain ⟨s, rfl⟩ := List.length_eq_one_iff.1 hlen
    rw [Op.operandShapes] at hshapes
    split at hshapes
    · cases hshapes
      exact Op.infer_covers hop rfl (fun _ _ => ⟨s, rfl⟩) h
    · cases hshapes
  · have hsame : shapes = args ∧ op.argCount = op.arity := by
      cases op with
      | dropout rate => exact absurd ⟨rate, rfl⟩ hdrop
      | _ => exact ⟨(Except.ok.inj hshapes).symm, rfl⟩
    refine Op.infer_covers hop (by rw [hsame.1, hlen, hsame.2]) ?_ h
    intro rate hrate
    exact absurd ⟨rate, hrate⟩ hdrop

/-- Let the elements of two shapes be countable, so that their counts are products below `2 ^ 64` all the way.
Then `broadcast` accepts them exactly if they are in `Shape.Matches`. The operands can be swapped, which
swaps the accesses and keeps the element count. An accepted pair has a result of the shape that the rule of
repeated unit dimensions gives, up to leading units, and at every index of an invocation the code of each
access computes the element that the rule puts there; for a row or column access the number of columns has
to fit in a word. The accesses that inference gives for the operands of any regular operator agree with the
element counts. -/
theorem inference_realises_broadcasts (op : String) {a b : Shape} (ha : a.isCountable)
    (hb : b.isCountable) :
    ((∃ r, broadcast op a b = .ok r) ↔ a.Matches b) ∧
    ((∃ r, broadcast op a b = .ok r) ↔ ∃ r, broadcast op b a = .ok r) ∧
    (∀ r, broadcast op a b = .ok r → ∃ x y, r.access = [x, y] ∧
      (∀ r', broadcast op b a = .ok r' → r'.access = [y, x] ∧ r'.shape.size = r.shape.size) ∧
      repeated a b = r.shape.extended (max a.length b.length) ∧
      ∀ s : Invocation α, s.index.toNat < r.shape.size →
        (x.ColumnsFit → ∃ w, x.index.eval ops s = .ok (.word w) ∧
          w.toNat = repeatedIndex a (repeated a b) s.index.toNat) ∧
        (y.ColumnsFit → ∃ w, y.index.eval ops s = .ok (.word w) ∧
          w.toNat = repeatedIndex b (repeated a b) s.index.toNat)) ∧
    (∀ (op : Op) (args shapes : List Shape) (r : Inferred), op.opClass = .regular →
      args.length = op.argCount → op.operandShapes args = .ok shapes → op.infer shapes = .ok r →
      List.Forall₂ (fun (x : Access) (s : Shape) => x.Covers s.size r.shape.size) r.access shapes) := by
  refine ⟨broadcast_ok_iff op ha hb, ⟨?_, ?_⟩, ?_, ?_⟩
  · rintro ⟨r, h⟩
    obtain ⟨r', h', -⟩ := broadcast_swap h
    exact ⟨r', h'⟩
  · rintro ⟨r, h⟩
    obtain ⟨r', h', -⟩ := broadcast_swap h
    exact ⟨r', h'⟩
  · intro r h
    obtain ⟨hshape, x, y, hxy, hindex⟩ := broadcast_repeats h
    refine ⟨x, y, hxy, ?_, hshape, fun s hi => ⟨fun hcolumns => ?_, fun hcolumns => ?_⟩⟩
    · intro r' h'
      obtain ⟨r'', h'', haccess, hsize⟩ := broadcast_swap h
      obtain rfl : r'' = r' := Except.ok.inj (h''.symm.trans h')
      exact ⟨by rw [haccess, hxy]; rfl, hsize⟩
    · obtain ⟨w, hw, hwx⟩ := broadcast_eval ops h (by simp [hxy] : x ∈ r.access) hi hcolumns
      exact ⟨w, hw, hwx.trans (hindex _ hi).1⟩
    · obtain ⟨w, hw, hwy⟩ := broadcast_eval ops h (by simp [hxy] : y ∈ r.access) hi hcolumns
      exact ⟨w, hw, hwy.trans (hindex _ hi).2⟩
  · intro op args shapes r hop hlen hshapes h
    exact op.infer_operands_cover hop hlen hshapes h

/-- A row of three elements stands twice in a matrix, and element four of the matrix reads its second. -/
theorem row_repeated_in_matrix :
    broadcast "add" [2, 3] [3] = .ok ⟨[2, 3], [.aligned, .row 2 3]⟩ ∧
    repeatedIndex [3] (repeated [2, 3] [3]) 4 = 1 ∧
    ∃ w, (Access.row 2 3).index.eval .binary32 (⟨4, .empty, .empty, .empty⟩ : Invocation Float32) =
      .ok (.word w) ∧ w.toNat = repeatedIndex [3] (repeated [2, 3] [3]) 4 := by
  have h : broadcast "add" [2, 3] [3] = .ok ⟨[2, 3], [.aligned, .row 2 3]⟩ := rfl
  obtain ⟨x, y, hxy, -, -, hindex⟩ :=
    (inference_realises_broadcasts .binary32 "add" (a := [2, 3]) (b := [3]) rfl rfl).2.2.1 _ h
  cases hxy
  have hcolumns : (Access.row 2 3).ColumnsFit := by
    rintro rows cols (h | h)
    · cases h
      decide
    · cases h
  exact ⟨h, rfl, (hindex ⟨4, .empty, .empty, .empty⟩ (by decide)).2 hcolumns⟩

/-- Where the numbers grow too large, the rule is not followed. With more columns than there are words the
code of a row or column access divides by another number: it reads the first element of a row where the
second one belongs, and the second element of a column where the first one belongs. Where a product passes
`2 ^ 64`, shapes that do not fit together are not refused as such. -/
theorem broadcast_of_large_numbers :
    (broadcast "add" [2, 2 ^ 32 + 1] [2 ^ 32 + 1] =
        .ok ⟨[2, 2 ^ 32 + 1], [.aligned, .row 2 (2 ^ 32 + 1)]⟩ ∧
      1 < Shape.size [2, 2 ^ 32 + 1] ∧
      repeatedIndex [2 ^ 32 + 1] (repeated [2, 2 ^ 32 + 1] [2 ^ 32 + 1]) 1 = 1 ∧
      (Access.row 2 (2 ^ 32 + 1)).index.eval .binary32
          (⟨1, .empty, .empty, .empty⟩ : Invocation Float32) = .ok (.word 0)) ∧
    (broadcast "add" [2, 2 ^ 32 + 1] [2, 1] =
        .ok ⟨[2, 2 ^ 32 + 1], [.aligned, .col (2 ^ 32 + 1)]⟩ ∧
      repeatedIndex [2, 1] (repeated [2, 2 ^ 32 + 1] [2, 1]) 1 = 0 ∧
      (Access.col (2 ^ 32 + 1)).index.eval .binary32
          (⟨1, .empty, .empty, .empty⟩ : Invocation Float32) = .ok (.word 1)) ∧
    (¬Shape.Matches [3, 12297829382473034411] [5] ∧
      broadcast "add" [3, 12297829382473034411] [5] ≠
        .error (.shapeMismatch "add" [3, 12297829382473034411] [5])) := by
  refine ⟨⟨rfl, by decide, by decide, rfl⟩, ⟨rfl, by decide, rfl⟩, ?_, by decide⟩
  rintro (h | h | h | ⟨rows, cols, h, h' | h' | h'⟩ | ⟨rows, cols, h, -⟩)
  · simp [Shape.withoutLeadingOnes] at h
  · simp [Shape.size] at h
  · simp [Shape.size] at h
  all_goals grind

end TensorKernels
