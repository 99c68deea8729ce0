import TensorKernels.Proofs.Broadcasting
import TensorKernels.Proofs.Building
import TensorKernels.Proofs.ForwardCode
import TensorKernels.Proofs.Refinement

/-!
# Normalization layers

A normalization layer is a term of eight applications. What it computes is said without them: an element is
centered and scaled by the mean and the variance of its row or its column (`NormKind.peer`), then scaled and
shifted once per column (`Arithmetic.standardized`).

The statistics of a matrix are a column or a row, which broadcasting reads as such, as a single element or
element by element, depending on which dimensions are units. `broadcast_statistics` says once for all of them
that an element meets the statistics of its own row or column. `Term.Denotes` then carries shape and elements
through the applications, one rule for each operator, up to the whole layer (`Term.Denotes.normalize`).
-/

set_option autoImplicit false

namespace TensorKernels

variable {α : Type} (ops : Arithmetic α)

/-! ## The formula -/

/-- The mean of `n` numbers: their sum from left to right, divided by `n`. -/
def Arithmetic.mean (n : Nat) (f : Nat → α) : α :=
  ops.div (ops.total n f) (ops.lit (UInt64.ofNat n).toFloat32)

/-- The mean of the squared deviations of `n` numbers from their mean. -/
def Arithmetic.variance (n : Nat) (f : Nat → α) : α :=
  ops.mean n fun k => ops.mul (ops.sub (f k) (ops.mean n f)) (ops.sub (f k) (ops.mean n f))

/-- The number `x`, centered and scaled by the statistics of `n` numbers, times `gamma` plus `beta`. -/
def Arithmetic.standardized (n : Nat) (f : Nat → α) (x gamma beta : α) : α :=
  let deviation := ops.sqrt (ops.add (ops.variance n f) (ops.lit 1e-4))
  ops.add (ops.mul (ops.div (ops.sub x (ops.mean n f)) deviation) gamma) beta

/-- The number of elements of a matrix that an element is normalized with. -/
def NormKind.population (norm : NormKind) (rows cols : Nat) : Nat :=
  match norm with
  | .layer => cols
  | .batch => rows

/-- The elements with which element `(r, c)` of a matrix is normalized, by their flat index: those of its row
for a layer normalization, those of its column for a batch normalization. -/
def NormKind.peer (norm : NormKind) (cols r c k : Nat) : Nat :=
  match norm with
  | .layer => r * cols + k
  | .batch => k * cols + c

/-- A sum depends only on its numbers. -/
theorem Arithmetic.total_congr {n : Nat} {f g : Nat → α} (h : ∀ k < n, f k = g k) :
    ops.total n f = ops.total n g := by
  unfold Arithmetic.total
  refine List.foldl_ext _ _ _ fun acc k hk => ?_
  rw [h k (List.mem_range.1 hk)]

/-- So does a mean. -/
theorem Arithmetic.mean_congr {n : Nat} {f g : Nat → α} (h : ∀ k < n, f k = g k) :
    ops.mean n f = ops.mean n g := by
  rw [Arithmetic.mean, Arithmetic.mean, ops.total_congr h]

/-! ## Broadcasting statistics -/

open Shape in
/-- A shape that broadcasting does not enlarge: its elements are read in place, those of the other operand
where they are repeated. -/
theorem broadcast_onto (op : String) {a b : Shape} (ha : a.isCountable) (hb : b.isCountable)
    (hmatches : a.Matches b) (hrepeated : repeated a b = a) (hlength : b.length ≤ a.length) :
    ∃ x y, broadcast op a b = .ok ⟨a, [x, y]⟩ ∧
      ∀ i < a.size, x.position i = i ∧ y.position i = repeatedIndex b a i := by
  obtain ⟨r, hr⟩ := (broadcast_ok_iff op ha hb).2 hmatches
  obtain ⟨hextended, x, y, haccess, hposition⟩ := broadcast_repeats hr
  rw [hrepeated, Nat.max_eq_left hlength] at hextended
  rw [hrepeated] at hposition
  have hshape : r.shape = a := by
    cases broadcast_cases hr with
    | equal => rfl
    | singleRight => rfl
    | stretchRight => rfl
    | singleLeft hab hb ha =>
      have hsize := congrArg size hextended
      rw [size_extended] at hsize
      exact absurd (hsize.symm.trans ha) hb
    | stretchLeft hab hb ha hx =>
      obtain ⟨hle, -, hfull⟩ := rowOrCol_repeated hx
      exact hfull.symm.trans hrepeated
  obtain ⟨shape, access⟩ := r
  obtain rfl : shape = a := hshape
  obtain rfl : access = [x, y] := haccess
  refine ⟨x, y, hr, ?_⟩
  intro i hi
  obtain ⟨hx, hy⟩ := hposition i hi
  exact ⟨hx.trans (repeatedIndex_self hi), hy⟩

namespace NormKind

/-- The shape of the statistics of a matrix. -/
def statistics (norm : NormKind) (rows cols : Nat) : Shape :=
  match norm with
  | .layer => [rows, 1]
  | .batch => [1, cols]

/-- The row or column whose statistics an element of a matrix is normalized with. -/
def line (norm : NormKind) (cols i : Nat) : Nat :=
  match norm with
  | .layer => i / cols
  | .batch => i % cols

/-- The shape that a fold over the axis of the normalization has. -/
theorem foldShape_normAxis (norm : NormKind) (rows cols : Nat) :
    foldShape (Build.normAxis norm) [rows, cols] = norm.statistics rows cols := by
  cases norm <;> simp [statistics, Build.normAxis, foldShape, Shape.asMatrix, Shape.size]

/-- The number of elements that are folded. -/
theorem foldCount_normAxis (norm : NormKind) (rows cols : Nat) :
    foldCount (Build.normAxis norm) [rows, cols] = norm.population rows cols := by
  cases norm <;> simp [population, Build.normAxis, foldCount, foldDims, Shape.asMatrix, Shape.size]

/-- There is one statistic per row or column. -/
theorem size_statistics (norm : NormKind) (rows cols : Nat) :
    (norm.statistics rows cols).size = match norm with
      | .layer => rows
      | .batch => cols := by
  cases norm <;> simp [statistics, Shape.size]

/-- The elements of a line have the statistics of that line. -/
theorem line_foldPosition (norm : NormKind) {rows cols l k : Nat} (hl : l < (norm.statistics rows cols).size)
    (hk : k < norm.population rows cols) :
    norm.line cols (foldPosition cols l k (Build.normAxis norm)) = l := by
  rw [size_statistics] at hl
  cases norm with
  | layer => exact row_add_div hk
  | batch => exact row_add_mod hl

/-- There are not more statistics than elements. -/
theorem size_statistics_le (norm : NormKind) {rows cols : Nat} (hrows : 1 ≤ rows) (hcols : 1 ≤ cols) :
    (norm.statistics rows cols).size ≤ rows * cols := by
  rw [size_statistics]
  cases norm with
  | layer => exact Nat.le_mul_of_pos_right rows hcols
  | batch => exact Nat.le_mul_of_pos_left cols hrows

/-- The statistics of a matrix that can be counted can be. -/
theorem statistics_countable (norm : NormKind) {rows cols : Nat} (h : Shape.isCountable [rows, cols]) :
    (norm.statistics rows cols).isCountable := by
  obtain ⟨hrows, hcols, -⟩ := Shape.isCountable_matrix.1 h
  cases norm with
  | layer => exact Shape.isCountable_matrix.2 ⟨hrows, by decide, by simpa using hrows⟩
  | batch => exact Shape.isCountable_matrix.2 ⟨by decide, hcols, by simpa using hcols⟩

end NormKind

open Shape in
/-- Every element of a matrix meets the statistics of its row or column, whichever way they are read. -/
theorem broadcast_statistics (op : String) (norm : NormKind) {rows cols : Nat}
    (hcount : isCountable [rows, cols]) :
    ∃ x y, broadcast op [rows, cols] (norm.statistics rows cols) = .ok ⟨[rows, cols], [x, y]⟩ ∧
      ∀ i < rows * cols, x.position i = i ∧ y.position i = norm.line cols i := by
  have hstretches : Stretches [rows, cols] (norm.statistics rows cols) := by
    cases norm with
    | layer => exact ⟨rows, cols, rfl, .inr (.inr rfl)⟩
    | batch => exact ⟨rows, cols, rfl, .inr (.inl rfl)⟩
  have hrepeated : repeated [rows, cols] (norm.statistics rows cols) = [rows, cols] := by
    cases norm <;> simp +contextual [NormKind.statistics, repeated, extended, eq_comm]
  have hlength : (norm.statistics rows cols).length ≤ 2 := by
    cases norm <;> exact Nat.le_refl 2
  obtain ⟨x, y, hbroadcast, hposition⟩ := broadcast_onto op hcount
    (norm.statistics_countable hcount) (.inr (.inr (.inr (.inl hstretches)))) hrepeated hlength
  refine ⟨x, y, hbroadcast, ?_⟩
  intro i hi
  obtain ⟨hx, hy⟩ := hposition i (by simpa [size] using hi)
  refine ⟨hx, hy.trans ?_⟩
  -- a unit dimension has only one line
  cases norm with
  | layer =>
    have hindex : repeatedIndex [rows, 1] [rows, cols] i = if rows = 1 then 0 else i / cols := by
      simp [repeatedIndex, extended, repeatedCoordinates, coordinates, flatIndex, size]
    refine hindex.trans ?_
    split
    · next hrows =>
      subst hrows
      exact (Nat.div_eq_of_lt (by simpa using hi)).symm
    · rfl
  | batch =>
    have hindex : repeatedIndex [1, cols] [rows, cols] i = if cols = 1 then 0 else i % cols := by
      simp [repeatedIndex, extended, repeatedCoordinates, coordinates, flatIndex, size]
    refine hindex.trans ?_
    split
    · next hcols =>
      subst hcols
      exact (Nat.mod_one i).symm
    · rfl

open Shape in
/-- A single element is read at every element of the other operand. -/
theorem broadcast_single (op : String) {s : Shape} (hcount : s.isCountable) (hs : 1 ≤ s.length) :
    ∃ x y, broadcast op s [1] = .ok ⟨s, [x, y]⟩ ∧
      ∀ i < s.size, x.position i = i ∧ y.position i = 0 := by
  have hrepeated : repeated s [1] = s := by
    rw [repeated_of_single_right s rfl, List.length_singleton, Nat.max_eq_left hs, extended_self]
  obtain ⟨x, y, hbroadcast, hposition⟩ :=
    broadcast_onto op hcount rfl (.inr (.inr (.inl rfl))) hrepeated hs
  refine ⟨x, y, hbroadcast, ?_⟩
  intro i hi
  obtain ⟨hx, hy⟩ := hposition i hi
  exact ⟨hx, hy.trans (repeatedIndex_of_single rfl s i)⟩

/-- The factors and the shifts of a normalization are read once per column. -/
theorem inferAffine_columns (norm : NormKind) {rows cols : Nat} {gamma beta : Shape}
    (hcount : Shape.isCountable [rows, cols]) (hg : gamma.isCountable) (hb : beta.isCountable)
    (hgamma : gamma.size = cols) (hbeta : beta.size = cols) :
    ∃ x, inferAffine norm [[rows, cols], gamma, beta] = .ok ⟨[rows, cols], [.aligned, x, x]⟩ ∧
      ∀ i < rows * cols, x.position i = i % cols := by
  refine ⟨if rows = 1 then .aligned else .row rows cols, ?_, ?_⟩
  · have hcols : (Shape.asMatrix [rows, cols]).2 = cols := by simp [Shape.asMatrix, Shape.size]
    rw [inferAffine_eq norm (Shape.hasMatrix_of_isCountable hcount) (by simp [hg, hb])
      (by simp [hgamma, hbeta, hcols]), hcols]
    rfl
  · intro i hi
    split
    · next hrows =>
      rw [hrows, Nat.one_mul] at hi
      exact (Nat.mod_eq_of_lt hi).symm
    · rfl

/-! ## What a term denotes -/

namespace Term

variable {signature : Signature} {env : Assignment α}

mutual

/-- The shape of a term is that of its value. -/
theorem infer_eq_map_eval (env : Assignment α) (t : Term) :
    t.infer signature = (t.eval ops signature env).map Flat.shape := by
  match t with
  | .constant value => rfl
  | .tensor id =>
    rw [infer, eval]
    cases signature.get id <;> rfl
  | .apply site op args =>
    rw [infer, eval, inferAll_eq_map_evalAll env args]
    cases evalAll ops signature env args with
    | error e => rfl
    | ok xs =>
      cases hshapes : op.operandShapes (xs.map Flat.shape) with
      | error e => simp [bind, Except.bind, Except.map, hshapes]
      | ok shapes =>
        cases hinferred : op.inferCounted shapes with
        | error e => simp [bind, Except.bind, Except.map, hshapes, hinferred]
        | ok r => simp [bind, Except.bind, Except.map, hshapes, hinferred, Op.result]

/-- The shapes of terms are those of their values. -/
theorem inferAll_eq_map_evalAll (env : Assignment α) (ts : List Term) :
    inferAll signature ts = (evalAll ops signature env ts).map (List.map Flat.shape) := by
  match ts with
  | [] => rfl
  | t :: rest =>
    rw [inferAll, evalAll, infer_eq_map_eval env t, inferAll_eq_map_evalAll env rest]
    cases eval ops signature env t with
    | error e => rfl
    | ok x => cases evalAll ops signature env rest <;> rfl

end

/-- A term with a shape has a value of that shape. -/
theorem exists_eval (env : Assignment α) {t : Term} {shape : Shape} (h : t.infer signature = .ok shape) :
    ∃ x, t.eval ops signature env = .ok x ∧ x.shape = shape := by
  rw [infer_eq_map_eval ops env] at h
  cases heval : t.eval ops signature env with
  | error e =>
    rw [heval] at h
    cases h
  | ok x =>
    rw [heval] at h
    cases h
    exact ⟨x, rfl, rfl⟩

/-- A leaf fits where its own elements do. -/
theorem fits_of_leaf {t : Term} (hleaf : t.site? = none) {shape : Shape} (h : t.infer signature = .ok shape)
    (hsize : shape.size < 2 ^ 32) : t.Fits signature := by
  intro u hu found hfound
  have hut : u = t := by
    cases t with
    | constant value => simpa [subterms] using hu
    | tensor id => simpa [subterms] using hu
    | apply site op args => cases hleaf
  rw [hut, h, Except.ok.injEq] at hfound
  exact hfound ▸ hsize

/-- The term fits in words, and its value has the given shape and elements. -/
structure Denotes (signature : Signature) (env : Assignment α) (t : Term) (shape : Shape) (f : Nat → α) :
    Prop where
  fits : t.Fits signature
  value : ∃ x, t.eval ops signature env = .ok x ∧ x.shape = shape ∧ ∀ i < shape.size, x.entry ops i = f i

namespace Denotes

variable {ops} {a b c : Term} {s s' : Shape} {f g h : Nat → α}

/-- The shape of what a term denotes. -/
theorem infer (ha : a.Denotes ops signature env s f) : a.infer signature = .ok s := by
  obtain ⟨x, hx, hshape, -⟩ := ha.value
  rw [infer_eq_map_eval ops env, hx, ← hshape]
  rfl

/-- A term that denotes elements has few of them. -/
theorem size_lt (ha : a.Denotes ops signature env s f) : s.size < 2 ^ 32 :=
  ha.fits a (mem_subterms_self a) s ha.infer

/-- Their number can be counted. -/
theorem countable (ha : a.Denotes ops signature env s f) : s.isCountable :=
  isCountable_of_infer ha.infer

/-- The elements matter only up to equality. -/
theorem congr (ha : a.Denotes ops signature env s f) (hfg : ∀ i < s.size, f i = g i) :
    a.Denotes ops signature env s g := by
  obtain ⟨x, hx, hshape, hentry⟩ := ha.value
  exact ⟨ha.fits, x, hx, hshape, fun i hi => (hentry i hi).trans (hfg i hi)⟩

/-- The value of an application, from the values of its arguments. -/
theorem apply {op : Op} {args : List Term} (xs : List (Flat α)) (r : Inferred) (site : Nat)
    (hop : ∀ rate, op ≠ .dropout rate) (hfits : ∀ t ∈ args, t.Fits signature)
    (hargs : evalAll ops signature env args = .ok xs) (hinfer : op.infer (xs.map Flat.shape) = .ok r)
    (hcount : r.shape.isCountable) (hsize : r.shape.size < 2 ^ 32)
    (helement : ∀ i < r.shape.size, op.element ops (r.access.zip xs) i = f i) :
    (Term.apply site op args).Denotes ops signature env r.shape f := by
  have hshapes : op.operandShapes (xs.map Flat.shape) = .ok (xs.map Flat.shape) := by
    cases op
    case dropout rate => exact absurd rfl (hop rate)
    all_goals rfl
  have hvalues : op.operandValues xs (env.mask site) = xs := by
    cases op
    case dropout rate => exact absurd rfl (hop rate)
    all_goals rfl
  have heval : (Term.apply site op args).eval ops signature env =
      .ok (op.result ops r.shape (r.access.zip xs)) := by
    rw [eval, hargs]
    simp [bind, Except.bind, hshapes, Op.inferCounted_eq hinfer hcount, hvalues]
  refine ⟨?_, _, heval, rfl, ?_⟩
  · intro u hu found hfound
    rw [subterms, List.mem_append, List.mem_singleton] at hu
    rcases hu with hu | rfl
    · obtain ⟨t, ht, hut⟩ := mem_allSubterms.1 hu
      exact hfits t ht u hut found hfound
    · rw [infer_eq_map_eval ops env, heval] at hfound
      cases hfound
      exact hsize
  · intro i hi
    rw [Op.entry_result ops op _ hi, helement i hi]

/-- An operator on one element. -/
theorem unary (ha : a.Denotes ops signature env s f) (site : Nat) (op : UnaryOp) :
    (Term.apply site (.unary op) [a]).Denotes ops signature env s fun i => op.value ops (f i) := by
  obtain ⟨x, hx, rfl, hentry⟩ := ha.value
  refine apply [x] ⟨x.shape, [.aligned]⟩ site (by simp) (by simpa using ha.fits)
    (by simp [evalAll, hx, bind, Except.bind]) rfl ha.countable ha.size_lt ?_
  intro i hi
  exact congrArg (op.value ops) (hentry i hi)

/-- An operator on two elements, which stand where broadcasting reads them. -/
theorem binary (ha : a.Denotes ops signature env s f) (hb : b.Denotes ops signature env s' g) (site : Nat)
    (op : BinaryOp) {shape : Shape} {x y : Access} (hbroadcast : broadcast op.name s s' = .ok ⟨shape, [x, y]⟩)
    (hsize : shape.size < 2 ^ 32) :
    (Term.apply site (.binary op) [a, b]).Denotes ops signature env shape fun i =>
      op.value ops (f (x.position i)) (g (y.position i)) := by
  obtain ⟨v, hv, rfl, hentry⟩ := ha.value
  obtain ⟨w, hw, rfl, hentry'⟩ := hb.value
  refine apply [v, w] ⟨shape, [x, y]⟩ site (by simp) (by simpa using ⟨ha.fits, hb.fits⟩)
    (by simp [evalAll, hv, hw, bind, Except.bind]) hbroadcast (broadcast_countable hbroadcast) hsize ?_
  intro i hi
  obtain ⟨x', y', haccess, hx, hy⟩ := broadcast_covers hbroadcast
  cases haccess
  exact congrArg₂ (op.value ops) (hentry _ (hx.position_lt hi)) (hentry' _ (hy.position_lt hi))

/-- A mean over the axis of a normalization. -/
theorem mean {rows cols : Nat} (ha : a.Denotes ops signature env [rows, cols] f) (site : Nat)
    (norm : NormKind) (hsize : (norm.statistics rows cols).size < 2 ^ 32) :
    (Term.apply site (.fold .mean (Build.normAxis norm)) [a]).Denotes ops signature env
      (norm.statistics rows cols) fun l =>
        ops.mean (norm.population rows cols) fun k => f (foldPosition cols l k (Build.normAxis norm)) := by
  obtain ⟨x, hx, hshape, hentry⟩ := ha.value
  rw [← norm.foldShape_normAxis] at hsize ⊢
  refine apply [x] ⟨foldShape (Build.normAxis norm) [rows, cols], [.aligned]⟩ site (by simp)
    (by simpa using ha.fits) (by simp [evalAll, hx, bind, Except.bind])
    (by simp [Op.infer, hshape, inferFold, Shape.hasMatrix_of_isCountable ha.countable])
    (norm.foldShape_normAxis rows cols ▸ norm.statistics_countable ha.countable) hsize ?_
  intro l hl
  have hcols : (foldDims (Build.normAxis norm) [rows, cols]).2 = cols := by
    simp [foldDims, Shape.asMatrix, Shape.size]
  show foldElement ops .mean (Build.normAxis norm) x l = _
  rw [foldElement, hshape, hcols, norm.foldCount_normAxis]
  refine ops.mean_congr fun k hk => hentry _ ?_
  rw [← norm.foldCount_normAxis] at hk
  have hlt := foldPosition_lt (Build.normAxis norm) [rows, cols] hl hk
  rwa [hcols] at hlt

/-- The last application of a normalization. -/
theorem affine {rows cols : Nat} {gamma beta : Shape} (ha : a.Denotes ops signature env [rows, cols] f)
    (hb : b.Denotes ops signature env gamma g) (hc : c.Denotes ops signature env beta h) (site : Nat)
    (norm : NormKind) (hgamma : gamma.size = cols) (hbeta : beta.size = cols) :
    (Term.apply site (.affine norm) [a, b, c]).Denotes ops signature env [rows, cols] fun i =>
      ops.add (ops.mul (f i) (g (i % cols))) (h (i % cols)) := by
  obtain ⟨v, hv, hshape, hentry⟩ := ha.value
  obtain ⟨w, hw, rfl, hentry'⟩ := hb.value
  obtain ⟨z, hz, rfl, hentry''⟩ := hc.value
  obtain ⟨x, hinfer, hposition⟩ := inferAffine_columns norm ha.countable hb.countable hc.countable
    hgamma hbeta
  refine apply [v, w, z] ⟨[rows, cols], [.aligned, x, x]⟩ site (by simp)
    (by simpa using ⟨ha.fits, hb.fits, hc.fits⟩)
    (by simp [evalAll, hv, hw, hz, bind, Except.bind]) (by simpa [Op.infer, hshape] using hinfer)
    ha.countable ha.size_lt ?_
  intro i hi
  have hi' : i < rows * cols := by simpa [Shape.size] using hi
  have hcol : i % cols < cols := Nat.mod_lt i (Nat.pos_of_ne_zero fun h0 => by simp [h0] at hi')
  show ops.add (ops.mul (v.entry ops i) (w.entry ops (x.position i))) (z.entry ops (x.position i)) = _
  rw [hposition i hi', hentry i hi, hentry' _ (hgamma ▸ hcol), hentry'' _ (hbeta ▸ hcol)]

variable {rows cols : Nat}

/-- The deviations of the elements of a matrix from the means of their lines. -/
theorem centered (ha : a.Denotes ops signature env [rows, cols] f) (norm : NormKind) (next : Nat)
    (hsize : (norm.statistics rows cols).size < 2 ^ 32) :
    (Term.apply (next + 1) (.binary .sub)
      [a, .apply next (.fold .mean (Build.normAxis norm)) [a]]).Denotes ops signature env [rows, cols]
        fun i => ops.sub (f i) (ops.mean (norm.population rows cols) fun k =>
          f (foldPosition cols (norm.line cols i) k (Build.normAxis norm))) := by
  obtain ⟨x, y, hbroadcast, hposition⟩ := broadcast_statistics BinaryOp.sub.name norm ha.countable
  refine (ha.binary (ha.mean next norm hsize) (next + 1) .sub hbroadcast ha.size_lt).congr ?_
  intro i hi
  obtain ⟨hx, hy⟩ := hposition i (by simpa [Shape.size] using hi)
  simp only [hx, hy, BinaryOp.value]

/-- The deviations by which the elements of a line are scaled. -/
theorem deviation {e : Nat → α} (ha : a.Denotes ops signature env [rows, cols] e) (norm : NormKind)
    (next : Nat) (hsize : (norm.statistics rows cols).size < 2 ^ 32)
    (he : ∀ l < (norm.statistics rows cols).size, ∀ k < norm.population rows cols,
      e (foldPosition cols l k (Build.normAxis norm)) =
        ops.sub (f (foldPosition cols l k (Build.normAxis norm)))
          (ops.mean (norm.population rows cols) fun k' => f (foldPosition cols l k' (Build.normAxis norm)))) :
    (Term.apply (next + 3) (.unary .sqrt)
      [.apply (next + 2) (.binary .add)
        [.apply (next + 1) (.fold .mean (Build.normAxis norm)) [.apply next (.binary .mul) [a, a]],
          .constant Build.normMargin]]).Denotes ops signature env (norm.statistics rows cols) fun l =>
      ops.sqrt (ops.add (ops.variance (norm.population rows cols) fun k =>
        f (foldPosition cols l k (Build.normAxis norm))) (ops.lit 1e-4)) := by
  have hsquared : (Term.apply next (.binary .mul) [a, a]).Denotes ops signature env [rows, cols] fun i =>
      ops.mul (e i) (e i) :=
    ha.binary ha next .mul (x := .aligned) (y := .aligned)
      (by simp [broadcast_eq _ ha.countable ha.countable, matchShapes]) ha.size_lt
  have hmargin : (Term.constant Build.normMargin).Denotes ops signature env [1] fun _ => ops.lit 1e-4 := by
    refine ⟨fits_of_leaf rfl rfl (by decide), _, rfl, rfl, ?_⟩
    intro i hi
    obtain rfl : i = 0 := by simpa [Shape.size] using hi
    rfl
  obtain ⟨x, y, hbroadcast, hposition⟩ := broadcast_single BinaryOp.add.name
    (norm.statistics_countable ha.countable) (by cases norm <;> simp [NormKind.statistics])
  refine (((hsquared.mean (next + 1) norm hsize).binary hmargin (next + 2) .add hbroadcast hsize).unary
    (next + 3) .sqrt).congr ?_
  intro l hl
  obtain ⟨hx, -⟩ := hposition l hl
  have hvariance : ops.mean (norm.population rows cols) (fun k =>
        ops.mul (e (foldPosition cols l k (Build.normAxis norm)))
          (e (foldPosition cols l k (Build.normAxis norm)))) =
      ops.variance (norm.population rows cols) fun k => f (foldPosition cols l k (Build.normAxis norm)) :=
    ops.mean_congr fun k hk => by rw [he l hl k hk]
  simp only [hx, UnaryOp.value, BinaryOp.value, hvariance]

/-- Every element of a normalization layer is standardized by its line, then scaled and shifted by what stands
in its column. -/
theorem normalize {gamma beta : Shape} (ha : a.Denotes ops signature env [rows, cols] f)
    (hb : b.Denotes ops signature env gamma g) (hc : c.Denotes ops signature env beta h) (norm : NormKind)
    (next : Nat) (hrows : 1 ≤ rows) (hcols : 1 ≤ cols) (hgamma : gamma.size = cols)
    (hbeta : beta.size = cols) :
    (Build.normalize norm a b c next).1.Denotes ops signature env [rows, cols] fun i =>
      ops.standardized (norm.population rows cols)
        (fun k => f (foldPosition cols (norm.line cols i) k (Build.normAxis norm))) (f i) (g (i % cols))
        (h (i % cols)) := by
  have hsize : (norm.statistics rows cols).size < 2 ^ 32 := by
    have hle := norm.size_statistics_le hrows hcols
    have hlt := ha.size_lt
    simp only [Shape.size, Nat.mul_one] at hlt
    omega
  have hcentered := ha.centered norm next hsize
  have hdeviation := hcentered.deviation (f := f) norm (next + 2) hsize (by
    intro l hl k hk
    rw [norm.line_foldPosition hl hk])
  obtain ⟨x, y, hbroadcast, hposition⟩ := broadcast_statistics BinaryOp.div.name norm ha.countable
  have hnormalized := hcentered.binary hdeviation (next + 6) .div hbroadcast ha.size_lt
  refine (hnormalized.affine hb hc (next + 7) norm hgamma hbeta).congr ?_
  intro i hi
  obtain ⟨hx, hy⟩ := hposition i (by simpa [Shape.size] using hi)
  simp only [hx, hy, BinaryOp.value, Arithmetic.standardized]

/-- A run of a compiled term reads back what the term denotes. -/
theorem run (ha : a.Denotes ops signature env s f) (hbuilt : a.Built) {shape : Shape} {plan : Plan}
    (hplan : (compile signature a shape).plan = .ok plan) (hsuits : env.Suits signature a) {m : Machine α}
    (hm : Machine.Reached ops plan signature.size a.dropoutSites.length m)
    (hcarries : m.Carries signature a env) (backward : Bool) :
    ∃ r m', Machine.run ops backward m = .ok r m' ∧ r.output.size = s.size ∧
      ∀ i < s.size, r.output[i]? = some (f i) := by
  obtain ⟨id, lowered, -, hcompiled⟩ := compiledAs_of_ok hbuilt hplan
  rw [← hcompiled.lowered.inv.count] at hm
  obtain ⟨r, m', hrun, houtput⟩ := hcompiled.run_output ops ha.fits hm backward
  obtain ⟨value, hvalue, hdata, hsize⟩ :=
    hcompiled.eval_root ops hsuits.tensor (Layout.leavesOf m.tensors m.masks)
      (by
        intro t d hd
        simp [Layout.leavesOf, hcarries.tensor t d hd])
      (by
        intro i site hi
        simp [Layout.leavesOf, hcarries.mask i site hi])
  obtain ⟨x, hx, rfl, hentry⟩ := ha.value
  obtain rfl : value = x := Except.ok.inj (hvalue.symm.trans hx)
  have hread : r.output = value.data := houtput.trans hdata
  refine ⟨r, m', hrun, hread ▸ hsize, ?_⟩
  intro i hi
  rw [hread, ← hentry i hi]
  simp [Flat.entry, hsize, hi]

end Denotes

end Term

/-! ## Normalization layers -/

/-- A normalization layer of known terms is built. -/
theorem Build.Known.normalize {next : Nat} {x gamma beta : Term} (h : Build.Known next [x, gamma, beta])
    (norm : NormKind) : (Build.normalize norm x gamma beta next).1.Built := by
  let mean := Term.apply next (.fold .mean (normAxis norm)) [x]
  let centered := Term.apply (next + 1) (.binary .sub) [x, mean]
  let squared := Term.apply (next + 2) (.binary .mul) [centered, centered]
  let variance := Term.apply (next + 3) (.fold .mean (normAxis norm)) [squared]
  let raised := Term.apply (next + 4) (.binary .add) [variance, .constant normMargin]
  let deviation := Term.apply (next + 5) (.unary .sqrt) [raised]
  let normalized := Term.apply (next + 6) (.binary .div) [centered, deviation]
  have h := h.leaf (t := .constant normMargin) rfl
  have h := h.apply (.fold .mean (normAxis norm)) [x] (by simp [Term.mem_allSubterms_of_mem]) rfl
  have h := h.apply (.binary .sub) [x, mean] (by simp [mean, Term.mem_allSubterms_of_mem]) rfl
  have h := h.apply (.binary .mul) [centered, centered]
    (by simp [centered, mean, Term.mem_allSubterms_of_mem]) rfl
  have h := h.apply (.fold .mean (normAxis norm)) [squared]
    (by simp [squared, Term.mem_allSubterms_of_mem]) rfl
  have h := h.apply (.binary .add) [variance, .constant normMargin]
    (by simp [variance, Term.mem_allSubterms_of_mem]) rfl
  have h := h.apply (.unary .sqrt) [raised] (by simp [raised, Term.mem_allSubterms_of_mem]) rfl
  have h := h.apply (.binary .div) [centered, deviation]
    (by simp [centered, mean, deviation, Term.mem_allSubterms_of_mem]) rfl
  have h := h.apply (.affine norm) [normalized, gamma, beta]
    (by simp [normalized, Term.mem_allSubterms_of_mem]) rfl
  exact h.built (Term.mem_allSubterms_of_mem List.mem_cons_self)

/-- A layer or batch normalization of a matrix is compiled, and a run of it, for training or not, reads back
every element of the matrix standardized by the mean and the variance of its row or column, then scaled and
shifted by what stands in its column, operation for operation. -/
theorem run_normalization {signature : Signature} {next : Nat} {x gamma beta : Term}
    (hknown : Build.Known next [x, gamma, beta]) (hgamma : gamma.site? = none) (hbeta : beta.site? = none)
    {rows cols : Nat} (hrows : 1 ≤ rows) (hcols : 1 ≤ cols) (hx : x.infer signature = .ok [rows, cols])
    (hfits : x.Fits signature) {gammaShape betaShape : Shape} (hg : gamma.infer signature = .ok gammaShape)
    (hgsize : gammaShape.size = cols) (hb : beta.infer signature = .ok betaShape)
    (hbsize : betaShape.size = cols) (norm : NormKind) {shape : Shape} (hshape : shape.size = rows * cols) :
    ∃ plan, (compile signature (Build.normalize norm x gamma beta next).1 shape).plan = .ok plan ∧
      ∀ {env : Assignment α} {m : Machine α},
        env.Suits signature (Build.normalize norm x gamma beta next).1 →
        Machine.Reached ops plan signature.size
          (Build.normalize norm x gamma beta next).1.dropoutSites.length m →
        m.Carries signature (Build.normalize norm x gamma beta next).1 env → ∀ backward : Bool,
        ∃ xs gs bs r m', x.eval ops signature env = .ok xs ∧ gamma.eval ops signature env = .ok gs ∧
          beta.eval ops signature env = .ok bs ∧ Machine.run ops backward m = .ok r m' ∧
          r.output.size = rows * cols ∧
          ∀ i < rows, ∀ j < cols, r.output[i * cols + j]? =
            some (ops.standardized (norm.population rows cols)
              (fun k => xs.entry ops (norm.peer cols i j k)) (xs.entry ops (i * cols + j)) (gs.entry ops j)
              (bs.entry ops j)) := by
  have hbuilt := hknown.normalize norm
  have hcolumn : cols < 2 ^ 32 := by
    have hlt := hfits x (Term.mem_subterms_self x) _ hx
    have hle := Nat.le_mul_of_pos_left cols hrows
    simp only [Shape.size, Nat.mul_one] at hlt
    omega
  -- what the layer denotes under any assignment, also its shape
  have hdenotes : ∀ env : Assignment α, ∃ xs gs bs, x.eval ops signature env = .ok xs ∧
      gamma.eval ops signature env = .ok gs ∧ beta.eval ops signature env = .ok bs ∧
      (Build.normalize norm x gamma beta next).1.Denotes ops signature env [rows, cols] fun i =>
        ops.standardized (norm.population rows cols)
          (fun k => xs.entry ops (foldPosition cols (norm.line cols i) k (Build.normAxis norm)))
          (xs.entry ops i) (gs.entry ops (i % cols)) (bs.entry ops (i % cols)) := by
    intro env
    obtain ⟨xs, hxs, hxshape⟩ := Term.exists_eval ops env hx
    obtain ⟨gs, hgs, hgshape⟩ := Term.exists_eval ops env hg
    obtain ⟨bs, hbs, hbshape⟩ := Term.exists_eval ops env hb
    refine ⟨xs, gs, bs, hxs, hgs, hbs, ?_⟩
    exact Term.Denotes.normalize ⟨hfits, xs, hxs, hxshape, fun _ _ => rfl⟩
      ⟨Term.fits_of_leaf hgamma hg (hgsize ▸ hcolumn), gs, hgs, hgshape, fun _ _ => rfl⟩
      ⟨Term.fits_of_leaf hbeta hb (hbsize ▸ hcolumn), bs, hbs, hbshape, fun _ _ => rfl⟩
      norm next hrows hcols hgsize hbsize
  obtain ⟨_, _, _, -, -, -, hany⟩ := hdenotes ⟨fun _ => #[], fun _ => #[]⟩
  have hcountable : shape.isCountable := by
    have hlt := hfits x (Term.mem_subterms_self x) _ hx
    simp only [Shape.size, Nat.mul_one] at hlt
    have hextent : shape.extent = rows * cols := by
      rw [← hshape]
      exact Shape.extent_eq_size (hshape ▸ Nat.mul_pos hrows hcols)
    exact Shape.isCountable_of_extent_lt (by omega)
  obtain ⟨plan, hplan⟩ := exists_plan hbuilt hcountable hany.infer
    (by simpa [Shape.size] using hshape.symm)
  refine ⟨plan, hplan, ?_⟩
  intro env m hsuits hm hcarries backward
  obtain ⟨xs, gs, bs, hxs, hgs, hbs, hlayer⟩ := hdenotes env
  obtain ⟨r, m', hrun, hsize, hread⟩ := hlayer.run hbuilt hplan hsuits hm hcarries backward
  refine ⟨xs, gs, bs, r, m', hxs, hgs, hbs, hrun, by simpa [Shape.size] using hsize, ?_⟩
  intro i hi j hj
  rw [hread _ (by simpa [Shape.size] using row_add_lt hi hj), row_add_mod hj]
  cases norm with
  | layer => simp only [NormKind.line, Build.normAxis, foldPosition, NormKind.peer, row_add_div hj]
  | batch => simp only [NormKind.line, Build.normAxis, foldPosition, NormKind.peer, row_add_mod hj]

/-- A square matrix, whose rows and columns are as long, with a factor and a shift per column. -/
def squareSignature : Signature where
  decls := [⟨"x", [2, 2], .input⟩, ⟨"g", [2], .parameter⟩, ⟨"b", [2, 1], .parameter⟩]
  valid := by decide
  nodup := by decide
  countable := by decide

/-- Values for the square matrix, its factors and its shifts. -/
def squareValues : Assignment Float32 where
  tensor
    | 0 => #[1.0, 2.0, 3.0, 5.0]
    | 1 => #[0.5, 1.5]
    | _ => #[0.25, -0.25]
  mask _ := #[]

/-- A batch normalization of the square matrix takes its statistics over columns. -/
theorem run_square_normalization :
    ∃ plan r m',
      (compile squareSignature (Build.normalize .batch (.tensor 0) (.tensor 1) (.tensor 2) 0).1 [4]).plan =
        .ok plan ∧
      Machine.run .binary32 false (Machine.start .binary32 plan
        [squareValues.tensor 0, squareValues.tensor 1, squareValues.tensor 2] []) = .ok r m' ∧
      r.output.size = 4 ∧
      r.output[1]? = some (Arithmetic.binary32.standardized 2
        (fun k => #[1.0, 2.0, 3.0, 5.0].getD (k * 2 + 1) 0.0) 2.0 1.5 (-0.25)) := by
  let root := (Build.normalize .batch (.tensor 0) (.tensor 1) (.tensor 2) 0).1
  have hknown : Build.Known 0 [.tensor 0, .tensor 1, .tensor 2] :=
    Build.known_leaves _ (by simp [Term.site?])
  have hx : (Term.tensor 0).infer squareSignature = .ok [2, 2] := rfl
  have hfits : (Term.tensor 0).Fits squareSignature := Term.fits_of_leaf rfl hx (by decide)
  obtain ⟨plan, hplan, hruns⟩ := run_normalization Arithmetic.binary32 hknown rfl rfl (by decide) (by decide)
    hx hfits rfl rfl rfl rfl .batch (show Shape.size [4] = 2 * 2 from rfl)
  have hnone : root.subterms.filterMap Term.dropoutSite? = [] := rfl
  have hsites : root.dropoutSites = [] := by rw [Term.dropoutSites, hnone, List.eraseDups_nil]
  have hsuits : squareValues.Suits squareSignature root := by
    refine ⟨?_, ?_⟩
    · intro t d hd
      rcases t with _ | _ | _ | _ <;> cases hd <;> rfl
    · intro site rate arg found hmem
      exact absurd (List.filterMap_eq_nil_iff.1 hnone _ hmem) (by simp [Term.dropoutSite?])
  have hcarries : (Machine.start .binary32 plan
      [squareValues.tensor 0, squareValues.tensor 1, squareValues.tensor 2] []).Carries squareSignature root
        squareValues := by
    refine ⟨?_, ?_⟩
    · intro t d hd
      rcases t with _ | _ | _ | _ <;> cases hd <;> rfl
    · intro i site hi
      rw [hsites] at hi
      cases hi
  obtain ⟨xs, gs, bs, r, m', hxs, hgs, hbs, hrun, hsize, hread⟩ :=
    hruns hsuits (.start rfl (congrArg List.length hsites.symm)) hcarries false
  cases hxs
  cases hgs
  cases hbs
  exact ⟨plan, r, m', hplan, hrun, hsize, hread 0 (by decide) 1 (by decide)⟩

end TensorKernels
