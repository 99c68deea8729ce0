import TensorKernels.Proofs.ExactOrder
import TensorKernels.Proofs.ForwardCode

/-!
# The shift of a softmax

The code of a softmax first finds the maximum of its row and then adds up the exponentials of the elements
shifted by it. The running maximum starts at a number of its own, the floor, and not at an element, so it is
the maximum of the elements and the floor. On finite elements it is therefore the largest of them exactly
where some element is not below the floor (`softmaxForward_shift`). This is also where some shifted element
is zero: a difference of values is zero only where they are equal.

A row of values below the floor, such as the lowest ones, is shifted by the floor instead.
-/

set_option autoImplicit false

namespace TensorKernels

/-! ## Rows as the code reads them -/

section Rows

variable {α : Type} (ops : Arithmetic α)

/-- The scalar of a value, if it is one. -/
def Value.scalar? : Value α → Option α
  | .scalar x => some x
  | _ => none

/-- The element of an operand at a flat position. Locals and constants have the same value everywhere, and
past the end of a buffer there are zeros. -/
def Operand.element? (s : Invocation α) (o : Operand) (p : Nat) : Option α :=
  match o.source with
  | .const c => some (ops.lit c)
  | .var name => (s.locals.find? name).bind Value.scalar?
  | .buffer name => (s.buffer? name).map fun data => data.getD p ops.zero

/-- The number of columns of an operand, read as a matrix. -/
def Operand.columns (o : Operand) : Nat := o.shape.asMatrix.2

/-- Element `k` of the row of an operand that the invocation belongs to. -/
def Operand.rowElement? (s : Invocation α) (o : Operand) (k : Nat) : Option α :=
  o.element? ops s (s.index.toNat / o.columns * o.columns + k)

/-- The row of an operand that the invocation belongs to ends where words do, if it is loaded from a buffer. -/
def Operand.RowFits (s : Invocation α) (o : Operand) : Prop :=
  ∀ name, o.source = .buffer name → (s.index.toNat / o.columns + 1) * o.columns ≤ 2 ^ 32

variable {ops} {s t : Invocation α} {o : Operand}

/-- Code that leaves the local of an operand alone reads its elements. -/
theorem Operand.eval_element {sets : List String} {p : Nat} {x : α} (hx : o.element? ops s p = some x)
    (hframe : Invocation.Frame sets [] s t) (hvar : ∀ name, o.source = .var name → name ∉ sets)
    {position : Expr} {w : UInt32} (hp : position.eval ops t = .ok (.word w))
    (hw : ∀ name, o.source = .buffer name → w.toNat = p) :
    (o.read position).eval ops t = .ok (.scalar x) := by
  unfold Operand.element? at hx
  unfold Operand.read
  cases ho : o.source with
  | const c =>
    simp only [ho] at hx ⊢
    cases hx
    rfl
  | var name =>
    simp only [ho] at hx ⊢
    obtain ⟨v, hv, hscalar⟩ := Option.bind_eq_some_iff.1 hx
    refine Expr.eval_var ops ?_
    rw [hframe.locals name (hvar name ho), hv]
    cases v with
    | scalar y =>
      cases hscalar
      rfl
    | word n => cases hscalar
    | truth b => cases hscalar
  | buffer name =>
    simp only [ho] at hx ⊢
    obtain ⟨data, hdata, rfl⟩ := Option.map_eq_some_iff.1 hx
    have hbuffer : t.buffer? name = some data := (hframe.buffer?_eq name).trans hdata
    simp [Expr.eval, hp, hbuffer, bind, Except.bind, Value.toWord, hw name ho]

/-- The word that the code computes for the start of a row. -/
def rowStart (i : UInt32) (cols : Nat) : UInt32 :=
  (if UInt32.ofNat cols = 0 then i else i / UInt32.ofNat cols) * UInt32.ofNat cols

/-- The code finds the start of the row. -/
theorem eval_rowStart (cols : Nat) :
    (Expr.index / Expr.ofNat cols * Expr.ofNat cols).eval ops s = .ok (.word (rowStart s.index cols)) := rfl

/-- Nothing wraps where the row fits. A row of all words starts at zero, although its length is not a word. -/
theorem toNat_rowStart_add {i : UInt32} {cols k : Nat} (hfits : (i.toNat / cols + 1) * cols ≤ 2 ^ 32)
    (hk : k < cols) : (rowStart i cols + UInt32.ofNat k).toNat = i.toNat / cols * cols + k := by
  have hi := i.toNat_lt
  have hrow : i.toNat / cols * cols + k < 2 ^ 32 := by
    rw [Nat.add_mul, Nat.one_mul] at hfits
    omega
  have hstart : (rowStart i cols).toNat = i.toNat / cols * cols := by
    unfold rowStart
    by_cases hcols : cols < 2 ^ 32
    · have htoNat : (UInt32.ofNat cols).toNat = cols := UInt32.toNat_ofNat_of_lt' hcols
      rw [if_neg (Expr.ofNat_ne_zero hcols (by omega)), UInt32.toNat_mul, UInt32.toNat_div, htoNat,
        Nat.mod_eq_of_lt (by omega)]
    · have hle : cols ≤ (i.toNat / cols + 1) * cols := Nat.le_mul_of_pos_left cols (Nat.succ_pos _)
      obtain rfl : cols = 2 ^ 32 := by omega
      rw [Nat.div_eq_of_lt hi]
      simp
  have hk' : k < 2 ^ 32 := by omega
  rw [UInt32.toNat_add, hstart, UInt32.toNat_ofNat_of_lt' hk', Nat.mod_eq_of_lt hrow]

/-- The code of a softmax reads element `k` of its row. -/
theorem Operand.eval_rowElement {sets : List String} {row step : String} {k : Nat} {x : α}
    (hx : o.rowElement? ops s k = some x) (hfits : o.RowFits s) (hk : k < o.columns)
    (hframe : Invocation.Frame sets [] s t) (hvar : ∀ name, o.source = .var name → name ∉ sets)
    (hrow : t.locals.find? row = some (.word (rowStart s.index o.columns)))
    (hstep : t.locals.find? step = some (.word (UInt32.ofNat k))) :
    (o.read (.var row + .var step)).eval ops t = .ok (.scalar x) := by
  have hposition : (Expr.var row + Expr.var step).eval ops t =
      .ok (.word (rowStart s.index o.columns + UInt32.ofNat k)) := by
    simp [Expr.eval, hrow, hstep, bind, Except.bind, BinaryFn.apply, BinaryFn.onWords]
  exact Operand.eval_element hx hframe hvar hposition fun name hname =>
    toNat_rowStart_add (hfits name hname) hk

end Rows

/-! ## The two loops -/

section Loops

variable {α : Type} (ops : Arithmetic α)

/-- The maximum of the floor and the first `n` elements, from left to right. -/
def runningMaximum (x : Nat → α) (n : Nat) : α :=
  (List.range n).foldl (fun top k => ops.max top (x k)) (ops.lit softmaxFloor)

variable {ops} {s : Invocation α} {o : Operand} {out : String} {x : Nat → α}

/-- The locals that the code of a softmax uses before its result. -/
def softmaxLocals (out : String) : List String := [out ++ "_row", out ++ "_max", out ++ "_k", out ++ "_sum"]

/-- The first loop finds the running maximum. -/
theorem softmaxForward_max (hrow : ∀ k < o.columns, o.rowElement? ops s k = some (x k))
    (hfits : o.RowFits s) (hvar : ∀ name, o.source = .var name → name ∉ softmaxLocals out) :
    Stmt.Ends ops s ((softmaxForward out o).take 3) fun t =>
      Invocation.Frame (softmaxLocals out) [] s t ∧
        t.locals.find? (out ++ "_row") = some (.word (rowStart s.index o.columns)) ∧
        t.locals.find? (out ++ "_max") = some (.scalar (runningMaximum ops x o.columns)) := by
  have hcode : (softmaxForward out o).take 3 =
      [.letDecl (out ++ "_row") (.index / .ofNat o.columns * .ofNat o.columns),
        .varDecl (out ++ "_max") (.float softmaxFloor),
        .forLoop (out ++ "_k") o.columns [.assign (out ++ "_max")
          ((Expr.var (out ++ "_max")).max (o.read (.var (out ++ "_row") + .var (out ++ "_k"))))]] := rfl
  rw [hcode]
  refine .letDecl (eval_rowStart o.columns) (.varDecl rfl ?_)
  -- what the loop changes, together with what came before it
  have hframe : ∀ t, Invocation.Frame [out ++ "_k", out ++ "_max"] []
      ((s.setLocal (out ++ "_row") (.word (rowStart s.index o.columns))).setLocal (out ++ "_max")
        (.scalar (ops.lit softmaxFloor))) t →
      Invocation.Frame (softmaxLocals out) [] s t ∧
        t.locals.find? (out ++ "_row") = some (.word (rowStart s.index o.columns)) := by
    intro t ht
    constructor
    · exact (((Invocation.Frame.setLocal s (out ++ "_row") _).trans
        (Invocation.Frame.setLocal _ (out ++ "_max") _)).trans ht).mono (by simp [softmaxLocals]) (by simp)
    · rw [ht.locals _ (by simp)]
      simp
  refine .foldLoop (a := ops.lit softmaxFloor) (g := fun top k => ops.max top (x k)) (by simp) (by simp) ?_ ?_
  · intro k top t hk ht hstep htop
    obtain ⟨hall, hstart⟩ := hframe t ht
    exact Expr.eval_binary_scalar ops .max (Expr.eval_var ops htop)
      (Operand.eval_rowElement (hrow k hk) hfits hk hall hvar hstart hstep)
  · intro t ht htop
    obtain ⟨hall, hstart⟩ := hframe t ht
    exact .nil ⟨hall, hstart, htop⟩

/-- The second loop adds up the exponentials of the elements shifted by it. -/
theorem softmaxForward_sum (hrow : ∀ k < o.columns, o.rowElement? ops s k = some (x k))
    (hfits : o.RowFits s) (hvar : ∀ name, o.source = .var name → name ∉ softmaxLocals out) :
    Stmt.Ends ops s ((softmaxForward out o).take 5) fun t =>
      t.locals.find? (out ++ "_max") = some (.scalar (runningMaximum ops x o.columns)) ∧
        t.locals.find? (out ++ "_sum") = some (.scalar (ops.total o.columns fun k =>
          ops.exp (ops.sub (x k) (runningMaximum ops x o.columns)))) := by
  have hcode : (softmaxForward out o).take 5 = (softmaxForward out o).take 3 ++
      [.varDecl (out ++ "_sum") (.float 0.0),
        .forLoop (out ++ "_k") o.columns [.accumulate (out ++ "_sum")
          (o.read (.var (out ++ "_row") + .var (out ++ "_k")) - .var (out ++ "_max")).exp]] := rfl
  rw [hcode]
  refine .append ((softmaxForward_max hrow hfits hvar).mono ?_)
  rintro t ⟨hall, hstart, htop⟩
  refine .varDecl rfl ?_
  refine .accumulateLoop (a := ops.zero)
    (f := fun k => ops.exp (ops.sub (x k) (runningMaximum ops x o.columns))) (by simp) (by simp; rfl) ?_ ?_
  · intro k u hk hu hstep
    have hall' : Invocation.Frame (softmaxLocals out) [] s u := by
      exact ((hall.trans (Invocation.Frame.setLocal t (out ++ "_sum") _)).trans hu).mono
        (by simp [softmaxLocals]) (by simp)
    have hstart' : u.locals.find? (out ++ "_row") = some (.word (rowStart s.index o.columns)) := by
      rw [hu.locals _ (by simp)]
      simp [hstart]
    have htop' : u.locals.find? (out ++ "_max") = some (.scalar (runningMaximum ops x o.columns)) := by
      rw [hu.locals _ (by simp)]
      simp [htop]
    exact Expr.eval_unary_scalar ops .exp (Expr.eval_binary_scalar ops .sub
      (Operand.eval_rowElement (hrow k hk) hfits hk hall' hvar hstart' hstep) (Expr.eval_var ops htop'))
  · intro u hu hsum
    refine .nil ⟨?_, hsum⟩
    rw [hu.locals _ (by simp)]
    simp [htop]

end Loops

/-! ## Finite rows -/

/-- The bits of the floor of a softmax. -/
theorem softmaxFloor_eq : softmaxFloor = .ofBits 0xff7fc99e := by decide +kernel

/-- The floor of a softmax is finite. -/
theorem isFinite_softmaxFloor : softmaxFloor.isFinite = true := by
  rw [softmaxFloor_eq]
  decide

/-- The floor of a softmax is not zero. -/
theorem exact_softmaxFloor_ne_zero : Number.exact softmaxFloor ≠ 0 := by
  have hparts : Binary32.ofFloat softmaxFloor = ⟨true, 16763294, 104⟩ := by
    rw [softmaxFloor_eq]
    rfl
  rw [Number.exact, hparts]
  exact neg_ne_zero.2 (Binary32.size_pos (by decide)).ne'

/-- The running maximum of finite elements is the largest of them and the floor. -/
theorem runningMaximum_spec {x : Nat → Float32} {n : Nat} (hx : ∀ k < n, (x k).isFinite = true) :
    (runningMaximum .binary32 x n).isFinite = true ∧
      Number.exact softmaxFloor ≤ Number.exact (runningMaximum .binary32 x n) ∧
      (∀ k < n, Number.exact (x k) ≤ Number.exact (runningMaximum .binary32 x n)) ∧
      (runningMaximum .binary32 x n = softmaxFloor ∨ ∃ k < n, runningMaximum .binary32 x n = x k) := by
  induction n with
  | zero => exact ⟨isFinite_softmaxFloor, le_refl _, by simp, .inl rfl⟩
  | succ n ih =>
    obtain ⟨hfinite, hfloor, habove, hreached⟩ := ih fun k hk => hx k (by omega)
    have hnext := hx n (by omega)
    have hstep : runningMaximum .binary32 x (n + 1) =
        Number.larger (runningMaximum .binary32 x n) (x n) := by
      simp only [runningMaximum, List.range_succ, List.foldl_append, List.foldl_cons, List.foldl_nil]
      rfl
    rw [hstep, Number.larger_eq hfinite hnext]
    by_cases hlt : Number.exact (runningMaximum .binary32 x n) < Number.exact (x n)
    · rw [if_pos hlt]
      refine ⟨hnext, by linarith, ?_, .inr ⟨n, by omega, rfl⟩⟩
      intro k hk
      rcases Nat.lt_succ_iff_lt_or_eq.1 hk with hk | rfl
      · linarith [habove k hk]
      · exact le_refl _
    · rw [if_neg hlt]
      refine ⟨hfinite, hfloor, ?_, hreached.imp_right fun ⟨k, hk, heq⟩ => ⟨k, by omega, heq⟩⟩
      intro k hk
      rcases Nat.lt_succ_iff_lt_or_eq.1 hk with hk | rfl
      · exact habove k hk
      · exact not_lt.1 hlt

/-- How a row `x` of `n` finite elements is shifted. -/
structure IsShift (x : Nat → Float32) (n : Nat) (m : Float32) : Prop where
  finite : m.isFinite = true
  above : ∀ k < n, Number.exact (x k) ≤ Number.exact m
  /-- The shift is an element exactly where one of them is not below the floor. -/
  element : (∃ k < n, m = x k) ↔ ∃ k < n, Number.exact softmaxFloor ≤ Number.exact (x k)
  /-- This is also where a shifted element is zero. -/
  zero : (∃ k < n, x k - m = 0.0) ↔ ∃ k < n, Number.exact softmaxFloor ≤ Number.exact (x k)
  floor : (∀ k < n, Number.exact (x k) < Number.exact softmaxFloor) → m = softmaxFloor

/-- The running maximum of a row of finite elements is its shift. -/
theorem runningMaximum_isShift {x : Nat → Float32} {n : Nat} (hx : ∀ k < n, (x k).isFinite = true) :
    IsShift x n (runningMaximum .binary32 x n) := by
  obtain ⟨hfinite, hfloor, habove, hreached⟩ := runningMaximum_spec hx
  generalize runningMaximum .binary32 x n = m at *
  have helement : (∃ k < n, Number.exact softmaxFloor ≤ Number.exact (x k)) → ∃ k < n, m = x k := by
    rintro ⟨k, hk, hle⟩
    rcases hreached with rfl | hreached
    · -- the floor itself is in the row
      have heq := le_antisymm hle (habove k hk)
      exact ⟨k, hk, Number.eq_of_exact_eq heq exact_softmaxFloor_ne_zero⟩
    · exact hreached
  refine ⟨hfinite, habove, ⟨?_, helement⟩, ⟨?_, ?_⟩, ?_⟩
  · rintro ⟨k, hk, rfl⟩
    exact ⟨k, hk, hfloor⟩
  · rintro ⟨k, hk, hzero⟩
    exact ⟨k, hk, hfloor.trans_eq (Number.exact_eq_of_sub_eq_zero (hx k hk) hfinite hzero).symm⟩
  · intro hsome
    obtain ⟨k, hk, rfl⟩ := helement hsome
    exact ⟨k, hk, Number.sub_self hfinite⟩
  · intro hbelow
    rcases hreached with hreached | ⟨k, hk, rfl⟩
    · exact hreached
    · exact absurd (hbelow k hk) (not_lt.2 hfloor)

/-- The code of a softmax on a row of finite elements: the first loop ends with the shift of the row, and the
second one with the sum of the exponentials of the shifted elements. -/
theorem softmaxForward_shift {s : Invocation Float32} {o : Operand} {out : String} {x : Nat → Float32}
    (hrow : ∀ k < o.columns, o.rowElement? .binary32 s k = some (x k) ∧ (x k).isFinite = true)
    (hfits : o.RowFits s) (hvar : ∀ name, o.source = .var name → name ∉ softmaxLocals out) :
    ∃ m, IsShift x o.columns m ∧
      Stmt.Ends .binary32 s ((softmaxForward out o).take 3) (fun t =>
        t.locals.find? (out ++ "_max") = some (.scalar m)) ∧
      Stmt.Ends .binary32 s ((softmaxForward out o).take 5) fun t =>
        t.locals.find? (out ++ "_max") = some (.scalar m) ∧
          t.locals.find? (out ++ "_sum") =
            some (.scalar (Arithmetic.binary32.total o.columns fun k => (x k - m).exp)) := by
  have hread := fun k hk => (hrow k hk).1
  refine ⟨runningMaximum .binary32 x o.columns, runningMaximum_isShift fun k hk => (hrow k hk).2, ?_, ?_⟩
  · exact (softmaxForward_max hread hfits hvar).mono fun t ht => ht.2.2
  · exact softmaxForward_sum hread hfits hvar

/-- A matrix in a buffer. -/
def bufferedMatrix (rows cols : Nat) : Operand := ⟨.buffer "x", .aligned, [rows, cols]⟩

/-- An invocation that sees the buffer. -/
def matrixInvocation (i : UInt32) (data : Array Float32) : Invocation Float32 :=
  ⟨i, .empty, .ofList [("x", data)], .empty⟩

/-- The second row of a matrix is shifted by its maximum. -/
theorem softmaxForward_shift_second_row :
    (∀ k < 2, (bufferedMatrix 2 2).rowElement? .binary32 (matrixInvocation 3 #[5.0, -1.0, 2.0, 7.0]) k =
        some (#[2.0, 7.0].getD k 0.0) ∧ (#[2.0, 7.0].getD k 0.0 : Float32).isFinite = true) ∧
      ∃ m, IsShift (fun k => #[2.0, 7.0].getD k 0.0) 2 m ∧
        Stmt.Ends .binary32 (matrixInvocation 3 #[5.0, -1.0, 2.0, 7.0])
          ((softmaxForward "y" (bufferedMatrix 2 2)).take 3) (fun t =>
            t.locals.find? ("y" ++ "_max") = some (.scalar m)) ∧
        Stmt.Ends .binary32 (matrixInvocation 3 #[5.0, -1.0, 2.0, 7.0])
          ((softmaxForward "y" (bufferedMatrix 2 2)).take 5) fun t =>
            t.locals.find? ("y" ++ "_max") = some (.scalar m) ∧
              t.locals.find? ("y" ++ "_sum") = some (.scalar (Arithmetic.binary32.total 2 fun k =>
                (#[2.0, 7.0].getD k 0.0 - m).exp)) := by
  have hrow : ∀ k < 2, (bufferedMatrix 2 2).rowElement? .binary32
      (matrixInvocation 3 #[5.0, -1.0, 2.0, 7.0]) k = some (#[2.0, 7.0].getD k 0.0) ∧
        (#[2.0, 7.0].getD k 0.0 : Float32).isFinite = true := by decide
  refine ⟨hrow, softmaxForward_shift (o := bufferedMatrix 2 2) hrow ?_ ?_⟩
  · intro name _
    decide
  · intro name h
    cases h

/-- The lowest finite value. -/
def lowest : Float32 := .ofBits 0xff7fffff

/-- A row of lowest values is shifted by the floor, which is none of them, and no shifted element is zero. -/
theorem softmaxForward_lowest_row :
    (∀ k < 2, (bufferedMatrix 1 2).rowElement? .binary32 (matrixInvocation 0 #[lowest, lowest]) k =
        some lowest ∧ lowest.isFinite = true) ∧
      Stmt.Ends .binary32 (matrixInvocation 0 #[lowest, lowest])
        ((softmaxForward "y" (bufferedMatrix 1 2)).take 3) (fun t =>
          t.locals.find? ("y" ++ "_max") = some (.scalar softmaxFloor)) ∧
      softmaxFloor ≠ lowest ∧ lowest - softmaxFloor ≠ 0.0 := by
  have hrow : ∀ k < (bufferedMatrix 1 2).columns,
      (bufferedMatrix 1 2).rowElement? .binary32 (matrixInvocation 0 #[lowest, lowest]) k =
        some lowest ∧ lowest.isFinite = true := by decide
  have hfits : (bufferedMatrix 1 2).RowFits (matrixInvocation 0 #[lowest, lowest]) := by
    intro name _
    decide
  have hvar : ∀ name, (bufferedMatrix 1 2).source = .var name → name ∉ softmaxLocals "y" := by
    intro name h
    cases h
  have hmax : runningMaximum .binary32 (fun _ => lowest) 2 = softmaxFloor := by
    rw [runningMaximum, softmaxFloor_eq]
    decide
  refine ⟨hrow, ?_, ?_, ?_⟩
  · refine (softmaxForward_max (fun k hk => (hrow k hk).1) hfits hvar).mono ?_
    rintro t ⟨-, -, htop⟩
    rw [htop]
    exact congrArg (fun m => some (Value.scalar m)) hmax
  · rw [softmaxFloor_eq]
    decide
  · rw [softmaxFloor_eq]
    decide

end TensorKernels
