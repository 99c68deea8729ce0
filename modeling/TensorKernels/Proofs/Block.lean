import TensorKernels.Kernel.Exec

/-!
# Laws of execution

What every proof about kernel code uses: a block runs as the sequence of its parts
(`Stmt.execBlock_append`), a loop is reasoned about through an invariant indexed by the loop counter
(`Invocation.iterate_invariant`), and a block leaves alone every local it does not set and every
buffer it does not store to (`Stmt.execBlock_frame`). `Stmt.Ends` says that a block runs to its end
in a state with a given property; its rules run code forward, one statement at a time.
-/

set_option autoImplicit false

namespace TensorKernels

variable {α : Type} (ops : Arithmetic α)

/-- The keys of a table, the oldest first. -/
def Table.keys {κ β : Type} (t : Table κ β) : List κ := t.entries.map Prod.fst

/-- Changing a value keeps the keys. -/
theorem Table.keys_modify {κ β : Type} [DecidableEq κ] (t : Table κ β) (key : κ) (f : β → β) :
    (t.modify key f).keys = t.keys := by
  obtain ⟨l⟩ := t
  induction l with
  | nil => rfl
  | cons e l ih =>
    obtain ⟨k, v⟩ := e
    simp only [modify, keys] at ih ⊢
    unfold adjust
    split
    · rfl
    · rw [List.map_cons, List.map_cons, ih]

namespace Stmt

mutual

/-- The locals that a statement can set, loop variables included. -/
def sets : Stmt → List String
  | .letDecl name _ => [name]
  | .varDecl name _ => [name]
  | .assign name _ => [name]
  | .store _ _ _ => []
  | .forLoop var _ body => var :: blockSets body
  | .ifThen _ body => blockSets body
  | .ret => []

/-- The locals that a block can set. -/
def blockSets : List Stmt → List String
  | [] => []
  | s :: rest => s.sets ++ blockSets rest

end

/-- Two blocks one after the other set what either of them sets. -/
@[simp] theorem blockSets_append (a b : List Stmt) :
    blockSets (a ++ b) = blockSets a ++ blockSets b := by
  induction a with
  | nil => rfl
  | cons s a ih => simp [blockSets, ih]

/-- What a concatenation of blocks sets, one of the blocks sets. -/
theorem exists_of_mem_blockSets_flatMap {β : Type} {f : β → List Stmt} {l : List β} {name : String}
    (h : name ∈ blockSets (l.flatMap f)) : ∃ x ∈ l, name ∈ blockSets (f x) := by
  induction l with
  | nil => cases h
  | cons y l ih =>
    rw [List.flatMap_cons, blockSets_append, List.mem_append] at h
    rcases h with h | h
    · exact ⟨y, List.mem_cons_self, h⟩
    · obtain ⟨x, hx, hname⟩ := ih h
      exact ⟨x, List.mem_cons_of_mem _ hx, hname⟩

/-- Two blocks one after the other load what either of them loads. -/
@[simp] theorem blockLoads_append (a b : List Stmt) :
    blockLoads (a ++ b) = blockLoads a ++ blockLoads b := by
  induction a with
  | nil => rfl
  | cons s a ih => simp [blockLoads, ih]

/-- A concatenation of blocks loads what one of the blocks loads. -/
theorem mem_blockLoads_flatMap {β : Type} {f : β → List Stmt} {l : List β} {x : β} (hx : x ∈ l)
    {name : String} (h : name ∈ blockLoads (f x)) : name ∈ blockLoads (l.flatMap f) := by
  induction l with
  | nil => cases hx
  | cons y l ih =>
    rw [List.flatMap_cons, blockLoads_append, List.mem_append]
    rcases List.mem_cons.1 hx with rfl | hx
    · exact .inl h
    · exact .inr (ih hx)

/-- Two blocks one after the other store what either of them stores. -/
@[simp] theorem blockStores_append (a b : List Stmt) :
    blockStores (a ++ b) = blockStores a ++ blockStores b := by
  induction a with
  | nil => rfl
  | cons s a ih => simp [blockStores, ih]

/-- A block stores what one of its statements stores. -/
theorem mem_blockStores_of_mem {block : List Stmt} {stmt : Stmt} (hs : stmt ∈ block) {name : String}
    (h : name ∈ stmt.stores) : name ∈ blockStores block := by
  induction block with
  | nil => cases hs
  | cons s block ih =>
    rw [blockStores, List.mem_append]
    rcases List.mem_cons.1 hs with rfl | hs
    · exact .inl h
    · exact .inr (ih hs)

/-- A concatenation of blocks without stores has no stores. -/
theorem blockStores_flatMap_eq_nil {β : Type} {f : β → List Stmt} {l : List β}
    (h : ∀ x ∈ l, blockStores (f x) = []) : blockStores (l.flatMap f) = [] := by
  induction l with
  | nil => rfl
  | cons y l ih =>
    rw [List.flatMap_cons, blockStores_append, h y (by simp), ih fun x hx => h x (by simp [hx])]
    rfl

end Stmt

namespace Outcome

/-- Continuing twice is continuing with both continuations in turn. -/
theorem andThen_assoc (o : Outcome α) (f g : Invocation α → Outcome α) :
    (o.andThen f).andThen g = o.andThen fun s => (f s).andThen g := by
  cases o <;> rfl

end Outcome

namespace Invocation

/-- Setting a local keeps the index. -/
@[simp] theorem setLocal_index (s : Invocation α) (name : String) (v : Value α) :
    (s.setLocal name v).index = s.index := rfl

/-- Setting a local keeps the inputs. -/
@[simp] theorem setLocal_inputs (s : Invocation α) (name : String) (v : Value α) :
    (s.setLocal name v).inputs = s.inputs := rfl

/-- Setting a local keeps the outputs. -/
@[simp] theorem setLocal_outputs (s : Invocation α) (name : String) (v : Value α) :
    (s.setLocal name v).outputs = s.outputs := rfl

/-- A local that was set is found again, and no other local has changed. -/
@[simp] theorem find?_setLocal (s : Invocation α) (name other : String) (v : Value α) :
    (s.setLocal name v).locals.find? other =
      if name = other then some v else s.locals.find? other :=
  Table.find?_insert s.locals name other v

/-- Setting a local keeps what is read from buffers. -/
@[simp] theorem buffer?_setLocal (s : Invocation α) (name buffer : String) (v : Value α) :
    (s.setLocal name v).buffer? buffer = s.buffer? buffer := rfl

/-- Writing an element keeps the index. -/
@[simp] theorem write_index (s : Invocation α) (buffer : String) (i : Nat) (x : α) :
    (s.write buffer i x).index = s.index := rfl

/-- Writing an element keeps the locals. -/
@[simp] theorem write_locals (s : Invocation α) (buffer : String) (i : Nat) (x : α) :
    (s.write buffer i x).locals = s.locals := rfl

/-- Writing an element keeps the inputs. -/
@[simp] theorem write_inputs (s : Invocation α) (buffer : String) (i : Nat) (x : α) :
    (s.write buffer i x).inputs = s.inputs := rfl

/-- Writing an element changes one output at one place. -/
@[simp] theorem find?_write (s : Invocation α) (buffer other : String) (i : Nat) (x : α) :
    (s.write buffer i x).outputs.find? other =
      if buffer = other then (s.outputs.find? other).map fun data => data.setIfInBounds i x
      else s.outputs.find? other :=
  Table.find?_modify s.outputs buffer other _

/-- An input is read before any output of the same name. -/
theorem buffer?_eq_of_input {s : Invocation α} {name : String} {data : Array α}
    (h : s.inputs.find? name = some data) : s.buffer? name = some data := by
  simp [buffer?, h]

/-- A loop keeps an invariant that is indexed by the loop counter: it holds at the start, one round
takes it from a counter to the next, and then it holds after the last round. -/
theorem iterate_invariant {P : Nat → Invocation α → Prop} (var : String)
    (body : Invocation α → Outcome α) (count k : Nat) (s : Invocation α) (start : P k s)
    (step : ∀ j t, k ≤ j → j < k + count → P j t →
      ∃ t', body (t.setLocal var (.word (UInt32.ofNat j))) = .next t' ∧ P (j + 1) t') :
    ∃ t, iterate var body count k s = .next t ∧ P (k + count) t := by
  induction count generalizing k s with
  | zero => exact ⟨s, rfl, start⟩
  | succ count ih =>
    obtain ⟨t, ht, hP⟩ := step k s (Nat.le_refl k) (by omega) start
    obtain ⟨t', ht', hP'⟩ := ih (k + 1) t hP fun j u hj hlt hu =>
      step j u (by omega) (by omega) hu
    refine ⟨t', ?_, by rwa [show k + (count + 1) = k + 1 + count by omega]⟩
    simp [iterate, ht, ht']

/-- `t` differs from `s` at most in the given locals and output buffers. -/
structure Frame (sets stores : List String) (s t : Invocation α) : Prop where
  index : t.index = s.index
  inputs : t.inputs = s.inputs
  locals : ∀ name, name ∉ sets → t.locals.find? name = s.locals.find? name
  outputs : ∀ buffer, buffer ∉ stores → t.outputs.find? buffer = s.outputs.find? buffer
  keys : t.outputs.keys = s.outputs.keys

namespace Frame

/-- Nothing changed. -/
theorem refl (sets stores : List String) (s : Invocation α) : Frame sets stores s s :=
  ⟨rfl, rfl, fun _ _ => rfl, fun _ _ => rfl, rfl⟩

/-- Changes one after the other change at most what both may change. -/
theorem trans {sets stores sets' stores' : List String} {s t u : Invocation α}
    (h : Frame sets stores s t) (h' : Frame sets' stores' t u) :
    Frame (sets ++ sets') (stores ++ stores') s u where
  index := h'.index.trans h.index
  inputs := h'.inputs.trans h.inputs
  locals name hn := by
    rw [List.mem_append, not_or] at hn
    exact (h'.locals name hn.2).trans (h.locals name hn.1)
  outputs buffer hb := by
    rw [List.mem_append, not_or] at hb
    exact (h'.outputs buffer hb.2).trans (h.outputs buffer hb.1)
  keys := h'.keys.trans h.keys

/-- A frame may be given more locals and buffers than it needs. -/
theorem mono {sets stores sets' stores' : List String} {s t : Invocation α}
    (h : Frame sets stores s t) (hs : sets ⊆ sets') (hb : stores ⊆ stores') :
    Frame sets' stores' s t :=
  ⟨h.index, h.inputs, fun name hn => h.locals name fun hm => hn (hs hm),
    fun buffer hn => h.outputs buffer fun hm => hn (hb hm), h.keys⟩

/-- Setting a local changes only that local. -/
theorem setLocal (s : Invocation α) (name : String) (v : Value α) :
    Frame [name] [] s (s.setLocal name v) where
  index := rfl
  inputs := rfl
  locals other h := by
    rw [find?_setLocal, if_neg]
    exact fun he => h (by simp [he])
  outputs _ _ := rfl
  keys := rfl

/-- Writing to a buffer changes only that buffer. -/
theorem write (s : Invocation α) (buffer : String) (i : Nat) (x : α) :
    Frame [] [buffer] s (s.write buffer i x) where
  index := rfl
  inputs := rfl
  locals _ _ := rfl
  outputs other h := by
    rw [find?_write, if_neg]
    exact fun he => h (by simp [he])
  keys := Table.keys_modify s.outputs buffer _

/-- Without stores the outputs are looked up as before. -/
theorem find?_outputs {sets : List String} {s t : Invocation α} (h : Frame sets [] s t)
    (buffer : String) : t.outputs.find? buffer = s.outputs.find? buffer :=
  h.outputs buffer (by simp)

/-- Without stores every load finds the same buffer. -/
theorem buffer?_eq {sets : List String} {s t : Invocation α} (h : Frame sets [] s t)
    (buffer : String) : t.buffer? buffer = s.buffer? buffer := by
  simp [Invocation.buffer?, h.inputs, h.find?_outputs]

end Frame

/-- A loop changes its variable and what its body changes. -/
theorem iterate_frame {sets stores : List String} (var : String)
    (body : Invocation α → Outcome α) (hbody : ∀ s, Frame sets stores s (body s).state)
    (count k : Nat) (s : Invocation α) :
    Frame (var :: sets) stores s (iterate var body count k s).state := by
  induction count generalizing k s with
  | zero => exact Frame.refl _ _ s
  | succ count ih =>
    have hset := Frame.setLocal s var (.word (UInt32.ofNat k))
    have hround := hset.trans (hbody (s.setLocal var (.word (UInt32.ofNat k))))
    simp only [iterate]
    cases hb : body (s.setLocal var (.word (UInt32.ofNat k))) with
    | next t =>
      rw [hb] at hround
      refine (hround.trans (ih (k + 1) t)).mono ?_ ?_
      · intro name hn
        grind
      · intro buffer hn
        simpa using hn
    | returned t => simpa [hb, Outcome.state] using hround
    | failed fault t => simpa [hb, Outcome.state] using hround

end Invocation

namespace Stmt

/-- The empty block does nothing. -/
@[simp] theorem execBlock_nil (s : Invocation α) : execBlock ops s [] = .next s := rfl

/-- A block runs its first statement, and then the rest. -/
theorem execBlock_cons (s : Invocation α) (stmt : Stmt) (rest : List Stmt) :
    execBlock ops s (stmt :: rest) = (stmt.exec ops s).andThen fun s => execBlock ops s rest := rfl

/-- A block runs its first part and then, if that ran to its end, its second part. -/
theorem execBlock_append (s : Invocation α) (a b : List Stmt) :
    execBlock ops s (a ++ b) = (execBlock ops s a).andThen fun s => execBlock ops s b := by
  induction a generalizing s with
  | nil => rfl
  | cons stmt a ih => simp [execBlock_cons, Outcome.andThen_assoc, ih]

/-- The block that is a single statement. -/
theorem execBlock_singleton (s : Invocation α) (stmt : Stmt) :
    execBlock ops s [stmt] = stmt.exec ops s := by
  rw [execBlock_cons]
  cases stmt.exec ops s <;> rfl

mutual

/-- A statement changes at most the locals it sets and the buffers it stores to. -/
theorem exec_frame (s : Invocation α) (stmt : Stmt) :
    Invocation.Frame stmt.sets stmt.stores s (stmt.exec ops s).state := by
  match stmt with
  | .letDecl name value =>
    simp only [exec]
    split
    · exact Invocation.Frame.setLocal s name _
    · exact Invocation.Frame.refl _ _ s
  | .varDecl name value =>
    simp only [exec]
    split
    · exact Invocation.Frame.setLocal s name _
    · exact Invocation.Frame.refl _ _ s
  | .assign name value =>
    simp only [exec]
    split
    · split
      · exact Invocation.Frame.setLocal s name _
      · exact Invocation.Frame.refl _ _ s
    · exact Invocation.Frame.refl _ _ s
  | .store buffer position value =>
    simp only [exec]
    split
    · split
      · exact Invocation.Frame.write s buffer _ _
      · exact Invocation.Frame.refl _ _ s
    · exact Invocation.Frame.refl _ _ s
  | .forLoop var count body =>
    exact Invocation.iterate_frame var _ (fun t => execBlock_frame t body) count 0 s
  | .ifThen cond body =>
    simp only [exec]
    split
    · exact execBlock_frame s body
    · exact Invocation.Frame.refl _ _ s
    · exact Invocation.Frame.refl _ _ s
  | .ret => exact Invocation.Frame.refl _ _ s

/-- A block changes at most the locals it sets and the buffers it stores to. -/
theorem execBlock_frame (s : Invocation α) (block : List Stmt) :
    Invocation.Frame (blockSets block) (blockStores block) s (execBlock ops s block).state := by
  match block with
  | [] => exact Invocation.Frame.refl _ _ s
  | stmt :: rest =>
    have hstmt := exec_frame s stmt
    rw [execBlock_cons]
    cases hs : stmt.exec ops s with
    | next t =>
      rw [hs] at hstmt
      exact hstmt.trans (execBlock_frame t rest)
    | returned t =>
      rw [hs] at hstmt
      exact hstmt.mono (by simp [blockSets]) (by simp [blockStores])
    | failed fault t =>
      rw [hs] at hstmt
      exact hstmt.mono (by simp [blockSets]) (by simp [blockStores])

end

/-- The block runs to its end, in a state that satisfies `Q`. -/
def Ends (s : Invocation α) (block : List Stmt) (Q : Invocation α → Prop) : Prop :=
  ∃ t, execBlock ops s block = .next t ∧ Q t

namespace Ends

variable {ops} {s : Invocation α} {rest : List Stmt} {Q : Invocation α → Prop}

/-- The empty block ends where it starts. -/
theorem nil (h : Q s) : Ends ops s [] Q := ⟨s, rfl, h⟩

/-- A weaker property holds at the end as well. -/
theorem mono {block : List Stmt} {P : Invocation α → Prop} (h : Ends ops s block P)
    (hPQ : ∀ t, P t → Q t) : Ends ops s block Q := by
  obtain ⟨t, ht, hP⟩ := h
  exact ⟨t, ht, hPQ t hP⟩

/-- What the frame of a block leaves alone is known at its end. -/
theorem withFrame {block : List Stmt} {P : Invocation α → Prop} (h : Ends ops s block P)
    (hPQ : ∀ t, Invocation.Frame (blockSets block) (blockStores block) s t → P t → Q t) :
    Ends ops s block Q := by
  obtain ⟨t, ht, hP⟩ := h
  have hframe := execBlock_frame ops s block
  rw [ht] at hframe
  exact ⟨t, ht, hPQ t hframe hP⟩

/-- Blocks in sequence. -/
theorem append {a b : List Stmt} (h : Ends ops s a fun t => Ends ops t b Q) :
    Ends ops s (a ++ b) Q := by
  obtain ⟨t, ht, u, hu, hQ⟩ := h
  refine ⟨u, ?_, hQ⟩
  rw [execBlock_append, ht, Outcome.andThen_next, hu]

/-- A statement, then the rest. -/
theorem cons {stmt : Stmt} (h : Ends ops s [stmt] fun t => Ends ops t rest Q) :
    Ends ops s (stmt :: rest) Q := append h

/-- An immutable local. -/
theorem letDecl {name : String} {value : Expr} {v : Value α} (hv : value.eval ops s = .ok v)
    (h : Ends ops (s.setLocal name v) rest Q) : Ends ops s (.letDecl name value :: rest) Q := by
  obtain ⟨t, ht, hQ⟩ := h
  refine ⟨t, ?_, hQ⟩
  rw [execBlock_cons, exec, hv, Outcome.andThen_next, ht]

/-- A mutable local. -/
theorem varDecl {name : String} {value : Expr} {v : Value α} (hv : value.eval ops s = .ok v)
    (h : Ends ops (s.setLocal name v) rest Q) : Ends ops s (.varDecl name value :: rest) Q := by
  obtain ⟨t, ht, hQ⟩ := h
  refine ⟨t, ?_, hQ⟩
  rw [execBlock_cons, exec, hv, Outcome.andThen_next, ht]

/-- An assignment to a declared local. -/
theorem assign {name : String} {value : Expr} {v w : Value α}
    (hn : s.locals.find? name = some w) (hv : value.eval ops s = .ok v)
    (h : Ends ops (s.setLocal name v) rest Q) : Ends ops s (.assign name value :: rest) Q := by
  obtain ⟨t, ht, hQ⟩ := h
  refine ⟨t, ?_, hQ⟩
  have hc : s.locals.contains name = true := by simp [Table.contains, hn]
  rw [execBlock_cons, exec, hv]
  simp only [hc, if_true, Outcome.andThen_next, ht]

/-- Adding to a scalar local. -/
theorem accumulate {name : String} {value : Expr} {x y : α}
    (hn : s.locals.find? name = some (.scalar x)) (hv : value.eval ops s = .ok (.scalar y))
    (h : Ends ops (s.setLocal name (.scalar (ops.add x y))) rest Q) :
    Ends ops s (.accumulate name value :: rest) Q := by
  refine assign hn ?_ h
  simp [Expr.eval, hn, hv, bind, Except.bind, BinaryFn.apply, BinaryFn.onScalars]

/-- A store to a bound output. -/
theorem store {buffer : String} {position value : Expr} {i : UInt32} {x : α} {data : Array α}
    (hb : s.outputs.find? buffer = some data) (hi : position.eval ops s = .ok (.word i))
    (hx : value.eval ops s = .ok (.scalar x))
    (h : Ends ops (s.write buffer i.toNat x) rest Q) :
    Ends ops s (.store buffer position value :: rest) Q := by
  obtain ⟨t, ht, hQ⟩ := h
  refine ⟨t, ?_, hQ⟩
  have hc : s.outputs.contains buffer = true := by simp [Table.contains, hb]
  have hop : Expr.storeOperands ops s position value = .ok (i, x) := by
    simp [Expr.storeOperands, hi, hx, bind, Except.bind, Value.toWord, Value.toScalar]
  rw [execBlock_cons, exec, hop]
  simp only [hc, if_true, Outcome.andThen_next, ht]

/-- A loop, through an invariant indexed by its counter. -/
theorem forLoop {var : String} {count : Nat} {body : List Stmt}
    (P : Nat → Invocation α → Prop) (start : P 0 s)
    (step : ∀ k t, k < count → P k t →
      Ends ops (t.setLocal var (.word (UInt32.ofNat k))) body (P (k + 1)))
    (h : ∀ t, P count t → Ends ops t rest Q) : Ends ops s (.forLoop var count body :: rest) Q := by
  obtain ⟨t, ht, hP⟩ := Invocation.iterate_invariant var (fun t => execBlock ops t body) count 0 s
    start fun k u _ hk hu => step k u (by omega) hu
  rw [Nat.zero_add] at hP
  obtain ⟨u, hu, hQ⟩ := h t hP
  refine ⟨u, ?_, hQ⟩
  rw [execBlock_cons, exec, ht, Outcome.andThen_next, hu]

/-- A conditional whose condition holds. -/
theorem ifTrue {cond : Expr} {body : List Stmt} (hc : cond.eval ops s = .ok (.truth true))
    (h : Ends ops s body fun t => Ends ops t rest Q) : Ends ops s (.ifThen cond body :: rest) Q := by
  obtain ⟨t, ht, u, hu, hQ⟩ := h
  refine ⟨u, ?_, hQ⟩
  have he : cond.evalCond ops s = .ok true := by
    simp [Expr.evalCond, hc, bind, Except.bind, Value.toTruth]
  rw [execBlock_cons, exec, he]
  simp only [ht, Outcome.andThen_next, hu]

/-- A conditional whose condition does not hold. -/
theorem ifFalse {cond : Expr} {body : List Stmt} (hc : cond.eval ops s = .ok (.truth false))
    (h : Ends ops s rest Q) : Ends ops s (.ifThen cond body :: rest) Q := by
  obtain ⟨t, ht, hQ⟩ := h
  refine ⟨t, ?_, hQ⟩
  have he : cond.evalCond ops s = .ok false := by
    simp [Expr.evalCond, hc, bind, Except.bind, Value.toTruth]
  rw [execBlock_cons, exec, he]
  simp only [Outcome.andThen_next, ht]

end Ends

end Stmt

end TensorKernels
