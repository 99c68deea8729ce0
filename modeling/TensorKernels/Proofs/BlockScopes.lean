import TensorKernels.Proofs.Evaluation

/-!
# Block scopes

In a shader the declarations of a block disappear at its end, while `Stmt.exec` keeps the locals of an
invocation in one flat map. `Stmt.BlockLexical` says that a block keeps to the rules of the shading
language: a local is used after its declaration in the same or an enclosing block, no declaration
repeats or hides a name, assignments go to variables only, and a local keeps its kind.
`Stmt.execBlockIn` executes a block with one frame of locals per open block. On lexical blocks the two
agree (`Stmt.execBlock_agrees`): what the flat map holds beyond the frames is never looked at. The
relation between the two states is `Invocation.Agrees`, which one statement keeps and, by induction on
the block, a whole execution.
-/

set_option autoImplicit false

namespace TensorKernels

/-! ## The rules of the language -/

/-- How a local was declared. -/
inductive Binder
  /-- By `let`. -/
  | constant
  /-- By `var`. -/
  | variable
  /-- As the variable of a loop. -/
  | counter
  deriving DecidableEq, Repr

/-- A local that is in scope. -/
structure Local where
  name : String
  binder : Binder
  kind : ValueKind
  deriving DecidableEq, Repr

/-- The kind of a name among the locals in scope. -/
def kindIn (scope : List Local) (name : String) : ValueKind :=
  ((scope.find? fun x => x.name = name).map Local.kind).getD .scalar

/-- The expression has the given kind and reads locals that are in scope. -/
def Expr.Fits (scope : List Local) (k : ValueKind) (e : Expr) : Prop :=
  e.vars ⊆ scope.map Local.name ∧ e.kind? (kindIn scope) = some k

/-- The name is neither reserved nor that of a local in scope. -/
def Unused (reserved : List String) (scope : List Local) (name : String) : Prop :=
  name ∉ reserved ∧ name ∉ scope.map Local.name

namespace Stmt

/-- What a statement declares in its own block. -/
def locals (scope : List Local) : Stmt → List Local
  | .letDecl name value => [⟨name, .constant, (value.kind? (kindIn scope)).getD .scalar⟩]
  | .varDecl name value => [⟨name, .variable, (value.kind? (kindIn scope)).getD .scalar⟩]
  | _ => []

mutual

/-- The statement keeps to the rules of scoping where `scope` lists the locals of all open blocks. -/
def Lexical (reserved : List String) (scope : List Local) : Stmt → Prop
  | .letDecl name value => Unused reserved scope name ∧ ∃ k, value.Fits scope k
  | .varDecl name value => Unused reserved scope name ∧ ∃ k, value.Fits scope k
  | .assign name value => ∃ k, ⟨name, .variable, k⟩ ∈ scope ∧ value.Fits scope k
  | .store _ position value => position.Fits scope .word ∧ value.Fits scope .scalar
  | .forLoop var _ body =>
    Unused reserved scope var ∧ BlockLexical reserved (⟨var, .counter, .word⟩ :: scope) body
  | .ifThen cond body => cond.Fits scope .truth ∧ BlockLexical reserved scope body
  | .ret => True

/-- Every statement of a block keeps to the rules of scoping. What a statement declares is in scope up
to the end of the block. -/
def BlockLexical (reserved : List String) (scope : List Local) : List Stmt → Prop
  | [] => True
  | s :: rest => Lexical reserved scope s ∧ BlockLexical reserved (s.locals scope ++ scope) rest

end

/-- The locals of a statement are those that it declares. -/
theorem map_name_locals (scope : List Local) (stmt : Stmt) :
    (stmt.locals scope).map Local.name = stmt.declares := by
  cases stmt <;> rfl

end Stmt

/-! ## Execution with frames -/

variable {α : Type} (ops : Arithmetic α)

/-- What the statements of one invocation see, with a frame of locals for each open block. -/
structure FramedInvocation (α : Type) where
  index : UInt32
  /-- The locals of the open blocks, the innermost block first. -/
  frames : List (Table String (Value α))
  inputs : Buffers α
  outputs : Buffers α

namespace FramedInvocation

/-- The locals of all frames; an inner frame comes before an outer one. -/
def visible (frames : List (Table String (Value α))) : Table String (Value α) :=
  ⟨frames.flatMap Table.entries⟩

/-- What an expression is evaluated in. -/
def view (s : FramedInvocation α) : Invocation α :=
  ⟨s.index, visible s.frames, s.inputs, s.outputs⟩

/-- Opens a block. -/
def enter (s : FramedInvocation α) : FramedInvocation α := { s with frames := .empty :: s.frames }

/-- Closes the innermost block. -/
def leave (s : FramedInvocation α) : FramedInvocation α := { s with frames := s.frames.tail }

/-- Declares a local in the innermost block. -/
def declare (s : FramedInvocation α) (name : String) (v : Value α) : FramedInvocation α :=
  { s with
    frames :=
      match s.frames with
      | [] => [Table.empty.insert name v]
      | f :: fs => f.insert name v :: fs }

/-- The frames with a new value for the innermost local of a name, if there is one. -/
def assignIn (name : String) (v : Value α) :
    List (Table String (Value α)) → Option (List (Table String (Value α)))
  | [] => none
  | f :: fs =>
    if f.contains name then some (f.insert name v :: fs) else (assignIn name v fs).map (f :: ·)

/-- Gives a local a new value, if it is declared in an open block. -/
def assign? (s : FramedInvocation α) (name : String) (v : Value α) : Option (FramedInvocation α) :=
  (assignIn name v s.frames).map fun frames => { s with frames := frames }

/-- Writes an element of an output, if the element exists. -/
def write (s : FramedInvocation α) (buffer : String) (i : Nat) (x : α) : FramedInvocation α :=
  { s with outputs := s.outputs.modify buffer fun data => data.setIfInBounds i x }

end FramedInvocation

/-- How statements end that are executed with frames. -/
inductive FramedOutcome (α : Type)
  | next (s : FramedInvocation α)
  | returned (outputs : Buffers α)
  | failed (fault : Fault) (outputs : Buffers α)

namespace FramedOutcome

/-- Goes on only where the statements ran to their end. -/
def andThen (o : FramedOutcome α) (f : FramedInvocation α → FramedOutcome α) : FramedOutcome α :=
  match o with
  | .next s => f s
  | .returned outputs => .returned outputs
  | .failed fault outputs => .failed fault outputs

/-- Closes the block that was executed. -/
def leave (o : FramedOutcome α) : FramedOutcome α := o.andThen fun s => .next s.leave

end FramedOutcome

/-- Runs the body for each of `count` values of the loop variable from `k` on. The loop variable has a
frame of its own around that of the body. -/
def FramedInvocation.iterate (var : String) (body : FramedInvocation α → FramedOutcome α) :
    Nat → Nat → FramedInvocation α → FramedOutcome α
  | 0, _, s => .next s
  | count + 1, k, s =>
    (body (s.enter.declare var (.word (UInt32.ofNat k))).enter).leave.leave.andThen
      (iterate var body count (k + 1))

mutual

/-- Runs one statement with frames. -/
def Stmt.execIn (s : FramedInvocation α) : Stmt → FramedOutcome α
  | .letDecl name value =>
    match value.eval ops s.view with
    | .ok v => .next (s.declare name v)
    | .error fault => .failed fault s.outputs
  | .varDecl name value =>
    match value.eval ops s.view with
    | .ok v => .next (s.declare name v)
    | .error fault => .failed fault s.outputs
  | .assign name value =>
    match value.eval ops s.view with
    | .ok v =>
      match s.assign? name v with
      | some t => .next t
      | none => .failed (.undeclared name) s.outputs
    | .error fault => .failed fault s.outputs
  | .store buffer position value =>
    match Expr.storeOperands ops s.view position value with
    | .ok (i, x) =>
      if s.outputs.contains buffer then .next (s.write buffer i.toNat x)
      else .failed (.unboundStore buffer) s.outputs
    | .error fault => .failed fault s.outputs
  | .forLoop var count body =>
    FramedInvocation.iterate var (fun s => Stmt.execBlockIn s body) count 0 s
  | .ifThen cond body =>
    match cond.evalCond ops s.view with
    | .ok true => (Stmt.execBlockIn s.enter body).leave
    | .ok false => .next s
    | .error fault => .failed fault s.outputs
  | .ret => .returned s.outputs

/-- Runs statements with frames, from first to last. -/
def Stmt.execBlockIn (s : FramedInvocation α) : List Stmt → FramedOutcome α
  | [] => .next s
  | stmt :: rest => (stmt.execIn s).andThen fun s => Stmt.execBlockIn s rest

end

/-- The start of an execution with frames: one block is open and nothing is declared. -/
def Invocation.framed (s : Invocation α) : FramedInvocation α :=
  ⟨s.index, [.empty], s.inputs, s.outputs⟩

/-! ## What can be told of an execution -/

/-- How statements ended. -/
inductive Ending
  | next
  | returned
  | failed (fault : Fault)
  deriving DecidableEq

/-- How statements ended and what they left in the outputs. -/
def Outcome.observed : Outcome α → Ending × Buffers α
  | .next s => (.next, s.outputs)
  | .returned s => (.returned, s.outputs)
  | .failed fault s => (.failed fault, s.outputs)

/-- How statements ended and what they left in the outputs. -/
def FramedOutcome.observed : FramedOutcome α → Ending × Buffers α
  | .next s => (.next, s.outputs)
  | .returned outputs => (.returned, outputs)
  | .failed fault outputs => (.failed fault, outputs)

/-! ## Agreement -/

/-- A key is looked up in the first list, and then in the second. -/
theorem Table.lookup_append {κ β : Type} [DecidableEq κ] (key : κ) (a b : List (κ × β)) :
    Table.lookup key (a ++ b) = (Table.lookup key a).or (Table.lookup key b) := by
  induction a with
  | nil => rfl
  | cons e a ih =>
    obtain ⟨k, v⟩ := e
    simp only [List.cons_append, Table.lookup, ih]
    split <;> rfl

namespace FramedInvocation

/-- The frames hold the locals of the given scopes, frame by frame. -/
def Holds (frames : List (Table String (Value α))) (scopes : List (List String)) : Prop :=
  List.Forall₂ (fun f names => ∀ name, (f.find? name).isSome ↔ name ∈ names) frames scopes

/-- The innermost frame hides the frames around it. -/
theorem find?_visible_cons (f : Table String (Value α)) (fs : List (Table String (Value α)))
    (name : String) :
    (visible (f :: fs)).find? name = (f.find? name).or ((visible fs).find? name) :=
  Table.lookup_append name f.entries (fs.flatMap Table.entries)

/-- A name is visible exactly if one of the open scopes has it. -/
theorem Holds.isSome_visible {frames : List (Table String (Value α))} {scopes : List (List String)}
    (h : Holds frames scopes) (name : String) :
    ((visible frames).find? name).isSome ↔ name ∈ scopes.flatten := by
  induction h with
  | nil => simp [visible, Table.find?, Table.lookup]
  | cons hf _ ih =>
    rw [find?_visible_cons, Option.isSome_or, Bool.or_eq_true, hf name, ih, List.flatten_cons,
      List.mem_append]

/-- Assigning to a local of an open block changes what is seen under its name, and nothing else. -/
theorem Holds.assignIn {frames : List (Table String (Value α))} {scopes : List (List String)}
    (h : Holds frames scopes) {name : String} (hname : name ∈ scopes.flatten) (v : Value α) :
    ∃ frames', assignIn name v frames = some frames' ∧ Holds frames' scopes ∧
      ∀ x, (visible frames').find? x = if name = x then some v else (visible frames).find? x := by
  induction h with
  | nil => cases hname
  | @cons f names fs scopes hf hfs ih =>
    unfold FramedInvocation.assignIn
    by_cases hc : f.contains name = true
    · rw [if_pos hc]
      refine ⟨_, rfl, .cons ?_ hfs, ?_⟩
      · intro x
        rw [Table.find?_insert, ← hf x]
        by_cases hx : name = x
        · subst hx
          rw [if_pos rfl]
          exact iff_of_true rfl hc
        · rw [if_neg hx]
      · intro x
        rw [find?_visible_cons, find?_visible_cons, Table.find?_insert]
        split
        · rfl
        · rfl
    · rw [if_neg hc]
      have hrest : name ∈ scopes.flatten := by
        rw [List.flatten_cons, List.mem_append, ← hf name] at hname
        exact hname.resolve_left hc
      obtain ⟨fs', hfs', hholds, hvisible⟩ := ih hrest
      rw [hfs']
      refine ⟨_, rfl, .cons hf hholds, ?_⟩
      intro x
      rw [find?_visible_cons, find?_visible_cons, hvisible]
      by_cases hx : name = x
      · subst hx
        have hnone : f.find? name = none := by simpa [Table.contains] using hc
        rw [if_pos rfl, if_pos rfl, hnone]
        rfl
      · rw [if_neg hx, if_neg hx]

end FramedInvocation

/-- The flat invocation shows what the frames show under the names of open blocks. -/
structure Invocation.Agrees (scopes : List (List String)) (s : Invocation α) (t : FramedInvocation α) :
    Prop where
  index : t.index = s.index
  inputs : t.inputs = s.inputs
  outputs : t.outputs = s.outputs
  frames : FramedInvocation.Holds t.frames scopes
  /-- No name is declared in two open blocks. -/
  nodup : scopes.flatten.Nodup
  locals : ∀ name ∈ scopes.flatten,
    (FramedInvocation.visible t.frames).find? name = s.locals.find? name

namespace Invocation.Agrees

variable {s : Invocation α} {t : FramedInvocation α} {scopes : List (List String)}

/-- Both invocations read the same buffers. -/
theorem buffer?_eq (h : s.Agrees scopes t) (b : String) : t.view.buffer? b = s.buffer? b := by
  have hinputs : t.view.inputs = s.inputs := h.inputs
  have houtputs : t.view.outputs = s.outputs := h.outputs
  rw [Invocation.buffer?, Invocation.buffer?, hinputs, houtputs]

/-- Expressions over the locals in scope have the same value in both. -/
theorem eval_eq (h : s.Agrees scopes t) {e : Expr} (hvars : e.vars ⊆ scopes.flatten) :
    e.eval ops t.view = e.eval ops s :=
  e.eval_congr ops h.index (fun name hname => h.locals name (hvars hname)) fun b _ => h.buffer?_eq b

/-- Declaring a new name keeps the agreement, with the name in the innermost scope. -/
theorem declare {names : List String} {rest : List (List String)} (h : s.Agrees (names :: rest) t)
    {name : String} (hname : name ∉ (names :: rest).flatten) (v : Value α) :
    (s.setLocal name v).Agrees ((name :: names) :: rest) (t.declare name v) := by
  obtain ⟨index, frames, inputs, outputs⟩ := t
  cases h.frames with
  | @cons f _ fs _ hf hfs =>
    refine ⟨h.index, h.inputs, h.outputs, .cons ?_ hfs, List.nodup_cons.2 ⟨hname, h.nodup⟩, ?_⟩
    · intro x
      rw [Table.find?_insert, List.mem_cons, ← hf x]
      by_cases hx : name = x
      · simp [hx]
      · rw [if_neg hx]
        exact ⟨.inr, fun hc => hc.resolve_left fun heq => hx heq.symm⟩
    · intro x hx
      show (FramedInvocation.visible (f.insert name v :: fs)).find? x = (s.locals.insert name v).find? x
      rw [FramedInvocation.find?_visible_cons, Table.find?_insert, Table.find?_insert]
      by_cases hnx : name = x
      · rw [if_pos hnx, if_pos hnx]
        rfl
      · rw [if_neg hnx, if_neg hnx, ← FramedInvocation.find?_visible_cons]
        refine h.locals x ?_
        rw [List.flatten_cons, List.cons_append, List.mem_cons] at hx
        exact hx.resolve_left fun heq => hnx heq.symm

/-- Assigning to a name in scope succeeds in the frames, and keeps the agreement. -/
theorem assign (h : s.Agrees scopes t) {name : String} (hname : name ∈ scopes.flatten) (v : Value α) :
    ∃ t', t.assign? name v = some t' ∧ (s.setLocal name v).Agrees scopes t' := by
  obtain ⟨frames, hframes, hholds, hvisible⟩ := h.frames.assignIn hname v
  refine ⟨{ t with frames := frames }, ?_, h.index, h.inputs, h.outputs, hholds, h.nodup, ?_⟩
  · rw [FramedInvocation.assign?, hframes]
    rfl
  · intro x hx
    show (FramedInvocation.visible frames).find? x = (s.locals.insert name v).find? x
    rw [hvisible, Table.find?_insert, h.locals x hx]

/-- Writing an element keeps the agreement. -/
theorem write (h : s.Agrees scopes t) (buffer : String) (i : Nat) (x : α) :
    (s.write buffer i x).Agrees scopes (t.write buffer i x) := by
  refine ⟨h.index, h.inputs, ?_, h.frames, h.nodup, h.locals⟩
  show t.outputs.modify buffer _ = s.outputs.modify buffer _
  rw [h.outputs]

/-- Opening a block keeps the agreement, with an empty innermost scope. -/
theorem enter (h : s.Agrees scopes t) : s.Agrees ([] :: scopes) t.enter := by
  refine ⟨h.index, h.inputs, h.outputs, .cons (by simp) h.frames, h.nodup, ?_⟩
  intro name hname
  show (FramedInvocation.visible (.empty :: t.frames)).find? name = _
  rw [FramedInvocation.find?_visible_cons]
  exact h.locals name hname

/-- Closing a block forgets its names, which no other open block has. -/
theorem leave {names : List String} (h : s.Agrees (names :: scopes) t) : s.Agrees scopes t.leave := by
  obtain ⟨index, frames, inputs, outputs⟩ := t
  cases h.frames with
  | @cons f _ fs _ hf hfs =>
    have hnodup := h.nodup
    rw [List.flatten_cons, List.nodup_append] at hnodup
    refine ⟨h.index, h.inputs, h.outputs, hfs, hnodup.2.1, ?_⟩
    intro name hname
    have hlocal := h.locals name (by rw [List.flatten_cons]; exact List.mem_append_right _ hname)
    have hnone : f.find? name = none := by
      rw [← Option.not_isSome_iff_eq_none, hf name]
      exact fun hmem => hnodup.2.2 name hmem name hname rfl
    rw [FramedInvocation.find?_visible_cons, hnone] at hlocal
    exact hlocal

end Invocation.Agrees

/-- Two executions end alike, and where they go on, in related states. -/
inductive Outcome.EndsLike (P : Invocation α → FramedInvocation α → Prop) :
    Outcome α → FramedOutcome α → Prop
  | next {s : Invocation α} {t : FramedInvocation α} (h : P s t) : EndsLike P (.next s) (.next t)
  | returned {s : Invocation α} {outputs : Buffers α} (h : outputs = s.outputs) :
      EndsLike P (.returned s) (.returned outputs)
  | failed (fault : Fault) {s : Invocation α} {outputs : Buffers α} (h : outputs = s.outputs) :
      EndsLike P (.failed fault s) (.failed fault outputs)

namespace Outcome.EndsLike

variable {P Q : Invocation α → FramedInvocation α → Prop} {o : Outcome α} {o' : FramedOutcome α}

/-- Computations that end alike still do when they go on alike. -/
theorem andThen (h : EndsLike P o o') {f : Invocation α → Outcome α}
    {g : FramedInvocation α → FramedOutcome α} (hfg : ∀ s t, P s t → EndsLike Q (f s) (g t)) :
    EndsLike Q (o.andThen f) (o'.andThen g) := by
  cases h with
  | next h => exact hfg _ _ h
  | returned h => exact .returned h
  | failed fault h => exact .failed fault h

/-- A weaker relation between the final states is implied. -/
theorem mono (h : EndsLike P o o') (hpq : ∀ s t, P s t → Q s t) : EndsLike Q o o' := by
  cases h with
  | next h => exact .next (hpq _ _ h)
  | returned h => exact .returned h
  | failed fault h => exact .failed fault h

/-- Closing a block keeps the endings alike. -/
theorem leave (h : EndsLike P o o') (hpq : ∀ s t, P s t → Q s t.leave) : EndsLike Q o o'.leave := by
  cases h with
  | next h => exact .next (hpq _ _ h)
  | returned h => exact .returned h
  | failed fault h => exact .failed fault h

/-- Computations that end alike show the same outputs and faults. -/
theorem observed_eq (h : EndsLike P o o') (hp : ∀ s t, P s t → t.outputs = s.outputs) :
    o'.observed = o.observed := by
  cases h with
  | next h => exact congrArg (Prod.mk Ending.next) (hp _ _ h)
  | returned h => exact congrArg (Prod.mk Ending.returned) h
  | failed fault h => exact congrArg (Prod.mk (Ending.failed fault)) h

end Outcome.EndsLike

/-- A loop agrees if its body does. -/
theorem Invocation.iterate_agrees {var : String} {scopes : List (List String)}
    (hvar : var ∉ scopes.flatten) {body : Invocation α → Outcome α}
    {body' : FramedInvocation α → FramedOutcome α}
    (hbody : ∀ s t, s.Agrees ([] :: [var] :: scopes) t →
      Outcome.EndsLike (fun s t => ∃ names, s.Agrees (names :: [var] :: scopes) t) (body s) (body' t))
    (count k : Nat) {s : Invocation α} {t : FramedInvocation α} (h : s.Agrees scopes t) :
    Outcome.EndsLike (Invocation.Agrees scopes) (Invocation.iterate var body count k s)
      (FramedInvocation.iterate var body' count k t) := by
  induction count generalizing k s t with
  | zero => exact .next h
  | succ count ih =>
    have hstart := (h.enter.declare hvar (.word (UInt32.ofNat k))).enter
    have hround := hbody _ _ hstart
    refine Outcome.EndsLike.andThen ((hround.leave (Q := fun s t => s.Agrees ([var] :: scopes) t) ?_).leave
      (Q := Invocation.Agrees scopes) ?_) fun s t hst => ih (k + 1) hst
    · rintro s t ⟨names, hst⟩
      exact hst.leave
    · intro s t hst
      exact hst.leave

namespace Stmt

variable {reserved : List String}

mutual

/-- A lexical statement does the same in the flat map and in frames. -/
theorem exec_agrees {s : Invocation α} {t : FramedInvocation α} {scope : List Local}
    {names : List String} {rest : List (List String)} (stmt : Stmt)
    (h : Lexical reserved scope stmt) (hscope : scope.map Local.name = (names :: rest).flatten)
    (hst : s.Agrees (names :: rest) t) :
    Outcome.EndsLike (Invocation.Agrees ((stmt.declares ++ names) :: rest)) (stmt.exec ops s)
      (stmt.execIn ops t) := by
  match stmt with
  | .letDecl name value =>
    obtain ⟨⟨-, hname⟩, k, hvars, -⟩ := h
    rw [hscope] at hname hvars
    rw [exec, execIn, hst.eval_eq ops hvars]
    cases value.eval ops s with
    | ok v => exact .next (hst.declare hname v)
    | error fault => exact .failed fault hst.outputs
  | .varDecl name value =>
    obtain ⟨⟨-, hname⟩, k, hvars, -⟩ := h
    rw [hscope] at hname hvars
    rw [exec, execIn, hst.eval_eq ops hvars]
    cases value.eval ops s with
    | ok v => exact .next (hst.declare hname v)
    | error fault => exact .failed fault hst.outputs
  | .assign name value =>
    obtain ⟨k, hmem, hvars, -⟩ := h
    have hname : name ∈ (names :: rest).flatten := hscope ▸ List.mem_map.2 ⟨_, hmem, rfl⟩
    rw [hscope] at hvars
    rw [exec, execIn, hst.eval_eq ops hvars]
    cases value.eval ops s with
    | ok v =>
      obtain ⟨t', ht', hagrees⟩ := hst.assign hname v
      -- the flat map holds every name of an open block
      have hc : s.locals.contains name = true := by
        rw [Table.contains, ← hst.locals name hname]
        exact (hst.frames.isSome_visible name).2 hname
      simp only [hc, if_true, ht']
      exact .next hagrees
    | error fault => exact .failed fault hst.outputs
  | .store buffer position value =>
    obtain ⟨⟨hposition, -⟩, hvalue, -⟩ := h
    rw [hscope] at hposition hvalue
    have hoperands : Expr.storeOperands ops t.view position value =
        Expr.storeOperands ops s position value := by
      rw [Expr.storeOperands, Expr.storeOperands, hst.eval_eq ops hposition, hst.eval_eq ops hvalue]
    rw [exec, execIn, hoperands, hst.outputs]
    cases Expr.storeOperands ops s position value with
    | ok ix =>
      obtain ⟨i, x⟩ := ix
      by_cases hc : s.outputs.contains buffer = true
      · simp only [hc, if_true]
        exact .next (hst.write buffer i.toNat x)
      · simp only [hc]
        exact .failed _ rfl
    | error fault => exact .failed fault rfl
  | .forLoop var count body =>
    obtain ⟨⟨-, hvar⟩, hbody⟩ := h
    rw [hscope] at hvar
    rw [exec, execIn]
    refine Invocation.iterate_agrees hvar (fun s' t' hst' => ?_) count 0 hst
    exact (execBlock_agrees body hbody (by rw [List.map_cons, hscope]; rfl) hst').mono
      fun s t hst => ⟨_, hst⟩
  | .ifThen cond body =>
    obtain ⟨⟨hvars, -⟩, hbody⟩ := h
    rw [hscope] at hvars
    rw [exec, execIn, Expr.evalCond, Expr.evalCond, hst.eval_eq ops hvars]
    cases (cond.eval ops s >>= fun v => v.toTruth ops) with
    | error fault => exact .failed fault hst.outputs
    | ok c =>
      cases c with
      | false => exact .next hst
      | true =>
        have hscope : scope.map Local.name = ([] :: names :: rest).flatten := hscope
        exact (execBlock_agrees body hbody hscope hst.enter).leave fun s t hst => hst.leave
  | .ret => exact .returned hst.outputs

/-- A lexical block does the same in the flat map and in frames. -/
theorem execBlock_agrees {s : Invocation α} {t : FramedInvocation α} {scope : List Local}
    {names : List String} {rest : List (List String)} (block : List Stmt)
    (h : BlockLexical reserved scope block) (hscope : scope.map Local.name = (names :: rest).flatten)
    (hst : s.Agrees (names :: rest) t) :
    Outcome.EndsLike (Invocation.Agrees ((blockDeclares block ++ names) :: rest))
      (execBlock ops s block) (execBlockIn ops t block) := by
  match block with
  | [] => exact .next hst
  | stmt :: block =>
    rw [execBlock_cons, execBlockIn, blockDeclares, List.append_assoc]
    refine (exec_agrees stmt h.1 hscope hst).andThen fun s' t' hst' => ?_
    refine execBlock_agrees block h.2 ?_ hst'
    rw [List.map_append, map_name_locals, hscope, List.flatten_cons, List.flatten_cons,
      List.append_assoc]

end

end Stmt

/-- A lexical block ends the same way and leaves the same outputs in the flat map and in frames. -/
theorem Stmt.observed_execBlockIn {reserved : List String} {block : List Stmt}
    (h : Stmt.BlockLexical reserved [] block) (s : Invocation α) :
    (Stmt.execBlockIn ops s.framed block).observed = (Stmt.execBlock ops s block).observed := by
  have hstart : s.Agrees [[]] s.framed :=
    ⟨rfl, rfl, rfl, .cons (by simp) .nil, List.nodup_nil, by simp⟩
  exact (Stmt.execBlock_agrees ops block h rfl hstart).observed_eq fun s t hst => hst.outputs

end TensorKernels
