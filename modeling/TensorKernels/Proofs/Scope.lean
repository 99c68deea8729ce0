import TensorKernels.Proofs.Block

/-!
# Scoped and kinded code does not fault

A local has one kind throughout a kernel, given by a function from names to kinds. `Stmt.Scoped` says
that a block uses a local only after its declaration in the same or an enclosing block, that every
expression has the kind its place asks for, and that assignments go to locals that are in scope.
`Stmt.execBlock_scoped` is the result: such a block never stops with a fault when the buffers it
touches are bound, whatever they hold and however long they are, and it keeps the length of every
output. Nothing is assumed about sizes, so word arithmetic may wrap and loads may miss.
-/

set_option autoImplicit false

namespace TensorKernels

variable {α : Type} (ops : Arithmetic α)

/-- The kind of a value. -/
def Value.kind : Value α → ValueKind
  | .scalar _ => .scalar
  | .word _ => .word
  | .truth _ => .truth

/-- The kind of a scalar. -/
@[simp] theorem Value.kind_scalar (x : α) : (Value.scalar x).kind = .scalar := rfl

/-- The kind of a word. -/
@[simp] theorem Value.kind_word (n : UInt32) : (Value.word n : Value α).kind = .word := rfl

/-- The kind of a truth value. -/
@[simp] theorem Value.kind_truth (b : Bool) : (Value.truth b : Value α).kind = .truth := rfl

/-- A value of the kind of scalars is a scalar. -/
theorem Value.exists_scalar {v : Value α} (h : v.kind = .scalar) : ∃ x, v = .scalar x := by
  cases v with
  | scalar x => exact ⟨x, rfl⟩
  | word n => cases h
  | truth b => cases h

/-- A value of the kind of words is a word. -/
theorem Value.exists_word {v : Value α} (h : v.kind = .word) : ∃ n, v = .word n := by
  cases v with
  | scalar x => cases h
  | word n => exact ⟨n, rfl⟩
  | truth b => cases h

/-- A value of the kind of truth values is one. -/
theorem Value.exists_truth {v : Value α} (h : v.kind = .truth) : ∃ b, v = .truth b := by
  cases v with
  | scalar x => cases h
  | word n => cases h
  | truth b => exact ⟨b, rfl⟩

/-- The kind of a function's result on two operands of the given kind. -/
def BinaryFn.resultKind (f : BinaryFn) : ValueKind → Option ValueKind
  | .truth => none
  | k =>
    match f with
    | .lt => some .truth
    | .gt => some .truth
    | .ge => some .truth
    | _ => some k

/-- A function of two values of one kind has a value of its result kind. -/
theorem BinaryFn.apply_kinded (f : BinaryFn) {v w : Value α} {k : ValueKind} (hw : w.kind = v.kind)
    (hf : f.resultKind v.kind = some k) : ∃ u, f.apply ops v w = .ok u ∧ u.kind = k := by
  cases v with
  | scalar x =>
    obtain ⟨y, rfl⟩ := Value.exists_scalar hw
    refine ⟨_, rfl, ?_⟩
    cases f <;> simpa [resultKind, onScalars, Value.kind] using hf
  | word n =>
    obtain ⟨i, rfl⟩ := Value.exists_word hw
    refine ⟨_, rfl, ?_⟩
    cases f <;> simpa [resultKind, onWords, Value.kind] using hf
  | truth b => cases f <;> cases hf

namespace Expr

/-- The kind of an expression, if its parts fit together. -/
def kind? (kinds : String → ValueKind) : Expr → Option ValueKind
  | .float _ => some .scalar
  | .word _ => some .word
  | .index => some .word
  | .var name => some (kinds name)
  | .load _ position => if position.kind? kinds = some .word then some .scalar else none
  | .unary _ x => if x.kind? kinds = some .scalar then some .scalar else none
  | .binary f a b =>
    if a.kind? kinds = b.kind? kinds then (a.kind? kinds).bind f.resultKind else none
  | .select c t e =>
    if c.kind? kinds = some .truth ∧ t.kind? kinds = e.kind? kinds then t.kind? kinds else none
  | .clamp v l h =>
    if v.kind? kinds = some .scalar ∧ l.kind? kinds = some .scalar ∧ h.kind? kinds = some .scalar
    then some .scalar else none

/-- The locals an expression reads. -/
def vars : Expr → List String
  | .float _ => []
  | .word _ => []
  | .index => []
  | .var name => [name]
  | .load _ position => position.vars
  | .unary _ x => x.vars
  | .binary _ a b => a.vars ++ b.vars
  | .select c t e => c.vars ++ t.vars ++ e.vars
  | .clamp v l h => v.vars ++ l.vars ++ h.vars

end Expr

namespace Stmt

/-- The locals that a statement declares in its own block. -/
def declares : Stmt → List String
  | .letDecl name _ => [name]
  | .varDecl name _ => [name]
  | _ => []

mutual

/-- The statement is well kinded and reads only locals of `scope`. -/
def Scoped (kinds : String → ValueKind) (scope : List String) : Stmt → Prop
  | .letDecl name value => value.kind? kinds = some (kinds name) ∧ value.vars ⊆ scope
  | .varDecl name value => value.kind? kinds = some (kinds name) ∧ value.vars ⊆ scope
  | .assign name value =>
    name ∈ scope ∧ value.kind? kinds = some (kinds name) ∧ value.vars ⊆ scope
  | .store _ position value =>
    position.kind? kinds = some .word ∧ value.kind? kinds = some .scalar ∧
      position.vars ⊆ scope ∧ value.vars ⊆ scope
  | .forLoop var _ body => kinds var = .word ∧ BlockScoped kinds (var :: scope) body
  | .ifThen cond body =>
    cond.kind? kinds = some .truth ∧ cond.vars ⊆ scope ∧ BlockScoped kinds scope body
  | .ret => True

/-- Every statement of a block is well kinded and reads only locals of `scope` or declared before it
in the block. -/
def BlockScoped (kinds : String → ValueKind) (scope : List String) : List Stmt → Prop
  | [] => True
  | s :: rest => Scoped kinds scope s ∧ BlockScoped kinds (s.declares ++ scope) rest

end

/-- The locals that a block declares, the last first. -/
def blockDeclares : List Stmt → List String
  | [] => []
  | s :: rest => blockDeclares rest ++ s.declares

variable {kinds : String → ValueKind}

/-- Two blocks are in scope one after the other if the second is in scope after the first. -/
theorem blockScoped_append {scope : List String} {a b : List Stmt} :
    BlockScoped kinds scope (a ++ b) ↔
      BlockScoped kinds scope a ∧ BlockScoped kinds (blockDeclares a ++ scope) b := by
  induction a generalizing scope with
  | nil => simp [BlockScoped, blockDeclares]
  | cons s a ih => simp [BlockScoped, blockDeclares, ih, and_assoc]

/-- Two blocks one after the other declare what both declare, the latest first. -/
theorem blockDeclares_append (a b : List Stmt) :
    blockDeclares (a ++ b) = blockDeclares b ++ blockDeclares a := by
  induction a with
  | nil => simp [blockDeclares]
  | cons s a ih => simp [blockDeclares, ih]

/-- A block declares what one of its statements declares. -/
theorem mem_blockDeclares_of_mem {block : List Stmt} {stmt : Stmt} (hs : stmt ∈ block) {name : String}
    (h : name ∈ stmt.declares) : name ∈ blockDeclares block := by
  induction block with
  | nil => cases hs
  | cons s block ih =>
    rw [blockDeclares, List.mem_append]
    rcases List.mem_cons.1 hs with rfl | hs
    · exact .inr h
    · exact .inl (ih hs)

/-- A concatenation of blocks declares what one of the blocks declares. -/
theorem mem_blockDeclares_flatten {blocks : List (List Stmt)} {block : List Stmt} (hb : block ∈ blocks)
    {name : String} (h : name ∈ blockDeclares block) : name ∈ blockDeclares blocks.flatten := by
  induction blocks with
  | nil => cases hb
  | cons b blocks ih =>
    rw [List.flatten_cons, blockDeclares_append, List.mem_append]
    rcases List.mem_cons.1 hb with rfl | hb
    · exact .inr h
    · exact .inl (ih hb)

mutual

/-- More locals in scope do no harm to a statement. -/
theorem Scoped.mono {scope scope' : List String} (hs : scope ⊆ scope') (stmt : Stmt)
    (h : Scoped kinds scope stmt) : Scoped kinds scope' stmt := by
  match stmt with
  | .letDecl name value => exact ⟨h.1, fun _ hn => hs (h.2 hn)⟩
  | .varDecl name value => exact ⟨h.1, fun _ hn => hs (h.2 hn)⟩
  | .assign name value => exact ⟨hs h.1, h.2.1, fun _ hn => hs (h.2.2 hn)⟩
  | .store buffer position value =>
    exact ⟨h.1, h.2.1, fun _ hn => hs (h.2.2.1 hn), fun _ hn => hs (h.2.2.2 hn)⟩
  | .forLoop var count body =>
    exact ⟨h.1, BlockScoped.mono (List.cons_subset_cons var hs) body h.2⟩
  | .ifThen cond body =>
    exact ⟨h.1, fun _ hn => hs (h.2.1 hn), BlockScoped.mono hs body h.2.2⟩
  | .ret => trivial

/-- More locals in scope do no harm to a block. -/
theorem BlockScoped.mono {scope scope' : List String} (hs : scope ⊆ scope') (block : List Stmt)
    (h : BlockScoped kinds scope block) : BlockScoped kinds scope' block := by
  match block with
  | [] => trivial
  | stmt :: rest =>
    refine ⟨Scoped.mono hs stmt h.1, BlockScoped.mono ?_ rest h.2⟩
    exact List.append_subset.2 ⟨List.subset_append_left _ _,
      fun _ hn => List.mem_append_right _ (hs hn)⟩

end

end Stmt

/-- Every local of the scope has a value of its kind. -/
def Invocation.Kinded (kinds : String → ValueKind) (scope : List String) (s : Invocation α) : Prop :=
  ∀ name ∈ scope, ∃ v, s.locals.find? name = some v ∧ v.kind = kinds name

/-- A well-kinded expression has a value of its kind when its locals do and its buffers are bound. -/
theorem Expr.eval_kinded {kinds : String → ValueKind} {scope : List String} {s : Invocation α}
    (hs : s.Kinded kinds scope) (e : Expr) (hvars : e.vars ⊆ scope)
    (hloads : ∀ b ∈ e.loads, (s.buffer? b).isSome) {k : ValueKind} (hk : e.kind? kinds = some k) :
    ∃ v, e.eval ops s = .ok v ∧ v.kind = k := by
  induction e generalizing k with
  | float x => exact ⟨_, rfl, by simpa [kind?] using hk⟩
  | word n => exact ⟨_, rfl, by simpa [kind?] using hk⟩
  | index => exact ⟨_, rfl, by simpa [kind?] using hk⟩
  | var name =>
    obtain ⟨v, hv, hvk⟩ := hs name (hvars (by simp [vars]))
    refine ⟨v, by simp [eval, hv], ?_⟩
    simpa [kind?, hvk] using hk
  | load buffer position ih =>
    simp only [kind?] at hk
    split at hk
    · next hp =>
      obtain ⟨v, hv, hvk⟩ := ih hvars (fun b hb => hloads b (by simp [loads, hb])) hp
      obtain ⟨n, rfl⟩ := Value.exists_word hvk
      obtain ⟨data, hdata⟩ := Option.isSome_iff_exists.1 (hloads buffer (by simp [loads]))
      exact ⟨.scalar (data.getD n.toNat ops.zero),
        by simp [eval, hv, hdata, bind, Except.bind, Value.toWord], by simpa using hk⟩
    · cases hk
  | unary f x ih =>
    simp only [kind?] at hk
    split at hk
    · next hx =>
      obtain ⟨v, hv, hvk⟩ := ih hvars hloads hx
      obtain ⟨y, rfl⟩ := Value.exists_scalar hvk
      exact ⟨.scalar (f.apply ops y),
        by simp [eval, hv, bind, Except.bind, Value.toScalar], by simpa using hk⟩
    · cases hk
  | binary f a b iha ihb =>
    simp only [vars, List.append_subset] at hvars
    simp only [kind?] at hk
    split at hk
    · next hab =>
      obtain ⟨ka, hka, hf⟩ := Option.bind_eq_some_iff.1 hk
      obtain ⟨v, hv, rfl⟩ := iha hvars.1 (fun b hb => hloads b (by simp [loads, hb])) hka
      obtain ⟨w, hw, hwk⟩ := ihb hvars.2 (fun b hb => hloads b (by simp [loads, hb])) (hab ▸ hka)
      have heval : (Expr.binary f a b).eval ops s = f.apply ops v w := by
        simp [eval, hv, hw, bind, Except.bind]
      rw [heval]
      exact f.apply_kinded ops hwk hf
    · cases hk
  | select c t e ihc iht ihe =>
    simp only [vars, List.append_subset] at hvars
    simp only [kind?] at hk
    split at hk
    · next hcte =>
      obtain ⟨v, hv, hvk⟩ := ihc hvars.1.1 (fun b hb => hloads b (by simp [loads, hb])) hcte.1
      obtain ⟨cond, rfl⟩ := Value.exists_truth hvk
      obtain ⟨vt, hvt, hvtk⟩ := iht hvars.1.2 (fun b hb => hloads b (by simp [loads, hb])) hk
      obtain ⟨ve, hve, hvek⟩ := ihe hvars.2 (fun b hb => hloads b (by simp [loads, hb]))
        (hcte.2 ▸ hk)
      cases cond with
      | true => exact ⟨vt, by simp [eval, hv, hvt, bind, Except.bind, Value.toTruth], hvtk⟩
      | false => exact ⟨ve, by simp [eval, hv, hve, bind, Except.bind, Value.toTruth], hvek⟩
    · cases hk
  | clamp v l h ihv ihl ihh =>
    simp only [vars, List.append_subset] at hvars
    simp only [kind?] at hk
    split at hk
    · next hvlh =>
      obtain ⟨x, hx, hxk⟩ := ihv hvars.1.1 (fun b hb => hloads b (by simp [loads, hb])) hvlh.1
      obtain ⟨y, hy, hyk⟩ := ihl hvars.1.2 (fun b hb => hloads b (by simp [loads, hb])) hvlh.2.1
      obtain ⟨z, hz, hzk⟩ := ihh hvars.2 (fun b hb => hloads b (by simp [loads, hb])) hvlh.2.2
      obtain ⟨x, rfl⟩ := Value.exists_scalar hxk
      obtain ⟨y, rfl⟩ := Value.exists_scalar hyk
      obtain ⟨z, rfl⟩ := Value.exists_scalar hzk
      exact ⟨_, by simp [eval, hx, hy, hz, bind, Except.bind, Value.toScalar]; rfl, by simpa using hk⟩
    · cases hk

namespace Invocation

/-- A later state has the same bound buffers, of the same lengths. -/
structure SameBuffers (s t : Invocation α) : Prop where
  inputs : t.inputs = s.inputs
  outputs : ∀ b, (t.outputs.find? b).map Array.size = (s.outputs.find? b).map Array.size

namespace SameBuffers

/-- An invocation has its own buffers. -/
theorem refl (s : Invocation α) : SameBuffers s s := ⟨rfl, fun _ => rfl⟩

/-- Having the same buffers is transitive. -/
theorem trans {s t u : Invocation α} (h : SameBuffers s t) (h' : SameBuffers t u) :
    SameBuffers s u :=
  ⟨h'.inputs.trans h.inputs, fun b => (h'.outputs b).trans (h.outputs b)⟩

/-- Setting a local keeps the buffers. -/
theorem setLocal (s : Invocation α) (name : String) (v : Value α) :
    SameBuffers s (s.setLocal name v) := ⟨rfl, fun _ => rfl⟩

/-- Writing an element keeps the buffers and their sizes. -/
theorem write (s : Invocation α) (buffer : String) (i : Nat) (x : α) :
    SameBuffers s (s.write buffer i x) where
  inputs := rfl
  outputs b := by
    rw [find?_write]
    split
    · cases s.outputs.find? b <;> simp
    · rfl

/-- Invocations with the same buffers have the same outputs. -/
theorem isSome_outputs {s t : Invocation α} (h : SameBuffers s t) (b : String) :
    (t.outputs.find? b).isSome = (s.outputs.find? b).isSome := by
  have hb := congrArg Option.isSome (h.outputs b)
  simpa using hb

/-- Invocations with the same buffers can read the same buffers. -/
theorem isSome_buffer? {s t : Invocation α} (h : SameBuffers s t) (b : String) :
    (t.buffer? b).isSome = (s.buffer? b).isSome := by
  unfold Invocation.buffer?
  rw [h.inputs]
  cases s.inputs.find? b with
  | some data => rfl
  | none => exact h.isSome_outputs b

end SameBuffers

/-- Setting a local to a value of its kind brings it into scope. -/
theorem Kinded.setLocal {kinds : String → ValueKind} {scope : List String} {s : Invocation α}
    (h : s.Kinded kinds scope) {name : String} {v : Value α} (hv : v.kind = kinds name) :
    (s.setLocal name v).Kinded kinds (name :: scope) := by
  intro other hother
  rw [find?_setLocal]
  by_cases he : name = other
  · subst he
    exact ⟨v, by simp, hv⟩
  · rw [if_neg he]
    rcases List.mem_cons.1 hother with h' | h'
    · exact absurd h'.symm he
    · exact h other h'

/-- What is in scope with its kind is so in every smaller scope. -/
theorem Kinded.mono {kinds : String → ValueKind} {scope scope' : List String} {s : Invocation α}
    (h : s.Kinded kinds scope) (hs : scope' ⊆ scope) : s.Kinded kinds scope' :=
  fun name hn => h name (hs hn)

end Invocation

/-- The outcome is no fault, keeps the bound buffers and, where the statements ran to their end, gives
every local of the scope a value of its kind. -/
def Outcome.Fine (kinds : String → ValueKind) (scope : List String) (s : Invocation α) :
    Outcome α → Prop
  | .next t => t.Kinded kinds scope ∧ s.SameBuffers t
  | .returned t => s.SameBuffers t
  | .failed _ _ => False

/-- A fine outcome is fine for every invocation with the same buffers. -/
theorem Outcome.Fine.trans {kinds : String → ValueKind} {scope : List String}
    {s t : Invocation α} {o : Outcome α} (hst : s.SameBuffers t) (h : o.Fine kinds scope t) :
    o.Fine kinds scope s := by
  cases o with
  | next u => exact ⟨h.1, hst.trans h.2⟩
  | returned u => exact hst.trans h
  | failed fault u => exact h

/-- A fine outcome is fine for every smaller scope. -/
theorem Outcome.Fine.mono {kinds : String → ValueKind} {scope scope' : List String} {s : Invocation α}
    {o : Outcome α} (h : o.Fine kinds scope s) (hs : scope' ⊆ scope) : o.Fine kinds scope' s := by
  cases o with
  | next t => exact ⟨h.1.mono hs, h.2⟩
  | returned t => exact h
  | failed fault t => exact h

/-- A loop is fine when its body is, from every state with the locals of the scope. -/
theorem Invocation.iterate_fine {kinds : String → ValueKind} {scope : List String} {var : String}
    (hvar : kinds var = .word) (body : Invocation α → Outcome α) (s₀ : Invocation α)
    (hbody : ∀ t : Invocation α, t.Kinded kinds (var :: scope) → s₀.SameBuffers t →
      (body t).Fine kinds scope t)
    (count k : Nat) (s : Invocation α) (hs : s.Kinded kinds scope) (hs₀ : s₀.SameBuffers s) :
    (iterate var body count k s).Fine kinds scope s := by
  induction count generalizing k s with
  | zero => exact ⟨hs, SameBuffers.refl s⟩
  | succ count ih =>
    have hset := SameBuffers.setLocal s var (.word (UInt32.ofNat k) : Value α)
    have hround := hbody (s.setLocal var (.word (UInt32.ofNat k)))
      (hs.setLocal (by simp [Value.kind, hvar])) (hs₀.trans hset)
    simp only [iterate]
    cases hb : body (s.setLocal var (.word (UInt32.ofNat k))) with
    | next t =>
      rw [hb] at hround
      have hst := hset.trans hround.2
      exact (ih (k + 1) t hround.1 (hs₀.trans hst)).trans hst
    | returned t =>
      rw [hb] at hround
      exact hset.trans hround
    | failed fault t =>
      rw [hb] at hround
      exact hround.elim

namespace Stmt

mutual

/-- A scoped statement does not fault, and afterwards the locals it declares are in scope as well. -/
theorem exec_scoped {kinds : String → ValueKind} {scope : List String} {s : Invocation α}
    (hs : s.Kinded kinds scope) (stmt : Stmt) (h : stmt.Scoped kinds scope)
    (hloads : ∀ b ∈ stmt.loads, (s.buffer? b).isSome)
    (hstores : ∀ b ∈ stmt.stores, (s.outputs.find? b).isSome) :
    (stmt.exec ops s).Fine kinds (stmt.declares ++ scope) s := by
  match stmt with
  | .letDecl name value =>
    obtain ⟨v, hv, hvk⟩ := value.eval_kinded ops hs h.2 hloads h.1
    simp only [exec, hv]
    exact ⟨hs.setLocal hvk, Invocation.SameBuffers.setLocal s name v⟩
  | .varDecl name value =>
    obtain ⟨v, hv, hvk⟩ := value.eval_kinded ops hs h.2 hloads h.1
    simp only [exec, hv]
    exact ⟨hs.setLocal hvk, Invocation.SameBuffers.setLocal s name v⟩
  | .assign name value =>
    obtain ⟨v, hv, hvk⟩ := value.eval_kinded ops hs h.2.2 hloads h.2.1
    obtain ⟨w, hw, -⟩ := hs name h.1
    have hc : s.locals.contains name = true := by simp [Table.contains, hw]
    simp only [exec, hv, hc, if_true]
    exact ⟨(hs.setLocal hvk).mono (List.subset_cons_self name scope),
      Invocation.SameBuffers.setLocal s name v⟩
  | .store buffer position value =>
    obtain ⟨v, hv, hvk⟩ := position.eval_kinded ops hs h.2.2.1
      (fun b hb => hloads b (by simp [loads, hb])) h.1
    obtain ⟨w, hw, hwk⟩ := value.eval_kinded ops hs h.2.2.2
      (fun b hb => hloads b (by simp [loads, hb])) h.2.1
    obtain ⟨i, rfl⟩ := Value.exists_word hvk
    obtain ⟨x, rfl⟩ := Value.exists_scalar hwk
    have hc : s.outputs.contains buffer = true := by
      simpa [Table.contains] using hstores buffer (by simp [stores])
    have hop : Expr.storeOperands ops s position value = .ok (i, x) := by
      simp [Expr.storeOperands, hv, hw, bind, Except.bind, Value.toWord, Value.toScalar]
    simp only [exec, hop, hc, if_true]
    exact ⟨hs, Invocation.SameBuffers.write s buffer i.toNat x⟩
  | .forLoop var count body =>
    refine Invocation.iterate_fine h.1 _ s (fun t ht hst => ?_) count 0 s hs
      (Invocation.SameBuffers.refl s)
    exact (execBlock_scoped ht body h.2
      (fun b hb => by rw [hst.isSome_buffer?]; exact hloads b hb)
      (fun b hb => by rw [hst.isSome_outputs]; exact hstores b hb)).mono fun _ hn => by simp [hn]
  | .ifThen cond body =>
    obtain ⟨v, hv, hvk⟩ := cond.eval_kinded ops hs h.2.1
      (fun b hb => hloads b (by simp [loads, hb])) h.1
    obtain ⟨c, rfl⟩ := Value.exists_truth hvk
    have he : cond.evalCond ops s = .ok c := by
      simp [Expr.evalCond, hv, bind, Except.bind, Value.toTruth]
    cases c with
    | false =>
      simp only [exec, he]
      exact ⟨hs, Invocation.SameBuffers.refl s⟩
    | true =>
      simp only [exec, he]
      exact (execBlock_scoped hs body h.2.2 (fun b hb => hloads b (by simp [loads, hb])) hstores).mono
        (List.subset_append_right _ _)
  | .ret => exact Invocation.SameBuffers.refl s

/-- A scoped block does not fault, and afterwards the locals it declares are in scope as well. -/
theorem execBlock_scoped {kinds : String → ValueKind} {scope : List String} {s : Invocation α}
    (hs : s.Kinded kinds scope) (block : List Stmt) (h : BlockScoped kinds scope block)
    (hloads : ∀ b ∈ blockLoads block, (s.buffer? b).isSome)
    (hstores : ∀ b ∈ blockStores block, (s.outputs.find? b).isSome) :
    (execBlock ops s block).Fine kinds (blockDeclares block ++ scope) s := by
  match block with
  | [] => exact ⟨hs, Invocation.SameBuffers.refl s⟩
  | stmt :: rest =>
    have hstmt := exec_scoped hs stmt h.1 (fun b hb => hloads b (by simp [blockLoads, hb]))
      (fun b hb => hstores b (by simp [blockStores, hb]))
    rw [execBlock_cons]
    cases hs' : stmt.exec ops s with
    | next t =>
      rw [hs'] at hstmt
      have hrest := execBlock_scoped hstmt.1 rest h.2
        (fun b hb => by rw [hstmt.2.isSome_buffer?]; exact hloads b (by simp [blockLoads, hb]))
        (fun b hb => by rw [hstmt.2.isSome_outputs]; exact hstores b (by simp [blockStores, hb]))
      rw [blockDeclares, List.append_assoc]
      exact hrest.trans hstmt.2
    | returned t => rwa [hs'] at hstmt
    | failed fault t => rwa [hs'] at hstmt

end

end Stmt

/-! ## Rules for generated code -/

/-- The expression has the kind `k`, reads only locals of `scope` and loads only from `buffers`. -/
structure Expr.Typed (kinds : String → ValueKind) (scope buffers : List String) (k : ValueKind)
    (e : Expr) : Prop where
  kind : e.kind? kinds = some k
  vars : e.vars ⊆ scope
  loads : e.loads ⊆ buffers

namespace Expr.Typed

variable {kinds : String → ValueKind} {scope buffers : List String} {a b c : Expr}

/-- A well-typed expression is so in every larger scope. -/
theorem mono {scope' buffers' : List String} {k : ValueKind} {e : Expr}
    (h : e.Typed kinds scope buffers k) (hs : scope ⊆ scope') (hb : buffers ⊆ buffers') :
    e.Typed kinds scope' buffers' k :=
  ⟨h.kind, List.Subset.trans h.vars hs, List.Subset.trans h.loads hb⟩

/-- Literals are scalars. -/
theorem float (x : Float32) : (Expr.float x).Typed kinds scope buffers .scalar :=
  ⟨rfl, by simp [Expr.vars], by simp [Expr.loads]⟩

/-- Counts are words. -/
theorem ofNat (n : Nat) : (Expr.ofNat n).Typed kinds scope buffers .word :=
  ⟨rfl, by simp [Expr.ofNat, Expr.vars], by simp [Expr.ofNat, Expr.loads]⟩

/-- The index is a word. -/
theorem index : Expr.index.Typed kinds scope buffers .word :=
  ⟨rfl, by simp [Expr.vars], by simp [Expr.loads]⟩

/-- Locals in scope have the kinds of their names. -/
theorem var {name : String} {k : ValueKind} (hn : name ∈ scope) (hk : kinds name = k) :
    (Expr.var name).Typed kinds scope buffers k :=
  ⟨by rw [Expr.kind?, hk], by simpa [Expr.vars] using hn, by simp [Expr.loads]⟩

/-- Loads at words are scalars. -/
theorem load {buffer : String} (hb : buffer ∈ buffers) (ha : a.Typed kinds scope buffers .word) :
    (Expr.load buffer a).Typed kinds scope buffers .scalar :=
  ⟨by simp [Expr.kind?, ha.kind], ha.vars, by simpa [Expr.loads] using ⟨hb, ha.loads⟩⟩

/-- Functions of one scalar are scalars. -/
theorem unary (f : UnaryFn) (ha : a.Typed kinds scope buffers .scalar) :
    (Expr.unary f a).Typed kinds scope buffers .scalar :=
  ⟨by simp [Expr.kind?, ha.kind], ha.vars, ha.loads⟩

/-- A function of two operands of one kind. -/
theorem binary {f : BinaryFn} {k k' : ValueKind} (ha : a.Typed kinds scope buffers k)
    (hb : b.Typed kinds scope buffers k) (hf : f.resultKind k = some k') :
    (Expr.binary f a b).Typed kinds scope buffers k' :=
  ⟨by simp [Expr.kind?, ha.kind, hb.kind, hf], List.append_subset.2 ⟨ha.vars, hb.vars⟩,
    List.append_subset.2 ⟨ha.loads, hb.loads⟩⟩

/-- Sums of scalars are scalars, and sums of words are words. -/
theorem add {k : ValueKind} (hk : k ≠ .truth) (ha : a.Typed kinds scope buffers k)
    (hb : b.Typed kinds scope buffers k) : (a + b).Typed kinds scope buffers k :=
  binary ha hb (by cases k <;> first | rfl | exact absurd rfl hk)

/-- Differences of scalars are scalars. -/
theorem sub (ha : a.Typed kinds scope buffers .scalar) (hb : b.Typed kinds scope buffers .scalar) :
    (a - b).Typed kinds scope buffers .scalar := binary ha hb rfl

/-- Products of scalars are scalars, and products of words are words. -/
theorem mul {k : ValueKind} (hk : k ≠ .truth) (ha : a.Typed kinds scope buffers k)
    (hb : b.Typed kinds scope buffers k) : (a * b).Typed kinds scope buffers k :=
  binary ha hb (by cases k <;> first | rfl | exact absurd rfl hk)

/-- Quotients of scalars are scalars, and quotients of words are words. -/
theorem div {k : ValueKind} (hk : k ≠ .truth) (ha : a.Typed kinds scope buffers k)
    (hb : b.Typed kinds scope buffers k) : (a / b).Typed kinds scope buffers k :=
  binary ha hb (by cases k <;> first | rfl | exact absurd rfl hk)

/-- Remainders of words are words. -/
theorem mod (ha : a.Typed kinds scope buffers .word) (hb : b.Typed kinds scope buffers .word) :
    (a % b).Typed kinds scope buffers .word := binary ha hb rfl

/-- Negated scalars are scalars. -/
theorem neg (ha : a.Typed kinds scope buffers .scalar) : (-a).Typed kinds scope buffers .scalar :=
  unary .neg ha

/-- Selections between scalars are scalars. -/
theorem select (hc : c.Typed kinds scope buffers .truth) (ha : a.Typed kinds scope buffers .scalar)
    (hb : b.Typed kinds scope buffers .scalar) :
    (Expr.select c a b).Typed kinds scope buffers .scalar :=
  ⟨by simp [Expr.kind?, ha.kind, hb.kind, hc.kind],
    by simpa [Expr.vars] using ⟨hc.vars, ha.vars, hb.vars⟩,
    by simpa [Expr.loads] using ⟨hc.loads, ha.loads, hb.loads⟩⟩

/-- Clamped scalars are scalars. -/
theorem clamp (ha : a.Typed kinds scope buffers .scalar) (hb : b.Typed kinds scope buffers .scalar)
    (hc : c.Typed kinds scope buffers .scalar) :
    (Expr.clamp a b c).Typed kinds scope buffers .scalar :=
  ⟨by simp [Expr.kind?, ha.kind, hb.kind, hc.kind],
    by simpa [Expr.vars] using ⟨ha.vars, hb.vars, hc.vars⟩,
    by simpa [Expr.loads] using ⟨ha.loads, hb.loads, hc.loads⟩⟩

end Expr.Typed

/-- The block is scoped, loads only from `buffers` and stores only to `outputs`. -/
structure Stmt.BlockTyped (kinds : String → ValueKind) (scope buffers outputs : List String)
    (block : List Stmt) : Prop where
  inScope : BlockScoped kinds scope block
  loads : blockLoads block ⊆ buffers
  stores : blockStores block ⊆ outputs

namespace Stmt.BlockTyped

variable {kinds : String → ValueKind} {scope buffers outputs : List String} {rest : List Stmt}

/-- A well-typed block is so in every larger scope. -/
theorem mono {scope' buffers' outputs' : List String} {block : List Stmt}
    (h : BlockTyped kinds scope buffers outputs block) (hs : scope ⊆ scope')
    (hb : buffers ⊆ buffers') (ho : outputs ⊆ outputs') :
    BlockTyped kinds scope' buffers' outputs' block :=
  ⟨BlockScoped.mono hs block h.inScope, List.Subset.trans h.loads hb, List.Subset.trans h.stores ho⟩

/-- The empty block is well typed. -/
theorem nil : BlockTyped kinds scope buffers outputs [] :=
  ⟨trivial, by simp [blockLoads], by simp [blockStores]⟩

/-- A constant of the kind of its value, in scope for the rest of the block. -/
theorem letDecl {name : String} {value : Expr}
    (hv : value.Typed kinds scope buffers (kinds name))
    (h : BlockTyped kinds (name :: scope) buffers outputs rest) :
    BlockTyped kinds scope buffers outputs (.letDecl name value :: rest) :=
  ⟨⟨⟨hv.kind, hv.vars⟩, h.inScope⟩, List.append_subset.2 ⟨hv.loads, h.loads⟩, h.stores⟩

/-- A variable of the kind of its value, in scope for the rest of the block. -/
theorem varDecl {name : String} {value : Expr}
    (hv : value.Typed kinds scope buffers (kinds name))
    (h : BlockTyped kinds (name :: scope) buffers outputs rest) :
    BlockTyped kinds scope buffers outputs (.varDecl name value :: rest) :=
  ⟨⟨⟨hv.kind, hv.vars⟩, h.inScope⟩, List.append_subset.2 ⟨hv.loads, h.loads⟩, h.stores⟩

/-- An assignment of the kind of its variable. -/
theorem assign {name : String} {value : Expr} (hn : name ∈ scope)
    (hv : value.Typed kinds scope buffers (kinds name))
    (h : BlockTyped kinds scope buffers outputs rest) :
    BlockTyped kinds scope buffers outputs (.assign name value :: rest) :=
  ⟨⟨⟨hn, hv.kind, hv.vars⟩, h.inScope⟩, List.append_subset.2 ⟨hv.loads, h.loads⟩, h.stores⟩

/-- An addition to a variable that holds a scalar. -/
theorem accumulate {name : String} {value : Expr} (hn : name ∈ scope) (hk : kinds name = .scalar)
    (hv : value.Typed kinds scope buffers .scalar)
    (h : BlockTyped kinds scope buffers outputs rest) :
    BlockTyped kinds scope buffers outputs (.accumulate name value :: rest) :=
  assign hn (hk ▸ .add (by decide) (.var hn hk) hv) h

/-- A store of a scalar at a word. -/
theorem store {buffer : String} {position value : Expr} (hb : buffer ∈ outputs)
    (hp : position.Typed kinds scope buffers .word) (hv : value.Typed kinds scope buffers .scalar)
    (h : BlockTyped kinds scope buffers outputs rest) :
    BlockTyped kinds scope buffers outputs (.store buffer position value :: rest) :=
  ⟨⟨⟨hp.kind, hv.kind, hp.vars, hv.vars⟩, h.inScope⟩,
    List.append_subset.2 ⟨List.append_subset.2 ⟨hp.loads, hv.loads⟩, h.loads⟩,
    List.append_subset.2 ⟨by simpa [Stmt.stores] using hb, h.stores⟩⟩

/-- A loop whose body is well typed with the counter in scope. -/
theorem forLoop {var : String} {count : Nat} {body : List Stmt} (hk : kinds var = .word)
    (hbody : BlockTyped kinds (var :: scope) buffers outputs body)
    (h : BlockTyped kinds scope buffers outputs rest) :
    BlockTyped kinds scope buffers outputs (.forLoop var count body :: rest) :=
  ⟨⟨⟨hk, hbody.inScope⟩, h.inScope⟩, List.append_subset.2 ⟨hbody.loads, h.loads⟩,
    List.append_subset.2 ⟨hbody.stores, h.stores⟩⟩

/-- A branch on a truth value, with a well-typed body. -/
theorem ifThen {cond : Expr} {body : List Stmt} (hc : cond.Typed kinds scope buffers .truth)
    (hbody : BlockTyped kinds scope buffers outputs body)
    (h : BlockTyped kinds scope buffers outputs rest) :
    BlockTyped kinds scope buffers outputs (.ifThen cond body :: rest) :=
  ⟨⟨⟨hc.kind, hc.vars, hbody.inScope⟩, h.inScope⟩,
    List.append_subset.2 ⟨List.append_subset.2 ⟨hc.loads, hbody.loads⟩, h.loads⟩,
    List.append_subset.2 ⟨hbody.stores, h.stores⟩⟩

/-- A guard against invocations beyond the size. -/
theorem boundsGuard {size : Nat} (h : BlockTyped kinds scope buffers outputs rest) :
    BlockTyped kinds scope buffers outputs (.boundsGuard size :: rest) := by
  refine ifThen (.binary .index (.ofNat size) rfl) ?_ h
  exact ⟨⟨trivial, trivial⟩, by simp [blockLoads, Stmt.loads], by simp [blockStores, Stmt.stores]⟩

/-- Well-typed blocks one after the other. -/
theorem append {a b : List Stmt} (ha : BlockTyped kinds scope buffers outputs a)
    (hb : BlockTyped kinds (blockDeclares a ++ scope) buffers outputs b) :
    BlockTyped kinds scope buffers outputs (a ++ b) :=
  ⟨blockScoped_append.2 ⟨ha.inScope, hb.inScope⟩,
    by rw [blockLoads_append]; exact List.append_subset.2 ⟨ha.loads, hb.loads⟩,
    by rw [blockStores_append]; exact List.append_subset.2 ⟨ha.stores, hb.stores⟩⟩

/-- Statements that each make do with the locals in scope at the start. -/
theorem of_forall {block : List Stmt}
    (h : ∀ stmt ∈ block, BlockTyped kinds scope buffers outputs [stmt]) :
    BlockTyped kinds scope buffers outputs block := by
  induction block with
  | nil => exact nil
  | cons stmt block ih =>
    refine append (a := [stmt]) (h stmt (by simp)) ((ih fun s hs => h s (by simp [hs])).mono ?_ ?_ ?_)
    · exact List.subset_append_right _ _
    · exact List.Subset.refl _
    · exact List.Subset.refl _

/-- Pieces of code that each make do with the locals in scope at the start. -/
theorem flatten {blocks : List (List Stmt)}
    (h : ∀ block ∈ blocks, BlockTyped kinds scope buffers outputs block) :
    BlockTyped kinds scope buffers outputs blocks.flatten := by
  induction blocks with
  | nil => exact nil
  | cons block blocks ih =>
    rw [List.flatten_cons]
    refine append (h block (by simp)) ((ih fun b hb => h b (by simp [hb])).mono ?_ ?_ ?_)
    · exact List.subset_append_right _ _
    · exact List.Subset.refl _
    · exact List.Subset.refl _

end Stmt.BlockTyped

end TensorKernels
