import TensorKernels.Proofs.Dispatch

/-!
# The stores of an invocation

`Stmt.blockWrites` lists the stores that a block makes, in order, by the same recursion as
`Stmt.execBlock`; what a block leaves in the outputs is what its stores make of them
(`Stmt.execBlock_outputs`). Code that loads inputs only makes the same stores whatever the outputs
hold (`Stmt.execBlock_like`), so that all invocations of a kernel together make the stores of each,
one after the other (`Kernel.Typed.invokeAll_eq`).
-/

set_option autoImplicit false

namespace TensorKernels

/-- One store: the value goes to an element of a buffer. -/
structure Write (α : Type) where
  buffer : String
  position : Nat
  value : α

variable {α : Type} (ops : Arithmetic α)

/-- The stores of what goes on where the statements ran to their end. -/
def Outcome.writesThen (o : Outcome α) (f : Invocation α → List (Write α)) : List (Write α) :=
  match o with
  | .next s => f s
  | .returned _ => []
  | .failed _ _ => []

/-- The stores of `count` rounds of a loop, from the stores of its body. -/
def Invocation.iterateWrites (var : String) (body : Invocation α → Outcome α)
    (writes : Invocation α → List (Write α)) : Nat → Nat → Invocation α → List (Write α)
  | 0, _, _ => []
  | count + 1, k, s =>
    writes (s.setLocal var (.word (UInt32.ofNat k))) ++
      (body (s.setLocal var (.word (UInt32.ofNat k)))).writesThen
        (iterateWrites var body writes count (k + 1))

namespace Stmt

mutual

/-- The stores of a statement. -/
def writes (s : Invocation α) : Stmt → List (Write α)
  | .letDecl _ _ => []
  | .varDecl _ _ => []
  | .assign _ _ => []
  | .store buffer position value =>
    match Expr.storeOperands ops s position value with
    | .ok (i, x) => if s.outputs.contains buffer then [⟨buffer, i.toNat, x⟩] else []
    | .error _ => []
  | .forLoop var count body =>
    Invocation.iterateWrites var (fun s => execBlock ops s body) (fun s => blockWrites s body) count 0 s
  | .ifThen cond body =>
    match cond.evalCond ops s with
    | .ok true => blockWrites s body
    | .ok false => []
    | .error _ => []
  | .ret => []

/-- The stores of a block, first to last. -/
def blockWrites (s : Invocation α) : List Stmt → List (Write α)
  | [] => []
  | stmt :: rest => stmt.writes s ++ (stmt.exec ops s).writesThen fun s => blockWrites s rest

end

end Stmt

/-- The buffers after stores were made one after the other. -/
def Buffers.applyWrites (ws : List (Write α)) (outputs : Buffers α) : Buffers α :=
  ws.foldl (fun o w => o.modify w.buffer fun data => data.setIfInBounds w.position w.value) outputs

/-- No stores change nothing. -/
@[simp] theorem Buffers.applyWrites_nil (outputs : Buffers α) : applyWrites [] outputs = outputs := rfl

/-- Stores one after the other. -/
theorem Buffers.applyWrites_append (ws ws' : List (Write α)) (outputs : Buffers α) :
    applyWrites (ws ++ ws') outputs = applyWrites ws' (applyWrites ws outputs) :=
  List.foldl_append

/-- Stores of a computation and of what follows it. -/
theorem Outcome.outputs_andThen {o : Outcome α} {f : Invocation α → Outcome α}
    {g : Invocation α → List (Write α)} {ws : List (Write α)} {outputs : Buffers α}
    (ho : o.state.outputs = outputs.applyWrites ws)
    (hf : ∀ s, (f s).state.outputs = s.outputs.applyWrites (g s)) :
    (o.andThen f).state.outputs = outputs.applyWrites (ws ++ o.writesThen g) := by
  rw [Buffers.applyWrites_append, ← ho]
  cases o with
  | next s => exact hf s
  | returned s => rfl
  | failed fault s => rfl

/-! ## The outputs after a block -/

/-- The outputs after a loop are those before it with all its stores. -/
theorem Invocation.iterate_outputs (var : String) {body : Invocation α → Outcome α}
    {writes : Invocation α → List (Write α)}
    (hbody : ∀ s, (body s).state.outputs = s.outputs.applyWrites (writes s)) (count k : Nat)
    (s : Invocation α) :
    (iterate var body count k s).state.outputs =
      s.outputs.applyWrites (iterateWrites var body writes count k s) := by
  induction count generalizing k s with
  | zero => rfl
  | succ count ih =>
    exact Outcome.outputs_andThen (hbody (s.setLocal var (.word (UInt32.ofNat k)))) fun t => ih (k + 1) t

namespace Stmt

mutual

/-- The outputs after a statement are those before it with its stores. -/
theorem exec_outputs (s : Invocation α) (stmt : Stmt) :
    (stmt.exec ops s).state.outputs = s.outputs.applyWrites (stmt.writes ops s) := by
  match stmt with
  | .letDecl name value =>
    simp only [exec, writes]
    split <;> rfl
  | .varDecl name value =>
    simp only [exec, writes]
    split <;> rfl
  | .assign name value =>
    simp only [exec, writes]
    split
    · split <;> rfl
    · rfl
  | .store buffer position value =>
    simp only [exec, writes]
    cases Expr.storeOperands ops s position value with
    | ok e =>
      simp only
      split <;> rfl
    | error fault => rfl
  | .forLoop var count body =>
    simp only [exec, writes]
    exact Invocation.iterate_outputs var (fun t => execBlock_outputs t body) count 0 s
  | .ifThen cond body =>
    simp only [exec, writes]
    cases cond.evalCond ops s with
    | ok b =>
      cases b with
      | true => exact execBlock_outputs s body
      | false => rfl
    | error fault => rfl
  | .ret => rfl

/-- A block leaves what its stores make of the outputs. -/
theorem execBlock_outputs (s : Invocation α) (block : List Stmt) :
    (execBlock ops s block).state.outputs = s.outputs.applyWrites (blockWrites ops s block) := by
  match block with
  | [] => rfl
  | stmt :: rest =>
    simp only [execBlock, blockWrites]
    exact Outcome.outputs_andThen (exec_outputs s stmt) fun t => execBlock_outputs t rest

end

/-- The stores of a block: those of its first statement, and of the rest where that runs on. -/
theorem blockWrites_cons (s : Invocation α) (stmt : Stmt) (rest : List Stmt) :
    blockWrites ops s (stmt :: rest) =
      stmt.writes ops s ++ (stmt.exec ops s).writesThen fun s => blockWrites ops s rest := rfl

/-- The stores of two blocks one after the other. -/
theorem blockWrites_append (s : Invocation α) (a b : List Stmt) :
    blockWrites ops s (a ++ b) =
      blockWrites ops s a ++ (execBlock ops s a).writesThen fun s => blockWrites ops s b := by
  induction a generalizing s with
  | nil => rfl
  | cons stmt a ih =>
    rw [List.cons_append, blockWrites_cons, blockWrites_cons, List.append_assoc, execBlock_cons]
    congr 1
    cases stmt.exec ops s with
    | next t => exact ih t
    | returned t => rfl
    | failed fault t => rfl

/-! ## Code without stores -/

mutual

/-- The statement contains no store and no return. -/
def quiet : Stmt → Bool
  | .letDecl _ _ => true
  | .varDecl _ _ => true
  | .assign _ _ => true
  | .store _ _ _ => false
  | .forLoop _ _ body => blockQuiet body
  | .ifThen _ body => blockQuiet body
  | .ret => false

/-- The block contains no store and no return. -/
def blockQuiet : List Stmt → Bool
  | [] => true
  | stmt :: rest => stmt.quiet && blockQuiet rest

end

/-- Two blocks are quiet together if both are. -/
@[simp] theorem blockQuiet_append (a b : List Stmt) :
    blockQuiet (a ++ b) = (blockQuiet a && blockQuiet b) := by
  induction a with
  | nil => rfl
  | cons stmt a ih => rw [List.cons_append, blockQuiet, blockQuiet, ih, Bool.and_assoc]

/-- A concatenation of quiet blocks is quiet. -/
theorem blockQuiet_flatten {blocks : List (List Stmt)} (h : ∀ block ∈ blocks, blockQuiet block = true) :
    blockQuiet blocks.flatten = true := by
  induction blocks with
  | nil => rfl
  | cons block blocks ih =>
    rw [List.flatten_cons, blockQuiet_append, h block List.mem_cons_self,
      ih fun b hb => h b (List.mem_cons_of_mem _ hb)]
    rfl

mutual

/-- A quiet statement has no stores. -/
theorem stores_of_quiet (stmt : Stmt) (h : stmt.quiet = true) : stmt.stores = [] := by
  match stmt with
  | .letDecl name value => rfl
  | .varDecl name value => rfl
  | .assign name value => rfl
  | .store buffer position value => cases h
  | .forLoop var count body => exact blockStores_of_quiet body h
  | .ifThen cond body => exact blockStores_of_quiet body h
  | .ret => cases h

/-- Quiet code names no buffer to store to. -/
theorem blockStores_of_quiet (block : List Stmt) (h : blockQuiet block = true) :
    blockStores block = [] := by
  match block with
  | [] => rfl
  | stmt :: rest =>
    rw [blockQuiet, Bool.and_eq_true] at h
    rw [blockStores, stores_of_quiet stmt h.1, blockStores_of_quiet rest h.2]
    rfl

end

end Stmt

/-- Nothing is stored, and the statements run to their end or to a fault. -/
def Outcome.Quiet (o : Outcome α) (ws : List (Write α)) : Prop := ws = [] ∧ ∀ t, o ≠ .returned t

/-- A quiet computation that goes on quietly is quiet. -/
theorem Outcome.Quiet.andThen {o : Outcome α} {ws : List (Write α)} (h : o.Quiet ws)
    {f : Invocation α → Outcome α} {g : Invocation α → List (Write α)}
    (hf : ∀ s, (f s).Quiet (g s)) : (o.andThen f).Quiet (ws ++ o.writesThen g) := by
  obtain ⟨rfl, hreturn⟩ := h
  cases o with
  | next s => exact hf s
  | returned s => exact absurd rfl (hreturn s)
  | failed fault s => exact ⟨rfl, fun t => by rintro ⟨⟩⟩

namespace Stmt

mutual

/-- A quiet statement stores nothing and does not return. -/
theorem exec_quiet (s : Invocation α) (stmt : Stmt) (h : stmt.quiet = true) :
    (stmt.exec ops s).Quiet (stmt.writes ops s) := by
  match stmt with
  | .letDecl name value =>
    simp only [exec, writes]
    split <;> exact ⟨rfl, fun t => by rintro ⟨⟩⟩
  | .varDecl name value =>
    simp only [exec, writes]
    split <;> exact ⟨rfl, fun t => by rintro ⟨⟩⟩
  | .assign name value =>
    simp only [exec, writes]
    split
    · split <;> exact ⟨rfl, fun t => by rintro ⟨⟩⟩
    · exact ⟨rfl, fun t => by rintro ⟨⟩⟩
  | .store buffer position value => cases h
  | .forLoop var count body =>
    have hbody : ∀ t, (execBlock ops t body).Quiet (blockWrites ops t body) :=
      fun t => execBlock_quiet t body h
    have hrounds : ∀ (n k : Nat) (t : Invocation α),
        (Invocation.iterate var (fun s => execBlock ops s body) n k t).Quiet
          (Invocation.iterateWrites var (fun s => execBlock ops s body)
            (fun s => blockWrites ops s body) n k t) := by
      intro n
      induction n with
      | zero => exact fun _ _ => ⟨rfl, fun t => by rintro ⟨⟩⟩
      | succ n ih => exact fun k t => (hbody _).andThen (ih (k + 1))
    simp only [exec, writes]
    exact hrounds count 0 s
  | .ifThen cond body =>
    simp only [exec, writes]
    cases cond.evalCond ops s with
    | ok b =>
      cases b with
      | true => exact execBlock_quiet s body h
      | false => exact ⟨rfl, fun t => by rintro ⟨⟩⟩
    | error fault => exact ⟨rfl, fun t => by rintro ⟨⟩⟩
  | .ret => cases h

/-- Code without stores and returns makes no stores and does not return. -/
theorem execBlock_quiet (s : Invocation α) (block : List Stmt) (h : blockQuiet block = true) :
    (execBlock ops s block).Quiet (blockWrites ops s block) := by
  match block with
  | [] => exact ⟨rfl, fun t => by rintro ⟨⟩⟩
  | stmt :: rest =>
    rw [blockQuiet, Bool.and_eq_true] at h
    simp only [execBlock, blockWrites]
    exact (exec_quiet s stmt h.1).andThen fun t => execBlock_quiet t rest h.2

end

/-- Code that runs after quiet code makes all the stores. -/
theorem blockWrites_quiet_append {s : Invocation α} {code rest : List Stmt}
    (hquiet : blockQuiet code = true) (hfault : (execBlock ops s (code ++ rest)).fault? = none) :
    ∃ t, execBlock ops s code = .next t ∧ t.index = s.index ∧
      blockWrites ops s (code ++ rest) = blockWrites ops t rest ∧
      execBlock ops s (code ++ rest) = execBlock ops t rest := by
  obtain ⟨hwrites, hreturn⟩ := execBlock_quiet ops s code hquiet
  have hframe := execBlock_frame ops s code
  rw [blockWrites_append, execBlock_append, hwrites]
  rw [execBlock_append] at hfault
  cases hcode : execBlock ops s code with
  | next t =>
    rw [hcode] at hframe
    exact ⟨t, rfl, hframe.index, rfl, rfl⟩
  | returned t => exact absurd hcode (hreturn t)
  | failed fault t =>
    rw [hcode] at hfault
    cases hfault

end Stmt

/-! ## Outputs that differ -/

/-- The invocations differ at most in what the bound outputs hold. -/
structure Invocation.Like (s t : Invocation α) : Prop where
  index : t.index = s.index
  locals : t.locals = s.locals
  inputs : t.inputs = s.inputs
  bound : ∀ b, t.outputs.contains b = s.outputs.contains b

/-- The outcomes are of the same kind, in states that differ at most in what the outputs hold. -/
def Outcome.Like : Outcome α → Outcome α → Prop
  | .next s, .next t => s.Like t
  | .returned s, .returned t => s.Like t
  | .failed fault s, .failed fault' t => fault' = fault ∧ s.Like t
  | _, _ => False

namespace Invocation

variable {s t : Invocation α}

/-- Setting a local keeps two invocations alike. -/
theorem Like.setLocal (h : s.Like t) (name : String) (v : Value α) :
    (s.setLocal name v).Like (t.setLocal name v) where
  index := h.index
  locals := by
    show t.locals.insert name v = s.locals.insert name v
    rw [h.locals]
  inputs := h.inputs
  bound := h.bound

/-- Writing an element keeps two invocations alike. -/
theorem Like.write (h : s.Like t) (buffer : String) (i : Nat) (x : α) :
    (s.write buffer i x).Like (t.write buffer i x) where
  index := h.index
  locals := h.locals
  inputs := h.inputs
  bound b := by
    show ((t.outputs.modify buffer _).find? b).isSome = ((s.outputs.modify buffer _).find? b).isSome
    have hb := h.bound b
    unfold Table.contains at hb
    rw [Table.find?_modify, Table.find?_modify]
    split
    · rw [Option.isSome_map, Option.isSome_map, hb]
    · exact hb

/-- Alike invocations agree on expressions that read inputs only. -/
theorem Like.eval_eq (h : s.Like t) {e : Expr} (hloads : ∀ b ∈ e.loads, (s.inputs.find? b).isSome) :
    e.eval ops t = e.eval ops s := by
  refine e.eval_congr ops h.index (fun name _ => by rw [h.locals]) fun b hb => ?_
  obtain ⟨data, hdata⟩ := Option.isSome_iff_exists.1 (hloads b hb)
  rw [Invocation.buffer?_eq_of_input hdata, Invocation.buffer?_eq_of_input (h.inputs ▸ hdata)]

end Invocation

/-- Both runs went the same way and made the same stores. -/
def Outcome.Matches (a b : Outcome α × List (Write α)) : Prop := a.1.Like b.1 ∧ b.2 = a.2

/-- Runs that went the same way still do when both go on. -/
theorem Outcome.Matches.andThen {o o' : Outcome α} {ws ws' : List (Write α)}
    (h : Matches (o, ws) (o', ws')) {f : Invocation α → Outcome α}
    {g : Invocation α → List (Write α)}
    (hf : ∀ s t, o = .next s → s.Like t → Matches (f s, g s) (f t, g t)) :
    Matches (o.andThen f, ws ++ o.writesThen g) (o'.andThen f, ws' ++ o'.writesThen g) := by
  obtain ⟨hlike, rfl⟩ := h
  match o, o', hlike with
  | .next s, .next t, hlike =>
    obtain ⟨hlike', hws⟩ := hf s t rfl hlike
    refine ⟨hlike', ?_⟩
    show _ ++ g t = _ ++ g s
    rw [show g t = g s from hws]
  | .returned s, .returned t, hlike => exact ⟨hlike, rfl⟩
  | .failed fault s, .failed fault' t, hlike => exact ⟨hlike, rfl⟩

/-- Loops of alike bodies go the same way and make the same stores. -/
theorem Invocation.iterate_like (var : String) {body : Invocation α → Outcome α}
    {writes : Invocation α → List (Write α)} {inputs : Buffers α}
    (hkept : ∀ s, (body s).state.inputs = s.inputs)
    (hbody : ∀ s t, s.inputs = inputs → s.Like t →
      Outcome.Matches (body s, writes s) (body t, writes t)) (count k : Nat)
    {s t : Invocation α} (hs : s.inputs = inputs) (h : s.Like t) :
    Outcome.Matches (iterate var body count k s, iterateWrites var body writes count k s)
      (iterate var body count k t, iterateWrites var body writes count k t) := by
  induction count generalizing k s t with
  | zero => exact ⟨h, rfl⟩
  | succ count ih =>
    refine (hbody (s.setLocal var (.word (UInt32.ofNat k))) _ hs (h.setLocal var _)).andThen ?_
    intro u v hu huv
    refine ih (k + 1) ?_ huv
    have hinputs := hkept (s.setLocal var (.word (UInt32.ofNat k)))
    rw [hu] at hinputs
    exact hinputs.trans hs

namespace Stmt

mutual

/-- On alike invocations a statement goes the same way and makes the same stores. -/
theorem exec_like {s t : Invocation α} (h : s.Like t) (stmt : Stmt)
    (hloads : ∀ b ∈ stmt.loads, (s.inputs.find? b).isSome) :
    Outcome.Matches (stmt.exec ops s, stmt.writes ops s) (stmt.exec ops t, stmt.writes ops t) := by
  match stmt with
  | .letDecl name value =>
    simp only [exec, writes, h.eval_eq ops hloads]
    cases value.eval ops s with
    | ok v => exact ⟨h.setLocal name v, rfl⟩
    | error fault => exact ⟨⟨rfl, h⟩, rfl⟩
  | .varDecl name value =>
    simp only [exec, writes, h.eval_eq ops hloads]
    cases value.eval ops s with
    | ok v => exact ⟨h.setLocal name v, rfl⟩
    | error fault => exact ⟨⟨rfl, h⟩, rfl⟩
  | .assign name value =>
    simp only [exec, writes, h.eval_eq ops hloads, h.locals]
    cases value.eval ops s with
    | ok v =>
      simp only
      split
      · exact ⟨h.setLocal name v, rfl⟩
      · exact ⟨⟨rfl, h⟩, rfl⟩
    | error fault => exact ⟨⟨rfl, h⟩, rfl⟩
  | .store buffer position value =>
    have hoperands : Expr.storeOperands ops t position value = Expr.storeOperands ops s position value := by
      unfold Expr.storeOperands
      rw [h.eval_eq ops fun b hb => hloads b (List.mem_append_left _ hb),
        h.eval_eq ops fun b hb => hloads b (List.mem_append_right _ hb)]
    simp only [exec, writes, hoperands, h.bound]
    cases Expr.storeOperands ops s position value with
    | ok e =>
      simp only
      split
      · exact ⟨h.write buffer _ _, rfl⟩
      · exact ⟨⟨rfl, h⟩, rfl⟩
    | error fault => exact ⟨⟨rfl, h⟩, rfl⟩
  | .forLoop var count body =>
    simp only [exec, writes]
    refine Invocation.iterate_like var (fun u => (execBlock_frame ops u body).inputs) ?_ count 0 rfl h
    intro u v hu huv
    refine execBlock_like huv body ?_
    rw [hu]
    exact hloads
  | .ifThen cond body =>
    have hcond : cond.evalCond ops t = cond.evalCond ops s := by
      unfold Expr.evalCond
      rw [h.eval_eq ops fun b hb => hloads b (List.mem_append_left _ hb)]
    simp only [exec, writes, hcond]
    cases cond.evalCond ops s with
    | ok b =>
      cases b with
      | true => exact execBlock_like h body fun b hb => hloads b (List.mem_append_right _ hb)
      | false => exact ⟨h, rfl⟩
    | error fault => exact ⟨⟨rfl, h⟩, rfl⟩
  | .ret => exact ⟨h, rfl⟩

/-- Code that loads inputs only goes the same way and makes the same stores whatever the outputs
hold. -/
theorem execBlock_like {s t : Invocation α} (h : s.Like t) (block : List Stmt)
    (hloads : ∀ b ∈ blockLoads block, (s.inputs.find? b).isSome) :
    Outcome.Matches (execBlock ops s block, blockWrites ops s block)
      (execBlock ops t block, blockWrites ops t block) := by
  match block with
  | [] => exact ⟨h, rfl⟩
  | stmt :: rest =>
    simp only [execBlock, blockWrites]
    refine (exec_like h stmt fun b hb => hloads b (List.mem_append_left _ hb)).andThen ?_
    intro u v hu huv
    refine execBlock_like huv rest fun b hb => ?_
    have hinputs := (exec_frame ops s stmt).inputs
    rw [hu] at hinputs
    rw [show u.inputs = s.inputs from hinputs]
    exact hloads b (List.mem_append_right _ hb)

end

end Stmt

/-! ## The buffers of stores -/

/-- What is stored after a computation is stored in some state. -/
theorem Outcome.of_mem_writesThen {o : Outcome α} {f : Invocation α → List (Write α)} {w : Write α}
    (h : w ∈ o.writesThen f) : ∃ s, w ∈ f s := by
  cases o with
  | next s => exact ⟨s, h⟩
  | returned s => cases h
  | failed fault s => cases h

/-- What a loop stores, its body stores in some state. -/
theorem Invocation.of_mem_iterateWrites {var : String} {body : Invocation α → Outcome α}
    {writes : Invocation α → List (Write α)} {w : Write α} {count k : Nat} {s : Invocation α}
    (h : w ∈ iterateWrites var body writes count k s) : ∃ t, w ∈ writes t := by
  induction count generalizing k s with
  | zero => cases h
  | succ count ih =>
    rcases List.mem_append.1 h with h | h
    · exact ⟨_, h⟩
    · obtain ⟨t, ht⟩ := Outcome.of_mem_writesThen h
      exact ih ht

namespace Stmt

mutual

/-- A statement stores only to the buffers that it names. -/
theorem buffer_mem_stores {w : Write α} {s : Invocation α} (stmt : Stmt) (h : w ∈ stmt.writes ops s) :
    w.buffer ∈ stmt.stores := by
  match stmt with
  | .store buffer position value =>
    simp only [writes] at h
    cases hoperands : Expr.storeOperands ops s position value with
    | ok e =>
      rw [hoperands] at h
      simp only at h
      split at h
      · rw [List.mem_singleton.1 h]
        exact List.mem_singleton_self _
      · cases h
    | error fault =>
      rw [hoperands] at h
      cases h
  | .forLoop var count body =>
    simp only [writes] at h
    obtain ⟨t, ht⟩ := Invocation.of_mem_iterateWrites h
    exact buffer_mem_blockStores body ht
  | .ifThen cond body =>
    simp only [writes] at h
    split at h
    · exact buffer_mem_blockStores body h
    · cases h
    · cases h
  | .letDecl _ _ | .varDecl _ _ | .assign _ _ | .ret => simp [writes] at h

/-- A store names a buffer that the block writes. -/
theorem buffer_mem_blockStores {w : Write α} {s : Invocation α} (block : List Stmt)
    (h : w ∈ blockWrites ops s block) : w.buffer ∈ blockStores block := by
  match block with
  | [] => simp [blockWrites] at h
  | stmt :: rest =>
    simp only [blockWrites] at h
    rcases List.mem_append.1 h with h | h
    · exact List.mem_append_left _ (buffer_mem_stores stmt h)
    · obtain ⟨t, ht⟩ := Outcome.of_mem_writesThen h
      exact List.mem_append_right _ (buffer_mem_blockStores rest ht)

end

end Stmt

/-! ## One buffer after stores -/

namespace Write

/-- The data with the value of a store. -/
def setIn (data : Array α) (w : Write α) : Array α := data.setIfInBounds w.position w.value

/-- The value of the last store to an element. -/
def lastAt (ws : List (Write α)) (j : Nat) : Option α :=
  (ws.reverse.find? fun w => w.position = j).map Write.value

/-- Stores keep the size of a buffer. -/
theorem size_foldl_setIn (ws : List (Write α)) (data : Array α) :
    (ws.foldl setIn data).size = data.size := by
  induction ws generalizing data with
  | nil => rfl
  | cons w ws ih =>
    rw [List.foldl_cons, ih]
    exact Array.size_setIfInBounds

/-- An element has the value of the last store to it, or what it had. -/
theorem getElem?_foldl_setIn (ws : List (Write α)) {data : Array α} {j : Nat} (hj : j < data.size) :
    (ws.foldl setIn data)[j]? = (lastAt ws j).or data[j]? := by
  induction ws generalizing data with
  | nil => rfl
  | cons w ws ih =>
    have hsize : j < (setIn data w).size := by
      rw [setIn, Array.size_setIfInBounds]
      exact hj
    rw [List.foldl_cons, ih hsize, lastAt, lastAt, List.reverse_cons, List.find?_append]
    cases List.find? (fun w => decide (w.position = j)) ws.reverse with
    | some v => rfl
    | none =>
      by_cases hw : w.position = j
      · subst hw
        simp [setIn, hj]
      · simp [setIn, hw]

/-- No store goes to a place exactly if it is not among their positions. -/
theorem lastAt_eq_none {ws : List (Write α)} {j : Nat} :
    lastAt ws j = none ↔ j ∉ ws.map Write.position := by
  simp [lastAt, List.find?_eq_none]

/-- With one store at most to each element, the order of the stores does not matter. -/
theorem lastAt_eq_some_iff {ws : List (Write α)} (hnodup : (ws.map position).Nodup) {j : Nat} {x : α} :
    lastAt ws j = some x ↔ ∃ w ∈ ws, w.position = j ∧ w.value = x := by
  constructor
  · intro h
    obtain ⟨w, hw, rfl⟩ := Option.map_eq_some_iff.1 h
    exact ⟨w, List.mem_reverse.1 (List.mem_of_find?_eq_some hw),
      by simpa using List.find?_some hw, rfl⟩
  · rintro ⟨w, hw, rfl, rfl⟩
    cases hlast : lastAt ws w.position with
    | none => exact absurd (List.mem_map_of_mem hw) (lastAt_eq_none.1 hlast)
    | some y =>
      obtain ⟨v, hv, rfl⟩ := Option.map_eq_some_iff.1 hlast
      have hposition : v.position = w.position := by simpa using List.find?_some hv
      rw [List.inj_on_of_nodup_map hnodup (List.mem_reverse.1 (List.mem_of_find?_eq_some hv)) hw
        hposition]

/-- Stores that fill an array, each element once, leave the same array in any order and whatever was
there. -/
theorem foldl_setIn_eq_of_perm {ws ws' : List (Write α)} (hperm : ws.Perm ws') {n : Nat}
    (honce : (ws.map position).Perm (List.range n)) {data data' : Array α} (hsize : data.size = n)
    (hsize' : data'.size = n) : ws.foldl setIn data = ws'.foldl setIn data' := by
  have hnodup : (ws.map position).Nodup := honce.nodup_iff.2 List.nodup_range
  have hnodup' : (ws'.map position).Nodup := (hperm.map position).nodup_iff.1 hnodup
  have hlast : ∀ j, lastAt ws j = lastAt ws' j := by
    intro j
    ext x
    rw [lastAt_eq_some_iff hnodup, lastAt_eq_some_iff hnodup']
    simp only [hperm.mem_iff]
  refine Array.ext_getElem? fun j => ?_
  by_cases hj : j < n
  · rw [getElem?_foldl_setIn ws (hsize ▸ hj), getElem?_foldl_setIn ws' (hsize' ▸ hj), ← hlast]
    cases hvalue : lastAt ws j with
    | some x => rfl
    | none => exact absurd (honce.mem_iff.2 (List.mem_range.2 hj)) (lastAt_eq_none.1 hvalue)
  · rw [Array.getElem?_eq_none (by rw [size_foldl_setIn]; omega),
      Array.getElem?_eq_none (by rw [size_foldl_setIn]; omega)]

end Write

/-- Looking a buffer up after stores: those that name it were made one after the other. -/
theorem Buffers.find?_applyWrites (ws : List (Write α)) (outputs : Buffers α) (name : String) :
    (outputs.applyWrites ws).find? name =
      (outputs.find? name).map fun data => (ws.filter fun w => w.buffer = name).foldl Write.setIn data := by
  induction ws generalizing outputs with
  | nil => simp
  | cons w ws ih =>
    show (Buffers.applyWrites ws (outputs.modify w.buffer fun data => w.setIn data)).find? name = _
    rw [ih, Table.find?_modify]
    by_cases hw : w.buffer = name
    · rw [if_pos hw, Option.map_map, List.filter_cons_of_pos (by simpa using hw)]
      rfl
    · rw [if_neg hw, List.filter_cons_of_neg (by simpa using hw)]

/-- Stores keep the names of buffers. -/
theorem Buffers.contains_applyWrites (ws : List (Write α)) (outputs : Buffers α) (name : String) :
    (outputs.applyWrites ws).contains name = outputs.contains name := by
  unfold Table.contains
  rw [find?_applyWrites, Option.isSome_map]

/-- Buffers that fit bindings have no other names. -/
theorem Buffers.For.find?_eq_none {bindings : Bindings} {bs : Buffers α} (h : bs.For bindings)
    {name : String} (hname : name ∉ bindings.names) : bs.find? name = none :=
  Option.eq_none_iff_forall_ne_some.2 fun data hdata => hname (h.only name data hdata)

/-- Buffers that fit bindings have all their names. -/
theorem Buffers.For.isSome_find? {bindings : Bindings} {bs : Buffers α} (h : bs.For bindings)
    (name : String) (hname : name ∈ bindings.names) : (bs.find? name).isSome := by
  obtain ⟨b, hb, rfl⟩ := List.mem_map.1 hname
  obtain ⟨data, hdata, -⟩ := h.found b hb
  exact Option.isSome_of_eq_some hdata

/-- Buffers that fit the same bindings have the same names. -/
theorem Buffers.For.contains_eq {bindings : Bindings} {bs bs' : Buffers α} (h : bs.For bindings)
    (h' : bs'.For bindings) (name : String) : bs.contains name = bs'.contains name := by
  unfold Table.contains
  by_cases hname : name ∈ bindings.names
  · rw [h.isSome_find? name hname, h'.isSome_find? name hname]
  · rw [h.find?_eq_none hname, h'.find?_eq_none hname]

/-! ## All invocations -/

namespace Kernel

/-- The stores of the invocation at an index. -/
def writes (k : Kernel) (inputs outputs : Buffers α) (i : Nat) : List (Write α) :=
  Stmt.blockWrites ops ⟨UInt32.ofNat i, .empty, inputs, outputs⟩ k.body

/-- The body is scoped and touches the bindings of the kernel only. -/
def Typed (k : Kernel) : Prop :=
  ∃ kinds, Stmt.BlockTyped kinds [] k.inputs.names k.outputs.names k.body

variable {k : Kernel} {inputs : Buffers α}

/-- With all bindings bound, no invocation stops with a fault. -/
theorem Typed.fault?_eq_none (h : k.Typed) (hinputs : ∀ b ∈ k.inputs.names, (inputs.find? b).isSome)
    {outputs : Buffers α} (houtputs : ∀ b ∈ k.outputs.names, (outputs.find? b).isSome) (i : Nat) :
    (invoke ops k.body inputs outputs i).fault? = none := by
  obtain ⟨kinds, hbody⟩ := h
  have hkinded : Invocation.Kinded kinds [] ⟨UInt32.ofNat i, .empty, inputs, outputs⟩ := by
    intro name hname
    cases hname
  have hfine := Stmt.execBlock_scoped ops hkinded k.body hbody.inScope
    (by
      intro b hb
      obtain ⟨data, hdata⟩ := Option.isSome_iff_exists.1 (hinputs b (hbody.loads hb))
      simp [Invocation.buffer?, hdata])
    (fun b hb => houtputs b (hbody.stores hb))
  unfold invoke
  cases ho : Stmt.execBlock ops ⟨UInt32.ofNat i, .empty, inputs, outputs⟩ k.body with
  | next s => rfl
  | returned s => rfl
  | failed fault s =>
    rw [ho] at hfine
    exact hfine.elim

/-- The stores of an invocation do not depend on what the outputs hold. -/
theorem Typed.writes_eq (h : k.Typed) (hinputs : ∀ b ∈ k.inputs.names, (inputs.find? b).isSome)
    {outputs outputs' : Buffers α} (hbound : ∀ b, outputs'.contains b = outputs.contains b) (i : Nat) :
    k.writes ops inputs outputs' i = k.writes ops inputs outputs i := by
  obtain ⟨kinds, hbody⟩ := h
  have hlike : Invocation.Like ⟨UInt32.ofNat i, .empty, inputs, outputs⟩
      ⟨UInt32.ofNat i, .empty, inputs, outputs'⟩ := ⟨rfl, rfl, rfl, hbound⟩
  exact (Stmt.execBlock_like ops hlike k.body fun b hb => hinputs b (hbody.loads hb)).2

/-- The outputs of an invocation are what its stores make of them. -/
theorem outputs_invoke (k : Kernel) (inputs outputs : Buffers α) (i : Nat) :
    (invoke ops k.body inputs outputs i).state.outputs =
      outputs.applyWrites (k.writes ops inputs outputs i) :=
  Stmt.execBlock_outputs ops ⟨UInt32.ofNat i, .empty, inputs, outputs⟩ k.body

/-- Invocations in any order make the stores of each, one after the other. -/
theorem Typed.invokeAll_eq (h : k.Typed) (hinputs : ∀ b ∈ k.inputs.names, (inputs.find? b).isSome)
    {outputs₀ : Buffers α} (houtputs : ∀ b ∈ k.outputs.names, outputs₀.contains b) (indices : List Nat)
    {outputs : Buffers α} (hbound : ∀ b, outputs.contains b = outputs₀.contains b) :
    invokeAll ops k.body inputs indices outputs =
      (none, outputs.applyWrites (indices.flatMap (k.writes ops inputs outputs₀))) := by
  induction indices generalizing outputs with
  | nil => rfl
  | cons i indices ih =>
    have hfault : (invoke ops k.body inputs outputs i).fault? = none :=
      h.fault?_eq_none ops hinputs (fun b hb => (hbound b).trans (houtputs b hb)) i
    have hstate := outputs_invoke ops k inputs outputs i
    rw [h.writes_eq ops hinputs hbound] at hstate
    have hrun : invokeAll ops k.body inputs (i :: indices) outputs =
        invokeAll ops k.body inputs indices (invoke ops k.body inputs outputs i).state.outputs := by
      rw [invokeAll]
      cases ho : invoke ops k.body inputs outputs i with
      | next s => rfl
      | returned s => rfl
      | failed fault s =>
        rw [ho] at hfault
        cases hfault
    rw [hrun, hstate, ih fun b => (Buffers.contains_applyWrites _ _ b).trans (hbound b), List.flatMap_cons,
      Buffers.applyWrites_append]

end Kernel

end TensorKernels
