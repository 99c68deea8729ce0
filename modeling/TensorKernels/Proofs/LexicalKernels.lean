import Mathlib.Data.List.TakeWhile
import TensorKernels.Proofs.BlockScopes
import TensorKernels.Proofs.Building
import TensorKernels.Proofs.Refinement
import TensorKernels.Proofs.RegularGradients

/-!
# Kernel bodies keep to block scopes

That generated code uses its locals in scope and with their kinds is known from the proofs that it does
not fault. What is left for the rules of scoping is that no declaration meets a name that is visible,
and that assignments go to variables: `Stmt.BlockTidy`. It is proved emitter by emitter, from how their
names are put together, and gives `Stmt.BlockLexical` for every kernel of a compiled plan.
-/

set_option autoImplicit false

namespace TensorKernels

namespace Stmt

/-! ## Tidy blocks -/

/-- The variables that a statement declares in its own block. -/
def mutables : Stmt → List String
  | .varDecl name _ => [name]
  | _ => []

mutual

/-- The declarations in the statement are of names that are not visible, and assignments go to
variables. -/
def Tidy (names vars : List String) : Stmt → Prop
  | .letDecl name _ => name ∉ names
  | .varDecl name _ => name ∉ names
  | .assign name _ => name ∈ vars
  | .store _ _ _ => True
  | .forLoop var _ body => var ∉ names ∧ BlockTidy (var :: names) vars body
  | .ifThen _ body => BlockTidy names vars body
  | .ret => True

/-- Every statement of a block is tidy. -/
def BlockTidy (names vars : List String) : List Stmt → Prop
  | [] => True
  | s :: rest => Tidy names vars s ∧ BlockTidy (s.declares ++ names) (s.mutables ++ vars) rest

end

/-- The variables that a block declares, the last first. -/
def blockMutables : List Stmt → List String
  | [] => []
  | s :: rest => blockMutables rest ++ s.mutables

/-- Two blocks one after the other declare the variables of both, the latest first. -/
theorem blockMutables_append (a b : List Stmt) :
    blockMutables (a ++ b) = blockMutables b ++ blockMutables a := by
  induction a with
  | nil => simp [blockMutables]
  | cons s a ih => simp [blockMutables, ih]

namespace BlockTidy

variable {names vars : List String}

/-- A tidy block may be followed by a block that is tidy after its declarations. -/
theorem append {a b : List Stmt} (ha : BlockTidy names vars a)
    (hb : BlockTidy (blockDeclares a ++ names) (blockMutables a ++ vars) b) :
    BlockTidy names vars (a ++ b) := by
  induction a generalizing names vars with
  | nil => exact hb
  | cons s a ih =>
    refine ⟨ha.1, ih ha.2 ?_⟩
    rw [blockDeclares, blockMutables, List.append_assoc, List.append_assoc] at hb
    exact hb

/-- Statements that declare nothing. -/
theorem of_forall {block : List Stmt} (h : ∀ stmt ∈ block, stmt.declares = [] ∧ Tidy names vars stmt) :
    BlockTidy names vars block := by
  induction block with
  | nil => trivial
  | cons s block ih =>
    obtain ⟨hnone, hs⟩ := h s List.mem_cons_self
    refine ⟨hs, ?_⟩
    have hmutables : s.mutables = [] := by
      cases s <;> simp_all [declares, mutables]
    rw [hnone, hmutables]
    exact ih fun stmt hstmt => h stmt (List.mem_cons_of_mem _ hstmt)

end BlockTidy

end Stmt

/-! ## From tidy to lexical -/

/-- The kind of an expression depends on the kinds of the locals it reads. -/
theorem Expr.kind?_congr {kinds kinds' : String → ValueKind} (e : Expr)
    (h : ∀ name ∈ e.vars, kinds name = kinds' name) : e.kind? kinds = e.kind? kinds' := by
  induction e with
  | float x => rfl
  | word n => rfl
  | index => rfl
  | var name => exact congrArg some (h name (by simp [vars]))
  | load buffer position ih => simp only [kind?, ih h]
  | unary f x ih => simp only [kind?, ih h]
  | binary f a b iha ihb =>
    simp only [vars, List.mem_append] at h
    simp only [kind?, iha fun n hn => h n (.inl hn), ihb fun n hn => h n (.inr hn)]
  | select c x y ihc ihx ihy =>
    simp only [vars, List.mem_append] at h
    simp only [kind?, ihc fun n hn => h n (.inl (.inl hn)), ihx fun n hn => h n (.inl (.inr hn)),
      ihy fun n hn => h n (.inr hn)]
  | clamp v l u ihv ihl ihu =>
    simp only [vars, List.mem_append] at h
    simp only [kind?, ihv fun n hn => h n (.inl (.inl hn)), ihl fun n hn => h n (.inl (.inr hn)),
      ihu fun n hn => h n (.inr hn)]

/-- The kinds of the locals in scope are those that the names tell. -/
def Named (kinds : String → ValueKind) (scope : List Local) : Prop :=
  ∀ x ∈ scope, x.kind = kinds x.name

/-- In a scope whose locals have the kinds of their names, a name has its kind. -/
theorem Named.kindIn_eq {kinds : String → ValueKind} {scope : List Local} (h : Named kinds scope)
    {name : String} (hname : name ∈ scope.map Local.name) : kindIn scope name = kinds name := by
  unfold kindIn
  cases hfind : scope.find? fun x => x.name = name with
  | none =>
    obtain ⟨x, hx, rfl⟩ := List.mem_map.1 hname
    have := List.find?_eq_none.1 hfind x hx
    simp at this
  | some x =>
    have hx : x.name = name := by simpa using List.find?_some hfind
    rw [Option.map_some, Option.getD_some, h x (List.mem_of_find?_eq_some hfind), hx]

/-- An expression over such a scope has the kind that its names give it. -/
theorem Named.kind?_eq {kinds : String → ValueKind} {scope : List Local} (h : Named kinds scope)
    {e : Expr} (hvars : e.vars ⊆ scope.map Local.name) : e.kind? (kindIn scope) = e.kind? kinds :=
  e.kind?_congr fun _ hname => h.kindIn_eq (hvars hname)

/-- An expression over such a scope fits where its names say so. -/
theorem Named.fits {kinds : String → ValueKind} {scope : List Local} (h : Named kinds scope) {e : Expr}
    {k : ValueKind} (hvars : e.vars ⊆ scope.map Local.name) (hk : e.kind? kinds = some k) :
    e.Fits scope k := ⟨hvars, (h.kind?_eq hvars).trans hk⟩

namespace Stmt

variable {kinds : String → ValueKind} {reserved : List String}

mutual

/-- A scoped and tidy statement that sets no reserved name keeps to the rules. -/
theorem Lexical.of_tidy {scope : List Local} (vars : List String) (stmt : Stmt)
    (hnamed : Named kinds scope) (hvars : ∀ name ∈ vars, ⟨name, .variable, kinds name⟩ ∈ scope)
    (hscoped : Scoped kinds (scope.map Local.name) stmt)
    (htidy : Tidy (scope.map Local.name) vars stmt) (hfree : ∀ name ∈ stmt.sets, name ∉ reserved) :
    Lexical reserved scope stmt := by
  match stmt with
  | .letDecl name value =>
    exact ⟨⟨hfree name List.mem_cons_self, htidy⟩, _, hnamed.fits hscoped.2 hscoped.1⟩
  | .varDecl name value =>
    exact ⟨⟨hfree name List.mem_cons_self, htidy⟩, _, hnamed.fits hscoped.2 hscoped.1⟩
  | .assign name value =>
    exact ⟨_, hvars name htidy, hnamed.fits hscoped.2.2 hscoped.2.1⟩
  | .store buffer position value =>
    exact ⟨hnamed.fits hscoped.2.2.1 hscoped.1, hnamed.fits hscoped.2.2.2 hscoped.2.1⟩
  | .forLoop var count body =>
    refine ⟨⟨hfree var List.mem_cons_self, htidy.1⟩, BlockLexical.of_tidy vars body ?_ ?_ hscoped.2 htidy.2
      fun name hname => hfree name (List.mem_cons_of_mem _ hname)⟩
    · intro x hx
      rcases List.mem_cons.1 hx with rfl | hx
      · exact hscoped.1.symm
      · exact hnamed x hx
    · exact fun name hname => List.mem_cons_of_mem _ (hvars name hname)
  | .ifThen cond body =>
    exact ⟨hnamed.fits hscoped.2.1 hscoped.1,
      BlockLexical.of_tidy vars body hnamed hvars hscoped.2.2 htidy hfree⟩
  | .ret => trivial

/-- A scoped and tidy block that sets no reserved name keeps to the rules. -/
theorem BlockLexical.of_tidy {scope : List Local} (vars : List String) (block : List Stmt)
    (hnamed : Named kinds scope) (hvars : ∀ name ∈ vars, ⟨name, .variable, kinds name⟩ ∈ scope)
    (hscoped : BlockScoped kinds (scope.map Local.name) block)
    (htidy : BlockTidy (scope.map Local.name) vars block)
    (hfree : ∀ name ∈ blockSets block, name ∉ reserved) : BlockLexical reserved scope block := by
  match block with
  | [] => trivial
  | stmt :: rest =>
    have hstmt := Lexical.of_tidy vars stmt hnamed hvars hscoped.1 htidy.1
      fun name hname => hfree name (List.mem_append_left _ hname)
    have hkind : ∀ x ∈ stmt.locals scope, x.kind = kinds x.name := by
      cases stmt with
      | letDecl name value =>
        intro x hx
        obtain rfl := List.mem_singleton.1 hx
        show (value.kind? (kindIn scope)).getD .scalar = _
        rw [hnamed.kind?_eq hscoped.1.2, hscoped.1.1]
        rfl
      | varDecl name value =>
        intro x hx
        obtain rfl := List.mem_singleton.1 hx
        show (value.kind? (kindIn scope)).getD .scalar = _
        rw [hnamed.kind?_eq hscoped.1.2, hscoped.1.1]
        rfl
      | _ =>
        intro x hx
        cases hx
    refine ⟨hstmt, BlockLexical.of_tidy (stmt.mutables ++ vars) rest ?_ ?_ ?_ ?_
      fun name hname => hfree name (List.mem_append_right _ hname)⟩
    · intro x hx
      rcases List.mem_append.1 hx with hx | hx
      · exact hkind x hx
      · exact hnamed x hx
    · intro name hname
      rcases List.mem_append.1 hname with hname | hname
      · cases stmt with
        | varDecl x value =>
          obtain rfl := List.mem_singleton.1 hname
          refine List.mem_append_left _ (List.mem_singleton.2 ?_)
          rw [← hkind _ (List.mem_singleton_self _)]
        | _ => cases hname
      · exact List.mem_append_right _ (hvars name hname)
    · rw [List.map_append, map_name_locals]
      exact hscoped.2
    · rw [List.map_append, map_name_locals]
      exact htidy.2

end

end Stmt

/-! ## Forward kernels -/

/-- What stands before the first underscore. -/
def firstWord (name : String) : List Char := name.toList.takeWhile (· ≠ '_')

/-- The locals that forward code can declare for a result. -/
def forwardNames (out : String) : List String :=
  [out, out ++ "_row", out ++ "_col", out ++ "_acc", out ++ "_k", out ++ "_max", out ++ "_sum"]

/-- A local of a result starts with the result's name, as a word. -/
theorem exists_eq_append_of_mem_forwardNames {out name : String} (h : name ∈ forwardNames out) :
    ∃ s : String, name = out ++ s ∧ (s = "" ∨ ∃ t, s.toList = '_' :: t) := by
  simp only [forwardNames, List.mem_cons, List.not_mem_nil, or_false] at h
  rcases h with rfl | rfl | rfl | rfl | rfl | rfl | rfl
  · exact ⟨"", String.append_empty.symm, .inl rfl⟩
  all_goals exact ⟨_, rfl, .inr ⟨_, rfl⟩⟩

/-- The locals of a node's forward code start with the name of the node. -/
theorem firstWord_of_mem_forwardNames {id : Nat} {name : String}
    (h : name ∈ forwardNames (Node.varName id)) : firstWord name = (Node.varName id).toList := by
  have hword := underscore_not_mem_varName id
  obtain ⟨s, rfl, rfl | ⟨t, hs⟩⟩ := exists_eq_append_of_mem_forwardNames h
  · unfold firstWord
    rw [String.append_empty, List.takeWhile_eq_self_iff]
    intro c hc
    rw [decide_eq_true_eq]
    rintro rfl
    exact hword hc
  · unfold firstWord
    rw [String.toList_append, hs]
    exact takeWhile_append_underscore _ _ hword

/-- The locals of different results differ. -/
theorem eq_of_mem_forwardNames {a b : Nat} {name : String} (ha : name ∈ forwardNames (Node.varName a))
    (hb : name ∈ forwardNames (Node.varName b)) : a = b := by
  refine Node.varName_injective (String.toList_inj.1 ?_)
  rw [← firstWord_of_mem_forwardNames ha, firstWord_of_mem_forwardNames hb]

/-- No local of forward code is named like an output. -/
theorem lastWord_forwardNames {id : Nat} {name : String} (h : name ∈ forwardNames (Node.varName id)) :
    lastWord name ≠ "output".toList := by
  simp only [forwardNames, List.mem_cons, List.not_mem_nil, or_false] at h
  rcases h with rfl | rfl | rfl | rfl | rfl | rfl | rfl
  · rw [lastWord_varName]
    simp
  all_goals
    rw [lastWord_append _ rfl (by decide)]
    decide

/-- Forward code declares new locals only. -/
theorem Op.forward_tidy (op : Op) (out : String) (operands : List Operand) {names vars : List String}
    (h : ∀ name ∈ forwardNames out, name ∉ names) :
    Stmt.BlockTidy names vars (op.forward out operands) := by
  simp only [forwardNames, List.mem_cons, List.not_mem_nil, or_false, forall_eq_or_imp, forall_eq] at h
  obtain ⟨hout, hrow, hcol, hacc, hk, hmax, hsum⟩ := h
  have hne : ∀ suffix : String, suffix ≠ "" → out ≠ out ++ suffix := by
    intro suffix hs heq
    exact hs (by simpa using heq.symm)
  cases op <;> simp [Op.forward, matmulForward, foldForward, softmaxForward, Stmt.BlockTidy, Stmt.Tidy,
    Stmt.declares, Stmt.mutables, Stmt.accumulate, hout, hrow, hcol, hacc, hk, hmax, hsum, hne]

/-- Forward code sets only its own locals. -/
theorem Op.mem_forwardNames_of_sets (op : Op) (out : String) (operands : List Operand) {name : String}
    (h : name ∈ Stmt.blockSets (op.forward out operands)) : name ∈ forwardNames out := by
  cases op <;> simp only [Op.forward, matmulForward, foldForward, softmaxForward, Stmt.blockSets,
    Stmt.sets, Stmt.accumulate, List.append_nil, List.mem_cons, List.mem_append, List.not_mem_nil,
    or_false] at h <;> simp only [forwardNames, List.mem_cons] <;> grind

/-- What a block declares, it sets. -/
theorem Stmt.blockDeclares_subset_blockSets (block : List Stmt) :
    Stmt.blockDeclares block ⊆ Stmt.blockSets block := by
  induction block with
  | nil => exact List.Subset.refl _
  | cons s block ih =>
    have hs : s.declares ⊆ s.sets := by
      cases s <;> simp [Stmt.declares, Stmt.sets]
    rw [Stmt.blockDeclares, Stmt.blockSets]
    exact List.append_subset.2 ⟨fun _ hn => List.mem_append_right _ (ih hn),
      fun _ hn => List.mem_append_left _ (hs hn)⟩

namespace Layout

variable {l : Layout} {masks : Array MaskSite}

/-- The code of a node sets only the locals of the node. -/
theorem mem_forwardNames_of_sets {c id : Nat} {name : String}
    (h : name ∈ Stmt.blockSets (l.forwardCode c id)) : name ∈ forwardNames (Node.varName id) := by
  unfold forwardCode at h
  cases hk : (l.node id).kind with
  | op op =>
    rw [hk] at h
    exact op.mem_forwardNames_of_sets _ _ h
  | tensor t => simp [hk, Stmt.blockSets] at h
  | mask i => simp [hk, Stmt.blockSets] at h
  | constant x => simp [hk, Stmt.blockSets] at h

/-- The code of a node declares new locals only. -/
theorem forwardCode_tidy {c id : Nat} {names vars : List String}
    (h : ∀ name ∈ forwardNames (Node.varName id), name ∉ names) :
    Stmt.BlockTidy names vars (l.forwardCode c id) := by
  unfold forwardCode
  cases (l.node id).kind with
  | op op => exact op.forward_tidy _ _ h
  | tensor t => trivial
  | mask i => trivial
  | constant x => trivial

/-- The code of nodes, each with locals of its own. -/
theorem members_tidy (c : Nat) {ids : List Nat} (hnodup : ids.Nodup) {names vars : List String}
    (h : ∀ id ∈ ids, ∀ name ∈ forwardNames (Node.varName id), name ∉ names) :
    Stmt.BlockTidy names vars (ids.flatMap (l.forwardCode c)) := by
  induction ids generalizing names vars with
  | nil => trivial
  | cons id ids ih =>
    rw [List.nodup_cons] at hnodup
    rw [List.flatMap_cons]
    refine .append (forwardCode_tidy (h id List.mem_cons_self)) (ih hnodup.2 ?_)
    intro other hother name hname hmem
    rcases List.mem_append.1 hmem with hmem | hmem
    · have hown := mem_forwardNames_of_sets (Stmt.blockDeclares_subset_blockSets _ hmem)
      exact hnodup.1 (eq_of_mem_forwardNames hname hown ▸ hother)
    · exact h other (List.mem_cons_of_mem _ hother) name hname hmem

/-- The body of a forward kernel is tidy. -/
theorem Sound.forward_tidy (h : l.Sound masks) (c : Nat) :
    Stmt.BlockTidy [] [] (l.forwardKernel c).body := by
  have hguard : (Stmt.boundsGuard (l.sizeOf c)).declares = [] := rfl
  refine ⟨⟨trivial, trivial⟩, .append (members_tidy c (h.nodup_members c) (by simp [hguard]))
    (.of_forall ?_)⟩
  intro stmt hstmt
  obtain ⟨id, -, rfl⟩ := List.mem_map.1 hstmt
  exact ⟨rfl, trivial⟩

end Layout

/-! ## Backward kernels of regular contexts -/

/-- Folding a partial buffer declares nothing outside of its loops. -/
theorem Access.declares_foldInto (a : Access) {acc source loopVar : String} {element : Expr} :
    ∀ stmt ∈ a.foldInto acc source element loopVar, stmt.declares = [] := by
  cases a <;> simp [foldInto, Stmt.accumulate, Stmt.declares]

/-- Folding a partial buffer is tidy where its accumulator is a variable. -/
theorem Access.foldInto_tidy (a : Access) {acc source loopVar : String} {element : Expr}
    {names vars : List String} (hacc : acc ∈ vars) (hloop : loopVar ∉ names) :
    ∀ stmt ∈ a.foldInto acc source element loopVar, Stmt.Tidy names vars stmt := by
  cases a <;> simp [foldInto, Stmt.BlockTidy, Stmt.Tidy, Stmt.accumulate, hacc, hloop]

/-- A seed declares one variable. -/
theorem seedCode_tidy {name loopVar : String} (isRoot : Bool) (incoming : List PartialBuffer)
    (position : Expr) {names vars : List String} (hname : name ∉ names)
    (hloop : ∀ k : Nat, loopVar ++ toString k ∉ name :: names) :
    Stmt.BlockTidy names vars (seedCode name isRoot incoming position loopVar) := by
  refine ⟨hname, .of_forall ?_⟩
  intro stmt hstmt
  obtain ⟨block, hblock, hstmt⟩ := List.mem_flatten.1 hstmt
  obtain ⟨k, hk, rfl⟩ := List.mem_mapIdx.1 hblock
  exact ⟨Access.declares_foldInto _ stmt hstmt,
    Access.foldInto_tidy _ List.mem_cons_self (hloop k) stmt hstmt⟩

/-- A block of statements without declarations declares nothing. -/
theorem blockDeclares_eq_nil (block : List Stmt) (h : ∀ stmt ∈ block, stmt.declares = []) :
    Stmt.blockDeclares block = [] ∧ Stmt.blockMutables block = [] := by
  induction block with
  | nil => exact ⟨rfl, rfl⟩
  | cons s block ih =>
    obtain ⟨hdeclares, hmutables⟩ := ih fun stmt hstmt => h stmt (List.mem_cons_of_mem _ hstmt)
    have hs := h s List.mem_cons_self
    rw [Stmt.blockDeclares, Stmt.blockMutables, hdeclares, hmutables, hs]
    cases s <;> simp_all [Stmt.declares, Stmt.mutables]

/-- A seed declares its variable, and nothing else. -/
theorem blockDeclares_seedCode (name loopVar : String) (isRoot : Bool) (incoming : List PartialBuffer)
    (position : Expr) :
    Stmt.blockDeclares (seedCode name isRoot incoming position loopVar) = [name] ∧
      Stmt.blockMutables (seedCode name isRoot incoming position loopVar) = [name] := by
  have hfolds : ∀ stmt ∈ (incoming.mapIdx fun j p =>
      p.access.foldInto name p.name position (loopVar ++ toString j)).flatten, stmt.declares = [] := by
    intro stmt hstmt
    obtain ⟨block, hblock, hstmt⟩ := List.mem_flatten.1 hstmt
    obtain ⟨k, hk, rfl⟩ := List.mem_mapIdx.1 hblock
    exact Access.declares_foldInto _ stmt hstmt
  have hrest := blockDeclares_eq_nil _ hfolds
  rw [seedCode, Stmt.blockDeclares, Stmt.blockMutables, hrest.1, hrest.2]
  exact ⟨rfl, rfl⟩

/-- Assignments go to variables where only variables are declared. -/
theorem Stmt.tidy_of_scoped {kinds : String → ValueKind} {names vars : List String} (hvars : names ⊆ vars)
    {block : List Stmt} (hscoped : Stmt.BlockScoped kinds names block)
    (h : ∀ stmt ∈ block, (∃ name value, stmt = .assign name value) ∨
      ∃ buffer position value, stmt = .store buffer position value) :
    Stmt.BlockTidy names vars block ∧ Stmt.blockSets block ⊆ names := by
  induction block with
  | nil => exact ⟨trivial, List.nil_subset _⟩
  | cons s block ih =>
    have hrest := fun stmt hstmt => h stmt (List.mem_cons_of_mem _ hstmt)
    rcases h s List.mem_cons_self with ⟨name, value, rfl⟩ | ⟨buffer, position, value, rfl⟩
    · obtain ⟨htidy, hsets⟩ := ih hscoped.2 hrest
      exact ⟨⟨hvars hscoped.1.1, htidy⟩, List.cons_subset.2 ⟨hscoped.1.1, hsets⟩⟩
    · obtain ⟨htidy, hsets⟩ := ih hscoped.2 hrest
      exact ⟨⟨trivial, htidy⟩, hsets⟩

namespace Layout

variable {l : Layout} {masks : Array MaskSite}

/-- Seeds declare the accumulators of their nodes, the latest first. -/
theorem blockDeclares_seeds (partials : List PartialBuffer) (ids : List Nat) :
    Stmt.blockDeclares (l.seeds partials ids) = (ids.map gradName).reverse ∧
      Stmt.blockMutables (l.seeds partials ids) = (ids.map gradName).reverse := by
  unfold seeds
  induction ids with
  | nil => exact ⟨rfl, rfl⟩
  | cons id ids ih =>
    rw [List.flatMap_cons, Stmt.blockDeclares_append, Stmt.blockMutables_append, ih.1, ih.2,
      (blockDeclares_seedCode _ _ _ _ _).1, (blockDeclares_seedCode _ _ _ _ _).2]
    simp

/-- Seeds are tidy: every accumulator is declared once. -/
theorem seeds_tidy (partials : List PartialBuffer) {ids : List Nat} (hnodup : ids.Nodup)
    {names vars : List String} (h : ∀ name ∈ names, ∃ id ∉ ids, name = gradName id) :
    Stmt.BlockTidy names vars (l.seeds partials ids) := by
  unfold seeds
  induction ids generalizing names vars with
  | nil => trivial
  | cons id ids ih =>
    rw [List.nodup_cons] at hnodup
    rw [List.flatMap_cons]
    refine .append (seedCode_tidy _ _ _ ?_ ?_) (ih hnodup.2 ?_)
    · intro hmem
      obtain ⟨other, hother, heq⟩ := h _ hmem
      exact hother (gradName_injective heq ▸ List.mem_cons_self)
    · intro k hmem
      rcases List.mem_cons.1 hmem with heq | hmem
      · exact ne_foldName_of_scalar (localKind_gradName id) id k heq.symm
      · obtain ⟨other, -, heq⟩ := h _ hmem
        exact ne_foldName_of_scalar (localKind_gradName other) id k heq.symm
    · rw [(blockDeclares_seedCode _ _ _ _ _).1]
      intro name hname
      rcases List.mem_append.1 hname with hname | hname
      · exact ⟨id, hnodup.1, List.mem_singleton.1 hname⟩
      · obtain ⟨other, hother, heq⟩ := h name hname
        exact ⟨other, fun hin => hother (List.mem_cons_of_mem _ hin), heq⟩

/-- The variables that collect contributions. -/
def collectors (keys : List ((Nat × Access) × (String × Owner))) : List Stmt :=
  keys.mapIdx fun k _ => .varDecl (collectorName k) (.float 0.0)

/-- The collectors are declared one by one, the latest first. -/
theorem blockDeclares_collectors (keys : List ((Nat × Access) × (String × Owner))) :
    Stmt.blockDeclares (collectors keys) = ((List.range keys.length).map collectorName).reverse ∧
      Stmt.blockMutables (collectors keys) = ((List.range keys.length).map collectorName).reverse := by
  unfold collectors
  induction keys using List.reverseRecOn with
  | nil => exact ⟨rfl, rfl⟩
  | append_singleton keys key ih =>
    rw [List.mapIdx_concat, Stmt.blockDeclares_append, Stmt.blockMutables_append, ih.1, ih.2,
      List.length_append, List.length_singleton, List.range_succ, List.map_append, List.reverse_append]
    exact ⟨rfl, rfl⟩

/-- The declarations of collectors are tidy. -/
theorem collectors_tidy (keys : List ((Nat × Access) × (String × Owner))) {names vars : List String}
    (h : ∀ k, collectorName k ∉ names) : Stmt.BlockTidy names vars (collectors keys) := by
  induction keys using List.reverseRecOn with
  | nil => trivial
  | append_singleton keys key ih =>
    have hdeclared := (blockDeclares_collectors keys).1
    unfold collectors at hdeclared ih ⊢
    rw [List.mapIdx_concat]
    refine .append ih ⟨?_, trivial⟩
    rw [hdeclared]
    intro hmem
    rcases List.mem_append.1 hmem with hmem | hmem
    · obtain ⟨k, hk, heq⟩ := List.mem_map.1 (List.mem_reverse.1 hmem)
      obtain rfl := collectorName_injective heq
      exact Nat.lt_irrefl _ (List.mem_range.1 hk)
    · exact h keys.length hmem

/-- The rules of a regular context, and the stores of what they collect. -/
def rules (l : Layout) (c : Nat) : List Stmt :=
  (l.contextContributions c).filterMap (ruleCode (l.contextKeys c)) ++
    (layOut c (l.sizeOf c) (l.contextKeys c)).partials.mapIdx fun k p =>
      .store (outputName p.name) p.access.partialIndex (.var (collectorName k))

/-- The body of a regular backward kernel: seeds, collectors and rules behind the guard. -/
theorem regularBackward_body (partials : List PartialBuffer) (c : Nat) :
    (l.regularBackward partials c).kernel.body = .boundsGuard (l.sizeOf c) ::
      (l.seeds partials (l.members c) ++ collectors (l.contextKeys c) ++ l.rules c) := by
  rw [rules, ← List.append_assoc]
  rfl

/-- Accumulators and collectors are all variables, and rules set nothing else. -/
theorem Sound.rules_tidy (h : l.Sound masks) (partials : List PartialBuffer) (c : Nat) :
    Stmt.BlockTidy
      (Stmt.blockDeclares (l.seeds partials (l.members c) ++ collectors (l.contextKeys c)))
      (Stmt.blockMutables (l.seeds partials (l.members c) ++ collectors (l.contextKeys c)))
      (l.rules c) ∧
    Stmt.blockSets (l.rules c) ⊆
      Stmt.blockDeclares (l.seeds partials (l.members c) ++ collectors (l.contextKeys c)) := by
  have hscoped := (h.regularBackward_typed partials c).inScope
  rw [regularBackward_body] at hscoped
  have hrules := (Stmt.blockScoped_append.1 hscoped.2).2
  rw [show (Stmt.boundsGuard (l.sizeOf c)).declares = [] from rfl, List.append_nil, List.append_nil]
    at hrules
  refine Stmt.tidy_of_scoped ?_ hrules ?_
  · rw [Stmt.blockDeclares_append, Stmt.blockMutables_append, (blockDeclares_seeds _ _).1,
      (blockDeclares_seeds _ _).2, (blockDeclares_collectors _).1, (blockDeclares_collectors _).2]
    exact List.Subset.refl _
  · intro stmt hstmt
    rcases List.mem_append.1 hstmt with hstmt | hstmt
    · obtain ⟨x, -, hcode⟩ := List.mem_filterMap.1 hstmt
      unfold ruleCode at hcode
      split at hcode <;> cases hcode
      · exact .inl ⟨_, _, rfl⟩
      · exact .inl ⟨_, _, rfl⟩
    · obtain ⟨k, hk, rfl⟩ := List.mem_mapIdx.1 hstmt
      exact .inr ⟨_, _, _, rfl⟩

/-- The body of a regular backward kernel is tidy. -/
theorem Sound.regularBackward_tidy (h : l.Sound masks) (partials : List PartialBuffer) (c : Nat) :
    Stmt.BlockTidy [] [] (l.regularBackward partials c).kernel.body := by
  have hrules := (h.rules_tidy partials c).1
  rw [← List.append_nil (Stmt.blockDeclares _), ← List.append_nil (Stmt.blockMutables _)] at hrules
  rw [regularBackward_body]
  refine ⟨⟨trivial, trivial⟩, .append (.append ?_ ?_) hrules⟩
  · exact seeds_tidy partials (h.nodup_members c) (by simp [Stmt.boundsGuard, Stmt.declares])
  · refine collectors_tidy _ fun k hmem => ?_
    rw [(blockDeclares_seeds _ _).1] at hmem
    rcases List.mem_append.1 hmem with hmem | hmem
    · obtain ⟨id, -, heq⟩ := List.mem_map.1 (List.mem_reverse.1 hmem)
      exact collectorName_ne_gradName k id heq.symm
    · cases hmem

/-- The locals of a regular backward kernel are accumulators with their counters, and collectors. -/
theorem Sound.sets_regularBackward (h : l.Sound masks) {partials : List PartialBuffer} {c : Nat}
    {name : String} (hname : name ∈ Stmt.blockSets (l.regularBackward partials c).kernel.body) :
    (∃ id, name = gradName id ∨ ∃ k : Nat, name = gradName id ++ "_f" ++ toString k) ∨
      ∃ k, name = collectorName k := by
  have hdeclared : ∀ {x : String}, x ∈ Stmt.blockSets
      (l.seeds partials (l.members c) ++ collectors (l.contextKeys c)) →
      (∃ id, x = gradName id ∨ ∃ k : Nat, x = gradName id ++ "_f" ++ toString k) ∨
        ∃ k, x = collectorName k := by
    intro x hx
    rw [Stmt.blockSets_append, List.mem_append] at hx
    rcases hx with hx | hx
    · obtain ⟨id, -, heq⟩ := sets_seeds hx
      exact .inl ⟨id, heq⟩
    · exact .inr (sets_collectors hx)
  rw [regularBackward_body, Stmt.blockSets, Stmt.blockSets_append, List.mem_append, List.mem_append]
    at hname
  rcases hname with hguard | hname | hname
  · cases hguard
  · exact hdeclared hname
  · exact hdeclared (Stmt.blockDeclares_subset_blockSets _ ((h.rules_tidy partials c).2 hname))

end Layout

/-! ## Backward kernels of reductions -/

/-- Seeds of a frame are tidy, declare one variable and set nothing else but counters. -/
structure ReductionFrame.SeedsTidily (r : ReductionFrame) : Prop where
  fresh : ∀ (name : String) (position : Expr) (loopVar : String) (names vars : List String),
    name ∉ names → (∀ k : Nat, loopVar ++ toString k ∉ name :: names) →
      Stmt.BlockTidy names vars (r.seed name position loopVar)
  declares : ∀ (name : String) (position : Expr) (loopVar : String),
    Stmt.blockDeclares (r.seed name position loopVar) = [name]
  mutables : ∀ (name : String) (position : Expr) (loopVar : String),
    Stmt.blockMutables (r.seed name position loopVar) = [name]
  sets : ∀ (name : String) (position : Expr) (loopVar : String),
    ∀ x ∈ Stmt.blockSets (r.seed name position loopVar), x = name ∨ ∃ k : Nat, x = loopVar ++ toString k

namespace ReductionFrame

variable {r : ReductionFrame}

/-- A local with a new suffix is a new local. -/
theorem localName_notMem (ws : List String) {w : String} (h : w ∉ ws) :
    r.localName w ∉ ws.map r.localName := by
  intro hmem
  obtain ⟨x, hx, heq⟩ := List.mem_map.1 hmem
  exact h (localName_inj.1 heq ▸ hx)

/-- A seed after locals with the given words. -/
theorem SeedsTidily.tidy (hr : r.SeedsTidily) (ws : List String) {w loop : String} (position : Expr)
    (vars : List String) (hw : w ∉ ws) (hloop : loop.toList.head? = some 'f')
    (hws : ∀ x ∈ w :: ws, x.toList.head? ≠ some 'f') :
    Stmt.BlockTidy (ws.map r.localName) vars
      (r.seed (r.localName w) position (r.localName loop)) := by
  refine hr.fresh _ _ _ _ _ (localName_notMem ws hw) fun k hmem => ?_
  rw [← List.map_cons] at hmem
  obtain ⟨x, hx, heq⟩ := List.mem_map.1 hmem
  exact localName_ne_fold hloop (hws x hx) k heq

end ReductionFrame

/-- The gradient code of a matrix product is tidy. -/
theorem matmulGradient_tidy (i : Nat) {r : ReductionFrame} (hr : r.SeedsTidily) :
    Stmt.BlockTidy [] [] (matmulGradient i r).1 := by
  refine ⟨r.localName_notMem [] (by decide), r.localName_notMem ["outer"] (by decide),
    r.localName_notMem ["inner", "outer"] (by decide),
    ⟨r.localName_notMem ["acc", "inner", "outer"] (by decide), .append ?_ ⟨?_, trivial⟩⟩, trivial⟩
  · exact hr.tidy ["j", "acc", "inner", "outer"] _ _ (by decide) (by decide) (by decide)
  · exact List.mem_append_right _ List.mem_cons_self

/-- The gradient code of a fold is tidy. -/
theorem foldGradient_tidy (f : FoldOp) (axis : Axis) {r : ReductionFrame} (hr : r.SeedsTidily) :
    Stmt.BlockTidy [] [] (foldGradient f axis r).1 :=
  hr.tidy [] _ _ (by decide) (by decide) (by decide)

/-- The gradient code of a softmax is tidy. -/
theorem softmaxGradient_tidy {r : ReductionFrame} (hr : r.SeedsTidily) :
    Stmt.BlockTidy [] [] (softmaxGradient r).1 := by
  unfold softmaxGradient
  refine .append ⟨r.localName_notMem [] (by decide), hr.tidy ["row"] _ _ (by decide) (by decide)
    (by decide)⟩ ?_
  rw [Stmt.blockDeclares_append, Stmt.blockMutables_append, hr.declares, hr.mutables]
  refine ⟨r.localName_notMem ["gi", "row"] (by decide),
    ⟨r.localName_notMem ["acc", "gi", "row"] (by decide), .append ?_ ⟨?_, trivial⟩⟩, trivial⟩
  · exact hr.tidy ["k", "acc", "gi", "row"] _ _ (by decide) (by decide) (by decide)
  · exact List.mem_append_right _ List.mem_cons_self

/-- The gradient code of every reduction is tidy. -/
theorem Op.reductionGradient_tidy (op : Op) (i : Nat) {r : ReductionFrame} (hr : r.SeedsTidily) :
    Stmt.BlockTidy [] [] (op.reductionGradient i r).1 := by
  cases op with
  | matmul => exact matmulGradient_tidy i hr
  | fold f axis => exact foldGradient_tidy f axis hr
  | softmax => exact softmaxGradient_tidy hr
  | _ => trivial

/-- The locals of a reduction's gradient end in a word of their own. -/
theorem Op.exists_word_of_sets (op : Op) (i : Nat) {r : ReductionFrame} (hr : r.SeedsTidily)
    {name : String} (h : name ∈ Stmt.blockSets (op.reductionGradient i r).1) :
    ∃ w : String, '_' ∉ w.toList ∧ w ≠ "output" ∧ name = r.localName w := by
  have hword : ∀ {w : String}, '_' ∉ w.toList → w ≠ "output" → name = r.localName w →
      ∃ w : String, '_' ∉ w.toList ∧ w ≠ "output" ∧ name = r.localName w :=
    fun hw hne heq => ⟨_, hw, hne, heq⟩
  have hseed : ∀ {w loop : String} {position : Expr}, '_' ∉ w.toList → w ≠ "output" →
      '_' ∉ loop.toList → loop.toList.head? = some 'f' →
      name ∈ Stmt.blockSets (r.seed (r.localName w) position (r.localName loop)) →
      ∃ w : String, '_' ∉ w.toList ∧ w ≠ "output" ∧ name = r.localName w := by
    intro w loop position hw hne hloop hhead hmem
    rcases hr.sets _ _ _ _ hmem with heq | ⟨k, heq⟩
    · exact ⟨w, hw, hne, heq⟩
    · refine ⟨loop ++ toString k, ?_, ?_, heq.trans String.append_assoc⟩
      · rw [String.toList_append, List.mem_append, not_or]
        exact ⟨hloop, underscore_not_mem_toString k⟩
      · intro houtput
        have := congrArg (fun s : String => s.toList.head?) houtput
        rw [String.toList_append, List.head?_append, hhead] at this
        cases this
  cases op with
  | matmul =>
    simp only [reductionGradient, matmulGradient, Stmt.blockSets, Stmt.sets, Stmt.blockSets_append,
      Stmt.accumulate, List.mem_append, List.mem_cons, List.not_mem_nil, or_false] at h
    rcases h with h | h | h | h | h | h
    · exact hword (by decide) (by decide) h
    · exact hword (by decide) (by decide) h
    · exact hword (by decide) (by decide) h
    · exact hword (by decide) (by decide) h
    · exact hseed (by decide) (by decide) (by decide) (by decide) h
    · exact hword (by decide) (by decide) h
  | fold f axis => exact hseed (by decide) (by decide) (by decide) (by decide) h
  | softmax =>
    simp only [reductionGradient, softmaxGradient, Stmt.blockSets, Stmt.sets, Stmt.blockSets_append,
      Stmt.accumulate, List.mem_append, List.mem_cons, List.not_mem_nil, or_false] at h
    rcases h with (h | h) | h | h | h | h
    · exact hword (by decide) (by decide) h
    · exact hseed (by decide) (by decide) (by decide) (by decide) h
    · exact hword (by decide) (by decide) h
    · exact hword (by decide) (by decide) h
    · exact hseed (by decide) (by decide) (by decide) (by decide) h
    · exact hword (by decide) (by decide) h
  | _ => cases h

namespace Layout

variable {l : Layout} {masks : Array MaskSite}

/-- The seeds inside of a reduction block are tidy. -/
theorem reductionFrame_seedsTidily (partials : List PartialBuffer) (id i : Nat) :
    (l.reductionFrame partials id i).SeedsTidily where
  fresh _ _ _ _ _ hname hloop := seedCode_tidy _ _ _ hname hloop
  declares _ _ _ := (blockDeclares_seedCode _ _ _ _ _).1
  mutables _ _ _ := (blockDeclares_seedCode _ _ _ _ _).2
  sets _ _ _ _ hx := sets_seedCode hx

/-- The body of a reduction's backward kernel is made of blocks. -/
theorem mem_reductionBackward_body {partials : List PartialBuffer} {c id : Nat} {op : Op} {stmt : Stmt}
    (h : stmt ∈ (l.reductionBackward partials c id op).kernel.body) :
    ∃ t p, stmt = l.gradientBlock partials id op t p := by
  rw [(reductionBackward_body partials c id op).1] at h
  obtain ⟨e, -, rfl⟩ := List.mem_map.1 h
  exact ⟨_, _, rfl⟩

/-- The body of the backward kernel of a reduction is tidy. -/
theorem reductionBackward_tidy (partials : List PartialBuffer) (c id : Nat) (op : Op) :
    Stmt.BlockTidy [] [] (l.reductionBackward partials c id op).kernel.body := by
  refine .of_forall fun stmt hstmt => ?_
  obtain ⟨t, p, rfl⟩ := mem_reductionBackward_body hstmt
  exact ⟨rfl, .append (op.reductionGradient_tidy _ (reductionFrame_seedsTidily partials id _))
    ⟨trivial, trivial⟩⟩

/-- The body of every kernel of a layout is tidy. -/
theorem Sound.kernelList_tidy (h : l.Sound masks) {k : Kernel} (hk : k ∈ l.kernelList) :
    Stmt.BlockTidy [] [] k.body := by
  rcases h.kernelList_cases hk with ⟨c, -, rfl⟩ | ⟨partials, c, -, -, -, rfl⟩ |
    ⟨partials, c, id, op, -, -, -, -, -, rfl⟩
  · exact h.forward_tidy c
  · exact h.regularBackward_tidy partials c
  · exact reductionBackward_tidy partials c id op

/-! ## Locals and buffers -/

/-- A name that starts like a local and is none of a node that the kernel reads is no buffer's name. -/
theorem Sound.notMem_reserved (h : l.Sound masks) {k : Kernel} (hk : k ∈ l.kernelList) {name : String}
    (hlast : lastWord name ≠ "output".toList)
    (hhead : name.toList.head? = some 'v' ∨ ∃ x rest, x ≠ 'r' ∧ name.toList = 'g' :: x :: rest)
    (hvar : ∀ o, Node.varName o ∈ k.inputs.names → name ≠ Node.varName o) :
    name ∉ "index" :: (k.inputs.names ++ k.outputs.names) := by
  have hfirst : ∀ {s : String} {c : Char}, s.toList.head? = some c → c ≠ 'v' → c ≠ 'g' → name ≠ s := by
    rintro s c hs hv hg rfl
    rcases hhead with hhead | ⟨x, rest, -, hlist⟩
    · exact hv (Option.some.inj (hs.symm.trans hhead))
    · rw [hlist] at hs
      exact hg (Option.some.inj hs).symm
  intro hmem
  rcases List.mem_cons.1 hmem with heq | hmem
  · exact hfirst (c := 'i') (by decide) (by decide) (by decide) heq
  rcases List.mem_append.1 hmem with hmem | hmem
  · obtain ⟨b, hb, heq⟩ := Bindings.mem_names.1 hmem
    rcases h.kernelList_inputs hk hb with ⟨o, ho, hbind, -⟩ | ⟨p, hp, rfl⟩
    · rcases h.binding?_cases ho hbind with ⟨op, -, rfl⟩ | ⟨i, m, -, -, rfl⟩ | ⟨t, d, -, -, rfl⟩
      · have heq : Node.varName o = name := heq
        exact hvar o (heq ▸ hmem) heq.symm
      · exact hfirst (head?_maskName i) (by decide) (by decide) heq.symm
      · rcases d.head?_bindingName with hd | hd
        · exact hfirst hd (by decide) (by decide) heq.symm
        · exact hfirst hd (by decide) (by decide) heq.symm
    · -- partial buffers start in another way than accumulators and collectors
      obtain ⟨base, c, j, hname⟩ := h.partial_name hp
      obtain ⟨rest, hcandidate⟩ := PartialBuffer.toList_candidate base c j
      have heq : p.name = name := heq
      rw [← heq, hname, hcandidate] at hhead
      rcases hhead with hhead | ⟨x, tail, hx, hlist⟩
      · cases hhead
      · simp only [List.cons.injEq, true_and] at hlist
        exact hx hlist.1.symm
  · obtain ⟨b, hb, heq⟩ := Bindings.mem_names.1 hmem
    rcases h.kernelList_outputs hk hb with ⟨id, rfl⟩ | ⟨p, -, rfl⟩
    · exact hlast (heq ▸ lastWord_outputName _)
    · exact hlast (heq ▸ lastWord_outputName _)

/-- A local of a forward kernel belongs to a member of the context. -/
theorem exists_mem_forwardNames {c : Nat} {name : String}
    (h : name ∈ Stmt.blockSets (l.forwardKernel c).body) :
    ∃ id ∈ l.members c, name ∈ forwardNames (Node.varName id) := by
  have hbody : Stmt.blockSets (l.forwardKernel c).body =
      Stmt.blockSets ((l.members c).flatMap (l.forwardCode c)) ++
        Stmt.blockSets ((l.exports c).map exportStore) := Stmt.blockSets_append _ _
  rw [hbody, List.mem_append] at h
  rcases h with h | h
  · obtain ⟨id, hid, h⟩ := Stmt.exists_of_mem_blockSets_flatMap h
    exact ⟨id, hid, mem_forwardNames_of_sets h⟩
  · rw [List.map_eq_flatMap] at h
    obtain ⟨id, -, h⟩ := Stmt.exists_of_mem_blockSets_flatMap h
    cases h

/-- A local of a reduction's backward kernel belongs to the gradient of one operand. -/
theorem exists_localName_of_sets {partials : List PartialBuffer} {c id : Nat} {op : Op} {name : String}
    (h : name ∈ Stmt.blockSets (l.reductionBackward partials c id op).kernel.body) :
    ∃ (i : Nat) (w : String), '_' ∉ w.toList ∧ w ≠ "output" ∧
      name = (l.reductionFrame partials id i).localName w := by
  rw [← List.flatMap_singleton' (l.reductionBackward partials c id op).kernel.body] at h
  obtain ⟨stmt, hstmt, h⟩ := Stmt.exists_of_mem_blockSets_flatMap h
  obtain ⟨t, p, rfl⟩ := mem_reductionBackward_body hstmt
  rw [Stmt.blockSets, Stmt.blockSets, List.append_nil, gradientBlock, Stmt.sets, Stmt.blockSets_append,
    List.mem_append] at h
  rcases h with h | h
  · exact ⟨t.2.1, op.exists_word_of_sets _ (reductionFrame_seedsTidily partials id _) h⟩
  · cases h

/-- A node is determined by the name of its value. -/
theorem Sound.eq_of_binding_name (h : l.Sound masks) {o id : Nat} (ho : o < l.nodes.size) {b : Binding}
    (hb : l.binding? o = some b) (hname : b.name = Node.varName id) : o = id := by
  rcases h.binding?_cases ho hb with ⟨op, -, rfl⟩ | ⟨i, m, -, -, rfl⟩ | ⟨t, d, -, -, rfl⟩
  · exact Node.varName_injective hname
  · have := congrArg (fun s : String => s.toList.head?) hname
    simp only [head?_varName, head?_maskName] at this
    cases this
  · have := congrArg (fun s : String => s.toList.head?) hname
    simp only [head?_varName] at this
    rcases d.head?_bindingName with hd | hd <;> rw [hd] at this <;> cases this

/-- No local has the name of a buffer of its kernel. -/
theorem Sound.sets_notMem_reserved (h : l.Sound masks) {k : Kernel} (hk : k ∈ l.kernelList)
    {name : String} (hname : name ∈ Stmt.blockSets k.body) :
    name ∉ "index" :: (k.inputs.names ++ k.outputs.names) := by
  have hnode : ∀ {s : String} {x : Char}, s.toList.head? = some x → x ≠ 'v' →
      ∀ o, s ≠ Node.varName o := by
    rintro s x hs hne o rfl
    rw [head?_varName] at hs
    exact hne (Option.some.inj hs).symm
  rcases h.kernelList_cases hk with ⟨c, -, rfl⟩ | ⟨partials, c, -, -, -, rfl⟩ |
    ⟨partials, c, id, op, -, -, -, -, -, rfl⟩
  · obtain ⟨id, hid, hmem⟩ := exists_mem_forwardNames hname
    refine h.notMem_reserved hk (lastWord_forwardNames hmem) (.inl ?_) ?_
    · obtain ⟨s, rfl, -⟩ := exists_eq_append_of_mem_forwardNames hmem
      rw [String.toList_append, toList_varName]
      rfl
    · -- a node that the kernel reads is computed elsewhere
      rintro o ho rfl
      obtain rfl := eq_of_mem_forwardNames hmem (b := o) List.mem_cons_self
      obtain ⟨b, hb, hbname⟩ := Bindings.mem_names.1 ho
      obtain ⟨x, o, a, hx, ho, hne, hbind⟩ := h.forward_inputs (Kernel.mem_trimmed_inputs.1 hb).1
      have hlt := (h.home_lt x c hx).1
      obtain rfl := h.eq_of_binding_name (Nat.lt_trans (h.operand_lt hlt ho) hlt) hbind hbname
      exact hne ((h.mem_members c _).1 hid)
  · rcases h.sets_regularBackward hname with ⟨id, rfl | ⟨j, rfl⟩⟩ | ⟨j, rfl⟩
    · have hlist : (gradName id).toList = 'g' :: '_' :: (Node.varName id).toList := by
        rw [gradName, String.toList_append]
        rfl
      refine h.notMem_reserved hk ?_ (.inr ⟨'_', _, by decide, hlist⟩)
        fun o _ => hnode (x := 'g') (by rw [hlist]; rfl) (by decide) o
      rw [lastWord_gradName]
      simp
    · have hlist : (gradName id ++ "_f" ++ toString j).toList =
          'g' :: '_' :: ((Node.varName id).toList ++ "_f".toList ++ (toString j).toList) := by
        rw [gradName, String.toList_append, String.toList_append, String.toList_append]
        rfl
      refine h.notMem_reserved hk ?_ (.inr ⟨'_', _, by decide, hlist⟩)
        fun o _ => hnode (x := 'g') (by rw [hlist]; rfl) (by decide) o
      rw [String.append_assoc, lastWord_append _ (t := 'f' :: (toString j).toList)
        (by rw [String.toList_append]; rfl) (by simp)]
      simp
    · have hlist : (collectorName j).toList = 'g' :: 'l' :: (toString j).toList := by
        rw [collectorName, String.toList_append]
        rfl
      refine h.notMem_reserved hk ?_ (.inr ⟨'l', _, by decide, hlist⟩)
        fun o _ => hnode (x := 'g') (by rw [hlist]; rfl) (by decide) o
      rw [lastWord_collectorName]
      simp
  · obtain ⟨i, w, hw, hne, rfl⟩ := exists_localName_of_sets hname
    have hlast : lastWord ((l.reductionFrame partials id i).localName w) = w.toList := by
      rw [ReductionFrame.localName, String.append_assoc]
      exact lastWord_append _ (by rw [String.toList_append]; rfl) hw
    refine h.notMem_reserved hk ?_ (.inl ?_) ?_
    · rw [hlast]
      exact fun heq => hne (String.toList_inj.1 heq)
    · simp [ReductionFrame.localName, reductionFrame, String.toList_append, toList_varName]
    · intro o _ heq
      refine underscore_not_mem_varName o ?_
      rw [← heq]
      simp [ReductionFrame.localName, String.toList_append]

/-- Every kernel keeps to the rules of block scopes. -/
theorem Sound.kernelList_lexical (h : l.Sound masks) {k : Kernel} (hk : k ∈ l.kernelList) :
    Stmt.BlockLexical ("index" :: (k.inputs.names ++ k.outputs.names)) [] k.body := by
  have hnamed : Named localKind [] := by simp [Named]
  exact .of_tidy [] k.body hnamed (by simp) (h.kernelList_typed hk).inScope (h.kernelList_tidy hk)
    fun _ hname => h.sets_notMem_reserved hk hname

end Layout

/-- Every kernel of a compiled plan keeps to the rules of block scopes, where the buffers of the kernel
and the index of the invocation are names of their own, and on every block that keeps to them the flat
map of locals does what block scopes do. -/
theorem compiled_lexical (signature : Signature) {root : Term} (hroot : root.Built) {shape : Shape}
    {plan : Plan} (h : (compile signature root shape).plan = .ok plan) :
    (∀ k ∈ plan.kernels,
      Stmt.BlockLexical ("index" :: (k.inputs.names ++ k.outputs.names)) [] k.body) ∧
    ∀ (reserved : List String) (block : List Stmt), Stmt.BlockLexical reserved [] block →
      ∀ (α : Type) (ops : Arithmetic α) (s : Invocation α),
        (Stmt.execBlockIn ops s.framed block).observed = (Stmt.execBlock ops s block).observed := by
  obtain ⟨id, s, -, hcompiled⟩ := compiledAs_of_ok hroot h
  refine ⟨?_, fun reserved block hblock α ops s => Stmt.observed_execBlockIn ops hblock s⟩
  intro k hk
  rw [hcompiled.kernels] at hk
  exact hcompiled.sound.kernelList_lexical hk

/-- The kernels of the layer follow the rules of scopes, and run the same under them. -/
theorem layer_lexical :
    layerTerm.Built ∧ ∃ plan, (compile layerSignature layerTerm [2, 2]).plan = .ok plan ∧
      ∀ k ∈ plan.kernels,
        Stmt.BlockLexical ("index" :: (k.inputs.names ++ k.outputs.names)) [] k.body ∧
        ∀ (α : Type) (ops : Arithmetic α) (s : Invocation α),
          (Stmt.execBlockIn ops s.framed k.body).observed = (Stmt.execBlock ops s k.body).observed := by
  obtain ⟨plan, hplan⟩ := exists_layer_plan
  obtain ⟨hlexical, hagree⟩ := compiled_lexical layerSignature layerTerm_built hplan
  exact ⟨layerTerm_built, plan, hplan, fun k hk => ⟨hlexical k hk, hagree _ _ (hlexical k hk)⟩⟩

end TensorKernels
