import TensorKernels.Kernel.Exec
import TensorKernels.Proofs.ExprTexts

/-!
# Reading blocks of statements back

`Stmt.readBlock` reads a block as it is indented: a line that does not have the indentation of the block ends
it. In a line, the characters after the first name tell an assignment and a store from a statement that a
keyword opens, whatever the variables are called; a loop and a condition hold a block with one more step of
indentation, and the closing brace stands where the statement began.

A block whose names are identifiers and whose literals are finite is read back from its text, in canonical
form (`Stmt.blockReadsBack`), so the texts of two blocks at one depth are equal exactly where the canonical
forms are (`Stmt.blockText_eq_iff`). The canonical form ends as the block does in every invocation
(`Stmt.execBlock_canonical`): the text of a kernel determines what it does.
-/

set_option autoImplicit false

namespace TensorKernels

namespace Stmt

open TensorKernels.Expr (Atomic Delimits Unsigned delimits_cons atomic_of_isIdentifier atomic_of_mem_reserved
  dropPrefix?_append dropPrefix?_cons reserved unsigned_of_isIdentifier unsigned_text)

mutual

/-- The names are identifiers and the literals are finite. -/
def Legible : Stmt → Prop
  | .letDecl name value => isIdentifier name = true ∧ value.Legible
  | .varDecl name value => isIdentifier name = true ∧ value.Legible
  | .assign name value => isIdentifier name = true ∧ value.Legible
  | .store buffer i value => isIdentifier buffer = true ∧ i.Legible ∧ value.Legible
  | .forLoop var _ body => isIdentifier var = true ∧ BlockLegible body
  | .ifThen cond body => cond.Legible ∧ BlockLegible body
  | .ret => True

/-- All statements of a block are legible. -/
def BlockLegible : List Stmt → Prop
  | [] => True
  | s :: rest => s.Legible ∧ BlockLegible rest

end

mutual

/-- The statement with all expressions in canonical form. -/
def canonical : Stmt → Stmt
  | .letDecl name value => .letDecl name value.canonical
  | .varDecl name value => .varDecl name value.canonical
  | .assign name value => .assign name value.canonical
  | .store buffer i value => .store buffer i.canonical value.canonical
  | .forLoop var count body => .forLoop var count (canonicalBlock body)
  | .ifThen cond body => .ifThen cond.canonical (canonicalBlock body)
  | .ret => .ret

/-- The block with all expressions in canonical form. -/
def canonicalBlock : List Stmt → List Stmt
  | [] => []
  | s :: rest => s.canonical :: canonicalBlock rest

end

/-! ## The reader -/

section Reader

variable (readExpr : List Char → Option (Expr × List Char))
  (readBody : List Char → Option (List Stmt × List Char)) (close : List Char)

/-- Reads the value that ends a statement, and the end of the line. -/
def readValue (make : Expr → Stmt) (cs : List Char) : Option (Stmt × List Char) :=
  (readExpr cs).bind fun (value, cs) => (cs.dropPrefix? [';', '\n']).map (make value, ·)

/-- Reads a block in braces, of which the closing one stands on a line of its own. -/
def readBraces (make : List Stmt → Stmt) (cs : List Char) : Option (Stmt × List Char) :=
  (cs.dropPrefix? [' ', '\x7b', '\n']).bind fun cs => (readBody cs).bind fun (body, cs) =>
    (cs.dropPrefix? close).map (make body, ·)

/-- Reads a declaration after its keyword. -/
def readDecl (make : String → Expr → Stmt) (cs : List Char) : Option (Stmt × List Char) :=
  (cs.dropPrefix? [' ']).bind fun cs =>
    ((cs.dropWhile isAtomChar).dropPrefix? [' ', '=', ' ']).bind
      (readValue readExpr (make (String.ofList (cs.takeWhile isAtomChar))))

/-- What stands between the variable of a loop and the number of its passes. -/
def loopStart (var : List Char) : List Char := ' ' :: ("= 0u; ".toList ++ (var ++ " < ".toList))

/-- What stands between the number of passes of a loop and its body. -/
def loopStep (var : List Char) : List Char :=
  ';' :: ' ' :: (var ++ (" = ".toList ++ (var ++ " + 1u)".toList)))

/-- Reads a loop from the number of its passes on. -/
def readPasses (var cs : List Char) : Option (Stmt × List Char) :=
  ((cs.dropWhile isAtomChar).dropPrefix? (loopStep var)).bind
    (readBraces readBody close
      (.forLoop (String.ofList var) (Nat.ofDigitChars 10 (cs.takeWhile isAtomChar).dropLast 0)))

/-- Reads a loop after its keyword. -/
def readLoop (cs : List Char) : Option (Stmt × List Char) :=
  (cs.dropPrefix? [' ']).bind fun cs => (cs.dropPrefix? "(var ".toList).bind fun cs =>
    ((cs.dropWhile isAtomChar).dropPrefix? (loopStart (cs.takeWhile isAtomChar))).bind
      (readPasses readBody close (cs.takeWhile isAtomChar))

/-- Reads a condition after its keyword. -/
def readCond (cs : List Char) : Option (Stmt × List Char) :=
  (cs.dropPrefix? [' ']).bind fun cs => (readExpr cs).bind fun (cond, cs) =>
    readBraces readBody close (.ifThen cond) cs

/-- Reads a statement after the keyword that opens it. -/
def readKeyword (name : String) (cs : List Char) : Option (Stmt × List Char) :=
  match name with
  | "let" => readDecl readExpr .letDecl cs
  | "var" => readDecl readExpr .varDecl cs
  | "for" => readLoop readBody close cs
  | "if" => readCond readExpr readBody close cs
  | "return" => (cs.dropPrefix? [';', '\n']).map (.ret, ·)
  | _ => none

/-- Reads a statement after the name that it begins with. -/
def readNamed (name : String) : List Char → Option (Stmt × List Char)
  | ' ' :: '=' :: ' ' :: cs => readValue readExpr (.assign name) cs
  | '[' :: cs =>
    (readExpr cs).bind fun (i, cs) => (cs.dropPrefix? [']', ' ', '=', ' ']).bind
      (readValue readExpr (.store name i))
  | cs => readKeyword readExpr readBody close name cs

/-- Reads a statement after the indentation. -/
def readLine (cs : List Char) : Option (Stmt × List Char) :=
  readNamed readExpr readBody close (String.ofList (cs.takeWhile isAtomChar)) (cs.dropWhile isAtomChar)

end Reader

/-- The line that closes the block of a statement at a depth. -/
def closing (depth : ℕ) : List Char := (indent depth).toList ++ ['\x7d', '\n']

/-- Reads an expression in a line. -/
def exprReader (literal? : List Char → Option Float32) (cs : List Char) : Option (Expr × List Char) :=
  Expr.read literal? (cs.length + 1) cs

/-- Reads the statements at a depth of indentation; what follows them is left. -/
def readBlock (literal? : List Char → Option Float32) : ℕ → ℕ → List Char → Option (List Stmt × List Char)
  | 0, _, _ => none
  | fuel + 1, depth, cs =>
    match cs.dropPrefix? (indent depth).toList with
    | some (c :: tail) =>
      (readLine (exprReader literal?) (readBlock literal? fuel (depth + 1)) (closing depth) (c :: tail)).bind
        fun (s, cs) => (readBlock literal? fuel depth cs).map fun (rest, cs) => (s :: rest, cs)
    | _ => some ([], cs)

/-! ## Lines -/

attribute [local simp] text blockText

section Lines

variable {readExpr : List Char → Option (Expr × List Char)}
  {readBody : List Char → Option (List Stmt × List Char)} {close : List Char}

/-- The reader of expressions reads this one back from its text. -/
def Reads (readExpr : List Char → Option (Expr × List Char)) (e : Expr) : Prop :=
  ∀ rest, Delimits rest → readExpr (e.text.toList ++ rest) = some (e.canonical, rest)

/-- An expression up to the end of its line is read back. -/
theorem readValue_text {e : Expr} (he : Reads readExpr e) (make : Expr → Stmt) (rest : List Char) :
    readValue readExpr make (e.text.toList ++ ';' :: '\n' :: rest) = some (make e.canonical, rest) := by
  rw [readValue, he _ (delimits_cons _ (by decide))]
  show (List.dropPrefix? ([';', '\n'] ++ rest) [';', '\n']).map _ = _
  rw [dropPrefix?_append]
  rfl

/-- A block in braces is read back. -/
theorem readBraces_text {body : List Stmt} {cs rest : List Char}
    (hbody : readBody cs = some (body, close ++ rest)) (make : List Stmt → Stmt) :
    readBraces readBody close make (' ' :: '\x7b' :: '\n' :: cs) = some (make body, rest) := by
  show ((List.dropPrefix? ([' ', '\x7b', '\n'] ++ cs) [' ', '\x7b', '\n']).bind _) = _
  rw [dropPrefix?_append, Option.bind_some, hbody, Option.bind_some]
  dsimp only
  rw [dropPrefix?_append]
  rfl

/-- A line is read as its first name and what follows it. -/
theorem readLine_atomic {name : String} (hname : Atomic name.toList) {c : Char} (hc : isAtomChar c = false)
    (rest : List Char) : readLine readExpr readBody close (name.toList ++ c :: rest) =
      readNamed readExpr readBody close name (c :: rest) := by
  have hrest : ∀ d, (c :: rest).head? = some d → isAtomChar d = false := by
    rintro d ⟨⟩
    exact hc
  obtain ⟨htake, hdrop⟩ := hname.takeWhile hrest
  rw [readLine, htake, hdrop, String.ofList_toList]

/-- Where neither ` = ` nor a bracket follows the first name, it is a keyword. -/
theorem readLine_keyword {name : String} (hname : Atomic name.toList) {c : Char} (hc : isAtomChar c = false)
    (hbracket : c ≠ '[') {rest : List Char} (hrest : c = ' ' → rest.head? ≠ some '=') :
    readLine readExpr readBody close (name.toList ++ c :: rest) =
      readKeyword readExpr readBody close name (c :: rest) := by
  rw [readLine_atomic hname hc, readNamed]
  · rintro tail ⟨⟩
    exact hrest rfl rfl
  · rintro tail ⟨⟩
    exact hbracket rfl

/-- A declaration is read back. -/
theorem readDecl_text {name : String} (hname : isIdentifier name = true) {e : Expr} (he : Reads readExpr e)
    (make : String → Expr → Stmt) (rest : List Char) :
    readDecl readExpr make
      (' ' :: (name.toList ++ ' ' :: '=' :: ' ' :: (e.text.toList ++ ';' :: '\n' :: rest))) =
      some (make name e.canonical, rest) := by
  have hblank : ∀ tail : List Char, ∀ c, (' ' :: tail).head? = some c → isAtomChar c = false := by
    rintro tail c ⟨⟩
    rfl
  obtain ⟨htake, hdrop⟩ := (atomic_of_isIdentifier hname).takeWhile
    (hblank ('=' :: ' ' :: (e.text.toList ++ ';' :: '\n' :: rest)))
  rw [readDecl, dropPrefix?_cons, Option.bind_some, htake, hdrop]
  have hsign := dropPrefix?_append [' ', '=', ' '] (e.text.toList ++ ';' :: '\n' :: rest)
  rw [List.cons_append, List.cons_append, List.cons_append, List.nil_append] at hsign
  rw [hsign, Option.bind_some, readValue_text he, String.ofList_toList]

/-- A line that begins with the keyword of a declaration. -/
theorem readLine_decl (keyword : String) (make : String → Expr → Stmt) (hkeyword : Atomic keyword.toList)
    (hread : ∀ cs, readKeyword readExpr readBody close keyword cs = readDecl readExpr make cs) {name : String}
    (hname : isIdentifier name = true) {e : Expr} (he : Reads readExpr e) (rest : List Char) :
    readLine readExpr readBody close (keyword.toList ++
      ' ' :: (name.toList ++ ' ' :: '=' :: ' ' :: (e.text.toList ++ ';' :: '\n' :: rest))) =
      some (make name e.canonical, rest) := by
  rw [readLine_keyword hkeyword rfl (by decide) fun _ => ((unsigned_of_isIdentifier hname).append _).2, hread]
  exact readDecl_text hname he make rest

/-- A condition with its block is read back. -/
theorem readCond_text {cond : Expr} (hcond : Reads readExpr cond) {body : List Stmt} {cs rest : List Char}
    (hbody : readBody cs = some (body, close ++ rest)) :
    readCond readExpr readBody close (' ' :: (cond.text.toList ++ ' ' :: '\x7b' :: '\n' :: cs)) =
      some (.ifThen cond.canonical body, rest) := by
  rw [readCond, dropPrefix?_cons, Option.bind_some, hcond _ (delimits_cons _ (by decide)), Option.bind_some]
  exact readBraces_text hbody (.ifThen cond.canonical)

/-- The number of rounds of a loop, with its block, is read back. -/
theorem readPasses_text (var : String) (count : ℕ) {body : List Stmt} {cs rest : List Char}
    (hbody : readBody cs = some (body, close ++ rest)) :
    readPasses readBody close var.toList
      ((toString count).toList ++ ['u'] ++ (loopStep var.toList ++ ' ' :: '\x7b' :: '\n' :: cs)) =
      some (.forLoop var count body, rest) := by
  have hstep : ∀ c, (loopStep var.toList ++ ' ' :: '\x7b' :: '\n' :: cs).head? = some c →
      isAtomChar c = false := by
    rintro c ⟨⟩
    rfl
  obtain ⟨hatomic, -⟩ := Expr.readAtom_word (fun _ => none) count
  obtain ⟨htake, hdrop⟩ := hatomic.takeWhile hstep
  rw [readPasses, htake, hdrop, dropPrefix?_append, Option.bind_some, List.dropLast_concat,
    (Number.toString_digits count).2.2, String.ofList_toList]
  exact readBraces_text hbody (.forLoop var count)

/-- The head of a loop, with its block, is read back. -/
theorem readLoop_text {var : String} (hvar : isIdentifier var = true) (count : ℕ) {body : List Stmt}
    {cs rest : List Char} (hbody : readBody cs = some (body, close ++ rest)) :
    readLoop readBody close (' ' :: ("(var ".toList ++ (var.toList ++ (loopStart var.toList ++
      ((toString count).toList ++ ['u'] ++ (loopStep var.toList ++ ' ' :: '\x7b' :: '\n' :: cs)))))) =
      some (.forLoop var count body, rest) := by
  have hstart : ∀ tail c, (loopStart var.toList ++ tail).head? = some c → isAtomChar c = false := by
    rintro tail c ⟨⟩
    rfl
  obtain ⟨htake, hdrop⟩ := (atomic_of_isIdentifier hvar).takeWhile (hstart _)
  rw [readLoop, dropPrefix?_cons, Option.bind_some, dropPrefix?_append, Option.bind_some, htake, hdrop,
    dropPrefix?_append, Option.bind_some]
  exact readPasses_text var count hbody

end Lines

/-! ## Blocks -/

section Blocks

variable {literal? : List Char → Option Float32} {fuel depth : ℕ}

/-- The statement is read back from its text, in canonical form. -/
def ReadsBack (literal? : List Char → Option Float32) (fuel depth : ℕ) (s : Stmt) : Prop :=
  ∀ rest, ∃ line, (s.text depth).toList ++ rest = (indent depth).toList ++ line ∧
    readLine (exprReader literal?) (readBlock literal? fuel (depth + 1)) (closing depth) line =
      some (s.canonical, rest)

/-- What follows a block: nothing, or the line that closes a block around it. -/
def Closes (depth : ℕ) (rest : List Char) : Prop :=
  rest = [] ∨ ∃ outer < depth, ∃ tail, rest = closing outer ++ tail

/-- The block is read back from its text, in canonical form. -/
def BlockReadsBack (literal? : List Char → Option Float32) (fuel depth : ℕ) (b : List Stmt) : Prop :=
  ∀ rest, Closes depth rest →
    readBlock literal? fuel depth ((blockText depth b).toList ++ rest) = some (canonicalBlock b, rest)

namespace ReadsBack

/-- Constants are read back. -/
theorem letDecl {name : String} (hname : isIdentifier name = true) {e : Expr}
    (he : Reads (exprReader literal?) e) : (Stmt.letDecl name e).ReadsBack literal? fuel depth := by
  intro rest
  have hkeyword : Atomic "let".toList := atomic_of_mem_reserved (by simp [reserved])
  refine ⟨_, ?_, readLine_decl "let" .letDecl hkeyword (fun _ => rfl) hname he rest⟩
  simp

/-- Variables are read back. -/
theorem varDecl {name : String} (hname : isIdentifier name = true) {e : Expr}
    (he : Reads (exprReader literal?) e) : (Stmt.varDecl name e).ReadsBack literal? fuel depth := by
  intro rest
  have hkeyword : Atomic "var".toList := atomic_of_mem_reserved (by simp [reserved])
  refine ⟨_, ?_, readLine_decl "var" .varDecl hkeyword (fun _ => rfl) hname he rest⟩
  simp

/-- Assignments are read back. -/
theorem assign {name : String} (hname : isIdentifier name = true) {e : Expr}
    (he : Reads (exprReader literal?) e) : (Stmt.assign name e).ReadsBack literal? fuel depth := by
  intro rest
  refine ⟨name.toList ++ ' ' :: '=' :: ' ' :: (e.text.toList ++ ';' :: '\n' :: rest), by simp, ?_⟩
  rw [readLine_atomic (atomic_of_isIdentifier hname) rfl]
  exact readValue_text he (.assign name) rest

/-- Stores are read back. -/
theorem store {buffer : String} (hbuffer : isIdentifier buffer = true) {i e : Expr}
    (hi : Reads (exprReader literal?) i) (he : Reads (exprReader literal?) e) :
    (Stmt.store buffer i e).ReadsBack literal? fuel depth := by
  intro rest
  refine ⟨buffer.toList ++
    '[' :: (i.text.toList ++ ']' :: ' ' :: '=' :: ' ' :: (e.text.toList ++ ';' :: '\n' :: rest)), by simp, ?_⟩
  rw [readLine_atomic (atomic_of_isIdentifier hbuffer) rfl, readNamed, hi _ (delimits_cons _ (by decide)),
    Option.bind_some]
  have hsign := dropPrefix?_append [']', ' ', '=', ' '] (e.text.toList ++ ';' :: '\n' :: rest)
  dsimp only [List.cons_append, List.nil_append] at hsign ⊢
  rw [hsign, Option.bind_some]
  exact readValue_text he (.store buffer i.canonical) rest

/-- Loops are read back if their bodies are. -/
theorem forLoop {var : String} (hvar : isIdentifier var = true) (count : ℕ) {body : List Stmt}
    (hbody : BlockReadsBack literal? fuel (depth + 1) body) :
    (Stmt.forLoop var count body).ReadsBack literal? fuel depth := by
  intro rest
  refine ⟨"for".toList ++ ' ' :: ("(var ".toList ++ (var.toList ++ (loopStart var.toList ++
    ((toString count).toList ++ ['u'] ++ (loopStep var.toList ++ ' ' :: '\x7b' :: '\n' ::
      ((blockText (depth + 1) body).toList ++ (closing depth ++ rest))))))), ?_, ?_⟩
  · simp [loopStart, loopStep, closing]
  · rw [readLine_keyword (atomic_of_mem_reserved (by simp [reserved])) rfl (by decide) fun _ => by simp]
    exact readLoop_text hvar count (hbody _ (.inr ⟨depth, Nat.lt_succ_self depth, rest, rfl⟩))

/-- Branches are read back if their bodies are. -/
theorem ifThen {cond : Expr} (hcond : Reads (exprReader literal?) cond)
    (hunsigned : Unsigned cond.text.toList) {body : List Stmt}
    (hbody : BlockReadsBack literal? fuel (depth + 1) body) :
    (Stmt.ifThen cond body).ReadsBack literal? fuel depth := by
  intro rest
  refine ⟨"if".toList ++ ' ' :: (cond.text.toList ++ ' ' :: '\x7b' :: '\n' ::
    ((blockText (depth + 1) body).toList ++ (closing depth ++ rest))), by simp [closing], ?_⟩
  rw [readLine_keyword (atomic_of_mem_reserved (by simp [reserved])) rfl (by decide)
    fun _ => (hunsigned.append _).2]
  exact readCond_text hcond (hbody _ (.inr ⟨depth, Nat.lt_succ_self depth, rest, rfl⟩))

/-- Returns are read back. -/
theorem ret : Stmt.ret.ReadsBack literal? fuel depth := by
  intro rest
  refine ⟨"return".toList ++ ';' :: '\n' :: rest, by simp, ?_⟩
  rw [readLine_keyword (atomic_of_mem_reserved (by simp [reserved])) rfl (by decide) fun h => by cases h]
  show (List.dropPrefix? ([';', '\n'] ++ rest) [';', '\n']).map _ = _
  rw [dropPrefix?_append]
  rfl

end ReadsBack

/-- Each level is indented by four blanks. -/
theorem toList_indent (depth : ℕ) : (indent depth).toList = List.replicate (4 * depth) ' ' := by
  induction depth with
  | zero => rfl
  | succ depth ih =>
    have hsucc : indent (depth + 1) = "    " ++ indent depth := by
      simp [indent, List.replicate_succ]
    rw [hsucc, String.toList_append, ih, Nat.mul_succ, Nat.add_comm, List.replicate_add]
    simp

/-- A line that closes a block does not have the indentation of the block. -/
theorem Closes.dropPrefix?_ne {rest : List Char} (h : Closes depth rest) (c : Char) (tail : List Char) :
    rest.dropPrefix? (indent depth).toList ≠ some (c :: tail) := by
  intro hdrop
  obtain ⟨start, rfl, hstart⟩ := List.dropPrefix?_eq_some_iff.1 hdrop
  rw [beq_iff_eq.1 hstart, toList_indent] at h
  rcases h with h | ⟨outer, houter, tail', h⟩
  · simp at h
  · -- After the indentation of the outer block stands a brace, where the inner block is still indented.
    have hchar := congrArg (·[4 * outer]?) h
    simp [closing, toList_indent, List.getElem?_append, houter] at hchar

namespace BlockReadsBack

/-- The end of a block is read back. -/
theorem nil : BlockReadsBack literal? (fuel + 1) depth [] := by
  intro rest hrest
  show readBlock literal? (fuel + 1) depth rest = _
  rw [readBlock]
  split
  · next c tail hdrop => exact absurd hdrop (hrest.dropPrefix?_ne c tail)
  · rfl

/-- A statement before others is read back. -/
theorem cons {s : Stmt} (hs : s.ReadsBack literal? fuel depth) {b : List Stmt}
    (hb : BlockReadsBack literal? fuel depth b) : BlockReadsBack literal? (fuel + 1) depth (s :: b) := by
  intro rest hrest
  obtain ⟨line, hline, hread⟩ := hs ((blockText depth b).toList ++ rest)
  have hlist : (blockText depth (s :: b)).toList ++ rest = (indent depth).toList ++ line := by
    rw [blockText, String.toList_append, List.append_assoc, hline]
  cases line with
  | nil => cases hread
  | cons c tail =>
    rw [hlist, readBlock, dropPrefix?_append]
    dsimp only
    rw [hread, Option.bind_some]
    dsimp only
    rw [hb rest hrest]
    rfl

end BlockReadsBack

/-- No statement has an empty text. -/
theorem length_text_pos (depth : ℕ) (s : Stmt) : 0 < (s.text depth).toList.length := by
  cases s <;> simp

/-- Legible expressions are read back, however long their texts are. -/
theorem reads_exprReader (hliteral : Expr.ReadsLiterals literal?) {e : Expr} (he : e.Legible) :
    Reads (exprReader literal?) e := by
  intro rest hrest
  refine Expr.readsBack hliteral he ?_ rest hrest
  rw [List.length_append]
  omega

/-- A legible statement is read back from its text where legible blocks are that are shorter. -/
theorem readsBack (hliteral : Expr.ReadsLiterals literal?)
    (hblocks : ∀ b depth, BlockLegible b → (blockText depth b).toList.length < fuel →
      BlockReadsBack literal? fuel depth b)
    {s : Stmt} (hs : s.Legible) (hfuel : (s.text depth).toList.length ≤ fuel) :
    s.ReadsBack literal? fuel depth := by
  cases s with
  | letDecl name e => exact .letDecl hs.1 (reads_exprReader hliteral hs.2)
  | varDecl name e => exact .varDecl hs.1 (reads_exprReader hliteral hs.2)
  | assign name e => exact .assign hs.1 (reads_exprReader hliteral hs.2)
  | store buffer i e =>
    exact .store hs.1 (reads_exprReader hliteral hs.2.1) (reads_exprReader hliteral hs.2.2)
  | forLoop var count body =>
    have hlength : (blockText (depth + 1) body).toList.length <
        ((Stmt.forLoop var count body).text depth).toList.length := by
      simp
      omega
    exact .forLoop hs.1 count (hblocks body (depth + 1) hs.2 (by omega))
  | ifThen cond body =>
    have hlength : (blockText (depth + 1) body).toList.length <
        ((Stmt.ifThen cond body).text depth).toList.length := by
      simp
      omega
    exact .ifThen (reads_exprReader hliteral hs.1) (unsigned_text hs.1)
      (hblocks body (depth + 1) hs.2 (by omega))
  | ret => exact .ret

/-- Every legible block is read back from its text. -/
theorem blockReadsBack (hliteral : Expr.ReadsLiterals literal?) {b : List Stmt} (hb : BlockLegible b)
    (hfuel : (blockText depth b).toList.length < fuel) : BlockReadsBack literal? fuel depth b := by
  -- By induction on the fuel: a statement is not empty, so its body and the statements after it are shorter.
  induction fuel generalizing b depth with
  | zero => omega
  | succ fuel ih =>
    cases b with
    | nil => exact .nil
    | cons s b =>
      have hlength : (blockText depth (s :: b)).toList.length =
          (s.text depth).toList.length + (blockText depth b).toList.length := by
        simp
      have hpos := length_text_pos depth s
      have hs : s.ReadsBack literal? fuel depth :=
        readsBack hliteral (fun _ _ hb hfuel => ih hb hfuel) hb.1 (by omega)
      exact .cons hs (ih hb.2 (by omega))

end Blocks

/-! ## Canonical forms -/

mutual

/-- The canonical form of a statement has the same text. -/
theorem text_canonical : ∀ (s : Stmt) (depth : ℕ), s.Legible → s.canonical.text depth = s.text depth
  | .letDecl _ _, _, hs => by rw [canonical, text, text, Expr.text_canonical hs.2]
  | .varDecl _ _, _, hs => by rw [canonical, text, text, Expr.text_canonical hs.2]
  | .assign _ _, _, hs => by rw [canonical, text, text, Expr.text_canonical hs.2]
  | .store _ _ _, _, hs => by
    rw [canonical, text, text, Expr.text_canonical hs.2.1, Expr.text_canonical hs.2.2]
  | .forLoop _ _ body, depth, hs => by
    rw [canonical, text, text, blockText_canonical body (depth + 1) hs.2]
  | .ifThen _ body, depth, hs => by
    rw [canonical, text, text, Expr.text_canonical hs.1, blockText_canonical body (depth + 1) hs.2]
  | .ret, _, _ => rfl

/-- The canonical form has the text of the block. -/
theorem blockText_canonical :
    ∀ (b : List Stmt) (depth : ℕ), BlockLegible b → blockText depth (canonicalBlock b) = blockText depth b
  | [], _, _ => rfl
  | s :: b, depth, hb => by
    rw [canonicalBlock, blockText, blockText, text_canonical s depth hb.1, blockText_canonical b depth hb.2]

end

/-- Texts at one depth are equal exactly where canonical forms are. -/
theorem blockText_eq_iff {b b' : List Stmt} (hb : BlockLegible b) (hb' : BlockLegible b') (depth : ℕ) :
    blockText depth b = blockText depth b' ↔ canonicalBlock b = canonicalBlock b' := by
  constructor
  · intro htext
    obtain ⟨literal?, hliteral⟩ := Expr.exists_literal_reader
    have hread : ∀ b, BlockLegible b →
        readBlock literal? ((blockText depth b).toList.length + 1) depth ((blockText depth b).toList ++ []) =
          some (canonicalBlock b, []) :=
      fun b hb => blockReadsBack hliteral hb (Nat.lt_succ_self _) [] (.inl rfl)
    have hsame := hread b hb
    rw [htext, hread b' hb', Option.some.injEq, Prod.mk.injEq] at hsame
    exact hsame.1.symm
  · intro hcanonical
    rw [← blockText_canonical b depth hb, ← blockText_canonical b' depth hb', hcanonical]

section Execution

variable {α : Type} {ops : Arithmetic α}

mutual

/-- The canonical form of a statement does the same. -/
theorem exec_canonical (hops : ops.NegatesLiterals) :
    ∀ (s : Stmt) (inv : Invocation α), s.Legible → s.canonical.exec ops inv = s.exec ops inv
  | .letDecl _ _, inv, hs => by rw [canonical, exec, exec, Expr.eval_canonical hops inv hs.2]
  | .varDecl _ _, inv, hs => by rw [canonical, exec, exec, Expr.eval_canonical hops inv hs.2]
  | .assign _ _, inv, hs => by rw [canonical, exec, exec, Expr.eval_canonical hops inv hs.2]
  | .store _ _ _, inv, hs => by
    rw [canonical, exec, exec, Expr.storeOperands, Expr.storeOperands, Expr.eval_canonical hops inv hs.2.1,
      Expr.eval_canonical hops inv hs.2.2]
  | .forLoop _ _ body, inv, hs => by
    have hbody : (fun inv => execBlock ops inv (canonicalBlock body)) = fun inv => execBlock ops inv body :=
      funext fun inv => execBlock_canonical hops body inv hs.2
    rw [canonical, exec, exec, hbody]
  | .ifThen _ body, inv, hs => by
    rw [canonical, exec, exec, Expr.evalCond, Expr.evalCond, Expr.eval_canonical hops inv hs.1,
      execBlock_canonical hops body inv hs.2]
  | .ret, _, _ => rfl

/-- The canonical form ends as the block does, with the same state and the same fault. -/
theorem execBlock_canonical (hops : ops.NegatesLiterals) :
    ∀ (b : List Stmt) (inv : Invocation α), BlockLegible b →
      execBlock ops inv (canonicalBlock b) = execBlock ops inv b
  | [], _, _ => rfl
  | s :: b, inv, hb => by
    have hrest : (fun inv => execBlock ops inv (canonicalBlock b)) = fun inv => execBlock ops inv b :=
      funext fun inv => execBlock_canonical hops b inv hb.2
    rw [canonicalBlock, execBlock, execBlock, exec_canonical hops s inv hb.1, hrest]

end

end Execution

end Stmt

/-- Binary32 negates a literal by changing its sign. -/
theorem Arithmetic.binary32_negatesLiterals : Arithmetic.binary32.NegatesLiterals :=
  fun _ _ => rfl

/-- The text of a program determines what it does. Two expressions, or two blocks at one depth, have equal
texts exactly where they are equal but for negations of literals that the other writes with the sign bit set;
then they have the same value or fault, and end in the same way, in every invocation. -/
theorem equal_texts_run_alike {α : Type} (ops : Arithmetic α) (hops : ops.NegatesLiterals) :
    (∀ e e' : Expr, e.Legible → e'.Legible →
      (e.text = e'.text ↔ e.canonical = e'.canonical) ∧
        (e.text = e'.text → ∀ s, e.eval ops s = e'.eval ops s)) ∧
    ∀ (depth : ℕ) (b b' : List Stmt), Stmt.BlockLegible b → Stmt.BlockLegible b' →
      (Stmt.blockText depth b = Stmt.blockText depth b' ↔ Stmt.canonicalBlock b = Stmt.canonicalBlock b') ∧
        (Stmt.blockText depth b = Stmt.blockText depth b' →
          ∀ s, Stmt.execBlock ops s b = Stmt.execBlock ops s b') := by
  refine ⟨fun e e' he he' => ⟨Expr.text_eq_iff he he', fun htext s => ?_⟩,
    fun depth b b' hb hb' => ⟨Stmt.blockText_eq_iff hb hb' depth, fun htext s => ?_⟩⟩
  · rw [← Expr.eval_canonical hops s he, (Expr.text_eq_iff he he').1 htext, Expr.eval_canonical hops s he']
  · rw [← Stmt.execBlock_canonical hops b s hb, (Stmt.blockText_eq_iff hb hb' depth).1 htext,
      Stmt.execBlock_canonical hops b' s hb']

/-- Adds to an offset the elements of `x` up to the index. -/
def offsetSums (offset : Expr) : List Stmt :=
  [.boundsGuard 8, .varDecl "total" offset,
    .forLoop "k" 8 [.ifThen (Expr.index.ge (.var "k")) [.accumulate "total" (.load "x" (.var "k"))]],
    .store "out" .index (.var "total")]

/-- The sample blocks are legible if their offset is. -/
theorem legible_offsetSums {offset : Expr} (h : offset.Legible) : Stmt.BlockLegible (offsetSums offset) := by
  have htotal : isIdentifier "total" = true := by decide +kernel
  have hk : isIdentifier "k" = true := by decide +kernel
  have hx : isIdentifier "x" = true := by decide +kernel
  have hout : isIdentifier "out" = true := by decide +kernel
  exact ⟨⟨⟨trivial, trivial⟩, trivial, trivial⟩, ⟨htotal, h⟩,
    ⟨hk, ⟨⟨trivial, hk⟩, ⟨htotal, htotal, hx, hk⟩, trivial⟩, trivial⟩, ⟨hout, trivial, htotal⟩, trivial⟩

/-- An offset below zero gives one text, whether it is a negated literal or has the sign bit set. -/
theorem offsetSums_run_alike :
    Stmt.blockText 1 (offsetSums (.unary .neg (.float 0.5))) = Stmt.blockText 1 (offsetSums (.float (-0.5))) ∧
      ∀ s, Stmt.execBlock Arithmetic.binary32 s (offsetSums (.unary .neg (.float 0.5))) =
        Stmt.execBlock Arithmetic.binary32 s (offsetSums (.float (-0.5))) := by
  have hfinite : (0.5 : Float32).isFinite = true := by decide +kernel
  have hnegated : Stmt.BlockLegible (offsetSums (.unary .neg (.float 0.5))) := legible_offsetSums hfinite
  have hsigned : Stmt.BlockLegible (offsetSums (.float (-0.5))) :=
    legible_offsetSums (Binary32.isFinite_neg hfinite)
  have htext : Stmt.blockText 1 (offsetSums (.unary .neg (.float 0.5))) =
      Stmt.blockText 1 (offsetSums (.float (-0.5))) := by
    decide +kernel
  exact ⟨htext, ((equal_texts_run_alike Arithmetic.binary32 Arithmetic.binary32_negatesLiterals).2 1 _ _
    hnegated hsigned).2 htext⟩

end TensorKernels
