import TensorKernels.Kernel.Eval
import TensorKernels.Proofs.LiteralTexts

/-!
# Reading expressions back

The text of an expression is read by `Expr.read`, character by character: a parenthesis opens a negation or
an infix operator, a name before a bracket or a parenthesis is a buffer or a function, and anything else is a
word, a literal, a variable or the index. How literals are read is left open; as distinct literals have
distinct texts, some function does it (`Expr.exists_literal_reader`).

An expression whose names are identifiers and whose literals are finite is read back from its text, whatever
follows it (`Expr.readsBack`), up to one ambiguity: the text of a negated literal is that of the literal with
the sign bit set. `Expr.canonical` always writes the latter, so texts are equal exactly where canonical forms
are (`Expr.text_eq_iff`). The canonical form has the value of the expression (`Expr.eval_canonical`).
-/

set_option autoImplicit false

namespace TensorKernels

/-- The negation of a finite literal is the literal with the other sign. -/
def Arithmetic.NegatesLiterals {α : Type} (ops : Arithmetic α) : Prop :=
  ∀ x : Float32, x.isFinite = true → ops.neg (ops.lit x) = ops.lit (-x)

/-! ## Names and literals -/

/-- Whether a character may stand in an identifier: an ASCII letter or digit, an underscore, or any character
outside ASCII. -/
def isIdentifierChar (c : Char) : Bool := c.isAlphanum || c = '_' || 128 ≤ c.toNat

/-- Whether a string is an identifier other than that of the invocation index. -/
def isIdentifier (name : String) : Bool :=
  name.toList.all isIdentifierChar && name.toList.head?.any (fun c => !c.isDigit) && name ≠ "index"

/-- Whether a character may stand in a name, a word or a literal. -/
def isAtomChar (c : Char) : Bool := isIdentifierChar c || c = '.' || c = '-'

namespace Expr

/-- The names are identifiers and the literals are finite. -/
def Legible : Expr → Prop
  | .float x => x.isFinite = true
  | .word _ => True
  | .index => True
  | .var name => isIdentifier name = true
  | .load buffer i => isIdentifier buffer = true ∧ i.Legible
  | .unary _ x => x.Legible
  | .binary _ a b => a.Legible ∧ b.Legible
  | .select c t e => c.Legible ∧ t.Legible ∧ e.Legible
  | .clamp v l h => v.Legible ∧ l.Legible ∧ h.Legible

/-- The negation of an expression; for a literal with a clear sign bit, the literal with the sign bit set. -/
def negated : Expr → Expr
  | .float x => if (Binary32.ofFloat x).negative then .unary .neg (.float x) else .float (-x)
  | e => .unary .neg e

/-- The expression with the negation of every literal whose sign bit is clear written as the literal with the
sign bit set. A word is a number modulo `2 ^ 32`. -/
def canonical : Expr → Expr
  | .float x => .float x
  | .word n => .word (n % 2 ^ 32)
  | .index => .index
  | .var name => .var name
  | .load buffer i => .load buffer i.canonical
  | .unary .neg x => x.canonical.negated
  | .unary f x => .unary f x.canonical
  | .binary f a b => .binary f a.canonical b.canonical
  | .select c t e => .select c.canonical t.canonical e.canonical
  | .clamp v l h => .clamp v.canonical l.canonical h.canonical

/-! ## The reader -/

/-- Reads an infix operator with the blanks around it. -/
def readOperator : List Char → Option (BinaryFn × List Char)
  | ' ' :: '+' :: ' ' :: cs => some (.add, cs)
  | ' ' :: '-' :: ' ' :: cs => some (.sub, cs)
  | ' ' :: '*' :: ' ' :: cs => some (.mul, cs)
  | ' ' :: '/' :: ' ' :: cs => some (.div, cs)
  | ' ' :: '%' :: ' ' :: cs => some (.rem, cs)
  | ' ' :: '<' :: ' ' :: cs => some (.lt, cs)
  | ' ' :: '>' :: ' ' :: cs => some (.gt, cs)
  | ' ' :: '>' :: '=' :: ' ' :: cs => some (.ge, cs)
  | _ => none

/-- The application of a function that is called by its name. -/
def ofCall (name : String) (args : List Expr) : Option Expr :=
  match name, args with
  | "exp", [x] => some (.unary .exp x)
  | "log", [x] => some (.unary .log x)
  | "sqrt", [x] => some (.unary .sqrt x)
  | "tanh", [x] => some (.unary .tanh x)
  | "max", [a, b] => some (.binary .max a b)
  | "select", [e, t, c] => some (.select c t e)
  | "clamp", [v, l, h] => some (.clamp v l h)
  | _, _ => none

/-- Reads at most `n` arguments and the parenthesis that closes them. -/
def readArguments (read : List Char → Option (Expr × List Char)) :
    ℕ → List Char → Option (List Expr × List Char)
  | 0, _ => none
  | n + 1, cs =>
    (read cs).bind fun (x, cs) =>
      match cs with
      | ')' :: cs => some ([x], cs)
      | ',' :: ' ' :: cs => (readArguments read n cs).map fun (xs, cs) => (x :: xs, cs)
      | _ => none

/-- Reads an expression without operands, of which `literal?` reads the literals. -/
def readAtom (literal? : List Char → Option Float32) (cs : List Char) : Option Expr :=
  if cs.head?.any Char.isDigit then
    if cs.getLast? = some 'u' then some (.word (Nat.ofDigitChars 10 cs.dropLast 0))
    else (literal? cs).map .float
  else if cs = "index".toList then some .index
  else some (.var (String.ofList cs))

/-- Reads what follows a name: the index of a load, the arguments of a call, or nothing. -/
def readNamed (literal? : List Char → Option Float32) (read : List Char → Option (Expr × List Char))
    (name : List Char) : List Char → Option (Expr × List Char)
  | '[' :: cs =>
    (read cs).bind fun (i, cs) => (cs.dropPrefix? [']']).map (.load (String.ofList name) i, ·)
  | '(' :: cs =>
    (readArguments read 3 cs).bind fun (xs, cs) => (ofCall (String.ofList name) xs).map (·, cs)
  | cs => (readAtom literal? name).map (·, cs)

/-- Reads one expression, of which `read` reads the operands: a negation, an infix operator, or a name and
what follows it. -/
def readForm (literal? : List Char → Option Float32) (read : List Char → Option (Expr × List Char)) :
    List Char → Option (Expr × List Char)
  | '(' :: '-' :: cs => (read cs).bind fun (x, cs) => (cs.dropPrefix? [')']).map (x.negated, ·)
  | '(' :: cs =>
    (read cs).bind fun (a, cs) => (readOperator cs).bind fun (f, cs) =>
      (read cs).bind fun (b, cs) => (cs.dropPrefix? [')']).map (.binary f a b, ·)
  | cs => readNamed literal? read (cs.takeWhile isAtomChar) (cs.dropWhile isAtomChar)

/-- Reads an expression; what follows it is left. -/
def read (literal? : List Char → Option Float32) : ℕ → List Char → Option (Expr × List Char)
  | 0 => fun _ => none
  | fuel + 1 => readForm literal? (read literal? fuel)

/-! ## Atoms -/

/-- A text that starts with a given one loses exactly that start. -/
theorem dropPrefix?_append (start rest : List Char) : (start ++ rest).dropPrefix? start = some rest :=
  List.dropPrefix?_eq_some_iff.2 ⟨start, rfl, BEq.rfl⟩

/-- A text that starts with a given character loses exactly that character. -/
theorem dropPrefix?_cons (c : Char) (rest : List Char) : (c :: rest).dropPrefix? [c] = some rest :=
  dropPrefix?_append [c] rest

/-- What follows an expression does not continue it. -/
def Delimits (rest : List Char) : Prop := ∀ c, rest.head? = some c → isAtomChar c = false ∧ c ≠ '(' ∧ c ≠ '['

/-- The end of a text ends an atom. -/
theorem delimits_nil : Delimits [] := by
  intro c hc
  cases hc

/-- A character that can neither continue an atom nor open a bracket ends an atom. -/
theorem delimits_cons {c : Char} (rest : List Char) (hc : isAtomChar c = false ∧ c ≠ '(' ∧ c ≠ '[') :
    Delimits (c :: rest) := by
  rintro d ⟨⟩
  exact hc

/-- The characters are those of a name, a word or a literal. -/
structure Atomic (cs : List Char) : Prop where
  ne_nil : cs ≠ []
  chars : ∀ c ∈ cs, isAtomChar c = true

/-- An atom is exactly what is taken up to the first character outside of atoms. -/
theorem Atomic.takeWhile {cs : List Char} (h : Atomic cs) {rest : List Char}
    (hrest : ∀ c, rest.head? = some c → isAtomChar c = false) :
    (cs ++ rest).takeWhile isAtomChar = cs ∧ (cs ++ rest).dropWhile isAtomChar = rest := by
  rw [List.takeWhile_append_of_pos h.chars, List.dropWhile_append_of_pos h.chars]
  cases rest with
  | nil => exact ⟨List.append_nil cs, rfl⟩
  | cons c rest =>
    have hc := hrest c rfl
    simp [hc]

section Reading

variable (literal? : List Char → Option Float32) (fuel : ℕ) {cs : List Char}

/-- A text that begins with an atom is read as a name and what follows it. -/
theorem read_atomic (h : Atomic cs) {rest : List Char}
    (hrest : ∀ c, rest.head? = some c → isAtomChar c = false) :
    read literal? (fuel + 1) (cs ++ rest) = readNamed literal? (read literal? fuel) cs rest := by
  obtain ⟨c, cs', hcs⟩ := List.exists_cons_of_ne_nil h.ne_nil
  have hparen : ∀ tail, cs ++ rest ≠ '(' :: tail := by
    intro tail htail
    rw [hcs] at htail
    cases htail
    cases h.chars '(' (hcs ▸ List.mem_cons_self)
  obtain ⟨htake, hdrop⟩ := h.takeWhile hrest
  show readForm literal? (read literal? fuel) (cs ++ rest) = _
  rw [readForm, htake, hdrop]
  · exact fun tail => hparen ('-' :: tail)
  · exact hparen

/-- An atom is read up to its end. -/
theorem read_atom (h : Atomic cs) {rest : List Char} (hrest : Delimits rest) :
    read literal? (fuel + 1) (cs ++ rest) = (readAtom literal? cs).map (·, rest) := by
  rw [read_atomic literal? fuel h fun c hc => (hrest c hc).1, readNamed]
  · rintro tail rfl
    exact (hrest '[' rfl).2.2 rfl
  · rintro tail rfl
    exact (hrest '(' rfl).2.1 rfl

/-- What follows an opening bracket without a minus sign is read as an infix operator. -/
theorem read_infix {tail : List Char} (h : tail.head? ≠ some '-') :
    read literal? (fuel + 1) ('(' :: tail) =
      (read literal? fuel tail).bind fun (a, tail) => (readOperator tail).bind fun (f, tail) =>
        (read literal? fuel tail).bind fun (b, tail) => (tail.dropPrefix? [')']).map (.binary f a b, ·) := by
  show readForm literal? (read literal? fuel) ('(' :: tail) = _
  rw [readForm]
  rintro tail' rfl
  exact h rfl

/-- What follows an opening bracket and a minus sign is read as a negation. -/
theorem read_negation (tail : List Char) :
    read literal? (fuel + 1) ('(' :: '-' :: tail) =
      (read literal? fuel tail).bind fun (x, tail) => (tail.dropPrefix? [')']).map (x.negated, ·) := rfl

end Reading

/-- Characters of identifiers occur in atoms. -/
theorem isAtomChar_of_isIdentifier {c : Char} (h : isIdentifierChar c = true) : isAtomChar c = true := by
  simp [isAtomChar, h]

/-- Digits occur in identifiers. -/
theorem isIdentifierChar_of_isDigit {c : Char} (h : c.isDigit = true) : isIdentifierChar c = true := by
  simp [isIdentifierChar, Char.isAlphanum, h]

/-- Characters of literals occur in atoms. -/
theorem isAtomChar_of_isLiteralChar {c : Char} (h : Number.isLiteralChar c = true) : isAtomChar c = true := by
  unfold Number.isLiteralChar at h
  simp only [Bool.or_eq_true, decide_eq_true_eq] at h
  rcases h with ((h | rfl) | rfl) | rfl
  · exact isAtomChar_of_isIdentifier (isIdentifierChar_of_isDigit h)
  · rfl
  · rfl
  · rfl

/-- What an identifier is made of. -/
theorem isIdentifier_iff (name : String) : isIdentifier name = true ↔
    (∀ c ∈ name.toList, isIdentifierChar c = true) ∧
      (∃ c rest, name.toList = c :: rest ∧ c.isDigit = false) ∧ name ≠ "index" := by
  unfold isIdentifier
  cases name.toList with
  | nil => simp
  | cons c rest => simp [and_assoc]

/-- An identifier is an atom. -/
theorem atomic_of_isIdentifier {name : String} (h : isIdentifier name = true) : Atomic name.toList := by
  obtain ⟨hchars, ⟨c, rest, hname, -⟩, -⟩ := (isIdentifier_iff name).1 h
  exact ⟨by rw [hname]; exact List.cons_ne_nil c rest, fun c hc => isAtomChar_of_isIdentifier (hchars c hc)⟩

/-- The index, the functions that are called by their names, and the keywords. -/
def reserved : List String :=
  ["index", "exp", "log", "sqrt", "tanh", "max", "select", "clamp", "let", "var", "for", "if", "return"]

/-- A reserved name is an atom. -/
theorem atomic_of_mem_reserved {name : String} (h : name ∈ reserved) : Atomic name.toList := by
  have hall : ∀ name ∈ reserved, name.toList ≠ [] ∧ name.toList.all isAtomChar = true := by decide +kernel
  obtain ⟨hne, hchars⟩ := hall name h
  exact ⟨hne, List.all_eq_true.1 hchars⟩

/-- An identifier that is not reserved is read as a local. -/
theorem readAtom_var (literal? : List Char → Option Float32) {name : String} (h : isIdentifier name = true) :
    readAtom literal? name.toList = some (.var name) := by
  obtain ⟨-, ⟨c, rest, hname, hc⟩, hindex⟩ := (isIdentifier_iff name).1 h
  have hne : name.toList ≠ "index".toList := fun heq => hindex (String.toList_inj.1 heq)
  unfold readAtom
  rw [if_neg (by simp [hname, hc]), if_neg hne, String.ofList_toList]

/-- A number with the suffix of words is an atom, and is read as that word. -/
theorem readAtom_word (literal? : List Char → Option Float32) (n : ℕ) :
    Atomic ((toString n).toList ++ ['u']) ∧
      readAtom literal? ((toString n).toList ++ ['u']) = some (.word n) := by
  obtain ⟨hne, hdigits, hvalue⟩ := Number.toString_digits n
  generalize (toString n).toList = ds at *
  obtain ⟨c, rest, rfl⟩ := List.exists_cons_of_ne_nil hne
  refine ⟨⟨by simp, ?_⟩, ?_⟩
  · intro d hd
    rcases List.mem_append.1 hd with hd | hd
    · exact isAtomChar_of_isIdentifier (isIdentifierChar_of_isDigit (hdigits d hd))
    · rw [List.mem_singleton.1 hd]
      rfl
  · unfold readAtom
    rw [if_pos (show (c :: rest ++ ['u']).head?.any Char.isDigit from hdigits c List.mem_cons_self),
      if_pos List.getLast?_concat, List.dropLast_concat, hvalue]

/-- The literal of a number without a sign is an atom, and is read as that number. -/
theorem readAtom_float {literal? : List Char → Option Float32} {x : Float32} (hx : x.isFinite = true)
    (hsign : (Binary32.ofFloat x).negative = false) (hread : literal? (Number.literal x).toList = some x) :
    Atomic (Number.literal x).toList ∧ readAtom literal? (Number.literal x).toList = some (.float x) := by
  obtain ⟨⟨c, rest, hcs, hc⟩, hchars⟩ := Number.literal_chars hx hsign
  refine ⟨⟨by simp [hcs], fun d hd => isAtomChar_of_isLiteralChar (hchars d hd)⟩, ?_⟩
  have hlast : (Number.literal x).toList.getLast? ≠ some 'u' := by
    intro hlast
    cases hchars 'u' (List.mem_of_getLast? hlast)
  unfold readAtom
  rw [if_pos (by simp [hcs, hc]), if_neg hlast, hread]
  rfl

/-! ## Texts are read back -/

section Calls

variable {literal? : List Char → Option Float32} {readOne : List Char → Option (Expr × List Char)}

/-- A last argument ends at the closing bracket. -/
theorem readArguments_last {x : Expr} {cs rest : List Char} (n : ℕ) (h : readOne cs = some (x, ')' :: rest)) :
    readArguments readOne (n + 1) cs = some ([x], rest) := by
  rw [readArguments, h]
  rfl

/-- An argument before others ends at the comma. -/
theorem readArguments_cons {x : Expr} {xs : List Expr} {cs cs' rest : List Char} {n : ℕ}
    (h : readOne cs = some (x, ',' :: ' ' :: cs')) (h' : readArguments readOne n cs' = some (xs, rest)) :
    readArguments readOne (n + 1) cs = some (x :: xs, rest) := by
  rw [readArguments, h]
  show (readArguments readOne n cs').map _ = _
  rw [h']
  rfl

/-- A call is read by its name and its arguments. -/
theorem read_call {name : String} (hname : Atomic name.toList) {fuel : ℕ} {args : List Expr} {e : Expr}
    {cs rest : List Char} (hargs : readArguments (read literal? fuel) 3 cs = some (args, rest))
    (hcall : ofCall name args = some e) :
    read literal? (fuel + 1) (name.toList ++ '(' :: cs) = some (e, rest) := by
  rw [read_atomic literal? fuel hname (by rintro c ⟨⟩; rfl), readNamed, hargs]
  show (ofCall (String.ofList name.toList) args).map _ = _
  rw [String.ofList_toList, hcall]
  rfl

end Calls

/-- A string is its own text. -/
theorem toString_self (s : String) : toString s = s := rfl

attribute [local simp] text unaryText binaryText toString_self

/-- A function of one scalar other than a negation is written as a call. -/
theorem unaryText_call {f : UnaryFn} (hf : f ≠ .neg) (x : String) (rest : List Char) :
    ∃ name : String, (unaryText f x).toList ++ rest = name.toList ++ '(' :: (x.toList ++ ')' :: rest) ∧
      Atomic name.toList ∧ ∀ e, ofCall name [e] = some (.unary f e) := by
  cases f with
  | neg => exact absurd rfl hf
  | exp => exact ⟨"exp", by simp, atomic_of_mem_reserved (by simp [reserved]), fun _ => rfl⟩
  | log => exact ⟨"log", by simp, atomic_of_mem_reserved (by simp [reserved]), fun _ => rfl⟩
  | sqrt => exact ⟨"sqrt", by simp, atomic_of_mem_reserved (by simp [reserved]), fun _ => rfl⟩
  | tanh => exact ⟨"tanh", by simp, atomic_of_mem_reserved (by simp [reserved]), fun _ => rfl⟩

/-- A function of two operands other than the larger one is written between them. -/
theorem binaryText_infix {f : BinaryFn} (hf : f ≠ .max) (a b : String) (rest : List Char) :
    ∃ sign : List Char, (binaryText f a b).toList ++ rest =
        '(' :: (a.toList ++ (' ' :: (sign ++ (b.toList ++ ')' :: rest)))) ∧
      ∀ cs, readOperator (' ' :: (sign ++ cs)) = some (f, cs) := by
  cases f with
  | add => exact ⟨['+', ' '], by simp, fun _ => rfl⟩
  | sub => exact ⟨['-', ' '], by simp, fun _ => rfl⟩
  | mul => exact ⟨['*', ' '], by simp, fun _ => rfl⟩
  | div => exact ⟨['/', ' '], by simp, fun _ => rfl⟩
  | rem => exact ⟨['%', ' '], by simp, fun _ => rfl⟩
  | max => exact absurd rfl hf
  | lt => exact ⟨['<', ' '], by simp, fun _ => rfl⟩
  | gt => exact ⟨['>', ' '], by simp, fun _ => rfl⟩
  | ge => exact ⟨['>', '=', ' '], by simp, fun _ => rfl⟩

/-- A literal whose sign bit is set is written as the negation of the one whose sign bit is clear. -/
theorem literalText_of_negative {x : Float32} (hx : x.isFinite = true)
    (hsign : (Binary32.ofFloat x).negative = true) :
    (Binary32.ofFloat (-x)).negative = false ∧ literalText x = "(-" ++ Number.literal (-x) ++ ")" := by
  have hclear : (Binary32.ofFloat (-x)).negative = false := by
    rw [Binary32.ofFloat_neg hx, hsign]
    rfl
  refine ⟨hclear, ?_⟩
  have hliteral := Number.literal_neg (Binary32.isFinite_neg hx) hclear
  rw [Binary32.neg_neg_of_isFinite hx] at hliteral
  unfold literalText
  rw [if_pos hsign, hliteral]
  simp [← String.toList_inj]

/-- A literal whose sign bit is clear is written as it is. -/
theorem literalText_of_not_negative {x : Float32} (hsign : (Binary32.ofFloat x).negative = false) :
    literalText x = Number.literal x := by
  unfold literalText
  rw [hsign, if_neg Bool.false_ne_true]

/-- The characters begin with neither a minus nor an equals sign. -/
def Unsigned (cs : List Char) : Prop := ∃ c, cs.head? = some c ∧ c ≠ '-' ∧ c ≠ '='

/-- An unsigned text stays so when text is added. -/
theorem Unsigned.append {cs : List Char} (h : Unsigned cs) (rest : List Char) :
    (cs ++ rest).head? ≠ some '-' ∧ (cs ++ rest).head? ≠ some '=' := by
  obtain ⟨c, hc, hminus, hequals⟩ := h
  rw [List.head?_append, hc]
  exact ⟨fun h => hminus (Option.some.inj h), fun h => hequals (Option.some.inj h)⟩

/-- A text that starts with a character of identifiers is unsigned. -/
theorem unsigned_cons {c : Char} (h : isIdentifierChar c = true) (rest : List Char) :
    Unsigned (c :: rest) := by
  refine ⟨c, rfl, ?_, ?_⟩
  · rintro rfl
    cases h
  · rintro rfl
    cases h

/-- An identifier is unsigned. -/
theorem unsigned_of_isIdentifier {name : String} (h : isIdentifier name = true) : Unsigned name.toList := by
  obtain ⟨hchars, ⟨c, rest, hname, -⟩, -⟩ := (isIdentifier_iff name).1 h
  rw [hname]
  exact unsigned_cons (hchars c (hname ▸ List.mem_cons_self)) rest

/-- The text of an expression begins with no operator. -/
theorem unsigned_text {e : Expr} (he : e.Legible) : Unsigned e.text.toList := by
  cases e with
  | float x =>
    cases hsign : (Binary32.ofFloat x).negative with
    | false =>
      obtain ⟨⟨c, rest, hcs, hc⟩, -⟩ := Number.literal_chars he hsign
      rw [text, literalText_of_not_negative hsign, hcs]
      exact unsigned_cons (isIdentifierChar_of_isDigit hc) rest
    | true =>
      obtain ⟨-, htext⟩ := literalText_of_negative he hsign
      exact ⟨'(', by simp [htext], by decide⟩
  | word n =>
    obtain ⟨hne, hdigits, -⟩ := Number.toString_digits (UInt32.ofNat n).toNat
    rw [text, String.toList_append]
    generalize (toString (UInt32.ofNat n).toNat).toList = ds at *
    obtain ⟨c, rest, rfl⟩ := List.exists_cons_of_ne_nil hne
    exact unsigned_cons (isIdentifierChar_of_isDigit (hdigits c List.mem_cons_self)) _
  | index => exact ⟨'i', by simp, by decide⟩
  | var name => exact unsigned_of_isIdentifier he
  | load buffer i =>
    obtain ⟨c, hc, hne⟩ := unsigned_of_isIdentifier he.1
    exact ⟨c, by simp [hc], hne⟩
  | unary f x => cases f <;> simp [Unsigned]
  | binary f a b => cases f <;> simp [Unsigned]
  | select c t e => simp [Unsigned]
  | clamp v l h => simp [Unsigned]

/-- The function reads the finite literals back from their texts. -/
def ReadsLiterals (literal? : List Char → Option Float32) : Prop :=
  ∀ x : Float32, x.isFinite = true → literal? (Number.literal x).toList = some x

/-- Literals can be read, as no two finite ones have the same text. -/
theorem exists_literal_reader : ∃ literal?, ReadsLiterals literal? := by
  let finite : Set Float32 := {x | x.isFinite = true}
  have hinjective : Set.InjOn (fun x => (Number.literal x).toList) finite := by
    intro x hx y hy h
    exact Number.literal_injective hx hy (String.toList_inj.1 h)
  refine ⟨fun cs => some (Function.invFunOn (fun x => (Number.literal x).toList) finite cs), ?_⟩
  intro x hx
  exact congrArg some (hinjective.leftInvOn_invFunOn hx)

/-- The expression is read back from its text, in canonical form. -/
def ReadsBack (literal? : List Char → Option Float32) (fuel : ℕ) (e : Expr) : Prop :=
  ∀ rest, Delimits rest → read literal? fuel (e.text.toList ++ rest) = some (e.canonical, rest)

namespace ReadsBack

variable {literal? : List Char → Option Float32} {fuel : ℕ}

/-- Literals are read back. -/
theorem float (hliteral : ReadsLiterals literal?) {x : Float32} (hx : x.isFinite = true) :
    (Expr.float x).ReadsBack literal? (fuel + 2) := by
  intro rest hrest
  cases hsign : (Binary32.ofFloat x).negative with
  | false =>
    obtain ⟨hatomic, hatom⟩ := readAtom_float hx hsign (hliteral x hx)
    rw [text, literalText_of_not_negative hsign, read_atom literal? _ hatomic hrest, hatom]
    rfl
  | true =>
    obtain ⟨hclear, htext⟩ := literalText_of_negative hx hsign
    have hneg := Binary32.isFinite_neg hx
    obtain ⟨hatomic, hatom⟩ := readAtom_float hneg hclear (hliteral (-x) hneg)
    have hlist : (Expr.float x).text.toList ++ rest =
        '(' :: '-' :: ((Number.literal (-x)).toList ++ ')' :: rest) := by
      simp [htext]
    rw [hlist, read_negation, read_atom literal? fuel hatomic (delimits_cons rest (by decide)), hatom]
    show (List.dropPrefix? (')' :: rest) [')']).map _ = _
    rw [dropPrefix?_cons]
    simp [negated, canonical, hclear, Binary32.neg_neg_of_isFinite hx]

/-- Words are read back. -/
theorem word (n : ℕ) : (Expr.word n).ReadsBack literal? (fuel + 1) := by
  intro rest hrest
  obtain ⟨hatomic, hatom⟩ := readAtom_word literal? (UInt32.ofNat n).toNat
  have hlist : (Expr.word n).text.toList = (toString (UInt32.ofNat n).toNat).toList ++ ['u'] := by
    rw [text, String.toList_append]
    rfl
  rw [hlist, read_atom literal? fuel hatomic hrest, hatom]
  rfl

/-- The index is read back. -/
theorem index : Expr.index.ReadsBack literal? (fuel + 1) := by
  intro rest hrest
  rw [text, read_atom literal? fuel (atomic_of_mem_reserved (by simp [reserved])) hrest]
  rfl

/-- Locals are read back. -/
theorem var {name : String} (hname : isIdentifier name = true) :
    (Expr.var name).ReadsBack literal? (fuel + 1) := by
  intro rest hrest
  rw [text, read_atom literal? fuel (atomic_of_isIdentifier hname) hrest, readAtom_var literal? hname]
  rfl

/-- Loads are read back if their positions are. -/
theorem load {buffer : String} (hbuffer : isIdentifier buffer = true) {i : Expr}
    (hi : i.ReadsBack literal? fuel) : (Expr.load buffer i).ReadsBack literal? (fuel + 1) := by
  intro rest _
  have hlist : (Expr.load buffer i).text.toList ++ rest =
      buffer.toList ++ '[' :: (i.text.toList ++ ']' :: rest) := by
    simp
  rw [hlist, read_atomic literal? fuel (atomic_of_isIdentifier hbuffer) (by rintro c ⟨⟩; rfl), readNamed,
    hi (']' :: rest) (delimits_cons rest (by decide))]
  show (List.dropPrefix? (']' :: rest) [']']).map _ = _
  rw [dropPrefix?_cons, String.ofList_toList]
  rfl

/-- Negations are read back if their operands are. -/
theorem neg {x : Expr} (hx : x.ReadsBack literal? fuel) :
    (Expr.unary .neg x).ReadsBack literal? (fuel + 1) := by
  intro rest _
  have hlist : (Expr.unary .neg x).text.toList ++ rest = '(' :: '-' :: (x.text.toList ++ ')' :: rest) := by
    simp
  rw [hlist, read_negation, hx (')' :: rest) (delimits_cons rest (by decide))]
  show (List.dropPrefix? (')' :: rest) [')']).map _ = _
  rw [dropPrefix?_cons]
  rfl

/-- Functions of one operand are read back if their operands are. -/
theorem unary {f : UnaryFn} {x : Expr} (hx : x.ReadsBack literal? fuel) :
    (Expr.unary f x).ReadsBack literal? (fuel + 1) := by
  by_cases hf : f = .neg
  · subst hf
    exact hx.neg
  · intro rest _
    obtain ⟨name, htext, hname, hcall⟩ := unaryText_call hf x.text rest
    have hcanonical : (Expr.unary f x).canonical = .unary f x.canonical := by
      cases f with
      | neg => exact absurd rfl hf
      | _ => rfl
    rw [hcanonical, text, htext]
    exact read_call hname (readArguments_last 2 (hx (')' :: rest) (delimits_cons rest (by decide)))) (hcall _)

/-- Operators of two operands are read back if their operands are. -/
theorem binary {f : BinaryFn} {a b : Expr} (ha : a.ReadsBack literal? fuel) (hb : b.ReadsBack literal? fuel)
    (hlegible : a.Legible) : (Expr.binary f a b).ReadsBack literal? (fuel + 1) := by
  intro rest _
  by_cases hf : f = .max
  · subst hf
    have hlist : (Expr.binary .max a b).text.toList ++ rest =
        "max".toList ++ '(' :: (a.text.toList ++ ',' :: ' ' :: (b.text.toList ++ ')' :: rest)) := by
      simp
    rw [hlist]
    exact read_call (atomic_of_mem_reserved (by simp [reserved]))
      (readArguments_cons (ha _ (delimits_cons _ (by decide)))
        (readArguments_last 1 (hb (')' :: rest) (delimits_cons rest (by decide))))) rfl
  · obtain ⟨sign, htext, hsign⟩ := binaryText_infix hf a.text b.text rest
    obtain ⟨hhead, -⟩ := (unsigned_text hlegible).append (' ' :: (sign ++ (b.text.toList ++ ')' :: rest)))
    rw [text, htext, read_infix literal? fuel hhead, ha _ (delimits_cons _ (by decide)), Option.bind_some]
    dsimp only
    rw [hsign, Option.bind_some]
    dsimp only
    rw [hb (')' :: rest) (delimits_cons rest (by decide)), Option.bind_some]
    dsimp only
    rw [dropPrefix?_cons]
    rfl

/-- Selections are read back if their parts are. -/
theorem select {c t e : Expr} (hc : c.ReadsBack literal? fuel) (ht : t.ReadsBack literal? fuel)
    (he : e.ReadsBack literal? fuel) : (Expr.select c t e).ReadsBack literal? (fuel + 1) := by
  intro rest _
  have hlist : (Expr.select c t e).text.toList ++ rest = "select".toList ++ '(' ::
      (e.text.toList ++ ',' :: ' ' :: (t.text.toList ++ ',' :: ' ' :: (c.text.toList ++ ')' :: rest))) := by
    simp
  rw [hlist]
  exact read_call (atomic_of_mem_reserved (by simp [reserved]))
    (readArguments_cons (he _ (delimits_cons _ (by decide)))
      (readArguments_cons (ht _ (delimits_cons _ (by decide)))
        (readArguments_last 0 (hc (')' :: rest) (delimits_cons rest (by decide)))))) rfl

/-- Clamped values are read back if their parts are. -/
theorem clamp {v l h : Expr} (hv : v.ReadsBack literal? fuel) (hl : l.ReadsBack literal? fuel)
    (hh : h.ReadsBack literal? fuel) : (Expr.clamp v l h).ReadsBack literal? (fuel + 1) := by
  intro rest _
  have hlist : (Expr.clamp v l h).text.toList ++ rest = "clamp".toList ++ '(' ::
      (v.text.toList ++ ',' :: ' ' :: (l.text.toList ++ ',' :: ' ' :: (h.text.toList ++ ')' :: rest))) := by
    simp
  rw [hlist]
  exact read_call (atomic_of_mem_reserved (by simp [reserved]))
    (readArguments_cons (hv _ (delimits_cons _ (by decide)))
      (readArguments_cons (hl _ (delimits_cons _ (by decide)))
        (readArguments_last 0 (hh (')' :: rest) (delimits_cons rest (by decide)))))) rfl

end ReadsBack

/-- Every legible expression is read back from its text. -/
theorem readsBack {literal? : List Char → Option Float32} (hliteral : ReadsLiterals literal?) {e : Expr}
    (he : e.Legible) {fuel : ℕ} (hfuel : e.text.toList.length < fuel) : e.ReadsBack literal? fuel := by
  -- By induction on the fuel: the texts of the operands are shorter by at least a parenthesis or a bracket.
  induction fuel generalizing e with
  | zero => omega
  | succ fuel ih =>
    cases e with
    | float x =>
      have hpos : 0 < (Expr.float x).text.toList.length := by
        obtain ⟨c, hc, -⟩ := unsigned_text he
        refine List.length_pos_iff.2 fun hnil => ?_
        rw [hnil] at hc
        cases hc
      obtain ⟨fuel, rfl⟩ : ∃ n, fuel = n + 1 := ⟨fuel - 1, by omega⟩
      exact .float hliteral he
    | word n => exact .word n
    | index => exact .index
    | var name => exact .var he
    | load buffer i =>
      have hlength : i.text.toList.length < (Expr.load buffer i).text.toList.length := by
        simp
        omega
      exact .load he.1 (ih he.2 (by omega))
    | unary f x =>
      have hlength : x.text.toList.length < (Expr.unary f x).text.toList.length := by
        cases f <;> simp <;> omega
      exact .unary (ih he (by omega))
    | binary f a b =>
      have hlength : a.text.toList.length + b.text.toList.length <
          (Expr.binary f a b).text.toList.length := by
        cases f <;> simp <;> omega
      exact .binary (ih he.1 (by omega)) (ih he.2 (by omega)) he.1
    | select c t e =>
      have hlength : e.text.toList.length + t.text.toList.length + c.text.toList.length <
          (Expr.select c t e).text.toList.length := by
        simp
        omega
      exact .select (ih he.1 (by omega)) (ih he.2.1 (by omega)) (ih he.2.2 (by omega))
    | clamp v l h =>
      have hlength : v.text.toList.length + l.text.toList.length + h.text.toList.length <
          (Expr.clamp v l h).text.toList.length := by
        simp
        omega
      exact .clamp (ih he.1 (by omega)) (ih he.2.1 (by omega)) (ih he.2.2 (by omega))

/-! ## Canonical forms -/

/-- Moving a sign into a literal keeps an expression legible. -/
theorem Legible.negated {e : Expr} (he : e.Legible) : e.negated.Legible := by
  cases e with
  | float x =>
    rw [Expr.negated]
    split
    · exact he
    · exact Binary32.isFinite_neg he
  | _ => exact he

/-- The canonical form of a legible expression is legible. -/
theorem Legible.canonical {e : Expr} (he : e.Legible) : e.canonical.Legible := by
  induction e with
  | float x => exact he
  | word n => exact trivial
  | index => exact trivial
  | var name => exact he
  | load buffer i ih => exact ⟨he.1, ih he.2⟩
  | unary f x ih =>
    cases f with
    | neg => exact (ih he).negated
    | exp => exact ih he
    | log => exact ih he
    | sqrt => exact ih he
    | tanh => exact ih he
  | binary f a b iha ihb => exact ⟨iha he.1, ihb he.2⟩
  | select c t e ihc iht ihe => exact ⟨ihc he.1, iht he.2.1, ihe he.2.2⟩
  | clamp v l h ihv ihl ihh => exact ⟨ihv he.1, ihl he.2.1, ihh he.2.2⟩

/-- A negated literal and the literal with the sign bit set have the same text. -/
theorem text_negated {e : Expr} (he : e.Legible) : e.negated.text = (Expr.unary .neg e).text := by
  cases e with
  | float x =>
    rw [Expr.negated]
    split
    · rfl
    · next hsign =>
      have hset : (Binary32.ofFloat (-x)).negative = true := by
        rw [Binary32.ofFloat_neg he, Bool.eq_false_iff.2 hsign]
        rfl
      obtain ⟨-, htext⟩ := literalText_of_negative (Binary32.isFinite_neg he) hset
      rw [text, htext, Binary32.neg_neg_of_isFinite he, text, text,
        literalText_of_not_negative (Bool.eq_false_iff.2 hsign)]
      rfl
  | _ => rfl

/-- A word is a number modulo `2 ^ 32`. -/
theorem ofNat_word (n : ℕ) : UInt32.ofNat (n % 2 ^ 32) = UInt32.ofNat n := UInt32.ofNat_mod_size

/-- The canonical form has the text of the expression. -/
theorem text_canonical {e : Expr} (he : e.Legible) : e.canonical.text = e.text := by
  induction e with
  | float x => rfl
  | word n => rw [canonical, text, text, ofNat_word]
  | index => rfl
  | var name => rfl
  | load buffer i ih => rw [canonical, text, text, ih he.2]
  | unary f x ih =>
    have hx : (Expr.unary f x.canonical).text = (Expr.unary f x).text := by rw [text, text, ih he]
    have hlegible : x.canonical.Legible := Legible.canonical (e := x) he
    cases f with
    | neg => exact (text_negated hlegible).trans hx
    | exp => exact hx
    | log => exact hx
    | sqrt => exact hx
    | tanh => exact hx
  | binary f a b iha ihb => rw [canonical, text, text, iha he.1, ihb he.2]
  | select c t e ihc iht ihe => rw [canonical, text, text, ihc he.1, iht he.2.1, ihe he.2.2]
  | clamp v l h ihv ihl ihh => rw [canonical, text, text, ihv he.1, ihl he.2.1, ihh he.2.2]

/-- Texts are equal exactly where canonical forms are. -/
theorem text_eq_iff {e e' : Expr} (he : e.Legible) (he' : e'.Legible) :
    e.text = e'.text ↔ e.canonical = e'.canonical := by
  constructor
  · intro htext
    obtain ⟨literal?, hliteral⟩ := exists_literal_reader
    have hread := readsBack hliteral he (Nat.lt_succ_self _) [] delimits_nil
    have hread' := readsBack hliteral he' (Nat.lt_succ_self _) [] delimits_nil
    rw [htext, hread', Option.some.injEq, Prod.mk.injEq] at hread
    exact hread.1.symm
  · intro hcanonical
    rw [← text_canonical he, ← text_canonical he', hcanonical]

section Evaluation

variable {α : Type} {ops : Arithmetic α} (hops : ops.NegatesLiterals) (s : Invocation α)
include hops

/-- Moving a sign into a literal keeps the value. -/
theorem eval_negated {e : Expr} (he : e.Legible) : e.negated.eval ops s = (Expr.unary .neg e).eval ops s := by
  cases e with
  | float x =>
    rw [negated]
    split
    · rfl
    · show Except.ok (Value.scalar (ops.lit (-x))) = .ok (.scalar (ops.neg (ops.lit x)))
      rw [hops x he]
  | _ => rfl

/-- The canonical form has the value of the expression, or its fault. -/
theorem eval_canonical {e : Expr} (he : e.Legible) : e.canonical.eval ops s = e.eval ops s := by
  induction e with
  | float x => rfl
  | word n => rw [canonical, eval, eval, ofNat_word]
  | index => rfl
  | var name => rfl
  | load buffer i ih => rw [canonical, eval, eval, ih he.2]
  | unary f x ih =>
    have hx : (Expr.unary f x.canonical).eval ops s = (Expr.unary f x).eval ops s := by
      rw [eval, eval, ih he]
    have hlegible : x.canonical.Legible := Legible.canonical (e := x) he
    cases f with
    | neg => exact (eval_negated hops s hlegible).trans hx
    | exp => exact hx
    | log => exact hx
    | sqrt => exact hx
    | tanh => exact hx
  | binary f a b iha ihb => rw [canonical, eval, eval, iha he.1, ihb he.2]
  | select c t e ihc iht ihe => rw [canonical, eval, eval, ihc he.1, iht he.2.1, ihe he.2.2]
  | clamp v l h ihv ihl ihh => rw [canonical, eval, eval, ihv he.1, ihl he.2.1, ihh he.2.2]

end Evaluation

end Expr

end TensorKernels
