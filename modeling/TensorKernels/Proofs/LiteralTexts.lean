import TensorKernels.Number.Text
import TensorKernels.Proofs.RoundingIntervals

/-!
# Texts of literals

The text of a finite literal begins with a digit, or with a minus sign where the sign bit is set
(`Number.literal_eq`), and is made of digits, a decimal point and an exponent.

Read as a decimal (`Number.readDecimal`), the text gives the digits it was written from, positional or with an
exponent. These are the shortest digits of the value, which round to it, so two finite values have different
texts (`Number.literal_injective`).
-/

set_option autoImplicit false

namespace TensorKernels.Number

/-! ## Reading decimals -/

/-- The integer that digits stand for, after a minus sign or not. -/
def readInt : List Char → ℤ
  | '-' :: cs => -Nat.ofDigitChars 10 cs 0
  | cs => Nat.ofDigitChars 10 cs 0

/-- The rational that a text without a sign stands for: digits around a decimal point, then an exponent. -/
def readDecimal (cs : List Char) : ℚ :=
  let mantissa := cs.takeWhile (· ≠ 'e')
  let exponent := (cs.dropWhile (· ≠ 'e')).drop 1
  let whole := mantissa.takeWhile (· ≠ '.')
  let fraction := (mantissa.dropWhile (· ≠ '.')).drop 1
  Nat.ofDigitChars 10 (whole ++ fraction) 0 * 10 ^ (readInt exponent - fraction.length)

/-- All characters are digits. -/
def Digits (cs : List Char) : Prop := ∀ c ∈ cs, c.isDigit = true

/-- A number is written in digits. -/
theorem digits_toDigits (n : ℕ) : Digits (Nat.toDigits 10 n) :=
  fun _ hc => Nat.isDigit_of_mem_toDigits (by decide) (by decide) hc

/-- Zeros are digits. -/
theorem digits_zeros (n : ℕ) : Digits (List.replicate n '0') := by
  intro c hc
  rw [(List.mem_replicate.1 hc).2]
  rfl

/-- Digits followed by digits are digits. -/
theorem Digits.append {cs ds : List Char} (hc : Digits cs) (hd : Digits ds) : Digits (cs ++ ds) := by
  intro c h
  rcases List.mem_append.1 h with h | h
  · exact hc c h
  · exact hd c h

/-- The text of an integer is read back. -/
theorem readInt_toString (n : ℤ) : readInt (toString n).toList = n := by
  rw [Int.toString_eq_repr, Int.repr_eq_if]
  split
  · next h =>
    rw [Nat.toList_repr]
    have hne : ∀ cs, Nat.toDigits 10 n.toNat ≠ '-' :: cs := by
      intro cs hcs
      have hdigit := digits_toDigits n.toNat '-' (hcs ▸ List.mem_cons_self)
      cases hdigit
    unfold readInt
    split
    · next cs hcs => exact absurd hcs (hne cs)
    · rw [Nat.ofDigitChars_ten_toDigits]
      omega
  · next h =>
    rw [String.toList_append, Nat.toList_repr]
    show -(Nat.ofDigitChars 10 (Nat.toDigits 10 (-n).toNat) 0 : ℤ) = n
    rw [Nat.ofDigitChars_ten_toDigits]
    omega

/-- Whether a character may stand in a literal. -/
def isLiteralChar (c : Char) : Bool := c.isDigit || c = '.' || c = 'e' || c = '-'

/-- How a number is written: digits, a decimal point with more digits or not, an exponent or not. -/
structure Spells (cs : List Char) (q : ℚ) : Prop where
  parts : ∃ whole mark fraction tail, ∃ e : ℤ, cs = whole ++ mark ++ fraction ++ tail ∧ whole ≠ [] ∧
    Digits whole ∧ Digits fraction ∧ (mark = ['.'] ∨ mark = [] ∧ fraction = []) ∧
    (tail = [] ∧ e = 0 ∨ tail = 'e' :: (toString e).toList) ∧
    q = Nat.ofDigitChars 10 (whole ++ fraction) 0 * 10 ^ (e - fraction.length)

/-- Digits occur in literals. -/
theorem Digits.isLiteralChar {cs : List Char} (h : Digits cs) : ∀ c ∈ cs, isLiteralChar c = true := by
  intro c hc
  simp [Number.isLiteralChar, h c hc]

/-- The characters of an exponent occur in literals. -/
theorem isLiteralChar_toString (e : ℤ) : ∀ c ∈ (toString e).toList, isLiteralChar c = true := by
  rw [Int.toString_eq_repr, Int.repr_eq_if]
  split
  · rw [Nat.toList_repr]
    exact (digits_toDigits _).isLiteralChar
  · rw [String.toList_append, Nat.toList_repr]
    intro c hc
    rcases List.mem_cons.1 hc with rfl | hc
    · rfl
    · exact (digits_toDigits _).isLiteralChar c hc

namespace Spells

variable {cs : List Char} {q : ℚ}

/-- Everything in the spelling of a number occurs in literals. -/
theorem isLiteralChar (h : Spells cs q) : ∀ c ∈ cs, isLiteralChar c = true := by
  obtain ⟨whole, mark, fraction, tail, e, rfl, -, hwhole, hfraction, hmark, htail, -⟩ := h.parts
  intro c hc
  simp only [List.mem_append] at hc
  rcases hc with ((hc | hc) | hc) | hc
  · exact hwhole.isLiteralChar c hc
  · rcases hmark with rfl | ⟨rfl, -⟩
    · rw [List.mem_singleton.1 hc]
      rfl
    · cases hc
  · exact hfraction.isLiteralChar c hc
  · rcases htail with ⟨rfl, -⟩ | rfl
    · cases hc
    · rcases List.mem_cons.1 hc with rfl | hc
      · rfl
      · exact isLiteralChar_toString e c hc

/-- The spelling of a number starts with a digit. -/
theorem head_isDigit (h : Spells cs q) : ∃ c rest, cs = c :: rest ∧ c.isDigit = true := by
  obtain ⟨whole, mark, fraction, tail, e, rfl, hne, hwhole, -⟩ := h.parts
  cases whole with
  | nil => exact absurd rfl hne
  | cons c whole => exact ⟨c, whole ++ mark ++ fraction ++ tail, rfl, hwhole c List.mem_cons_self⟩

/-- A number can be read off its spelling. -/
theorem readDecimal_eq (h : Spells cs q) : readDecimal cs = q := by
  obtain ⟨whole, mark, fraction, tail, e, rfl, -, hwhole, hfraction, hmark, htail, rfl⟩ := h.parts
  have hdigit : ∀ {ds : List Char}, Digits ds → ∀ d : Char, d.isDigit = false →
      ∀ c ∈ ds, (c ≠ d : Bool) = true := by
    intro ds hds d hd c hc
    rw [decide_eq_true_eq]
    rintro rfl
    exact Bool.false_ne_true (hd.symm.trans (hds c hc))
  -- the exponent begins at the only `e`
  have hmantissa : ∀ c ∈ whole ++ mark ++ fraction, (c ≠ 'e' : Bool) = true := by
    intro c hc
    simp only [List.mem_append] at hc
    rcases hc with (hc | hc) | hc
    · exact hdigit hwhole 'e' rfl c hc
    · rcases hmark with rfl | ⟨rfl, -⟩
      · rw [List.mem_singleton.1 hc]
        rfl
      · cases hc
    · exact hdigit hfraction 'e' rfl c hc
  have hstop : tail.takeWhile (· ≠ 'e') = [] ∧ tail.dropWhile (· ≠ 'e') = tail := by
    rcases htail with ⟨rfl, -⟩ | rfl
    · exact ⟨rfl, rfl⟩
    · exact ⟨rfl, rfl⟩
  have hexponent : readInt (tail.drop 1) = e := by
    rcases htail with ⟨rfl, rfl⟩ | rfl
    · rfl
    · exact readInt_toString e
  -- the fraction begins at the point
  have hpoint : (mark ++ fraction).takeWhile (· ≠ '.') = [] ∧
      ((mark ++ fraction).dropWhile (· ≠ '.')).drop 1 = fraction := by
    rcases hmark with rfl | ⟨rfl, rfl⟩
    · exact ⟨rfl, rfl⟩
    · exact ⟨rfl, rfl⟩
  have hwhole' := hdigit hwhole '.' rfl
  unfold readDecimal
  dsimp only
  rw [List.takeWhile_append_of_pos hmantissa, List.dropWhile_append_of_pos hmantissa, hstop.1, hstop.2,
    List.append_nil, hexponent, List.append_assoc, List.takeWhile_append_of_pos hwhole',
    List.dropWhile_append_of_pos hwhole', hpoint.1, hpoint.2, List.append_nil]

end Spells

/-! ## Texts of decimals -/

/-- What the text of a natural number is made of. -/
theorem toString_digits (n : ℕ) : (toString n).toList ≠ [] ∧ Digits (toString n).toList ∧
    Nat.ofDigitChars 10 (toString n).toList 0 = n := by
  rw [Nat.toString_eq_repr, Nat.toList_repr]
  exact ⟨Nat.toDigits_ne_nil, digits_toDigits n, Nat.ofDigitChars_ten_toDigits⟩

/-- A positional text is the number it was written from. -/
theorem spells_positional (d : Decimal) : Spells (positional d ".0").toList d.value := by
  obtain ⟨hne, hdigits, hvalue⟩ := toString_digits d.digits
  unfold positional Decimal.value
  dsimp only
  rw [← String.length_toList]
  generalize toString d.digits = s at *
  split
  · next hpoint =>
    -- the digits stand behind the point
    refine ⟨['0'], ['.'], List.replicate (-(s.toList.length + d.exponent)).toNat '0' ++ s.toList, [], 0, ?_,
      by simp, digits_zeros 1, (digits_zeros _).append hdigits, .inl rfl, .inl ⟨rfl, rfl⟩, ?_⟩
    · simp [zeros]
    · have hexponent : (0 : ℤ) -
          (List.replicate (-(s.toList.length + d.exponent)).toNat '0' ++ s.toList).length = d.exponent := by
        rw [List.length_append, List.length_replicate]
        omega
      rw [hexponent, Nat.ofDigitChars_append, Nat.ofDigitChars_append]
      simp [Nat.ofDigitChars_replicate_zero, Nat.ofDigitChars_cons, hvalue]
  · split
    · next hpoint =>
      -- the digits stand before the point
      obtain ⟨z, hz⟩ := Int.eq_ofNat_of_zero_le (show 0 ≤ d.exponent by omega)
      rw [hz, add_sub_cancel_left, Int.toNat_natCast, zpow_natCast]
      refine ⟨s.toList ++ List.replicate z '0', ['.'], ['0'], [], 0, by simp [zeros], by simp [hne],
        hdigits.append (digits_zeros _), digits_zeros 1, .inl rfl, .inl ⟨rfl, rfl⟩, ?_⟩
      rw [Nat.ofDigitChars_append, Nat.ofDigitChars_append, hvalue, Nat.ofDigitChars_replicate_zero]
      have hlast : Nat.ofDigitChars 10 ['0'] (10 ^ z * d.digits) = 10 * (10 ^ z * d.digits) := by
        simp [Nat.ofDigitChars_cons]
      rw [hlast, List.length_singleton, Nat.cast_one, zero_sub, zpow_neg_one]
      push_cast
      ring
    · next hlow hhigh =>
      -- the point stands among the digits
      have hexponent :
          (0 : ℤ) - (s.toList.drop (s.toList.length + d.exponent).toNat).length = d.exponent := by
        rw [List.length_drop]
        omega
      refine ⟨s.toList.take (s.toList.length + d.exponent).toNat, ['.'],
        s.toList.drop (s.toList.length + d.exponent).toNat, [], 0, by simp, ?_,
        fun c hc => hdigits c (List.mem_of_mem_take hc), fun c hc => hdigits c (List.mem_of_mem_drop hc),
        .inl rfl, .inl ⟨rfl, rfl⟩, ?_⟩
      · rw [ne_eq, List.take_eq_nil_iff]
        rintro (h | h)
        · omega
        · exact hne h
      · rw [hexponent, List.take_append_drop, hvalue]

/-- A text with an exponent is the number it was written from. -/
theorem spells_exponential (d : Decimal) : Spells (exponential d).toList d.value := by
  obtain ⟨hne, hdigits, hvalue⟩ := toString_digits d.digits
  unfold exponential Decimal.value
  dsimp only
  rw [← String.length_toList]
  generalize toString d.digits = s at *
  obtain ⟨c, cs, hs⟩ := List.exists_cons_of_ne_nil hne
  rw [hs] at hdigits hvalue ⊢
  have hexponent : ((c :: cs).length + d.exponent - 1 : ℤ) - cs.length = d.exponent := by
    rw [List.length_cons]
    push_cast
    ring
  refine ⟨[c], if cs = [] then [] else ['.'], cs,
    'e' :: (toString ((c :: cs).length + d.exponent - 1)).toList, (c :: cs).length + d.exponent - 1,
    ?_, by simp, ?_, ?_, ?_, .inr rfl, ?_⟩
  · by_cases hcs : cs = []
    · simp [hcs]
    · simp [hcs]
  · intro c' hc'
    exact hdigits c' (List.mem_singleton.1 hc' ▸ List.mem_cons_self)
  · exact fun c' hc' => hdigits c' (List.mem_cons_of_mem c hc')
  · by_cases hcs : cs = []
    · exact .inr ⟨if_pos hcs, hcs⟩
    · exact .inl (if_neg hcs)
  · rw [hexponent, List.singleton_append, hvalue]

/-! ## Texts of literals -/

/-- The text of a magnitude. -/
def magnitudeText (b : Binary32) : String :=
  if b.significand = 0 then "0.0"
  else
    let d := Decimal.shortest b
    let point := (toString d.digits).length + d.exponent
    if -3 ≤ point && point ≤ 16 then positional d ".0" else exponential d

/-- The text of a finite literal: its magnitude, after a minus sign where the sign bit is set. -/
theorem literal_eq {x : Float32} (hx : x.isFinite = true) :
    literal x =
      (if (Binary32.ofFloat x).negative then "-" else "") ++ magnitudeText (Binary32.ofFloat x) := by
  obtain ⟨hnan, hinf⟩ := Binary32.not_isNaN_of_isFinite hx
  unfold literal signed
  rw [hnan, hinf]
  rfl

/-- The text of a magnitude is a number that rounds to it. -/
theorem spells_magnitudeText {b : Binary32} (hb : b.Standard) :
    ∃ q, Spells (magnitudeText b).toList q ∧ (b.significand = 0 → q = 0) ∧
      (0 < b.significand → b.Rounds q) := by
  unfold magnitudeText
  split
  · next hzero =>
    refine ⟨0, ⟨['0'], ['.'], ['0'], [], 0, rfl, by simp, digits_zeros 1, digits_zeros 1, .inl rfl,
      .inl ⟨rfl, rfl⟩, ?_⟩, fun _ => rfl, ?_⟩
    · simp [Nat.ofDigitChars_cons]
    · omega
  · next hpos =>
    have hrounds := Decimal.shortest_rounds hb (Nat.pos_of_ne_zero hpos)
    refine ⟨(Decimal.shortest b).value, ?_, fun h => absurd h hpos, fun _ => hrounds⟩
    dsimp only
    split
    · exact spells_positional _
    · exact spells_exponential _

/-- Magnitudes with the same text are equal. -/
theorem magnitudeText_injective {b c : Binary32} (hb : b.Standard) (hc : c.Standard)
    (h : magnitudeText b = magnitudeText c) :
    b.significand = c.significand ∧ b.exponent = c.exponent := by
  obtain ⟨q, hq, hzero, hrounds⟩ := spells_magnitudeText hb
  obtain ⟨q', hq', hzero', hrounds'⟩ := spells_magnitudeText hc
  have hsame : q = q' := by
    rw [← hq.readDecimal_eq, ← hq'.readDecimal_eq, h]
  subst hsame
  rcases Nat.eq_zero_or_pos b.significand with hb0 | hb0 <;>
    rcases Nat.eq_zero_or_pos c.significand with hc0 | hc0
  · -- a zero has the smallest unit
    have hexponent := hb.minExponent_le
    have hexponent' := hc.minExponent_le
    have hleading := hb.leading
    have hleading' := hc.leading
    exact ⟨hb0.trans hc0.symm, by omega⟩
  · exact absurd (hzero hb0) ((hrounds' hc0).pos hc0).ne'
  · exact absurd (hzero' hc0) ((hrounds hb0).pos hb0).ne'
  · exact (hrounds hb0).unique hb hc (hrounds' hc0)

/-- A literal whose sign bit is clear begins with a digit and is made of what may stand in a literal. -/
theorem literal_chars {x : Float32} (hx : x.isFinite = true) (hsign : (Binary32.ofFloat x).negative = false) :
    (∃ c rest, (literal x).toList = c :: rest ∧ c.isDigit = true) ∧
      ∀ c ∈ (literal x).toList, isLiteralChar c = true := by
  obtain ⟨q, hq, -⟩ := spells_magnitudeText (Binary32.standard_ofFloat x)
  have hlist : (literal x).toList = (magnitudeText (Binary32.ofFloat x)).toList := by
    rw [literal_eq hx, hsign]
    simp
  rw [hlist]
  exact ⟨hq.head_isDigit, hq.isLiteralChar⟩

/-- A set sign bit puts a minus sign in front. -/
theorem literal_neg {x : Float32} (hx : x.isFinite = true) (hsign : (Binary32.ofFloat x).negative = false) :
    literal (-x) = "-" ++ literal x := by
  rw [literal_eq (Binary32.isFinite_neg hx), literal_eq hx, Binary32.ofFloat_neg hx, hsign]
  rfl

/-- Finite literals with the same text are equal. -/
theorem literal_injective {x y : Float32} (hx : x.isFinite = true) (hy : y.isFinite = true)
    (h : literal x = literal y) : x = y := by
  obtain ⟨q, hq, -⟩ := spells_magnitudeText (Binary32.standard_ofFloat x)
  obtain ⟨q', hq', -⟩ := spells_magnitudeText (Binary32.standard_ofFloat y)
  obtain ⟨c, rest, hc, hdigit⟩ := hq.head_isDigit
  obtain ⟨c', rest', hc', hdigit'⟩ := hq'.head_isDigit
  rw [literal_eq hx, literal_eq hy] at h
  -- a magnitude begins with a digit, which is no minus sign
  have hsign : (Binary32.ofFloat x).negative = (Binary32.ofFloat y).negative := by
    have hlist := congrArg String.toList h
    rw [String.toList_append, String.toList_append, hc, hc'] at hlist
    cases hn : (Binary32.ofFloat x).negative <;> cases hn' : (Binary32.ofFloat y).negative
    · rfl
    · rw [hn, hn'] at hlist
      cases hlist
      cases hdigit
    · rw [hn, hn'] at hlist
      cases hlist
      cases hdigit'
    · rfl
  rw [hsign] at h
  obtain ⟨hsignificand, hexponent⟩ := magnitudeText_injective (Binary32.standard_ofFloat x)
    (Binary32.standard_ofFloat y) (String.append_right_inj _ |>.1 h)
  apply Binary32.ofFloat_injective
  cases hbx : Binary32.ofFloat x
  cases hby : Binary32.ofFloat y
  rw [hbx, hby] at hsign hsignificand hexponent
  cases hsign
  cases hsignificand
  cases hexponent
  rfl

end TensorKernels.Number
