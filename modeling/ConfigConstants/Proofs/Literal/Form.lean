import ConfigConstants.Proofs.Literal.Scientific

/-!
The five forms of a literal: a text in quotes, a boolean word, digits that fit into an integer, any
other numeral, and whatever is left. They are told apart by how the literal is written, not by the
order in which a reader asks for them. The main statements are that every literal has exactly one
form, and what the value of a literal is in each, if its digits and points can be counted.
-/

set_option autoImplicit false

namespace ConfigConstants

namespace Numeral

def HasSign (text : Text) : Prop :=
  text.head? = some '-' ∨ text.head? = some '+'

theorem isDigits_iff_all {text : Text} : IsDigits text ↔ text.all Char.isDigit = true :=
  List.all_eq_true.symm

theorem unsigned_of_not_hasSign {text : Text} (noSign : ¬ HasSign text) : unsigned text = text := by
  unfold unsigned
  split
  · exact absurd (Or.inl rfl) noSign
  · exact absurd (Or.inr rfl) noSign
  · rfl

theorem isDigits_of_accepts {text : Text} (accepted : accepts text = true)
    (noSign : ¬ HasSign text) (noPoint : '.' ∉ text) : IsDigits text := by
  have charsFit := (accepts_iff.mp accepted).1
  rw [unsigned_of_not_hasSign noSign] at charsFit
  intro char member
  apply (charsFit char member).resolve_right
  rintro rfl
  exact noPoint member

theorem ne_nil_of_accepts {text : Text} (accepted : accepts text = true) : text ≠ [] := by
  rintro rfl
  contradiction

theorem accepts_of_isDigits {text : Text} (allDigits : IsDigits text) (nonempty : text ≠ []) :
    accepts text = true :=
  accepts_of_isDecimal (.whole (Or.inl rfl) allDigits nonempty)

theorem not_hasSign_of_isDigits {text : Text} (allDigits : IsDigits text) : ¬ HasSign text := by
  rintro (minus | plus)
  · exact absurd (allDigits '-' (List.mem_of_head? minus)) (by decide)
  · exact absurd (allDigits '+' (List.mem_of_head? plus)) (by decide)

end Numeral

namespace Scalar

open Numeral (accepts IsDigits HasSign naturalValue)

/-- How a literal is written. -/
inductive Form where
  | quoted
  | boolean
  | integer
  | float
  | plain
  deriving DecidableEq

/-- Which literals have the form. -/
def Form.Fits (literal : Text) : Form → Prop
  | .quoted => ∃ (quote : Quote) (inner : Text), literal = quote.wrap inner
  | .boolean => literal = trueWord ∨ literal = falseWord
  | .integer => IsDigits literal ∧ literal ≠ [] ∧ naturalValue literal ≤ largestInteger
  | .float =>
      accepts literal = true ∧
        (HasSign literal ∨ '.' ∈ literal ∨ largestInteger < naturalValue literal)
  | .plain =>
      (∀ (quote : Quote) (inner : Text), literal ≠ quote.wrap inner) ∧ literal ≠ trueWord ∧
        literal ≠ falseWord ∧ accepts literal = false

theorem isInteger_iff {literal : Text} :
    isInteger literal = true ↔ IsDigits literal ∧ naturalValue literal ≤ largestInteger := by
  rw [isInteger, Bool.and_eq_true, decide_eq_true_iff, Numeral.isDigits_iff_all]

theorem Form.accepts_of_fits_integer {literal : Text} (fits : Form.integer.Fits literal) :
    accepts literal = true :=
  Numeral.accepts_of_isDigits fits.1 fits.2.1

theorem Form.fits_integer_iff {literal : Text} :
    Form.integer.Fits literal ↔ accepts literal = true ∧ isInteger literal = true := by
  rw [isInteger_iff]
  constructor
  · intro fits
    exact ⟨accepts_of_fits_integer fits, fits.1, fits.2.2⟩
  · rintro ⟨accepted, allDigits, small⟩
    exact ⟨allDigits, Numeral.ne_nil_of_accepts accepted, small⟩

theorem Form.fits_float_iff {literal : Text} :
    Form.float.Fits literal ↔ accepts literal = true ∧ isInteger literal = false := by
  have noInteger : isInteger literal = false ↔
      ¬ (IsDigits literal ∧ naturalValue literal ≤ largestInteger) := by
    rw [← isInteger_iff, Bool.not_eq_true]
  rw [noInteger]
  constructor
  · rintro ⟨accepted, signed | pointed | large⟩
    · exact ⟨accepted, fun integer => Numeral.not_hasSign_of_isDigits integer.1 signed⟩
    · exact ⟨accepted, fun integer => Numeral.point_notMem_of_isDigits integer.1 pointed⟩
    · exact ⟨accepted, fun integer => Nat.not_lt_of_le integer.2 large⟩
  · rintro ⟨accepted, noInteger⟩
    refine ⟨accepted, ?_⟩
    by_cases signed : HasSign literal
    · exact Or.inl signed
    by_cases pointed : '.' ∈ literal
    · exact Or.inr (Or.inl pointed)
    have allDigits := Numeral.isDigits_of_accepts accepted signed pointed
    exact Or.inr (Or.inr (Nat.lt_of_not_le fun small => noInteger ⟨allDigits, small⟩))

theorem unwrap?_eq_none_iff {literal : Text} :
    Quote.unwrap? literal = none ↔
      ∀ (quote : Quote) (inner : Text), literal ≠ quote.wrap inner := by
  constructor
  · rintro noLayer quote inner rfl
    rw [Quote.unwrap?_wrap] at noLayer
    contradiction
  · intro noLayer
    apply Option.eq_none_iff_forall_ne_some.mpr
    intro inner isWrapped
    obtain ⟨quote, same⟩ := Quote.unwrap?_eq_some_iff.mp isWrapped
    exact noLayer quote inner same

theorem unwrap?_and_accepts_of_word {literal : Text}
    (isWord : literal = trueWord ∨ literal = falseWord) :
    Quote.unwrap? literal = none ∧ accepts literal = false := by
  rcases isWord with rfl | rfl
  · decide
  · decide

/-- The form of a literal, found by asking for one after the other. -/
def Form.of (literal : Text) : Form :=
  if (Quote.unwrap? literal).isSome then .quoted
  else if literal = trueWord ∨ literal = falseWord then .boolean
  else if accepts literal then if isInteger literal then .integer else .float
  else .plain

theorem Form.of_of_accepts {literal : Text} (accepted : accepts literal = true) :
    Form.of literal = if isInteger literal then .integer else .float := by
  have charsFit := (Numeral.accepts_iff.mp accepted).1
  rw [Form.of, unwrap?_of_fits charsFit, Option.isSome_none, if_neg Bool.false_ne_true,
    if_neg (not_or.mpr (not_word_of_fits charsFit)), if_pos accepted]

theorem Form.eq_of_of_fits {literal : Text} {form : Form} (fits : form.Fits literal) :
    form = Form.of literal := by
  cases form with
  | quoted =>
      obtain ⟨quote, inner, rfl⟩ := fits
      rw [Form.of, Quote.unwrap?_wrap, Option.isSome_some, if_pos rfl]
  | boolean =>
      have isWord : literal = trueWord ∨ literal = falseWord := fits
      rw [Form.of, (unwrap?_and_accepts_of_word isWord).1, Option.isSome_none,
        if_neg Bool.false_ne_true, if_pos isWord]
  | integer =>
      obtain ⟨accepted, integer⟩ := fits_integer_iff.mp fits
      rw [of_of_accepts accepted, if_pos integer]
  | float =>
      obtain ⟨accepted, noInteger⟩ := fits_float_iff.mp fits
      rw [of_of_accepts accepted, noInteger, if_neg Bool.false_ne_true]
  | plain =>
      obtain ⟨noLayer, notTrue, notFalse, rejected⟩ := fits
      rw [Form.of, unwrap?_eq_none_iff.mpr noLayer, Option.isSome_none,
        if_neg Bool.false_ne_true, if_neg (not_or.mpr ⟨notTrue, notFalse⟩), rejected,
        if_neg Bool.false_ne_true]

theorem Form.fits_of (literal : Text) : (Form.of literal).Fits literal := by
  unfold Form.of
  split
  · next hasLayer =>
      obtain ⟨inner, isWrapped⟩ := Option.isSome_iff_exists.mp hasLayer
      obtain ⟨quote, same⟩ := Quote.unwrap?_eq_some_iff.mp isWrapped
      exact ⟨quote, inner, same⟩
  next noLayer =>
  split
  · next isWord => exact isWord
  next noWord =>
  split
  · next accepted =>
      split
      · next integer => exact fits_integer_iff.mpr ⟨accepted, integer⟩
      · next noInteger => exact fits_float_iff.mpr ⟨accepted, eq_false_of_ne_true noInteger⟩
  · next rejected =>
      rw [Option.not_isSome_iff_eq_none] at noLayer
      rw [not_or] at noWord
      exact ⟨unwrap?_eq_none_iff.mp noLayer, noWord.1, noWord.2, eq_false_of_ne_true rejected⟩

theorem Form.existsUnique_fits (literal : Text) :
    ∃ form : Form, form.Fits literal ∧ ∀ other : Form, other.Fits literal → other = form :=
  ⟨Form.of literal, fits_of literal, fun _ fits => eq_of_of_fits fits⟩

/-- The value of a literal of the form. -/
def Form.Yields (literal : Text) (value : Scalar) : Form → Prop
  | .quoted => ∀ (quote : Quote) (inner : Text), literal = quote.wrap inner → value = .text inner
  | .boolean => value = .boolean (decide (literal = trueWord))
  | .integer => ∃ number, value = .integer number ∧ number.toInt = naturalValue literal
  | .float => value = .float (Numeral.nearest literal)
  | .plain => value = .text literal

theorem toInt_ofNat_of_le {number : Nat} (fits : number ≤ largestInteger) :
    (Int64.ofNat number).toInt = number :=
  Int64.toInt_ofNat_of_lt (Nat.lt_succ_of_le fits)

/-- The value of a literal of less than `2 ^ 31` bytes is the one that its form has. -/
theorem Form.yields_ofLiteral {literal : Text} (short : Text.utf8Length literal < 0x80000000)
    {form : Form} (fits : form.Fits literal) : form.Yields literal (ofLiteral literal) := by
  have counted := Numeral.countedAccepts_eq_accepts short
  cases form with
  | quoted =>
      rintro quote inner rfl
      exact ofLiteral_wrap quote inner
  | boolean =>
      rcases fits with rfl | rfl
      · rfl
      · rfl
  | integer =>
      obtain ⟨accepted, integer⟩ := fits_integer_iff.mp fits
      refine ⟨Int64.ofNat (naturalValue literal), ?_, toInt_ofNat_of_le fits.2.2⟩
      rw [ofLiteral_of_countedAccepts (counted.trans accepted), ofNumeral, if_pos integer]
  | float =>
      obtain ⟨accepted, noInteger⟩ := fits_float_iff.mp fits
      exact ofLiteral_eq_float_iff.mpr
        ⟨counted.trans accepted, Numeral.isDecimal_of_accepts accepted, noInteger, rfl⟩
  | plain =>
      obtain ⟨noLayer, notTrue, notFalse, rejected⟩ := fits
      rw [Form.Yields, ofLiteral, unwrap?_eq_none_iff.mpr noLayer]
      simp only [ofBare, if_neg notTrue, if_neg notFalse, counted, rejected,
        if_neg Bool.false_ne_true]

end Scalar

end ConfigConstants
