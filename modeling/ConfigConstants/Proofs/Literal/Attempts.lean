import ConfigConstants.Proofs.Binary64.Rounding
import ConfigConstants.Proofs.Literal.Integer
import Mathlib.Data.List.Basic

/-!
Reading a literal by attempts, each of which may fail. One layer of either quote is tried first,
then the two words, and then, for a text that counts as a numeral, an integer if all is digits and a
double precision number otherwise; what is left over stays a text. The main statement says that this
is the value that the form of the literal has, so nothing is lost by trying: an integer fails only
by its size, a numeral is always a number in the end, and the last resort is never taken for one.
-/

set_option autoImplicit false

namespace ConfigConstants

namespace Quote

def stripOne? (text : Text) (quote : Quote) : Option Text :=
  if 2 ≤ Text.utf8Length text then do
    let behind ← text.dropPrefix? [quote.mark]
    behind.dropSuffix? [quote.mark]
  else none

/-- The first of the two quotes that the text has a layer of is taken off. -/
def strip? (text : Text) : Option Text :=
  [single, double].findSome? (stripOne? text)

theorem stripOne?_eq_some_iff {text inner : Text} {quote : Quote} :
    stripOne? text quote = some inner ↔ text = quote.wrap inner := by
  constructor
  · intro found
    unfold stripOne? at found
    split at found
    · obtain ⟨behind, atFront, atEnd⟩ := Option.bind_eq_some_iff.mp found
      obtain ⟨front, rfl, frontEq⟩ := List.dropPrefix?_eq_some_iff.mp atFront
      obtain ⟨back, rfl, backEq⟩ := List.dropSuffix?_eq_some_iff.mp atEnd
      rw [beq_iff_eq.mp frontEq, beq_iff_eq.mp backEq]
      rfl
    · contradiction
  · rintro rfl
    have twoMarks : 2 ≤ Text.utf8Length (quote.wrap inner) := by
      have length := Text.length_le_utf8Length (quote.wrap inner)
      simp only [wrap, List.length_cons, List.length_append, List.length_nil] at length ⊢
      omega
    rw [stripOne?, if_pos twoMarks]
    apply Option.bind_eq_some_iff.mpr
    refine ⟨inner ++ [quote.mark], ?_, ?_⟩
    · exact List.dropPrefix?_eq_some_iff.mpr ⟨[quote.mark], rfl, beq_self_eq_true _⟩
    · exact List.dropSuffix?_eq_some_iff.mpr ⟨[quote.mark], rfl, beq_self_eq_true _⟩

/-- It does not matter which quote is tried first, since a text has a layer of at most one. -/
theorem strip?_eq_unwrap? (text : Text) : strip? text = unwrap? text := by
  have tried : strip? text = (stripOne? text single).or (stripOne? text double) := by
    rw [strip?, List.findSome?_cons]
    cases stripOne? text single with
    | some inner => rfl
    | none =>
        rw [List.findSome?_cons]
        cases stripOne? text double with
        | some inner => rfl
        | none => rfl
  apply Option.ext
  intro inner
  rw [tried, unwrap?_eq_some_iff, Option.or_eq_some_iff, stripOne?_eq_some_iff,
    stripOne?_eq_some_iff]
  constructor
  · rintro (isSingle | ⟨_, isDouble⟩)
    · exact ⟨single, isSingle⟩
    · exact ⟨double, isDouble⟩
  · rintro ⟨quote, isWrapped⟩
    cases quote with
    | single => exact Or.inl isWrapped
    | double =>
        refine Or.inr ⟨Option.eq_none_iff_forall_ne_some.mpr fun other isSingle => ?_, isWrapped⟩
        rw [stripOne?_eq_some_iff.mp isSingle] at isWrapped
        exact absurd (List.cons.inj isWrapped).1 (by decide)

end Quote

namespace Scalar

open Numeral (accepts IsDigits naturalValue integer? countedAccepts countedAccepts? Countable)

/-- What a numeral is read as, an integer rather than a float and a float rather than a text. -/
def ofAttempts (numeral : Text) : Scalar :=
  match if numeral.all Char.isDigit then integer? numeral else none with
  | some value => .integer value
  | none =>
      match Binary64.ofText? numeral with
      | some value => .float value
      | none => .text numeral

/-- The value of a literal by attempts, unless its digits and points cannot be counted. -/
def read? (overflow : Overflow) (literal : Text) : Option Scalar :=
  match Quote.strip? literal with
  | some inner => some (.text inner)
  | none =>
      if literal = trueWord then some (.boolean true)
      else if literal = falseWord then some (.boolean false)
      else do
        if ← countedAccepts? overflow literal then return ofAttempts literal
        else return .text literal

/-- The attempts find the value of a numeral: an integer that does not fit falls to the floats. -/
theorem ofAttempts_eq_ofNumeral {numeral : Text} (nonempty : numeral ≠ []) :
    ofAttempts numeral = ofNumeral numeral := by
  rw [ofAttempts, ofNumeral, isInteger]
  cases allDigits : numeral.all Char.isDigit with
  | false => rfl
  | true =>
      rw [if_pos rfl, Bool.true_and,
        Numeral.integer?_of_isDigits (Numeral.isDigits_iff_all.mpr allDigits) nonempty]
      by_cases fits : naturalValue numeral ≤ largestInteger
      · rw [Numeral.word?_of_le fits, if_pos (decide_eq_true fits)]
      · rw [Numeral.word?_of_lt (Nat.lt_of_not_le fits)]
        exact (if_neg (by rwa [decide_eq_true_iff])).symm

theorem read?_eq (overflow : Overflow) (literal : Text) :
    read? overflow literal =
      if (Quote.unwrap? literal).isSome ∨ literal = trueWord ∨ literal = falseWord then
        some (ofLiteral literal)
      else (countedAccepts? overflow literal).map fun _ => ofLiteral literal := by
  rw [read?, ofLiteral, Quote.strip?_eq_unwrap?]
  cases Quote.unwrap? literal with
  | some inner => rfl
  | none =>
      simp only [ofBare, Option.isSome_none, Bool.false_eq_true, false_or]
      split
      · next isTrue => rw [if_pos (Or.inl isTrue)]
      next notTrue =>
      split
      · next isFalse => rw [if_pos (Or.inr isFalse)]
      next notFalse =>
      rw [if_neg (not_or.mpr ⟨notTrue, notFalse⟩)]
      cases counted : countedAccepts? overflow literal with
      | none => rfl
      | some accepted =>
          rw [Numeral.countedAccepts_of_countedAccepts? counted]
          cases accepted with
          | false => rfl
          | true =>
              have nonempty : literal ≠ [] := by
                rintro rfl
                cases overflow <;> contradiction
              simp only [Option.bind_eq_bind, Option.bind_some, if_true,
                ofAttempts_eq_ofNumeral nonempty]
              rfl

/-- Whatever overflow comes to, there is at most one value. -/
theorem ofLiteral_of_read? {overflow : Overflow} {literal : Text} {value : Scalar}
    (read : read? overflow literal = some value) : ofLiteral literal = value := by
  rw [read?_eq] at read
  split at read
  · exact Option.some.inj read
  · obtain ⟨_, _, isValue⟩ := Option.map_eq_some_iff.mp read
    exact isValue

theorem read?_of_countedAccepts? {overflow : Overflow} {literal : Text} {accepted : Bool}
    (counted : countedAccepts? overflow literal = some accepted) :
    read? overflow literal = some (ofLiteral literal) := by
  rw [read?_eq, counted]
  exact ite_self _

theorem read?_of_countable {overflow : Overflow} {literal : Text}
    (countable : Countable overflow literal) : read? overflow literal = some (ofLiteral literal) :=
  read?_of_countedAccepts? (Numeral.countedAccepts?_of_countable countable)

theorem ofLiteral_eq_integer_iff {literal : Text} (short : Text.utf8Length literal < 0x80000000)
    {value : Int64} :
    ofLiteral literal = .integer value ↔
      Form.integer.Fits literal ∧ value.toInt = naturalValue literal := by
  constructor
  · intro isInteger
    have fits := Form.fits_of literal
    have yields := Form.yields_ofLiteral short fits
    rw [isInteger] at yields
    cases form : Form.of literal with
    | quoted =>
        rw [form] at fits yields
        obtain ⟨quote, inner, same⟩ := fits
        exact absurd (yields quote inner same) (by simp)
    | boolean => rw [form] at yields; contradiction
    | integer =>
        rw [form] at fits yields
        obtain ⟨number, same, exact⟩ := yields
        cases same
        exact ⟨fits, exact⟩
    | float => rw [form] at yields; contradiction
    | plain => rw [form] at yields; contradiction
  · rintro ⟨fits, exact⟩
    obtain ⟨number, isInteger, sameNumber⟩ := Form.yields_ofLiteral short fits
    rw [isInteger, Int64.toInt_inj.mp (sameNumber.trans exact.symm)]

theorem ofLiteral_eq_of_naturalValue_eq {literal other : Text}
    (short : Text.utf8Length literal < 0x80000000) (otherShort : Text.utf8Length other < 0x80000000)
    (fits : Form.integer.Fits literal) (otherDigits : IsDigits other) (otherNonempty : other ≠ [])
    (sameNumber : naturalValue other = naturalValue literal) :
    ofLiteral other = ofLiteral literal := by
  obtain ⟨value, isInteger, exact⟩ := Form.yields_ofLiteral short fits
  have otherFits : Form.integer.Fits other :=
    ⟨otherDigits, otherNonempty, sameNumber.trans_le fits.2.2⟩
  rw [isInteger]
  exact (ofLiteral_eq_integer_iff otherShort).mpr ⟨otherFits, by rw [sameNumber]; exact exact⟩

theorem ofLiteral_number_of_accepts {literal : Text} (counted : countedAccepts literal = true)
    (accepted : accepts literal = true) :
    (∃ value, ofLiteral literal = .integer value) ∨ ∃ value, ofLiteral literal = .float value := by
  rw [ofLiteral_of_countedAccepts counted, ofNumeral,
    Numeral.ofText?_of_isDecimal (Numeral.isDecimal_of_accepts accepted)]
  split
  · exact Or.inl ⟨_, rfl⟩
  · exact Or.inr ⟨_, rfl⟩

theorem ofText?_and_isNearest_of_float {literal : Text} {number : Binary64}
    (isFloat : ofLiteral literal = .float number) :
    Binary64.ofText? literal = some number ∧
      number.IsNearest (Numeral.isNegative literal) (Numeral.coefficient literal)
        (Nat.pow 10 (Numeral.places literal)) := by
  obtain ⟨_, decimal, _, same⟩ := ofLiteral_eq_float_iff.mp isFloat
  subst same
  exact ⟨Numeral.ofText?_of_isDecimal decimal,
    (Binary64.isNearest_iff (Nat.pow_pos (by decide))).mpr rfl⟩

/-- Every literal of less than `2 ^ 31` bytes has exactly one form, and reading it by attempts gives
the value of that form: a quoted text without its marks, a boolean word, the integer that the digits
stand for, the number nearest to another numeral, or the literal itself. Digits that stand for one
integer give the same integer, and the attempt at an integer fails only beyond the largest one. -/
theorem literal_read_in_one_exact_form (overflow : Overflow) (literal : Text)
    (short : Text.utf8Length literal < 0x80000000) :
    (∃ (form : Form) (value : Scalar),
      (form.Fits literal ∧ ∀ other : Form, other.Fits literal → other = form) ∧
      form.Yields literal value ∧ read? overflow literal = some value ∧
      ofLiteral literal = value) ∧
    (∀ number, read? overflow literal = some (.float number) →
      Binary64.ofText? literal = some number ∧
      number.IsNearest (Numeral.isNegative literal) (Numeral.coefficient literal)
        (Nat.pow 10 (Numeral.places literal))) ∧
    (∀ value, read? overflow literal = some (.integer value) ↔
      Form.integer.Fits literal ∧ value.toInt = naturalValue literal) ∧
    (∀ other, Text.utf8Length other < 0x80000000 → Form.integer.Fits literal → IsDigits other →
      other ≠ [] → naturalValue other = naturalValue literal →
      read? overflow other = read? overflow literal) ∧
    (accepts literal = true →
      (∀ rest, read? overflow literal ≠ some (.text rest)) ∧
      (Binary64.ofText? literal).isSome = true) ∧
    (IsDigits literal → literal ≠ [] →
      ((integer? literal).isSome = true ↔ naturalValue literal ≤ largestInteger)) := by
  have read : read? overflow literal = some (ofLiteral literal) :=
    read?_of_countable (Or.inr short)
  refine ⟨?_, ?_, ?_, ?_, ?_, ?_⟩
  · obtain ⟨form, fits, unique⟩ := Form.existsUnique_fits literal
    exact ⟨form, ofLiteral literal, ⟨fits, unique⟩, Form.yields_ofLiteral short fits, read, rfl⟩
  · intro number isFloat
    rw [read, Option.some_inj] at isFloat
    exact ofText?_and_isNearest_of_float isFloat
  · intro value
    rw [read, Option.some_inj]
    exact ofLiteral_eq_integer_iff short
  · intro other otherShort fits otherDigits otherNonempty sameNumber
    rw [read, read?_of_countable (Or.inr otherShort),
      ofLiteral_eq_of_naturalValue_eq short otherShort fits otherDigits otherNonempty sameNumber]
  · intro accepted
    have counted := (Numeral.countedAccepts_eq_accepts short).trans accepted
    rw [read, Numeral.ofText?_of_isDecimal (Numeral.isDecimal_of_accepts accepted)]
    refine ⟨?_, rfl⟩
    intro rest isText
    rw [Option.some_inj] at isText
    rcases ofLiteral_number_of_accepts counted accepted with ⟨value, isNumber⟩ | ⟨value, isNumber⟩
    · rw [isNumber] at isText
      contradiction
    · rw [isNumber] at isText
      contradiction
  · exact Numeral.isSome_integer?_iff

theorem largest_integer_read_behind_zeros :
    Text.utf8Length "0009223372036854775807".toList < 0x80000000 ∧
      read? .stops "0009223372036854775807".toList = some (.integer Int64.maxValue) := by
  have short : Text.utf8Length "0009223372036854775807".toList < 0x80000000 := by decide
  obtain ⟨_, _, integer, _⟩ := literal_read_in_one_exact_form .stops _ short
  have fits : Form.integer.Fits "0009223372036854775807".toList :=
    ⟨Numeral.isDigits_iff_all.mpr (by decide), by decide, by decide⟩
  exact ⟨short, (integer _).mpr ⟨fits, by decide⟩⟩

end Scalar

end ConfigConstants
