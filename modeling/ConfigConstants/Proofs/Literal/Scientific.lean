import ConfigConstants.Proofs.Literal.Tally
import ConfigConstants.Proofs.Text.Runs

/-!
Decimals among all the ways in which double precision numbers can be written. Every decimal is read,
as the number nearest to it, and of digits and points nothing but a decimal is read. The main
statement says that a literal is a floating point number only if it is a decimal and no integer.
-/

set_option autoImplicit false

namespace ConfigConstants

namespace Binary64

open Numeral (naturalValue IsDigits IsSign IsDecimal)

theorem ofWord?_of_decimal (negative : Bool) {body : Text}
    (charsFit : ∀ char ∈ body, char.isDigit = true ∨ char = '.') (nonempty : body ≠ []) :
    ofWord? negative body = none := by
  obtain ⟨head, tail, rfl⟩ := List.exists_cons_of_ne_nil nonempty
  have folded : head.toLower ≠ 'i' ∧ head.toLower ≠ 'n' := by
    rcases charsFit head List.mem_cons_self with isDigit | rfl
    · have unchanged : head.toLower = head := by
        unfold Char.isDigit at isDigit
        unfold Char.toLower
        grind
      rw [unchanged]
      constructor
      · rintro rfl
        contradiction
      · rintro rfl
        contradiction
    · decide
  have noWord {first : Char} {rest : Text} (different : head.toLower ≠ first) :
      Text.foldCase (head :: tail) ≠ first :: rest := fun same =>
    different (List.cons.inj same).1
  rw [ofWord?, if_neg (not_or.mpr ⟨noWord folded.1, noWord folded.1⟩), if_neg (noWord folded.2)]

theorem ofScientific_neg (negative : Bool) (digits : Text) (places : Nat) :
    ofScientific negative digits (-(places : Int)) =
      nearest negative (naturalValue digits) (Nat.pow 10 places) := by
  have noFactor : (-(places : Int)).toNat = 0 := Int.toNat_neg_natCast places
  rw [ofScientific, noFactor, Int.neg_neg, Int.toNat_natCast]
  exact congrArg (nearest negative · _) (Nat.mul_one _)

theorem ofDigits?_of_isDigits (negative : Bool) {digits : Text} (allDigits : IsDigits digits)
    (nonempty : digits ≠ []) :
    ofDigits? negative digits = some (nearest negative (naturalValue digits) (Nat.pow 10 0)) := by
  have front := List.takeWhile_eq_self_iff.mpr allDigits
  have behind := List.dropWhile_eq_nil_iff.mpr allDigits
  rw [ofDigits?, front, behind, ← ofScientific_neg]
  simp only [if_neg nonempty]
  rfl

theorem ofDigits?_of_pointed (negative : Bool) {front back : Text} (frontDigits : IsDigits front)
    (backDigits : IsDigits back) (nonempty : front ++ back ≠ []) :
    ofDigits? negative (front ++ '.' :: back) =
      some (nearest negative (naturalValue (front ++ back)) (Nat.pow 10 back.length)) := by
  have atPoint : Text.StartsOutside Char.isDigit ('.' :: back) :=
    Text.startsOutside_cons (by decide) back
  have backTaken := List.takeWhile_eq_self_iff.mpr backDigits
  have nothingBehind := List.dropWhile_eq_nil_iff.mpr backDigits
  rw [ofDigits?, Text.takeWhile_append_of_startsOutside frontDigits atPoint,
    Text.dropWhile_append_of_startsOutside frontDigits atPoint, ← ofScientific_neg,
    ← Int.zero_sub]
  simp only [backTaken, nothingBehind, if_neg nonempty]
  rfl

/-- Behind digits and points there is no power of ten, so nothing but digits can be left. -/
theorem forall_isDigit_of_power? {written : Text}
    (charsFit : ∀ char ∈ written, char.isDigit = true ∨ char = '.') {power : Int}
    (found : power? (written.dropWhile Char.isDigit) = some power) : IsDigits written := by
  apply List.dropWhile_eq_nil_iff.mp
  cases left : written.dropWhile Char.isDigit with
  | nil => rfl
  | cons mark behind =>
      have notDigit := Text.startsOutside_dropWhile Char.isDigit written mark (by rw [left]; rfl)
      have isMember : mark ∈ written :=
        List.dropWhile_subset Char.isDigit (by rw [left]; exact List.mem_cons_self)
      rcases charsFit mark isMember with isDigit | rfl
      · rw [isDigit] at notDigit
        contradiction
      · rw [left, power?, if_neg fun isPower => absurd isPower.1 (by decide)] at found
        contradiction

theorem isDecimal_of_ofDigits? {negative : Bool} {sign written : Text} (isSign : IsSign sign)
    (charsFit : ∀ char ∈ written, char.isDigit = true ∨ char = '.') {number : Binary64}
    (read : ofDigits? negative written = some number) : IsDecimal (sign ++ written) := by
  have frontDigits : IsDigits (written.takeWhile Char.isDigit) :=
    Text.forall_mem_takeWhile Char.isDigit written
  have whole : written.takeWhile Char.isDigit ++ written.dropWhile Char.isDigit = written :=
    List.takeWhile_append_dropWhile
  rw [ofDigits?] at read
  split at read
  · next behind left =>
      have behindFit : ∀ char ∈ behind, char.isDigit = true ∨ char = '.' := by
        intro char member
        apply charsFit char
        apply List.dropWhile_subset Char.isDigit
        rw [left]
        exact List.mem_cons_of_mem _ member
      simp only at read
      split at read
      · contradiction
      next nonempty =>
      obtain ⟨power, found, _⟩ := Option.bind_eq_some_iff.mp read
      have backDigits := forall_isDigit_of_power? behindFit found
      rw [List.takeWhile_eq_self_iff.mpr backDigits] at nonempty
      rw [← whole, left]
      exact .pointed isSign frontDigits backDigits nonempty
  · next noPoint =>
      split at read
      · contradiction
      next nonempty =>
      obtain ⟨power, found, _⟩ := Option.bind_eq_some_iff.mp read
      have allDigits := forall_isDigit_of_power? charsFit found
      rw [List.takeWhile_eq_self_iff.mpr allDigits] at nonempty
      exact .whole isSign allDigits nonempty

end Binary64

namespace Numeral

theorem bne_point_of_isDigits {digits : Text} (allDigits : IsDigits digits) :
    ∀ char ∈ digits, (char != '.') = true := by
  intro char member
  rw [bne_iff_ne]
  rintro rfl
  exact point_notMem_of_isDigits allDigits member

theorem ofDigits?_unsigned {text : Text} (decimal : IsDecimal text) (negative : Bool) :
    Binary64.ofDigits? negative (unsigned text) =
      some (Binary64.nearest negative (coefficient text) (Nat.pow 10 (places text))) := by
  unfold coefficient places
  cases decimal with
  | @whole sign digits isSign allDigits nonempty =>
      have nothingBehind : digits.dropWhile (· != '.') = [] :=
        List.dropWhile_eq_nil_iff.mpr (bne_point_of_isDigits allDigits)
      rw [unsigned_append_of_fits isSign fun char member => Or.inl (allDigits char member),
        Binary64.ofDigits?_of_isDigits negative allDigits nonempty,
        List.filter_eq_self.mpr allDigits, nothingBehind]
      rfl
  | @pointed sign front back isSign frontDigits backDigits nonempty =>
      have atPoint : (front ++ '.' :: back).dropWhile (· != '.') = '.' :: back :=
        Text.dropWhile_append_of_startsOutside (bne_point_of_isDigits frontDigits)
          (Text.startsOutside_cons (by decide) back)
      have digitsAlone : (front ++ '.' :: back).filter Char.isDigit = front ++ back := by
        rw [List.filter_append, List.filter_cons_of_neg (by decide),
          List.filter_eq_self.mpr frontDigits, List.filter_eq_self.mpr backDigits]
      rw [unsigned_append_of_fits isSign (fits_of_pointed frontDigits backDigits),
        Binary64.ofDigits?_of_pointed negative frontDigits backDigits nonempty, digitsAlone,
        atPoint]
      rfl

/-- Every decimal is read, as the number nearest to it. -/
theorem ofText?_of_isDecimal {text : Text} (decimal : IsDecimal text) :
    Binary64.ofText? text = some (nearest text) := by
  obtain ⟨charsFit, ⟨digit, member, _⟩, _⟩ := accepts_iff.mp (accepts_of_isDecimal decimal)
  rw [Binary64.ofText?, Binary64.ofWord?_of_decimal _ charsFit (List.ne_nil_of_mem member),
    Option.none_or, ofDigits?_unsigned decimal, nearest]

/-- Of the texts that count as numerals only the decimals are read, each as the number nearest to
it. -/
theorem ofText?_eq_some_iff {text : Text} (accepted : countedAccepts text = true)
    {number : Binary64} :
    Binary64.ofText? text = some number ↔ IsDecimal text ∧ number = nearest text := by
  obtain ⟨charsFit, digit, member, _⟩ := fits_of_countedAccepts accepted
  constructor
  · intro read
    have decimal : IsDecimal text := by
      rw [Binary64.ofText?, Binary64.ofWord?_of_decimal _ charsFit (List.ne_nil_of_mem member),
        Option.none_or] at read
      obtain ⟨sign, isSign, textEq⟩ := exists_sign_append_unsigned text
      rw [textEq]
      exact Binary64.isDecimal_of_ofDigits? isSign charsFit read
    rw [ofText?_of_isDecimal decimal, Option.some_inj] at read
    exact ⟨decimal, read.symm⟩
  · rintro ⟨decimal, rfl⟩
    exact ofText?_of_isDecimal decimal

end Numeral

namespace Scalar

open Numeral (countedAccepts fits_of_countedAccepts)

variable {literal : Text}

theorem unwrap?_of_fits
    (charsFit : ∀ char ∈ Numeral.unsigned literal, char.isDigit = true ∨ char = '.') :
    Quote.unwrap? literal = none := by
  apply Option.eq_none_iff_forall_ne_some.mpr
  intro inner isWrapped
  obtain ⟨quote, rfl⟩ := Quote.unwrap?_eq_some_iff.mp isWrapped
  cases quote with
  | single => exact absurd (charsFit '\'' List.mem_cons_self) (by decide)
  | double => exact absurd (charsFit '"' List.mem_cons_self) (by decide)

theorem not_word_of_fits
    (charsFit : ∀ char ∈ Numeral.unsigned literal, char.isDigit = true ∨ char = '.') :
    literal ≠ trueWord ∧ literal ≠ falseWord := by
  constructor
  · rintro rfl
    exact absurd (charsFit 't' List.mem_cons_self) (by decide)
  · rintro rfl
    exact absurd (charsFit 'f' List.mem_cons_self) (by decide)

theorem ofLiteral_of_countedAccepts (accepted : countedAccepts literal = true) :
    ofLiteral literal = ofNumeral literal := by
  have charsFit := (fits_of_countedAccepts accepted).1
  obtain ⟨notTrue, notFalse⟩ := not_word_of_fits charsFit
  rw [ofLiteral, unwrap?_of_fits charsFit]
  simp only [ofBare, if_neg notTrue, if_neg notFalse, if_pos accepted]

theorem countedAccepts_of_ofLiteral_eq_float {number : Binary64}
    (isFloat : ofLiteral literal = .float number) : countedAccepts literal = true := by
  unfold ofLiteral ofBare at isFloat
  split at isFloat
  · contradiction
  split at isFloat
  · contradiction
  split at isFloat
  · contradiction
  split at isFloat
  · next accepted => exact accepted
  · contradiction

/-- A literal is a floating point number just when it counts as a numeral, is written as a decimal
and is no integer; then it is the nearest number to that decimal. -/
theorem ofLiteral_eq_float_iff {number : Binary64} :
    ofLiteral literal = .float number ↔
      countedAccepts literal = true ∧ Numeral.IsDecimal literal ∧ isInteger literal = false ∧
        number = Numeral.nearest literal := by
  constructor
  · intro isFloat
    have accepted := countedAccepts_of_ofLiteral_eq_float isFloat
    rw [ofLiteral_of_countedAccepts accepted, ofNumeral] at isFloat
    split at isFloat
    · contradiction
    next notInteger =>
    split at isFloat
    · next found read =>
        cases isFloat
        obtain ⟨decimal, isNearest⟩ := (Numeral.ofText?_eq_some_iff accepted).mp read
        exact ⟨accepted, decimal, eq_false_of_ne_true notInteger, isNearest⟩
    · contradiction
  · rintro ⟨accepted, decimal, notInteger, rfl⟩
    rw [ofLiteral_of_countedAccepts accepted, ofNumeral, notInteger, if_neg Bool.false_ne_true,
      Numeral.ofText?_of_isDecimal decimal]

theorem isNaN_ofLiteral {number : Binary64} (isFloat : ofLiteral literal = .float number) :
    number.isNaN = false := by
  obtain ⟨_, _, _, rfl⟩ := ofLiteral_eq_float_iff.mp isFloat
  exact Binary64.isNaN_nearest _ _ _

end Scalar

end ConfigConstants
