import ConfigConstants.Proofs.Literal.Decimal
import ConfigConstants.Proofs.Text.ByteClasses

/-!
Numerals by counting. Behind the sign the bytes are counted one after the other, digits and points
apart, in signed words of 32 bits; any other byte decides at once. The main statements say what the
counts come to when they wrap around, that a count which comes to an end comes to the same however
overflow is treated, and that in a text of less than `2 ^ 31` bytes all counts fit and decide as
`accepts` does.
-/

set_option autoImplicit false

namespace ConfigConstants

open Text (utf8Length)

namespace Numeral

theorem isDigit_of_beyond {char : Char} (beyond : 0x80 ≤ char.toNat) : char.isDigit = false := by
  apply eq_false_of_ne_true
  intro digit
  rw [Char.isDigit, Bool.and_eq_true, decide_eq_true_iff, decide_eq_true_iff] at digit
  have upper : char.toNat ≤ 57 := digit.2
  omega

theorem isDigitByte_of_beyond {byte : UInt8} (beyond : 0x80 ≤ byte.toNat) :
    isDigitByte byte = false := by
  apply eq_false_of_ne_true
  intro digit
  rw [isDigitByte, Bool.and_eq_true, decide_eq_true_iff, decide_eq_true_iff] at digit
  have upper : byte.toNat ≤ 57 := UInt8.le_iff_toNat_le.mp digit.2
  omega

theorem agree_isDigitByte : Text.Utf8.Agree isDigitByte Char.isDigit :=
  Text.Utf8.agree_of_ascii false (by decide +kernel) (fun _ => isDigitByte_of_beyond)
    fun _ => isDigit_of_beyond

/-- Whether all counts of the text fit, either because they wrap around or because there is not
enough text to fill a word. -/
def Countable (overflow : Overflow) (text : Text) : Prop :=
  overflow = .wraps ∨ utf8Length text < 0x80000000

end Numeral

namespace Overflow

theorem next?_wraps (count : Int32) : wraps.next? count = some (count + 1) :=
  rfl

theorem eq_of_next?_eq_some {overflow : Overflow} {count next : Int32}
    (counted : overflow.next? count = some next) : next = count + 1 := by
  rw [next?] at counted
  split at counted
  · contradiction
  · exact (Option.some.inj counted).symm

theorem next?_of_lt (overflow : Overflow) {count : Int32} (fits : count.toInt + 1 < 0x80000000) :
    overflow.next? count = some (count + 1) ∧ (count + 1).toInt = count.toInt + 1 := by
  have notLargest : count ≠ Int32.maxValue := by
    rintro rfl
    rw [Int32.toInt_maxValue] at fits
    omega
  have lower := count.le_toInt
  constructor
  · exact if_neg fun stops => notLargest stops.2
  · rw [Int32.toInt_add, Int32.toInt_one]
    exact Int.bmod_eq_of_le (by omega) (by omega)

theorem toInt_of_next?_stops {count next : Int32} (counted : stops.next? count = some next) :
    next.toInt = count.toInt + 1 := by
  have upper := count.toInt_le
  have notLargest : count ≠ Int32.maxValue := by
    rintro rfl
    contradiction
  have notLargestInt : count.toInt ≠ Int32.maxValue.toInt :=
    fun same => notLargest (Int32.toInt_inj.mp same)
  rw [Int32.toInt_maxValue] at upper notLargestInt
  have fits : count.toInt + 1 < 0x80000000 := by omega
  obtain ⟨isNext, nextEq⟩ := stops.next?_of_lt fits
  rw [counted, Option.some_inj] at isNext
  rw [isNext, nextEq]

end Overflow

namespace Numeral

namespace Tally

theorem decide?_of_other (overflow : Overflow) (tally : Tally) {head : Char}
    (other : isDigitOrPoint head = false) (behind : List UInt8) :
    tally.decide? overflow (String.utf8EncodeChar head ++ behind) = some false := by
  cases bytes : String.utf8EncodeChar head with
  | nil => exact absurd bytes String.utf8EncodeChar_ne_nil
  | cons byte more =>
      have isFirst : byte ∈ String.utf8EncodeChar head := by
        rw [bytes]
        exact List.mem_cons_self
      have sameDigit := agree_isDigitByte head byte isFirst
      have samePoint := @Text.Utf8.agree_mark '.' (by decide) head byte isFirst
      unfold isDigitOrPoint at other
      rw [Bool.or_eq_false_iff] at other
      rw [other.1] at sameDigit
      have notPoint : byte ≠ '.'.toUInt8 := by simpa [other.2] using samePoint
      rw [List.cons_append, decide?, sameDigit, if_neg Bool.false_ne_true, if_neg notPoint]

theorem utf8EncodeChar_of_isDigitOrPoint {head : Char} (fits : isDigitOrPoint head = true) :
    String.utf8EncodeChar head = [head.toUInt8] := by
  apply Text.Utf8.utf8EncodeChar_of_ascii
  apply Nat.lt_of_not_le
  intro beyond
  unfold isDigitOrPoint at fits
  rw [isDigit_of_beyond beyond, Bool.false_or, beq_iff_eq] at fits
  rw [fits] at beyond
  exact absurd beyond (by decide)

theorem decide?_encode_cons (overflow : Overflow) (tally : Tally) (head : Char) (tail : Text) :
    tally.decide? overflow (Text.Utf8.encode (head :: tail)) =
      if head.isDigit then
        (overflow.next? tally.digits).bind fun digits =>
          decide? overflow { tally with digits } (Text.Utf8.encode tail)
      else if head = '.' then
        (overflow.next? tally.points).bind fun points =>
          decide? overflow { tally with points } (Text.Utf8.encode tail)
      else some false := by
  rw [Text.Utf8.encode_cons]
  cases fits : isDigitOrPoint head with
  | false =>
      have other := fits
      rw [isDigitOrPoint, Bool.or_eq_false_iff, beq_eq_false_iff_ne] at other
      rw [decide?_of_other _ _ fits, other.1, if_neg Bool.false_ne_true, if_neg other.2]
  | true =>
      have isByte : head.toUInt8 ∈ String.utf8EncodeChar head := by
        rw [utf8EncodeChar_of_isDigitOrPoint fits]
        exact List.mem_singleton_self _
      have sameDigit := agree_isDigitByte head head.toUInt8 isByte
      rw [utf8EncodeChar_of_isDigitOrPoint fits, List.singleton_append, decide?, sameDigit]
      cases isDigit : head.isDigit with
      | true => rfl
      | false =>
          have isPoint : head = '.' := by simpa [isDigitOrPoint, isDigit] using fits
          subst isPoint
          rfl

/-- What counts that wrap around come to: the numbers of digits and points, up to a multiple of what
a word can hold. -/
theorem decide?_wraps_encode (tally : Tally) (text : Text) :
    tally.decide? .wraps (Text.Utf8.encode text) =
      some (text.all isDigitOrPoint &&
        decide (0 < tally.digits + Int32.ofNat (text.countP Char.isDigit)) &&
        decide (tally.points + Int32.ofNat (text.count '.') ≤ 1)) := by
  have shift (count : Int32) (more : Nat) :
      count + 1 + Int32.ofNat more = count + Int32.ofNat (more + 1) := by
    rw [Int32.ofNat_add, Int32.add_assoc, Int32.add_comm (Int32.ofNat more)]
    rfl
  induction text generalizing tally with
  | nil =>
      have noMore (count : Int32) : count + Int32.ofNat 0 = count := Int32.add_zero count
      simp only [List.all_nil, List.countP_nil, List.count_nil, noMore, Bool.true_and]
      rfl
  | cons head tail ih =>
      rw [decide?_encode_cons, List.all_cons]
      split
      · next isDigit =>
          have notPoint : head ≠ '.' := by
            rintro rfl
            contradiction
          rw [Overflow.next?_wraps, Option.bind_some, ih, isDigitOrPoint, isDigit, Bool.true_or,
            Bool.true_and, List.countP_cons_of_pos isDigit, List.count_cons_of_ne notPoint, shift]
      next notDigit =>
      split
      · next isPoint =>
          subst isPoint
          rw [Overflow.next?_wraps, Option.bind_some, ih, List.countP_cons_of_neg notDigit,
            List.count_cons_self, shift]
          rfl
      · next notPoint =>
          have other : isDigitOrPoint head = false := by
            rw [isDigitOrPoint, Bool.or_eq_false_iff, beq_eq_false_iff_ne]
            exact ⟨eq_false_of_ne_true notDigit, notPoint⟩
          rw [other]
          rfl

theorem points_of_decide?_stops {tally : Tally} {text : Text}
    (decided : tally.decide? .stops (Text.Utf8.encode text) = some true) :
    tally.points.toInt + text.count '.' ≤ 1 := by
  induction text generalizing tally with
  | nil =>
      have verdict : (decide (0 < tally.digits) && decide (tally.points ≤ 1)) = true :=
        Option.some.inj decided
      rw [Bool.and_eq_true, decide_eq_true_iff, decide_eq_true_iff] at verdict
      have atMostOne := Int32.le_iff_toInt_le.mp verdict.2
      rw [Int32.toInt_one] at atMostOne
      rw [List.count_nil]
      omega
  | cons head tail ih =>
      rw [decide?_encode_cons] at decided
      split at decided
      · next isDigit =>
          obtain ⟨digits, _, rest⟩ := Option.bind_eq_some_iff.mp decided
          have notPoint : head ≠ '.' := by
            rintro rfl
            contradiction
          have further := ih rest
          rw [List.count_cons_of_ne notPoint]
          exact further
      next notDigit =>
      split at decided
      · next isPoint =>
          obtain ⟨points, counted, rest⟩ := Option.bind_eq_some_iff.mp decided
          have further := ih rest
          have oneMore := Overflow.toInt_of_next?_stops counted
          rw [isPoint, List.count_cons_self]
          simp only at further
          omega
      · exact absurd (Option.some.inj decided) Bool.false_ne_true

/-- Counting that comes to an end comes to what it does when counts wrap around. -/
theorem decide?_wraps_of_eq_some {overflow : Overflow} {tally : Tally} {bytes : List UInt8}
    {answer : Bool} (decided : tally.decide? overflow bytes = some answer) :
    tally.decide? .wraps bytes = some answer := by
  induction bytes generalizing tally with
  | nil => exact decided
  | cons byte later ih =>
      rw [decide?] at decided ⊢
      split at decided
      · next isDigit =>
          obtain ⟨digits, counted, rest⟩ := Option.bind_eq_some_iff.mp decided
          rw [Overflow.eq_of_next?_eq_some counted] at rest
          rw [if_pos isDigit]
          exact ih rest
      next notDigit =>
      split at decided
      · next isPoint =>
          obtain ⟨points, counted, rest⟩ := Option.bind_eq_some_iff.mp decided
          rw [Overflow.eq_of_next?_eq_some counted] at rest
          rw [if_neg notDigit, if_pos isPoint]
          exact ih rest
      · next notPoint =>
          rw [if_neg notDigit, if_neg notPoint]
          exact decided

theorem isSome_decide?_of_room (overflow : Overflow) {tally : Tally} {bytes : List UInt8}
    (digitsFit : tally.digits.toInt + bytes.length < 0x80000000)
    (pointsFit : tally.points.toInt + bytes.length < 0x80000000) :
    (tally.decide? overflow bytes).isSome = true := by
  induction bytes generalizing tally with
  | nil => rfl
  | cons byte later ih =>
      rw [List.length_cons, Int.natCast_add] at digitsFit pointsFit
      rw [decide?]
      split
      · have fits : tally.digits.toInt + 1 < 0x80000000 := by omega
        obtain ⟨counted, digitsEq⟩ := overflow.next?_of_lt fits
        rw [counted]
        exact ih (by simp only; omega) (by simp only; omega)
      split
      · have fits : tally.points.toInt + 1 < 0x80000000 := by omega
        obtain ⟨counted, pointsEq⟩ := overflow.next?_of_lt fits
        rw [counted]
        exact ih (by simp only; omega) (by simp only; omega)
      · rfl

/-- A word of 32 bits cannot hold more than `2 ^ 31 - 1` digits. -/
theorem decide?_stops_of_replicate {tally : Tally} {count : Nat}
    (tooMany : 0x7FFFFFFF < tally.digits.toInt + count) :
    tally.decide? .stops (List.replicate count '1'.toUInt8) = none := by
  induction count generalizing tally with
  | zero =>
      have upper := tally.digits.toInt_le
      rw [Int32.toInt_maxValue] at upper
      omega
  | succ count ih =>
      rw [List.replicate_succ, decide?, if_pos (by decide)]
      cases counted : Overflow.next? .stops tally.digits with
      | none => rfl
      | some digits =>
          apply ih
          have oneMore := Overflow.toInt_of_next?_stops counted
          simp only
          omega

end Tally

/-! ## The numerals that are counted -/

variable {overflow : Overflow} {text : Text}

theorem countedAccepts_eq (text : Text) :
    countedAccepts text =
      ((unsigned text).all isDigitOrPoint &&
        decide (0 < Int32.ofNat ((unsigned text).countP Char.isDigit)) &&
        decide (Int32.ofNat ((unsigned text).count '.') ≤ 1)) := by
  have decided := Tally.decide?_wraps_encode ⟨0, 0⟩ (unsigned text)
  simp only [Int32.zero_add] at decided
  rw [← Option.some_inj, ← countedAccepts?_wraps]
  exact decided

/-- Whatever overflow comes to, there is at most one answer. -/
theorem countedAccepts_of_countedAccepts? {answer : Bool}
    (counted : countedAccepts? overflow text = some answer) : countedAccepts text = answer := by
  have wrapped : countedAccepts? .wraps text = some answer :=
    Tally.decide?_wraps_of_eq_some counted
  rwa [countedAccepts?_wraps, Option.some_inj] at wrapped

theorem utf8Length_unsigned_le (text : Text) : utf8Length (unsigned text) ≤ utf8Length text := by
  obtain ⟨sign, _, textEq⟩ := exists_sign_append_unsigned text
  have lengths := congrArg utf8Length textEq
  rw [Text.utf8Length_append] at lengths
  omega

theorem countedAccepts?_of_countable (countable : Countable overflow text) :
    countedAccepts? overflow text = some (countedAccepts text) := by
  rcases countable with rfl | short
  · exact countedAccepts?_wraps text
  · have noLonger := utf8Length_unsigned_le text
    have room : (Int32.toInt 0) + (Text.Utf8.encode (unsigned text)).length < 0x80000000 := by
      rw [Text.Utf8.length_encode, Int32.toInt_zero]
      omega
    obtain ⟨answer, counted⟩ := Option.isSome_iff_exists.mp
      (@Tally.isSome_decide?_of_room overflow ⟨0, 0⟩ _ room room)
    have isAnswer : countedAccepts? overflow text = some answer := counted
    rw [isAnswer, countedAccepts_of_countedAccepts? isAnswer]

/-- Even counts that wrap around accept nothing but digits and points, and at least one digit. -/
theorem fits_of_countedAccepts (accepted : countedAccepts text = true) :
    (∀ char ∈ unsigned text, char.isDigit = true ∨ char = '.') ∧
      ∃ char ∈ unsigned text, char.isDigit = true := by
  rw [countedAccepts_eq, Bool.and_eq_true, Bool.and_eq_true, decide_eq_true_iff] at accepted
  obtain ⟨⟨charsFit, someDigits⟩, _⟩ := accepted
  constructor
  · intro char member
    simpa [isDigitOrPoint] using List.all_eq_true.mp charsFit char member
  · apply List.countP_pos_iff.mp
    apply Nat.pos_of_ne_zero
    intro noDigit
    rw [noDigit] at someDigits
    exact absurd someDigits (by decide)

theorem accepts_of_countedAccepts?_stops (counted : countedAccepts? .stops text = some true) :
    accepts text = true := by
  obtain ⟨charsFit, someDigit⟩ := fits_of_countedAccepts (countedAccepts_of_countedAccepts? counted)
  have atMostOne := Tally.points_of_decide?_stops counted
  rw [Int32.toInt_zero] at atMostOne
  exact accepts_iff.mpr ⟨charsFit, someDigit, by omega⟩

/-- In a text of less than `2 ^ 31` bytes the counts are the numbers of digits and points. -/
theorem countedAccepts_eq_accepts (short : utf8Length text < 0x80000000) :
    countedAccepts text = accepts text := by
  have noLonger := utf8Length_unsigned_le text
  have codePoints := Text.length_le_utf8Length (unsigned text)
  have exact_count {count : Nat} (atMost : count ≤ (unsigned text).length) :
      (Int32.ofNat count).toInt = count :=
    Int32.toInt_ofNat_of_lt (by omega)
  have digitsEq := exact_count (List.countP_le_length (p := Char.isDigit))
  have pointsEq := exact_count (List.count_le_length (a := '.'))
  have digitsPositive : decide (0 < Int32.ofNat ((unsigned text).countP Char.isDigit)) =
      (unsigned text).any Char.isDigit := by
    rw [Bool.eq_iff_iff, decide_eq_true_iff, Int32.lt_iff_toInt_lt, digitsEq, Int32.toInt_zero,
      List.any_eq_true, ← List.countP_pos_iff]
    omega
  have pointsAtMostOne : Int32.ofNat ((unsigned text).count '.') ≤ 1 ↔
      (unsigned text).count '.' ≤ 1 := by
    rw [Int32.le_iff_toInt_le, pointsEq, Int32.toInt_one]
    omega
  rw [countedAccepts_eq, accepts, digitsPositive, decide_eq_decide.mpr pointsAtMostOne]

theorem countedAccepts?_eq (overflow : Overflow) (short : utf8Length text < 0x80000000) :
    countedAccepts? overflow text = some (accepts text) := by
  rw [countedAccepts?_of_countable (Or.inr short), countedAccepts_eq_accepts short]

theorem countedAccepts?_replicate_digit {count : Nat} (tooMany : 0x7FFFFFFF < count) :
    countedAccepts? .stops (List.replicate count '1') = none := by
  have noSign : unsigned (List.replicate count '1') = List.replicate count '1' := by
    apply unsigned_append (Or.inl rfl)
    intro next isHead
    rw [List.eq_of_mem_replicate (List.mem_of_head? isHead)]
    decide
  have bytes : Text.Utf8.encode (List.replicate count '1') =
      List.replicate count '1'.toUInt8 := by
    rw [Text.Utf8.encode, List.flatMap_replicate]
    exact List.flatten_replicate_singleton
  rw [countedAccepts?, noSign, bytes]
  apply Tally.decide?_stops_of_replicate
  rw [Int32.toInt_zero]
  omega

end Numeral

end ConfigConstants
