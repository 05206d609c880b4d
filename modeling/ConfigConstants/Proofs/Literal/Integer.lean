import ConfigConstants.Proofs.Literal.Form

/-!
Integers by accumulation. A reader goes over the digits from the left and keeps the number read so
far in a signed word of 64 bits: for each digit it multiplies by ten and adds the digit, and it
gives up as soon as one of the two results does not fit its word. The main statements say that it
gives up just when the number that all digits stand for is larger than the largest integer, however
many zeros lead, and that it has that number otherwise: no result ever wraps around.
-/

set_option autoImplicit false

namespace ConfigConstants

namespace Numeral

open Scalar (largestInteger toInt_ofNat_of_le)

def word? (exact : Int) : Option Int64 :=
  if Int64.minValue.toInt ≤ exact ∧ exact ≤ Int64.maxValue.toInt then some (Int64.ofInt exact)
  else none

/-- One digit more behind a number: ten times the number, and then the digit. -/
def shiftIn? (value : Int64) (char : Char) : Option Int64 :=
  if char.isDigit then do
    let tenfold ← word? (value.toInt * 10)
    word? (tenfold.toInt + (char.toNat - '0'.toNat : Nat))
  else none

/-- The integer that is written in digits, unless there is none, or another character, or the
number grows too large on the way. -/
def integer? (text : Text) : Option Int64 :=
  if text = [] then none else text.foldlM shiftIn? 0

theorem word?_of_le {number : Nat} (fits : number ≤ largestInteger) :
    word? number = some (Int64.ofNat number) := by
  have upper : (number : Int) ≤ Int64.maxValue.toInt := Int.ofNat_le.mpr fits
  have lower : Int64.minValue.toInt ≤ (number : Int) :=
    Int.le_trans (by decide) (Int.natCast_nonneg number)
  rw [word?, if_pos ⟨lower, upper⟩, Int64.ofInt_eq_ofNat]

theorem word?_of_lt {number : Nat} (tooLarge : largestInteger < number) : word? number = none := by
  apply if_neg
  rintro ⟨_, upper⟩
  exact Nat.not_le_of_lt tooLarge (Int.ofNat_le.mp upper)

/-- One digit is one step of the positional value; it fits or it does not, and the product alone
is too large only if the sum is. -/
theorem shiftIn?_ofNat {number : Nat} (fits : number ≤ largestInteger) {char : Char}
    (isDigit : char.isDigit = true) :
    shiftIn? (Int64.ofNat number) char = word? (10 * number + (char.toNat - '0'.toNat) : Nat) := by
  have product : (Int64.ofNat number).toInt * 10 = (10 * number : Nat) := by
    rw [toInt_ofNat_of_le fits, Int.mul_comm, Int.natCast_mul]
    rfl
  rw [shiftIn?, if_pos isDigit, product]
  by_cases tenfoldFits : 10 * number ≤ largestInteger
  · rw [word?_of_le tenfoldFits, Option.bind_eq_bind, Option.bind_some,
      toInt_ofNat_of_le tenfoldFits, Int.natCast_add]
  · have tooLarge := Nat.lt_of_not_le tenfoldFits
    rw [word?_of_lt tooLarge, word?_of_lt (Nat.lt_of_lt_of_le tooLarge (Nat.le_add_right _ _))]
    rfl

theorem le_ofDigitChars (digits : Text) (number : Nat) :
    number ≤ Nat.ofDigitChars 10 digits number := by
  induction digits generalizing number with
  | nil => exact Nat.le_refl number
  | cons digit later ih =>
      rw [Nat.ofDigitChars_cons]
      have grown := ih (10 * number + (digit.toNat - '0'.toNat))
      omega

/-- The invariant of the accumulation: what has been read stands in its word without loss, so the
rest goes on from there, and what has become too large stays too large. -/
theorem foldlM_shiftIn? {digits : Text} (allDigits : IsDigits digits) {number : Nat}
    (fits : number ≤ largestInteger) :
    digits.foldlM shiftIn? (Int64.ofNat number) = word? (Nat.ofDigitChars 10 digits number) := by
  induction digits generalizing number with
  | nil => exact (word?_of_le fits).symm
  | cons digit later ih =>
      have laterDigits : IsDigits later := fun char member =>
        allDigits char (List.mem_cons_of_mem _ member)
      rw [List.foldlM_cons, shiftIn?_ofNat fits (allDigits digit List.mem_cons_self),
        Nat.ofDigitChars_cons]
      generalize 10 * number + (digit.toNat - '0'.toNat) = next
      by_cases nextFits : next ≤ largestInteger
      · rw [word?_of_le nextFits]
        exact ih laterDigits nextFits
      · have tooLarge := Nat.lt_of_not_le nextFits
        rw [word?_of_lt tooLarge,
          word?_of_lt (Nat.lt_of_lt_of_le tooLarge (le_ofDigitChars later next))]
        rfl

theorem integer?_of_isDigits {text : Text} (allDigits : IsDigits text) (nonempty : text ≠ []) :
    integer? text = word? (naturalValue text) := by
  rw [integer?, if_neg nonempty]
  exact foldlM_shiftIn? allDigits (Nat.zero_le largestInteger)

theorem isSome_integer?_iff {text : Text} (allDigits : IsDigits text) (nonempty : text ≠ []) :
    (integer? text).isSome = true ↔ naturalValue text ≤ largestInteger := by
  rw [integer?_of_isDigits allDigits nonempty]
  by_cases fits : naturalValue text ≤ largestInteger
  · rw [word?_of_le fits]
    exact iff_of_true rfl fits
  · rw [word?_of_lt (Nat.lt_of_not_le fits)]
    exact iff_of_false Bool.false_ne_true fits

end Numeral

end ConfigConstants
