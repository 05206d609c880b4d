import ConfigConstants.Text.Utf8

/-!
Numerals as they are written in a literal: one optional sign, then digits with at most one point
among them, at least one digit. There is no exponent, no other base, and no digit separator. Digits
and points are counted in signed words of 32 bits, which is exact as long as the words can hold the
counts; beyond that it matters whether an overflow is checked.
-/

set_option autoImplicit false

namespace ConfigConstants

/-- What becomes of a count that outgrows its word: it goes on from the least value of the word, or
the program stops without a result. -/
inductive Overflow where
  | wraps
  | stops
  deriving DecidableEq, Repr

def Overflow.next? (overflow : Overflow) (count : Int32) : Option Int32 :=
  if overflow = .stops ∧ count = Int32.maxValue then none else some (count + 1)

namespace Numeral

/-- The text behind one sign, if it begins with one. -/
def unsigned : Text → Text
  | '-' :: rest => rest
  | '+' :: rest => rest
  | text => text

def isNegative (text : Text) : Bool :=
  text.head? == some '-'

def isDigitByte (byte : UInt8) : Bool :=
  '0'.toUInt8 ≤ byte && byte ≤ '9'.toUInt8

structure Tally where
  digits : Int32
  points : Int32
  deriving DecidableEq

namespace Tally

/-- Goes on counting, and decides when the bytes run out or one is neither digit nor point. -/
def decide? (overflow : Overflow) (tally : Tally) : List UInt8 → Option Bool
  | [] => some (decide (0 < tally.digits) && decide (tally.points ≤ 1))
  | byte :: later =>
      if isDigitByte byte then do
        let digits ← overflow.next? tally.digits
        decide? overflow { tally with digits } later
      else if byte = '.'.toUInt8 then do
        let points ← overflow.next? tally.points
        decide? overflow { tally with points } later
      else some false

theorem isSome_decide?_wraps (tally : Tally) (bytes : List UInt8) :
    (decide? .wraps tally bytes).isSome = true := by
  induction bytes generalizing tally with
  | nil => rfl
  | cons byte later ih =>
      rw [decide?]
      split
      · exact ih _
      split
      · exact ih _
      · rfl

end Tally

def countedAccepts? (overflow : Overflow) (text : Text) : Option Bool :=
  Tally.decide? overflow ⟨0, 0⟩ (Text.Utf8.encode (unsigned text))

theorem isSome_countedAccepts?_wraps (text : Text) :
    (countedAccepts? .wraps text).isSome = true :=
  Tally.isSome_decide?_wraps _ _

/-- Whether the text counts as a numeral, by counts that wrap around. -/
def countedAccepts (text : Text) : Bool :=
  (countedAccepts? .wraps text).get (isSome_countedAccepts?_wraps text)

theorem countedAccepts?_wraps (text : Text) :
    countedAccepts? .wraps text = some (countedAccepts text) :=
  (Option.some_get _).symm

def isDigitOrPoint (char : Char) : Bool :=
  char.isDigit || char == '.'

/-- Whether the whole text is a numeral; this is what the counting comes to in texts whose counts
fit. -/
def accepts (text : Text) : Bool :=
  (unsigned text).all isDigitOrPoint && (unsigned text).any Char.isDigit &&
    decide ((unsigned text).count '.' ≤ 1)

theorem accepts_iff {text : Text} :
    accepts text = true ↔
      (∀ char ∈ unsigned text, char.isDigit = true ∨ char = '.') ∧
        (∃ char ∈ unsigned text, char.isDigit = true) ∧ (unsigned text).count '.' ≤ 1 := by
  simp [accepts, isDigitOrPoint, and_assoc]

/-- The digits of the numeral as one number, as if it had no point. -/
def coefficient (text : Text) : Nat :=
  Nat.ofDigitChars 10 ((unsigned text).filter Char.isDigit) 0

/-- How many digits stand behind the point. -/
def places (text : Text) : Nat :=
  ((unsigned text).dropWhile (· != '.')).tail.length

def naturalValue (digits : Text) : Nat :=
  Nat.ofDigitChars 10 digits 0

end Numeral

end ConfigConstants
