import ConfigConstants.Binary64.Nearest
import ConfigConstants.Numeral

/-!
Double precision numbers in all the ways in which they can be written: a sign or none, and then
digits with at most one point among them and a power of ten or none behind them, or one of the words
for infinity and for what is not a number. A text that is written in no such way is no number.
-/

set_option autoImplicit false

namespace ConfigConstants

namespace Binary64

open Numeral (unsigned isNegative naturalValue)

/-- The value above infinity that stands for no number, with the given sign. -/
def notNumber (negative : Bool) : Binary64 where
  negative
  magnitude := infinityWord + binade / 2
  magnitude_lt := by decide

def ofWord? (negative : Bool) (word : Text) : Option Binary64 :=
  if Text.foldCase word = ['i', 'n', 'f'] ∨
      Text.foldCase word = ['i', 'n', 'f', 'i', 'n', 'i', 't', 'y'] then
    some (ofMagnitude negative infinityWord)
  else if Text.foldCase word = ['n', 'a', 'n'] then some (notNumber negative)
  else none

/-- The power of ten behind the digits, an `e` in either case and an integer. Where nothing is
written it is zero. -/
def power? : Text → Option Int
  | [] => some 0
  | mark :: written =>
      if mark.toLower = 'e' ∧ (unsigned written).all Char.isDigit ∧ unsigned written ≠ [] then
        some <| if isNegative written then -(naturalValue (unsigned written) : Int)
          else naturalValue (unsigned written)
      else none

def ofScientific (negative : Bool) (digits : Text) (power : Int) : Binary64 :=
  nearest negative (naturalValue digits * Nat.pow 10 power.toNat) (Nat.pow 10 (-power).toNat)

/-- What is written in digits behind the sign; at least one digit stands before the power. -/
def ofDigits? (negative : Bool) (written : Text) : Option Binary64 :=
  let front := written.takeWhile Char.isDigit
  match written.dropWhile Char.isDigit with
  | '.' :: behind =>
      let back := behind.takeWhile Char.isDigit
      if front ++ back = [] then none
      else do
        let power ← power? (behind.dropWhile Char.isDigit)
        return ofScientific negative (front ++ back) (power - back.length)
  | behind =>
      if front = [] then none
      else do
        let power ← power? behind
        return ofScientific negative front power

def ofText? (text : Text) : Option Binary64 :=
  (ofWord? (isNegative text) (unsigned text)).or (ofDigits? (isNegative text) (unsigned text))

end Binary64

end ConfigConstants
