import ConfigConstants.Binary64.Notation
import ConfigConstants.Binary64.Shortest
import ConfigConstants.Quote

/-!
The value of a constant, and how it is read from a literal. Reading never fails: what is no quoted
text, no boolean word and no numeral is taken as it stands. A numeral of digits alone is an integer
as long as it fits into 64 bits with a sign; every other numeral is the nearest double precision
number, if it can be read as one.
-/

set_option autoImplicit false

namespace ConfigConstants

inductive Scalar where
  | integer (value : Int64)
  | float (value : Binary64)
  | boolean (value : Bool)
  | text (value : Text)
  deriving DecidableEq

namespace Scalar

def trueWord : Text := ['t', 'r', 'u', 'e']

def falseWord : Text := ['f', 'a', 'l', 's', 'e']

def largestInteger : Nat := 0x7FFFFFFFFFFFFFFF

/-- A numeral is an integer if it has neither sign nor point and is not too large. -/
def isInteger (numeral : Text) : Bool :=
  numeral.all Char.isDigit && decide (Numeral.naturalValue numeral ≤ largestInteger)

def ofNumeral (numeral : Text) : Scalar :=
  if isInteger numeral then .integer (Int64.ofNat (Numeral.naturalValue numeral))
  else
    match Binary64.ofText? numeral with
    | some number => .float number
    | none => .text numeral

def ofBare (literal : Text) : Scalar :=
  if literal = trueWord then .boolean true
  else if literal = falseWord then .boolean false
  else if Numeral.countedAccepts literal then ofNumeral literal
  else .text literal

def ofLiteral (literal : Text) : Scalar :=
  match Quote.unwrap? literal with
  | some inner => .text inner
  | none => ofBare literal

theorem ofLiteral_wrap (quote : Quote) (inner : Text) :
    ofLiteral (quote.wrap inner) = .text inner := by
  simp [ofLiteral]

def toText : Scalar → Text
  | .integer value =>
      let digits := Nat.toDigits 10 value.toInt.natAbs
      if value.toInt < 0 then '-' :: digits else digits
  | .float value => value.toText
  | .boolean true => trueWord
  | .boolean false => falseWord
  | .text value => value

def asText? : Scalar → Option Text
  | .text value => some value
  | _ => none

def asInteger? : Scalar → Option Int64
  | .integer value => some value
  | _ => none

/-- The value as a double precision number; an integer goes to the nearest one. -/
def asFloat? : Scalar → Option Binary64
  | .float value => some value
  | .integer value => some (Binary64.ofInt value.toInt)
  | _ => none

def asBoolean? : Scalar → Option Bool
  | .boolean value => some value
  | _ => none

/-- Equality of values: they must be of one kind, and floats are compared as numbers. -/
def equal : Scalar → Scalar → Bool
  | .integer left, .integer right => left == right
  | .float left, .float right => left.equal right
  | .boolean left, .boolean right => left == right
  | .text left, .text right => left == right
  | _, _ => false

theorem equal_self_iff {value : Scalar} :
    value.equal value = true ↔ ∀ number, value = .float number → number.isNaN = false := by
  cases value <;> simp [equal, Binary64.equal_self_iff]

theorem equal_symm {left right : Scalar} (same : left.equal right = true) :
    right.equal left = true := by
  cases left <;> cases right <;> simp_all [equal, Binary64.equal_symm]

theorem equal_trans {first second third : Scalar} (left : first.equal second = true)
    (right : second.equal third = true) : first.equal third = true := by
  cases first <;> cases second <;> cases third <;> simp_all [equal]
  exact Binary64.equal_trans left right

end Scalar

end ConfigConstants
