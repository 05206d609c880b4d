import ConfigConstants.Binary64.Basic

/-!
The double precision number nearest to a fraction. A half goes to the even neighbour, and what is
too large becomes infinity. Everything is counted in units of `2 ^ (-1074)`, so the arithmetic is
exact and on natural numbers.
-/

set_option autoImplicit false

namespace ConfigConstants

/-- The quotient rounded to the nearest natural number, a half to the even one. -/
def roundHalfEven (numerator denominator : Nat) : Nat :=
  let quotient := numerator / denominator
  let twice := 2 * (numerator % denominator)
  if twice < denominator then quotient
  else if denominator < twice then quotient + 1
  else quotient + quotient % 2

theorem roundHalfEven_error (numerator : Nat) {denominator : Nat} (positive : 0 < denominator) :
    2 * numerator ≤ (2 * roundHalfEven numerator denominator + 1) * denominator ∧
      2 * roundHalfEven numerator denominator * denominator ≤ 2 * numerator + denominator := by
  have parts := Nat.div_add_mod numerator denominator
  have small := Nat.mod_lt numerator positive
  unfold roundHalfEven
  generalize numerator / denominator = quotient at *
  generalize numerator % denominator = remainder at *
  subst parts
  simp only
  split
  · next below => constructor <;> grind
  · split
    · next above => constructor <;> grind
    · next notBelow notAbove =>
        have half : 2 * remainder = denominator := by omega
        rcases Nat.mod_two_eq_zero_or_one quotient with even | odd
        · rw [even]; constructor <;> grind
        · rw [odd]; constructor <;> grind

namespace Binary64

/-- How many of the least positive number make one, `2 ^ 1074`. It is kept folded because of its
size. -/
@[irreducible] def unitsPerOne : Nat :=
  1 <<< 1074

def wholeUnits (numerator denominator : Nat) : Nat :=
  numerator * unitsPerOne / denominator

/-- The exponent at which the fraction has 53 significant bits, or as many as there are. -/
def nearestShift (numerator denominator : Nat) : Nat :=
  (wholeUnits numerator denominator).log2 - fractionWidth

/-- The word of the nearest number. A significand that rounds up to the next power of two carries
into the exponent, because the words of neighbouring exponents follow each other. -/
def nearestMagnitude (numerator denominator : Nat) : Nat :=
  let shift := nearestShift numerator denominator
  binade * shift + roundHalfEven (numerator * unitsPerOne) (denominator <<< shift)

def nearest (negative : Bool) (numerator denominator : Nat) : Binary64 :=
  ofMagnitude negative (nearestMagnitude numerator denominator)

@[simp] theorem isNaN_nearest (negative : Bool) (numerator denominator : Nat) :
    (nearest negative numerator denominator).isNaN = false :=
  isNaN_ofMagnitude _ _

def ofInt (value : Int) : Binary64 :=
  nearest (decide (value < 0)) value.natAbs 1

end Binary64

end ConfigConstants
