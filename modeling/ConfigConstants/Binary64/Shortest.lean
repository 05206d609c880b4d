import ConfigConstants.Binary64.Basic
import ConfigConstants.Text.Basic

/-!
The shortest decimal that reads back as a given finite number. The decimals with the same last
place form a grid, the multiples of one power of ten; the answer lies on the coarsest grid that has
a point in the interval of all values nearest to the number, and is the point of that grid closest
to the number. All quantities are natural numbers, counted in quarters of `10 ^ (-1074)`, because
the numbers, the midpoints between neighbours and the grids are whole in that unit. The decimal is
written out with as many zeros as its place needs: there is never an exponent, a whole number has no
point, and a negative zero keeps its sign.
-/

set_option autoImplicit false

namespace ConfigConstants

namespace Binary64

/-- The least positive number, `2 ^ (-1074)`, in units of `10 ^ (-1074)`. It is kept folded because
of its size. -/
@[irreducible] def leastNumber : Nat :=
  Nat.pow 5 1074

/-- The spacing of the numbers at this number's exponent, in units of `10 ^ (-1074)`. -/
def spacing (number : Binary64) : Nat :=
  leastNumber <<< number.shift

def centre (number : Binary64) : Nat :=
  4 * number.significand * number.spacing

/-- At a power of two the number below is only half as far away as the number above; the least
normal number is the exception, since the spacing does not shrink further. -/
def isLowestOfBinade (number : Binary64) : Bool :=
  number.significand == binade && decide (0 < number.shift)

def lowerEnd (number : Binary64) : Nat :=
  (4 * number.significand - if number.isLowestOfBinade then 1 else 2) * number.spacing

def upperEnd (number : Binary64) : Nat :=
  (4 * number.significand + 2) * number.spacing

/-- Whether a decimal of the given size is read as the number. The ends are halves, and those go to
the even significand. -/
def readsBack (number : Binary64) (size : Nat) : Bool :=
  if number.significand % 2 = 0 then
    decide (number.lowerEnd ≤ size) && decide (size ≤ number.upperEnd)
  else
    decide (number.lowerEnd < size) && decide (size < number.upperEnd)

def grid (power : Nat) : Nat :=
  4 * Nat.pow 10 power

/-- The point of the grid that reads back and is closest to the number, as a multiple of the
grid's distance; of two that are equally close, the larger. Only the two points around the number
can be closest. -/
def closestOnGrid? (number : Binary64) (power : Nat) : Option Nat :=
  let below := number.centre / grid power
  let above := below + 1
  let aboveFits := number.readsBack (above * grid power)
  let nearerToBelow := decide (2 * (number.centre % grid power) < grid power)
  if number.readsBack (below * grid power) && (nearerToBelow || !aboveFits) then some below
  else if aboveFits then some above
  else none

theorem readsBack_of_closestOnGrid? {number : Binary64} {power multiple : Nat}
    (found : closestOnGrid? number power = some multiple) :
    number.readsBack (multiple * grid power) = true := by
  simp only [closestOnGrid?, Bool.and_eq_true] at found
  split at found
  · next belowFits => cases found; exact belowFits.1
  · split at found
    · next aboveFits => cases found; exact aboveFits
    · contradiction

/-- The multiple and the power of the coarsest grid, at most the given one, that has a point that
reads back. The finest grid holds the number itself. -/
def shortestFrom (number : Binary64) : Nat → Nat × Nat
  | 0 => (number.centre / grid 0, 0)
  | power + 1 =>
      match closestOnGrid? number (power + 1) with
      | some multiple => (multiple, power + 1)
      | none => shortestFrom number power

/-- No coarser grid has a positive point up to `upperEnd`, since eight to the power is at most ten
to the power. -/
def coarsestPower (number : Binary64) : Nat :=
  number.upperEnd.log2 / 3

theorem leastNumber_pos : 0 < leastNumber := by
  unfold leastNumber
  generalize 1074 = power
  exact Nat.pow_pos (by decide)

theorem spacing_pos (number : Binary64) : 0 < number.spacing := by
  rw [spacing, Nat.shiftLeft_eq]
  exact Nat.mul_pos leastNumber_pos (Nat.two_pow_pos _)

theorem readsBack_centre {number : Binary64} (nonzero : 0 < number.significand) :
    number.readsBack number.centre = true := by
  have spacingPositive := number.spacing_pos
  have fromBelow : number.lowerEnd < number.centre := by
    rw [lowerEnd, centre]
    refine Nat.mul_lt_mul_of_pos_right ?_ spacingPositive
    split <;> omega
  have toAbove : number.centre < number.upperEnd := by
    rw [upperEnd, centre]
    exact Nat.mul_lt_mul_of_pos_right (by omega) spacingPositive
  simp [readsBack, fromBelow, toAbove, Nat.le_of_lt]

theorem centre_on_finest_grid (number : Binary64) :
    number.centre / grid 0 * grid 0 = number.centre := by
  refine Nat.div_mul_cancel ⟨number.significand * number.spacing, ?_⟩
  change 4 * number.significand * number.spacing = 4 * 1 * (number.significand * number.spacing)
  rw [Nat.mul_one, Nat.mul_assoc]

theorem readsBack_shortestFrom {number : Binary64} (nonzero : 0 < number.significand)
    (power : Nat) :
    number.readsBack
      ((number.shortestFrom power).1 * grid (number.shortestFrom power).2) = true := by
  induction power with
  | zero =>
      change number.readsBack (number.centre / grid 0 * grid 0) = true
      rw [centre_on_finest_grid]
      exact readsBack_centre nonzero
  | succ power ih =>
      cases found : closestOnGrid? number (power + 1) with
      | none =>
          have unchanged : number.shortestFrom (power + 1) = number.shortestFrom power := by
            simp only [shortestFrom, found]
          rw [unchanged]
          exact ih
      | some multiple =>
          have chosen : number.shortestFrom (power + 1) = (multiple, power + 1) := by
            simp only [shortestFrom, found]
          rw [chosen]
          exact readsBack_of_closestOnGrid? found

/-- The shortest decimal of a finite number other than zero: `(digits, power)` stands for
`digits * 10 ^ (power - 1074)`. -/
def shortest (number : Binary64) : Nat × Nat :=
  shortestFrom number (coarsestPower number)

/-- `digits * 10 ^ (-places)` with exactly `places` digits behind the point. -/
def fixedPlaces (digits places : Nat) : Text :=
  let written := Nat.toDigits 10 digits
  let padded := List.replicate (places + 1 - written.length) '0' ++ written
  let whole := padded.take (padded.length - places)
  if places = 0 then whole else whole ++ '.' :: padded.drop (padded.length - places)

def magnitudeText (number : Binary64) : Text :=
  if number.magnitude = 0 then ['0']
  else
    let (digits, power) := number.shortest
    fixedPlaces (digits * Nat.pow 10 (power - 1074)) (1074 - power)

/-- The text of a number; what is not a number has no sign. -/
def toText (number : Binary64) : Text :=
  if number.isNaN then ['N', 'a', 'N']
  else
    let size := if number.isInfinite then ['i', 'n', 'f'] else number.magnitudeText
    if number.negative then '-' :: size else size

end Binary64

end ConfigConstants
