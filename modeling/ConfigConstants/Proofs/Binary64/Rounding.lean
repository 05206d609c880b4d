import ConfigConstants.Binary64.Nearest
import Mathlib.Data.Nat.Dist
import Mathlib.Order.Monotone.Basic
import Mathlib.Tactic.Ring

/-!
Rounding to the nearest double precision number. The words stand for an increasing sequence of
numbers, all of them multiples of the least positive one; a fraction is rounded to the word whose
number is closest to it, and half-way between two words to the even one. The main statements say
that there is exactly one such word and that `nearestMagnitude` finds it. The words go on past
infinity here, as if there were exponents enough; a number that rounds to one of those is infinite.
-/

set_option autoImplicit false

namespace ConfigConstants

namespace Binary64

/-- The number of a word, counted in units of the least positive one. -/
def units (word : Nat) : Nat :=
  (word - binade * (word / binade - 1)) <<< (word / binade - 1)

theorem units_magnitude (number : Binary64) :
    units number.magnitude = number.significand <<< number.shift :=
  rfl

/-- A significand that belongs to the shift: it has 53 bits unless the shift is the least one. The
next power of two still counts, although it has a place at the next shift as well. -/
def IsPlace (shift significand : Nat) : Prop :=
  (0 < shift → binade ≤ significand) ∧ significand ≤ 2 * binade

theorem units_of_isPlace {shift significand : Nat} (place : IsPlace shift significand) :
    units (binade * shift + significand) = significand * 2 ^ shift := by
  obtain ⟨lower, upper⟩ := place
  rw [units, Nat.shiftLeft_eq]
  by_cases carried : significand = 2 * binade
  · have quotient : (binade * shift + significand) / binade - 1 = shift + 1 := by
      unfold binade at *
      omega
    have remaining : binade * shift + significand - binade * (shift + 1) = binade := by
      unfold binade at *
      omega
    rw [quotient, remaining, carried, Nat.pow_succ]
    ac_rfl
  · have quotient : (binade * shift + significand) / binade - 1 = shift := by
      unfold binade at *
      omega
    rw [quotient, Nat.add_sub_cancel_left]

theorem exists_isPlace (word : Nat) :
    ∃ significand, IsPlace (word / binade - 1) significand ∧ significand < 2 * binade ∧
      word = binade * (word / binade - 1) + significand := by
  refine ⟨word - binade * (word / binade - 1), ⟨?_, ?_⟩, ?_, ?_⟩ <;>
    unfold binade <;> omega

theorem units_succ (word : Nat) :
    units (word + 1) = units word + 2 ^ (word / binade - 1) := by
  obtain ⟨significand, place, notCarried, wordEq⟩ := exists_isPlace word
  generalize word / binade - 1 = shift at *
  subst wordEq
  have nextPlace : IsPlace shift (significand + 1) :=
    ⟨fun positive => Nat.le_succ_of_le (place.1 positive), notCarried⟩
  rw [Nat.add_assoc, units_of_isPlace place, units_of_isPlace nextPlace, Nat.succ_mul]

theorem units_strictMono : StrictMono units := by
  apply strictMono_nat_of_lt_succ
  intro word
  rw [units_succ]
  exact Nat.lt_add_of_pos_right (Nat.two_pow_pos _)

theorem units_add_le_of_lt {shift significand other : Nat} (place : IsPlace shift significand)
    (above : binade * shift + significand < other) :
    units (binade * shift + significand) + 2 ^ shift ≤ units other := by
  have noSmaller : shift ≤ (binade * shift + significand) / binade - 1 := by
    have lower := place.1
    unfold binade at *
    omega
  calc units (binade * shift + significand) + 2 ^ shift
      ≤ units (binade * shift + significand + 1) := by
        rw [units_succ]
        exact Nat.add_le_add_left (Nat.pow_le_pow_right (by decide) noSmaller) _
    _ ≤ units other := units_strictMono.monotone above

theorem units_add_le_of_gt {shift significand other : Nat} (place : IsPlace shift significand)
    (notLowest : 0 < shift → binade < significand) (below : other < binade * shift + significand) :
    units other + 2 ^ shift ≤ units (binade * shift + significand) := by
  have positive : 0 < significand := by
    rcases Nat.eq_zero_or_pos shift with rfl | shifted
    · omega
    · exact Nat.zero_lt_of_lt (notLowest shifted)
  obtain ⟨previous, rfl⟩ := Nat.exists_eq_add_of_lt positive
  rw [Nat.zero_add] at *
  have previousPlace : IsPlace shift previous :=
    ⟨fun shifted => Nat.le_of_lt_succ (notLowest shifted), Nat.le_of_succ_le place.2⟩
  have atMost : units other ≤ units (binade * shift + previous) :=
    units_strictMono.monotone (Nat.le_of_lt_succ below)
  rw [units_of_isPlace previousPlace] at atMost
  rw [units_of_isPlace place, Nat.succ_mul]
  exact Nat.add_le_add_right atMost _

/-- The word nearest to a fraction of units: no other word is closer, and if another is as close,
the word is even. -/
structure IsNearestWord (numerator denominator word : Nat) : Prop where
  closest : ∀ other, Nat.dist (units word * denominator) numerator ≤
    Nat.dist (units other * denominator) numerator
  even : ∀ other, other ≠ word → Nat.dist (units word * denominator) numerator =
    Nat.dist (units other * denominator) numerator → word % 2 = 0

theorem roundHalfEven_even {numerator denominator : Nat} (positive : 0 < denominator)
    (half : 2 * numerator = (2 * roundHalfEven numerator denominator + 1) * denominator ∨
      2 * roundHalfEven numerator denominator * denominator = 2 * numerator + denominator) :
    roundHalfEven numerator denominator % 2 = 0 := by
  have parts := Nat.div_add_mod numerator denominator
  have small := Nat.mod_lt numerator positive
  unfold roundHalfEven at *
  generalize numerator / denominator = quotient at *
  generalize numerator % denominator = remainder at *
  subst parts
  simp only at *
  split at half
  · next below => rcases half with half | half <;> grind
  · split at half
    · next above => rcases half with half | half <;> grind
    · next notBelow notAbove =>
        rw [if_neg notBelow, if_neg notAbove]
        omega

/-- At the chosen shift the fraction has at most 53 bits before the point, and exactly so many
unless the shift is the least one. -/
theorem nearestShift_bounds (numerator : Nat) {denominator : Nat} (positive : 0 < denominator) :
    (0 < nearestShift numerator denominator →
        binade * (denominator <<< nearestShift numerator denominator) ≤ numerator * unitsPerOne) ∧
      numerator * unitsPerOne <
        2 * binade * (denominator <<< nearestShift numerator denominator) := by
  have binadeEq : binade = 2 ^ 52 := by decide
  rw [nearestShift, wholeUnits, fractionWidth, Nat.shiftLeft_eq]
  generalize numerator * unitsPerOne = exact
  constructor
  · intro shifted
    have nonzero : exact / denominator ≠ 0 := by
      intro isZero
      rw [isZero, Nat.log2_zero] at shifted
      contradiction
    have leading := Nat.log2_self_le nonzero
    have widthEq : 52 + ((exact / denominator).log2 - 52) = (exact / denominator).log2 := by omega
    calc binade * (denominator * 2 ^ ((exact / denominator).log2 - 52))
        = 2 ^ (52 + ((exact / denominator).log2 - 52)) * denominator := by
          rw [binadeEq, Nat.pow_add]
          ac_rfl
      _ ≤ exact / denominator * denominator := by
          rw [widthEq]
          exact Nat.mul_le_mul_right denominator leading
      _ ≤ exact := Nat.div_mul_le_self exact denominator
  · have bounded : exact / denominator < 2 ^ (53 + ((exact / denominator).log2 - 52)) :=
      Nat.lt_of_lt_of_le Nat.lt_log2_self (Nat.pow_le_pow_right (by decide) (by omega))
    calc exact
        < 2 ^ (53 + ((exact / denominator).log2 - 52)) * denominator :=
          (Nat.div_lt_iff_lt_mul positive).mp bounded
      _ = 2 * binade * (denominator * 2 ^ ((exact / denominator).log2 - 52)) := by
          rw [binadeEq, Nat.pow_add, Nat.pow_succ]
          ac_rfl

theorem isPlace_roundHalfEven {numerator denominator shift : Nat} (positive : 0 < denominator)
    (lower : 0 < shift → binade * denominator ≤ numerator)
    (upper : numerator < 2 * binade * denominator) :
    IsPlace shift (roundHalfEven numerator denominator) := by
  obtain ⟨notTooSmall, notTooLarge⟩ := roundHalfEven_error numerator positive
  generalize roundHalfEven numerator denominator = rounded at *
  constructor
  · intro shifted
    have least : 2 * binade * denominator ≤ (2 * rounded + 1) * denominator :=
      calc 2 * binade * denominator = 2 * (binade * denominator) := Nat.mul_assoc _ _ _
        _ ≤ 2 * numerator := Nat.mul_le_mul_left 2 (lower shifted)
        _ ≤ (2 * rounded + 1) * denominator := notTooSmall
    have halves := Nat.le_of_mul_le_mul_right least positive
    omega
  · have greatest : 2 * rounded * denominator < (4 * binade + 1) * denominator :=
      calc 2 * rounded * denominator ≤ 2 * numerator + denominator := notTooLarge
        _ < 2 * (2 * binade * denominator) + denominator := by omega
        _ = (4 * binade + 1) * denominator := by ring
    have halves := Nat.lt_of_mul_lt_mul_right greatest
    omega

/-- What every other word has to do with the one that a fraction is rounded to: it is no closer, and
it is as close only if the fraction lies half-way. -/
theorem dist_le_dist_of_ne {numerator denominator shift : Nat} (positive : 0 < denominator)
    (lower : 0 < shift → binade * (denominator <<< shift) ≤ numerator)
    (upper : numerator < 2 * binade * (denominator <<< shift)) {word : Nat}
    (wordEq : word = binade * shift + roundHalfEven numerator (denominator <<< shift))
    {other : Nat} (different : other ≠ word) :
    Nat.dist (units word * denominator) numerator ≤
        Nat.dist (units other * denominator) numerator ∧
      (Nat.dist (units word * denominator) numerator =
        Nat.dist (units other * denominator) numerator → word % 2 = 0) := by
  have scaledPositive : 0 < denominator <<< shift := by
    rw [Nat.shiftLeft_eq]
    exact Nat.mul_pos positive (Nat.two_pow_pos _)
  have place := isPlace_roundHalfEven scaledPositive lower upper
  obtain ⟨errorAbove, errorBelow⟩ := roundHalfEven_error numerator scaledPositive
  have halfIsEven := @roundHalfEven_even numerator (denominator <<< shift) scaledPositive
  generalize roundHalfEven numerator (denominator <<< shift) = rounded at *
  have size : units word * denominator = rounded * (denominator <<< shift) := by
    rw [wordEq, units_of_isPlace place, Nat.shiftLeft_eq]
    ac_rfl
  have unit : 2 ^ shift * denominator = denominator <<< shift := by
    rw [Nat.shiftLeft_eq, Nat.mul_comm]
  have sameParity : word % 2 = rounded % 2 := by
    unfold binade at wordEq
    omega
  have doubled : 2 * rounded * (denominator <<< shift) = 2 * (rounded * (denominator <<< shift)) :=
    Nat.mul_assoc _ _ _
  rw [Nat.succ_mul (2 * rounded), doubled, ← size] at errorAbove halfIsEven
  rw [doubled, ← size] at errorBelow
  rw [sameParity]
  rcases Nat.lt_or_gt_of_ne different with below | above
  · by_cases lowest : 0 < shift → binade < rounded
    · rw [wordEq] at below
      have gap := Nat.mul_le_mul_right denominator (units_add_le_of_gt place lowest below)
      rw [← wordEq, Nat.add_mul, unit] at gap
      unfold Nat.dist
      exact ⟨by omega, fun same => halfIsEven (Or.inr (by omega))⟩
    · -- The words below are closer together here, but the fraction does not lie below at all.
      obtain ⟨shifted, notAbove⟩ := Classical.not_imp.mp lowest
      have isLowest : rounded = binade :=
        Nat.le_antisymm (Nat.le_of_not_lt notAbove) (place.1 shifted)
      have reached := lower shifted
      rw [← isLowest, ← size] at reached
      have smaller := Nat.mul_lt_mul_of_pos_right (units_strictMono below) positive
      unfold Nat.dist
      exact ⟨by omega, fun same => absurd same (by omega)⟩
  · rw [wordEq] at above
    have gap := Nat.mul_le_mul_right denominator (units_add_le_of_lt place above)
    rw [← wordEq, Nat.add_mul, unit] at gap
    unfold Nat.dist
    exact ⟨by omega, fun same => halfIsEven (Or.inl (by omega))⟩

theorem isNearestWord_nearestMagnitude (numerator : Nat) {denominator : Nat}
    (positive : 0 < denominator) :
    IsNearestWord (numerator * unitsPerOne) denominator
      (nearestMagnitude numerator denominator) := by
  obtain ⟨lower, upper⟩ := nearestShift_bounds numerator positive
  constructor
  · intro other
    by_cases same : other = nearestMagnitude numerator denominator
    · rw [same]
    · exact (dist_le_dist_of_ne positive lower upper rfl same).1
  · intro other different
    exact (dist_le_dist_of_ne positive lower upper rfl different).2

/-- There is only one nearest word. Two of them would both be even, and then the word between them
would be closer than both. -/
theorem IsNearestWord.unique {numerator denominator first second : Nat}
    (positive : 0 < denominator) (isFirst : IsNearestWord numerator denominator first)
    (isSecond : IsNearestWord numerator denominator second) : first = second := by
  by_contra different
  wlog below : first < second generalizing first second
  · exact this isSecond isFirst (Ne.symm different) (by omega)
  have sameDistance := Nat.le_antisymm (isFirst.closest second) (isSecond.closest first)
  have firstEven := isFirst.even second (Ne.symm different) sameDistance
  have secondEven := isSecond.even first different sameDistance.symm
  have between : first + 1 < second := by omega
  have notCloser := isFirst.closest (first + 1)
  have aboveFirst := Nat.mul_lt_mul_of_pos_right (units_strictMono (Nat.lt_add_one first))
    positive
  have belowSecond := Nat.mul_lt_mul_of_pos_right (units_strictMono between) positive
  unfold Nat.dist at sameDistance notCloser
  omega

/-- A fraction with a sign is rounded to the number: it has the sign, and the word nearest to the
fraction, or infinity if that one is larger. -/
structure IsNearest (negative : Bool) (numerator denominator : Nat) (number : Binary64) : Prop where
  sign : number.negative = negative
  word : ∃ word, IsNearestWord (numerator * unitsPerOne) denominator word ∧
    number.magnitude = min word infinityWord

theorem magnitude_nearest (negative : Bool) (numerator denominator : Nat) :
    (nearest negative numerator denominator).magnitude =
      min (nearestMagnitude numerator denominator) infinityWord := by
  rw [nearest, ofMagnitude]

theorem isNearest_iff {negative : Bool} {numerator denominator : Nat} (positive : 0 < denominator)
    {number : Binary64} :
    IsNearest negative numerator denominator number ↔
      number = nearest negative numerator denominator := by
  have found := isNearestWord_nearestMagnitude numerator positive
  constructor
  · rintro ⟨sign, word, isNearestWord, magnitude⟩
    rw [isNearestWord.unique positive found] at magnitude
    obtain ⟨_, _, _⟩ := number
    rw [nearest, ofMagnitude, mk.injEq]
    exact ⟨sign, magnitude⟩
  · rintro rfl
    exact ⟨rfl, nearestMagnitude numerator denominator, found, magnitude_nearest _ _ _⟩

end Binary64

end ConfigConstants
