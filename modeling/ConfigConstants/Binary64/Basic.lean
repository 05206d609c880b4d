/-!
Double precision numbers of IEEE 754, as a sign and the word that the other 63 bits make. The word
orders the numbers by size: each step of one is the next representable number, infinity is
`infinityWord`, and the words above it are the values that are not numbers.
-/

set_option autoImplicit false

namespace ConfigConstants

def signWeight : Nat := 0x8000000000000000

structure Binary64 where
  negative : Bool
  magnitude : Nat
  magnitude_lt : magnitude < signWeight
  deriving DecidableEq

namespace Binary64

def fractionWidth : Nat := 52

/-- The words of one exponent field, `2 ^ fractionWidth`, which is also the least significand with a
leading bit. -/
def binade : Nat := 0x10000000000000

def infinityWord : Nat := binade * 2047

theorem infinityWord_lt : infinityWord < signWeight := by decide

/-- The number with a given sign and word; words past infinity become infinity. -/
def ofMagnitude (negative : Bool) (magnitude : Nat) : Binary64 where
  negative
  magnitude := min magnitude infinityWord
  magnitude_lt := Nat.lt_of_le_of_lt (Nat.min_le_right _ _) infinityWord_lt

def ofBits (bits : UInt64) : Binary64 where
  negative := decide (signWeight ≤ bits.toNat)
  magnitude := bits.toNat % signWeight
  magnitude_lt := Nat.mod_lt _ (by decide)

def toBits (number : Binary64) : UInt64 :=
  UInt64.ofNat (number.magnitude + if number.negative then signWeight else 0)

theorem toNat_toBits (number : Binary64) :
    number.toBits.toNat = number.magnitude + if number.negative then signWeight else 0 := by
  have bound := number.magnitude_lt
  rw [toBits, UInt64.toNat_ofNat']
  simp only [signWeight] at *
  refine Nat.mod_eq_of_lt ?_
  split <;> omega

theorem ofBits_toBits (number : Binary64) : ofBits (toBits number) = number := by
  obtain ⟨negative, magnitude, bound⟩ := number
  have small : magnitude < 0x8000000000000000 := bound
  simp only [ofBits, toNat_toBits, mk.injEq]
  unfold signWeight
  cases negative <;> simp <;> omega

theorem toBits_ofBits (bits : UInt64) : toBits (ofBits bits) = bits := by
  apply UInt64.toNat.inj
  have small := bits.toNat_lt
  rw [toNat_toBits]
  unfold ofBits signWeight
  by_cases large : 0x8000000000000000 ≤ bits.toNat <;> simp [large] <;> omega

def isNaN (number : Binary64) : Bool :=
  decide (infinityWord < number.magnitude)

def isInfinite (number : Binary64) : Bool :=
  number.magnitude == infinityWord

@[simp] theorem isNaN_ofMagnitude (negative : Bool) (magnitude : Nat) :
    (ofMagnitude negative magnitude).isNaN = false :=
  decide_eq_false (Nat.not_lt.mpr (Nat.min_le_right magnitude infinityWord))

/-- How far the significand of a finite number is shifted to the left in units of `2 ^ (-1074)`,
the least positive number. -/
def shift (number : Binary64) : Nat :=
  number.magnitude / binade - 1

/-- The significand: a finite number is `significand * 2 ^ shift` units in size. -/
def significand (number : Binary64) : Nat :=
  number.magnitude - binade * number.shift

/-- Equality of numbers: the two zeros are equal, and what is not a number equals nothing. -/
def equal (left right : Binary64) : Bool :=
  !left.isNaN && !right.isNaN &&
    (left == right || (left.magnitude == 0 && right.magnitude == 0))

theorem equal_self_iff {number : Binary64} : number.equal number = true ↔ number.isNaN = false := by
  simp [equal]

theorem equal_symm {left right : Binary64} (same : left.equal right = true) :
    right.equal left = true := by
  simp only [equal, Bool.and_eq_true, Bool.or_eq_true, Bool.not_eq_true', beq_iff_eq] at same ⊢
  obtain ⟨⟨leftNumber, rightNumber⟩, sameValue⟩ := same
  exact ⟨⟨rightNumber, leftNumber⟩, sameValue.imp Eq.symm And.symm⟩

theorem equal_trans {first second third : Binary64} (left : first.equal second = true)
    (right : second.equal third = true) : first.equal third = true := by
  simp only [equal, Bool.and_eq_true, Bool.or_eq_true, Bool.not_eq_true', beq_iff_eq] at *
  obtain ⟨⟨firstNumber, _⟩, leftValue⟩ := left
  obtain ⟨⟨_, thirdNumber⟩, rightValue⟩ := right
  refine ⟨⟨firstNumber, thirdNumber⟩, ?_⟩
  rcases leftValue with rfl | leftZero
  · exact rightValue
  · rcases rightValue with rfl | rightZero
    · exact Or.inr leftZero
    · exact Or.inr ⟨leftZero.1, rightZero.2⟩

end Binary64

end ConfigConstants
