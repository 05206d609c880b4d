import Mathlib.Computability.RegularExpressions
import ConfigConstants.Proofs.Literal.Decimal

/-!
The regular expression of numerals, `[+-]?([0-9]+[.]?[0-9]*|[.][0-9]+)`. The main statement says
that a text matches it as a whole just when it is written as a decimal, and so just when counting
its digits and points accepts it.
-/

set_option autoImplicit false

namespace ConfigConstants

namespace Numeral

open RegularExpression

def oneOf (chars : List Char) : RegularExpression Char :=
  (chars.map RegularExpression.char).sum

def optionally (inner : RegularExpression Char) : RegularExpression Char :=
  inner + 1

def atLeastOnce (inner : RegularExpression Char) : RegularExpression Char :=
  inner * inner.star

def signExpression : RegularExpression Char :=
  oneOf ['+', '-']

def decimalDigits : List Char :=
  ['0', '1', '2', '3', '4', '5', '6', '7', '8', '9']

def digitExpression : RegularExpression Char :=
  oneOf decimalDigits

def expression : RegularExpression Char :=
  optionally signExpression *
    (atLeastOnce digitExpression * optionally (.char '.') * digitExpression.star +
      .char '.' * atLeastOnce digitExpression)

theorem mem_oneOf {chars : List Char} {text : Text} :
    text ∈ (oneOf chars).matches' ↔ ∃ char ∈ chars, text = [char] := by
  induction chars with
  | nil => exact iff_of_false (Language.notMem_zero text) (by simp)
  | cons head tail ih =>
      have split : (oneOf (head :: tail)).matches' = {[head]} + (oneOf tail).matches' := rfl
      rw [split, Language.mem_add, ih, List.exists_mem_cons_iff]
      exact Iff.rfl

theorem mem_optionally {inner : RegularExpression Char} {text : Text} :
    text ∈ (optionally inner).matches' ↔ text ∈ inner.matches' ∨ text = [] :=
  Iff.rfl

theorem mem_decimalDigits {char : Char} : char ∈ decimalDigits ↔ char.isDigit = true := by
  constructor
  · have allDigits : decimalDigits.all Char.isDigit = true := by decide
    exact List.all_eq_true.mp allDigits char
  · intro isDigit
    have ofCode : ∀ code < 58, 48 ≤ code → Char.ofNat code ∈ decimalDigits := by
      decide +kernel
    rw [Char.isDigit, Bool.and_eq_true, decide_eq_true_iff, decide_eq_true_iff] at isDigit
    have least : 48 ≤ char.toNat := isDigit.1
    have greatest : char.toNat ≤ 57 := isDigit.2
    rw [← Char.ofNat_toNat char]
    exact ofCode char.toNat (Nat.lt_succ_of_le greatest) least

theorem mem_digitExpression {text : Text} :
    text ∈ digitExpression.matches' ↔ ∃ char : Char, char.isDigit = true ∧ text = [char] := by
  rw [digitExpression, mem_oneOf]
  simp only [mem_decimalDigits]

theorem mem_star_digitExpression {text : Text} :
    text ∈ digitExpression.star.matches' ↔ IsDigits text := by
  rw [matches'_star, Language.mem_kstar]
  constructor
  · rintro ⟨words, rfl, single⟩ char member
    obtain ⟨word, isWord, inWord⟩ := List.mem_flatten.mp member
    obtain ⟨digit, isDigit, rfl⟩ := mem_digitExpression.mp (single word isWord)
    rw [List.mem_singleton.mp inWord]
    exact isDigit
  · intro allDigits
    refine ⟨text.map fun char => [char], ?_, ?_⟩
    · rw [← List.flatMap_def, List.flatMap_singleton' text]
    · intro word isWord
      obtain ⟨char, member, rfl⟩ := List.mem_map.mp isWord
      exact mem_digitExpression.mpr ⟨char, allDigits char member, rfl⟩

theorem mem_atLeastOnce_digitExpression {text : Text} :
    text ∈ (atLeastOnce digitExpression).matches' ↔ IsDigits text ∧ text ≠ [] := by
  rw [atLeastOnce, matches'_mul, Language.mem_mul]
  constructor
  · rintro ⟨first, isFirst, others, areOthers, rfl⟩
    obtain ⟨digit, isDigit, rfl⟩ := mem_digitExpression.mp isFirst
    exact ⟨List.forall_mem_cons.mpr ⟨isDigit, mem_star_digitExpression.mp areOthers⟩,
      List.cons_ne_nil digit others⟩
  · rintro ⟨allDigits, nonempty⟩
    obtain ⟨digit, others, rfl⟩ := List.exists_cons_of_ne_nil nonempty
    obtain ⟨isDigit, othersDigits⟩ := List.forall_mem_cons.mp allDigits
    exact ⟨[digit], mem_digitExpression.mpr ⟨digit, isDigit, rfl⟩, others,
      mem_star_digitExpression.mpr othersDigits, rfl⟩

theorem mem_optionally_signExpression {text : Text} :
    text ∈ (optionally signExpression).matches' ↔ IsSign text := by
  rw [mem_optionally, signExpression, mem_oneOf]
  unfold IsSign
  simp only [List.mem_cons, List.not_mem_nil, or_false, exists_eq_or_imp, exists_eq_left]
  tauto

theorem isDecimal_of_mem_expression {text : Text} (matched : text ∈ expression.matches') :
    IsDecimal text := by
  rw [expression, matches'_mul, Language.mem_mul] at matched
  obtain ⟨sign, isSign, body, isBody, rfl⟩ := matched
  rw [mem_optionally_signExpression] at isSign
  rw [matches'_add, Language.mem_add] at isBody
  rcases isBody with digitsFirst | pointFirst
  · rw [matches'_mul, Language.mem_mul] at digitsFirst
    obtain ⟨front, isFront, back, isBack, rfl⟩ := digitsFirst
    rw [matches'_mul, Language.mem_mul] at isFront
    obtain ⟨digits, areDigits, point, isPoint, rfl⟩ := isFront
    rw [mem_atLeastOnce_digitExpression] at areDigits
    rw [mem_star_digitExpression] at isBack
    rcases mem_optionally.mp isPoint with isPoint | noPoint
    · rw [show point = ['.'] from isPoint, List.append_assoc]
      exact .pointed isSign areDigits.1 isBack (List.append_ne_nil_of_left_ne_nil areDigits.2 back)
    · rw [noPoint, List.append_nil]
      exact .whole isSign (List.forall_mem_append.mpr ⟨areDigits.1, isBack⟩)
        (List.append_ne_nil_of_left_ne_nil areDigits.2 back)
  · rw [matches'_mul, Language.mem_mul] at pointFirst
    obtain ⟨point, isPoint, back, isBack, rfl⟩ := pointFirst
    rw [mem_atLeastOnce_digitExpression] at isBack
    rw [show point = ['.'] from isPoint]
    exact .pointed isSign (List.forall_mem_nil _) isBack.1 isBack.2

theorem append_mem_expression {sign front point back : Text} (isSign : IsSign sign)
    (frontDigits : IsDigits front) (nonempty : front ≠ []) (isPoint : point = ['.'] ∨ point = [])
    (backDigits : IsDigits back) : sign ++ (front ++ point ++ back) ∈ expression.matches' := by
  apply Language.append_mem_mul (mem_optionally_signExpression.mpr isSign)
  left
  apply Language.append_mem_mul
  · apply Language.append_mem_mul
    · exact mem_atLeastOnce_digitExpression.mpr ⟨frontDigits, nonempty⟩
    · exact mem_optionally.mpr isPoint
  · exact mem_star_digitExpression.mpr backDigits

theorem mem_expression_of_isDecimal {text : Text} (decimal : IsDecimal text) :
    text ∈ expression.matches' := by
  cases decimal with
  | @whole sign digits isSign allDigits nonempty =>
      have matched := append_mem_expression isSign allDigits nonempty (Or.inr rfl)
        (List.forall_mem_nil _)
      rwa [List.append_nil, List.append_nil] at matched
  | @pointed sign front back isSign frontDigits backDigits nonempty =>
      cases front with
      | nil =>
          apply Language.append_mem_mul (mem_optionally_signExpression.mpr isSign)
          right
          exact Language.append_mem_mul (a := ['.']) rfl
            (mem_atLeastOnce_digitExpression.mpr ⟨backDigits, nonempty⟩)
      | cons digit others =>
          have matched := append_mem_expression isSign frontDigits (List.cons_ne_nil _ _)
            (Or.inl rfl) backDigits
          rwa [List.append_assoc] at matched

/-- Matching the expression is being written as a decimal. -/
theorem mem_expression_iff_isDecimal {text : Text} :
    text ∈ expression.matches' ↔ IsDecimal text :=
  ⟨isDecimal_of_mem_expression, mem_expression_of_isDecimal⟩

theorem mem_expression_iff_accepts {text : Text} :
    text ∈ expression.matches' ↔ accepts text = true :=
  mem_expression_iff_isDecimal.trans accepts_iff_isDecimal.symm

end Numeral

end ConfigConstants
