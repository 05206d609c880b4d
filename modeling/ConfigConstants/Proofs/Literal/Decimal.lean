import ConfigConstants.Scalar

/-!
Decimals by the way they are written: a sign or none, digits, and a point or none among them. The
main statement says that these are the texts with at least one digit and at most one point behind
the sign, and nothing else.
-/

set_option autoImplicit false

namespace ConfigConstants

namespace Numeral

def IsSign (text : Text) : Prop :=
  text = [] ∨ text = ['-'] ∨ text = ['+']

def IsDigits (text : Text) : Prop :=
  ∀ char ∈ text, char.isDigit = true

/-- Digits behind an optional sign, without a point or around one; there is at least one digit. -/
inductive IsDecimal : Text → Prop
  | whole {sign digits : Text} : IsSign sign → IsDigits digits → digits ≠ [] →
      IsDecimal (sign ++ digits)
  | pointed {sign front back : Text} : IsSign sign → IsDigits front → IsDigits back →
      front ++ back ≠ [] → IsDecimal (sign ++ (front ++ '.' :: back))

theorem exists_sign_append_unsigned (text : Text) :
    ∃ sign, IsSign sign ∧ text = sign ++ unsigned text := by
  unfold unsigned
  split
  · exact ⟨['-'], Or.inr (Or.inl rfl), rfl⟩
  · exact ⟨['+'], Or.inr (Or.inr rfl), rfl⟩
  · exact ⟨[], Or.inl rfl, rfl⟩

theorem unsigned_append {sign body : Text} (isSign : IsSign sign)
    (notSign : ∀ next, body.head? = some next → next ≠ '-' ∧ next ≠ '+') :
    unsigned (sign ++ body) = body := by
  rcases isSign with rfl | rfl | rfl
  · cases body with
    | nil => rfl
    | cons head tail =>
        obtain ⟨notMinus, notPlus⟩ := notSign head rfl
        rw [List.nil_append, unsigned]
        · intro rest same
          exact notMinus (List.cons.inj same).1
        · intro rest same
          exact notPlus (List.cons.inj same).1
  · rfl
  · rfl

theorem not_sign_of_isDigit_or_point {char : Char}
    (digitOrPoint : char.isDigit = true ∨ char = '.') : char ≠ '-' ∧ char ≠ '+' := by
  rcases digitOrPoint with isDigit | rfl
  · constructor
    · rintro rfl
      exact absurd isDigit (by decide)
    · rintro rfl
      exact absurd isDigit (by decide)
  · decide

theorem unsigned_append_of_fits {sign body : Text} (isSign : IsSign sign)
    (charsFit : ∀ char ∈ body, char.isDigit = true ∨ char = '.') :
    unsigned (sign ++ body) = body := by
  apply unsigned_append isSign
  intro next isHead
  exact not_sign_of_isDigit_or_point (charsFit next (List.mem_of_head? isHead))

theorem fits_of_pointed {front back : Text} (frontDigits : IsDigits front)
    (backDigits : IsDigits back) :
    ∀ char ∈ front ++ '.' :: back, char.isDigit = true ∨ char = '.' := by
  intro char member
  rcases List.mem_append.mp member with inFront | behind
  · exact Or.inl (frontDigits char inFront)
  · rcases List.mem_cons.mp behind with isPoint | inBack
    · exact Or.inr isPoint
    · exact Or.inl (backDigits char inBack)

theorem point_notMem_of_isDigits {digits : Text} (allDigits : IsDigits digits) : '.' ∉ digits :=
  fun member => absurd (allDigits '.' member) (by decide)

theorem isDecimal_of_accepts {text : Text} (accepted : accepts text = true) : IsDecimal text := by
  obtain ⟨charsFit, ⟨digit, digitMember, isDigit⟩, onePoint⟩ := accepts_iff.mp accepted
  obtain ⟨sign, isSign, textEq⟩ := exists_sign_append_unsigned text
  generalize unsigned text = body at *
  subst textEq
  have isDigit_of_ne {char : Char} (member : char ∈ body) (notPoint : char ≠ '.') :
      char.isDigit = true :=
    (charsFit char member).resolve_right notPoint
  by_cases hasPoint : '.' ∈ body
  · obtain ⟨front, back, rfl, notInFront⟩ := List.eq_append_cons_of_mem hasPoint
    have notInBack : '.' ∉ back := by
      rw [List.count_append, List.count_cons_self, List.count_eq_zero.mpr notInFront] at onePoint
      exact List.count_eq_zero.mp (by omega)
    have notOnlyPoint : front ++ back ≠ [] := by
      intro nothing
      obtain ⟨rfl, rfl⟩ := List.append_eq_nil_iff.mp nothing
      rw [List.mem_singleton.mp digitMember] at isDigit
      exact absurd isDigit (by decide)
    refine .pointed isSign ?_ ?_ notOnlyPoint
    · intro char member
      exact isDigit_of_ne (List.mem_append_left _ member) fun same => notInFront (same ▸ member)
    · intro char member
      exact isDigit_of_ne (List.mem_append_right _ (List.mem_cons_of_mem _ member))
        fun same => notInBack (same ▸ member)
  · refine .whole isSign ?_ (List.ne_nil_of_mem digitMember)
    intro char member
    exact isDigit_of_ne member fun same => hasPoint (same ▸ member)

theorem accepts_of_isDecimal {text : Text} (decimal : IsDecimal text) : accepts text = true := by
  cases decimal with
  | whole isSign allDigits nonempty =>
      rw [accepts_iff, unsigned_append_of_fits isSign fun char member =>
        Or.inl (allDigits char member)]
      obtain ⟨digit, member⟩ := List.exists_mem_of_ne_nil _ nonempty
      refine ⟨fun char member => Or.inl (allDigits char member),
        ⟨digit, member, allDigits digit member⟩, ?_⟩
      rw [List.count_eq_zero.mpr (point_notMem_of_isDigits allDigits)]
      exact Nat.zero_le 1
  | @pointed sign front back isSign frontDigits backDigits nonempty =>
      have charsFit := fits_of_pointed frontDigits backDigits
      rw [accepts_iff, unsigned_append_of_fits isSign charsFit]
      obtain ⟨digit, member⟩ := List.exists_mem_of_ne_nil _ nonempty
      refine ⟨charsFit, ⟨digit, ?_, ?_⟩, ?_⟩
      · rw [List.mem_append] at member ⊢
        exact member.imp_right (List.mem_cons_of_mem _)
      · rcases List.mem_append.mp member with inFront | inBack
        · exact frontDigits digit inFront
        · exact backDigits digit inBack
      · have noneInFront := List.count_eq_zero.mpr (point_notMem_of_isDigits frontDigits)
        have noneInBack := List.count_eq_zero.mpr (point_notMem_of_isDigits backDigits)
        rw [List.count_append, List.count_cons_self]
        omega

theorem accepts_iff_isDecimal {text : Text} : accepts text = true ↔ IsDecimal text :=
  ⟨isDecimal_of_accepts, accepts_of_isDecimal⟩

/-- The number that a decimal stands for, as near as double precision gets. -/
def nearest (text : Text) : Binary64 :=
  Binary64.nearest (isNegative text) (coefficient text) (Nat.pow 10 (places text))

end Numeral

end ConfigConstants
