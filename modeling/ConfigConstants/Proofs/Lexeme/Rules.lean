import ConfigConstants.Lexeme.Cut
import ConfigConstants.Proofs.Text.Runs

/-!
What each rule of the lexer asks of the text in front of it. Of the text behind the first code
point a rule looks only at what could begin a comment or a number there. The main statements are
that list of demands and the congruence that follows from it.
-/

set_option autoImplicit false

namespace ConfigConstants

namespace Lexeme

/-- What stands at the front of a text to which a rule applies. -/
def Rule.Applies (head : Char) (tail : Text) : Rule → Prop
  | .spaces => isSpace head = true
  | .lineComment => head = '#' ∨ head = '/' ∧ tail.head? = some '/'
  | .blockComment => head = '/' ∧ tail.head? = some '*'
  | .quoted quote => head = quote.mark
  | .single .openParenthesis => head = '('
  | .single .closeParenthesis => head = ')'
  | .single .comma => head = ','
  | .single .semicolon => head = ';'
  | .single .other =>
      head ≠ '#' ∧ Quote.ofMark? head = none ∧
        (head = '/' → tail.head? ≠ some '/' ∧ tail.head? ≠ some '*')
  | .single _ => False
  | .variableName => head = '$'
  | .numeral => beginsNumeral head tail = true
  | .word => isWordChar head = true ∧ head.isDigit = false

theorem beginsNumeral_of_isDigit {head : Char} (isDigit : head.isDigit = true) (tail : Text) :
    beginsNumeral head tail = true := by
  unfold beginsNumeral
  exact if_pos isDigit

theorem rule_applies (head : Char) (tail : Text) : (rule head tail).Applies head tail := by
  unfold rule
  split
  · assumption
  split
  · next isHash => exact Or.inl isHash
  split
  · next starts => exact Or.inr starts
  split
  · assumption
  split
  · next found => exact (Quote.mark_eq_of_ofMark? found).symm
  unfold plainRule
  next notHash notLine notBlock _ noQuote =>
    repeat' split
    all_goals first | assumption | skip
    · next notNumeral isWord =>
        refine ⟨isWord, ?_⟩
        by_cases isDigit : head.isDigit = true
        · exact absurd (beginsNumeral_of_isDigit isDigit tail) notNumeral
        · simpa using isDigit
    · refine ⟨notHash, noQuote, ?_⟩
      intro isSlash
      exact ⟨fun next => notLine ⟨isSlash, next⟩, fun next => notBlock ⟨isSlash, next⟩⟩

theorem rule_eq_other_iff {head : Char} {tail : Text} :
    rule head tail = .single .other ↔
      isSpace head = false ∧ head ≠ '#' ∧
        (head = '/' → tail.head? ≠ some '/' ∧ tail.head? ≠ some '*') ∧
        Quote.ofMark? head = none ∧ head ∉ ['(', ')', ',', ';', '$'] ∧
        beginsNumeral head tail = false ∧ isWordChar head = false := by
  unfold rule plainRule
  cases isSpace head <;> cases Quote.ofMark? head <;> cases beginsNumeral head tail <;>
    cases isWordChar head <;> grind

theorem rule_congr {head : Char} {tail other : Text}
    (sameStart : head = '/' → tail.head? = other.head?)
    (sameNumeral : beginsNumeral head tail = beginsNumeral head other) :
    rule head tail = rule head other := by
  unfold rule plainRule
  rw [sameNumeral]
  by_cases isSlash : head = '/'
  · rw [sameStart isSlash]
  · simp only [isSlash, false_and, if_false]

/-- Only a sign looks two code points ahead, and only past a point. -/
theorem beginsNumeral_congr {head : Char} {tail other : Text}
    (sameHead : tail.head? = other.head?)
    (samePoint : tail.head? = some '.' → tail.tail.head? = other.tail.head?) :
    beginsNumeral head tail = beginsNumeral head other := by
  cases tail with
  | nil =>
      cases other with
      | nil => rfl
      | cons next others => simp at sameHead
  | cons next others =>
      cases other with
      | nil => simp at sameHead
      | cons otherNext otherOthers =>
          have same : next = otherNext := by simpa using sameHead
          subst same
          by_cases isPoint : next = '.'
          · subst isPoint
            have sameBehind : others.head? = otherOthers.head? := by simpa using samePoint
            simp only [beginsNumeral, sameBehind, List.head?_cons]
          · simp [beginsNumeral, isPoint]

theorem beginsNumeral_of_not_sign {head : Char} (notPoint : head ≠ '.')
    (notSign : ¬ (head = '-' ∨ head = '+')) (tail : Text) :
    beginsNumeral head tail = head.isDigit := by
  unfold beginsNumeral
  cases head.isDigit <;> simp [notPoint, notSign]

/-- The code points whose rule depends on what follows them. -/
def lookahead : List Char := ['/', '.', '-', '+']

theorem eq_false_of_mem_lookahead {test : Char → Bool} (allFail : lookahead.any test = false)
    {char : Char} (member : char ∈ lookahead) : test char = false :=
  eq_false_of_ne_true (List.any_eq_false.mp allFail char member)

theorem rule_eq_of_not_mem_lookahead {head : Char} (fixed : head ∉ lookahead)
    (tail other : Text) : rule head tail = rule head other := by
  simp only [lookahead, List.mem_cons, List.not_mem_nil, or_false, not_or] at fixed
  obtain ⟨notSlash, notPoint, notMinus, notPlus⟩ := fixed
  have notSign : ¬ (head = '-' ∨ head = '+') := not_or.mpr ⟨notMinus, notPlus⟩
  apply rule_congr
  · intro isSlash
    contradiction
  · rw [beginsNumeral_of_not_sign notPoint notSign, beginsNumeral_of_not_sign notPoint notSign]

theorem isNumberChar_of_isWordChar {char : Char} (isWord : isWordChar char = true) :
    isNumberChar char = true := by
  simp [isNumberChar, isWord]

theorem isWordChar_of_isNumberChar_eq_false {char : Char} (notNumber : isNumberChar char = false) :
    isWordChar char = false := by
  cases isWord : isWordChar char with
  | false => rfl
  | true => rw [isNumberChar_of_isWordChar isWord] at notNumber; contradiction

theorem isNumberChar_of_isDigit {char : Char} (isDigit : char.isDigit = true) :
    isNumberChar char = true := by
  simp [isNumberChar, isWordChar, Char.isAlphanum, isDigit]

theorem isDigit_of_isNumberChar_eq_false {char : Char} (notNumber : isNumberChar char = false) :
    char.isDigit = false := by
  cases isDigit : char.isDigit with
  | false => rfl
  | true => rw [isNumberChar_of_isDigit isDigit] at notNumber; contradiction

theorem beginsNumeral_of_startsOutside {head : Char} (notDigit : head.isDigit = false) {rest : Text}
    (outside : Text.StartsOutside isNumberChar rest) : beginsNumeral head rest = false := by
  cases rest with
  | nil => simp [beginsNumeral, notDigit]
  | cons next others =>
      have noNumberChar := outside next rfl
      have notPoint : next ≠ '.' := by
        rintro rfl
        contradiction
      have nextNotDigit := isDigit_of_isNumberChar_eq_false noNumberChar
      simp [beginsNumeral, notDigit, notPoint, nextNotDigit]

theorem isSpace_of_isWordChar {char : Char} (isWord : isWordChar char = true) :
    isSpace char = false := by
  have notBlank : char ≠ ' ' ∧ char ≠ '\t' ∧ char ≠ '\r' ∧ char ≠ '\n' :=
    ⟨Text.ne_of_belongs isWord (by decide), Text.ne_of_belongs isWord (by decide),
      Text.ne_of_belongs isWord (by decide), Text.ne_of_belongs isWord (by decide)⟩
  simp [isSpace, notBlank]

theorem isNumberChar_of_isSpace {char : Char} (isBlank : isSpace char = true) :
    isNumberChar char = false := by
  have notPoint : char ≠ '.' := Text.ne_of_belongs isBlank (by decide)
  cases isWord : isWordChar char with
  | false => simp [isNumberChar, notPoint, isWord]
  | true => rw [isSpace_of_isWordChar isWord] at isBlank; contradiction

theorem ofMark?_of_ne {char : Char} (notMark : ∀ quote : Quote, char ≠ quote.mark) :
    Quote.ofMark? char = none := by
  simp [Quote.ofMark?, notMark]

theorem isWordChar_mark (quote : Quote) : isWordChar quote.mark = false := by
  cases quote <;> decide

theorem rule_of_isWordChar {head : Char} (isWord : isWordChar head = true) (tail : Text) :
    rule head tail = if head.isDigit then .numeral else .word := by
  have differs {other : Char} (notWord : isWordChar other = false) : head ≠ other :=
    Text.ne_of_belongs isWord notWord
  have notSign : ¬ (head = '-' ∨ head = '+') := by
    intro sign
    rcases sign with same | same
    · exact differs (by decide) same
    · exact differs (by decide) same
  have numeral := beginsNumeral_of_not_sign (differs (by decide)) notSign tail
  have notSpace := isSpace_of_isWordChar isWord
  have noQuote := ofMark?_of_ne fun quote => differs (isWordChar_mark quote)
  have notHash : head ≠ '#' := differs (by decide)
  have notSlash : head ≠ '/' := differs (by decide)
  have notOpen : head ≠ '(' := differs (by decide)
  have notClose : head ≠ ')' := differs (by decide)
  have notComma : head ≠ ',' := differs (by decide)
  have notSemicolon : head ≠ ';' := differs (by decide)
  have notDollar : head ≠ '$' := differs (by decide)
  simp [rule, plainRule, notSpace, notHash, notSlash, noQuote, notOpen, notClose, notComma,
    notSemicolon, notDollar, numeral, isWord]

end Lexeme

end ConfigConstants
