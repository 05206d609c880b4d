import ConfigConstants.Proofs.Lexeme.Joined
import ConfigConstants.Proofs.Lexeme.Members
import ConfigConstants.Proofs.Literal.Expression

/-!
Numbers among the lexemes. The lexer looks one or two code points ahead to tell whether a number
begins, and then takes a run as long as it can; a numeral begins in that way and is such a run. The
main statement is that three ways to say what a number is come to the same: counting digits and
points, matching a regular expression, and being a single lexeme of the kind.
-/

set_option autoImplicit false

namespace ConfigConstants

open Lexeme (isNumberChar)
open Grammar (StartsNumber LongestRun Takes)

namespace Numeral

theorem startsNumber_append {sign : Text} (isSign : IsSign sign) {digit : Char}
    (isDigit : digit.isDigit = true) (behind : Text) :
    StartsNumber (sign ++ digit :: behind) ∧ StartsNumber (sign ++ '.' :: digit :: behind) := by
  rcases isSign with rfl | rfl | rfl
  · exact ⟨.digit isDigit, .point isDigit⟩
  · exact ⟨.sign (Or.inl rfl) isDigit, .signPoint (Or.inl rfl) isDigit⟩
  · exact ⟨.sign (Or.inr rfl) isDigit, .signPoint (Or.inr rfl) isDigit⟩

theorem startsNumber_of_isDecimal {text : Text} (decimal : IsDecimal text) : StartsNumber text := by
  cases decimal with
  | whole isSign allDigits nonempty =>
      obtain ⟨digit, others, rfl⟩ := List.exists_cons_of_ne_nil nonempty
      exact (startsNumber_append isSign (allDigits digit List.mem_cons_self) others).1
  | @pointed sign front back isSign frontDigits backDigits nonempty =>
      cases front with
      | cons digit others =>
          exact (startsNumber_append isSign (frontDigits digit List.mem_cons_self) _).1
      | nil =>
          obtain ⟨digit, others, rfl⟩ := List.exists_cons_of_ne_nil nonempty
          exact (startsNumber_append isSign (backDigits digit List.mem_cons_self) others).2

theorem mem_unsigned_of_mem_tail {head char : Char} {tail : Text} (member : char ∈ tail) :
    char ∈ unsigned (head :: tail) := by
  unfold unsigned
  split
  · next same => exact (List.cons.inj same).2 ▸ member
  · next same => exact (List.cons.inj same).2 ▸ member
  · exact List.mem_cons_of_mem head member

theorem longestRun_of_accepts {head : Char} {tail : Text}
    (accepted : accepts (head :: tail) = true) : LongestRun isNumberChar tail [] where
  inside char member := by
    rcases (accepts_iff.mp accepted).1 char (mem_unsigned_of_mem_tail member) with isDigit | isPoint
    · exact Lexeme.isNumberChar_of_isDigit isDigit
    · rw [isPoint]
      rfl
  outside next isHead := by contradiction

/-- A numeral is a single number if it can be counted. -/
theorem lexemes_of_accepts {text : Text} (counted : countedAccepts text = true)
    (accepted : accepts text = true) : lexemes text = [⟨.number, text⟩] := by
  have starts := startsNumber_of_isDecimal (isDecimal_of_accepts accepted)
  cases text with
  | nil => contradiction
  | cons head tail =>
      have takes : Takes .number .number (head :: tail) [] :=
        .number (by rwa [List.append_nil]) (longestRun_of_accepts accepted) counted
      exact takes.lexemes_eq_singleton (by decide)

end Numeral

theorem Grammar.Takes.countedAccepts_of_number {production : Grammar.Production}
    {taken rest : Text} (takes : Takes production .number taken rest) :
    Numeral.countedAccepts taken = true := by
  cases takes with
  | number _ _ accepted => exact accepted
  | punctuation member => simp [Grammar.marks] at member

/-- A lexeme is a number just when its text counts as a numeral. -/
theorem kind_eq_number_iff_of_mem_lexemes {text : Text} {lexeme : Lexeme}
    (member : lexeme ∈ lexemes text) :
    lexeme.kind = .number ↔ Numeral.countedAccepts lexeme.text = true := by
  constructor
  · intro isNumber
    obtain ⟨production, rest, takes, _, _⟩ :=
      Grammar.exists_takes_of_cons (lexemes_text_of_mem member)
    rw [isNumber] at takes
    exact takes.countedAccepts_of_number
  · intro accepted
    obtain ⟨head, tail, _, rfl⟩ := exists_cut_of_mem_lexemes member
    by_cases isNumeral : Lexeme.rule head tail = .numeral
    · have isCut : Lexeme.cut head tail = Lexeme.Cut.numeral head tail := by
        rw [Lexeme.cut, isNumeral]
        rfl
      simp only [isCut, Lexeme.Cut.numeral, Lexeme.Cut.run] at accepted ⊢
      rw [if_pos accepted]
    · have rejected := Numeral.countedAccepts_of_countedAccepts?
        (ByteReader.countedAccepts?_of_rule_ne .wraps isNumeral)
      rw [rejected] at accepted
      contradiction

theorem ByteReader.kind_eq_number_iff {overflow : Overflow} {number : Nat} {text : Text}
    {found : List LocatedLexeme} (read : ByteReader.lexemes? overflow number text = some found)
    {lexeme : LocatedLexeme} (member : lexeme ∈ found) :
    lexeme.kind = .number ↔ Numeral.countedAccepts? overflow lexeme.text = some true := by
  obtain ⟨rfl, allCounted⟩ := ByteReader.lexemes?_eq_some_iff.mp read
  have isLexeme := Lexeme.toLexeme_mem_of_mem_locate member
  obtain ⟨answer, counted⟩ := Option.isSome_iff_exists.mp (allCounted _ isLexeme)
  rw [kind_eq_number_iff_of_mem_lexemes isLexeme, Numeral.countedAccepts_of_countedAccepts? counted,
    counted, Option.some_inj]

namespace Numeral

theorem accepts_iff_lexemes {text : Text} (short : text.utf8Length < 0x80000000) :
    accepts text = true ↔ (lexemes text).map Lexeme.kind = [.number] := by
  have counted := countedAccepts_eq_accepts short
  constructor
  · intro accepted
    rw [lexemes_of_accepts (counted.trans accepted) accepted]
    rfl
  · intro single
    obtain ⟨lexeme, whole, isNumber⟩ := List.map_eq_singleton_iff.mp single
    have isMember : lexeme ∈ lexemes text := by
      rw [whole]
      exact List.mem_singleton_self lexeme
    have textEq := flatMap_text_lexemes text
    rw [whole, List.flatMap_singleton] at textEq
    rw [← counted, ← textEq]
    exact (kind_eq_number_iff_of_mem_lexemes isMember).mp isNumber

/-- For every text of less than `2 ^ 31` bytes: counting its digits and points comes to an answer,
which is whether the text is a numeral; it is one just when it matches the regular expression of
numerals as a whole, and just when it is a single lexeme and that is a number. Among the lexemes of
any line the numbers are those whose text counts as a numeral, and in lexemes of less than `2 ^ 31`
bytes this means that it is one. -/
theorem numeral_counted_matched_and_lexed (overflow : Overflow) (text : Text)
    (short : text.utf8Length < 0x80000000) :
    (countedAccepts? overflow text = some (accepts text) ∧
      (accepts text = true ↔ text ∈ expression.matches') ∧
      (accepts text = true ↔ (lexemes text).map Lexeme.kind = [.number]) ∧
      ByteReader.lexemes? overflow 1 text = some (locatedLexemes 1 text)) ∧
    (∀ (number : Nat) (line : Text) (found : List LocatedLexeme),
      ByteReader.lexemes? overflow number line = some found → ∀ lexeme ∈ found,
        (lexeme.kind = .number ↔ countedAccepts? overflow lexeme.text = some true)) ∧
    ∀ (line : Text) (lexeme : Lexeme), lexeme ∈ lexemes line →
      (lexeme.kind = .number ↔ countedAccepts lexeme.text = true) ∧
      (lexeme.text.utf8Length < 0x80000000 →
        (lexeme.kind = .number ↔ accepts lexeme.text = true) ∧
        (lexeme.kind = .number ↔ countedAccepts? overflow lexeme.text = some true)) := by
  refine ⟨?_, ?_, ?_⟩
  · exact ⟨countedAccepts?_eq overflow short, mem_expression_iff_accepts.symm,
      accepts_iff_lexemes short, ByteReader.lexemes?_of_countable (Or.inr short) 1⟩
  · intro number line found read lexeme member
    exact ByteReader.kind_eq_number_iff read member
  · intro line lexeme member
    have isNumber := kind_eq_number_iff_of_mem_lexemes member
    refine ⟨isNumber, ?_⟩
    intro lexemeShort
    rw [countedAccepts?_eq overflow lexemeShort, Option.some_inj, isNumber,
      countedAccepts_eq_accepts lexemeShort]
    exact ⟨Iff.rfl, Iff.rfl⟩

theorem signed_fraction_counted_matched_and_lexed :
    Text.utf8Length "-.5".toList < 0x80000000 ∧
      countedAccepts? .stops "-.5".toList = some true ∧
      "-.5".toList ∈ expression.matches' ∧
      (lexemes "-.5".toList).map Lexeme.kind = [.number] := by
  have short : Text.utf8Length "-.5".toList < 0x80000000 := by decide
  have accepted : accepts "-.5".toList = true := by decide
  obtain ⟨⟨counted, matched, lexed, _⟩, _⟩ :=
    numeral_counted_matched_and_lexed .stops "-.5".toList short
  rw [accepted] at counted
  exact ⟨short, counted, matched.mp accepted, lexed.mp accepted⟩

end Numeral

end ConfigConstants
