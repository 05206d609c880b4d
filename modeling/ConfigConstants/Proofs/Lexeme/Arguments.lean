import ConfigConstants.Proofs.Lexeme.Locality

/-!
Texts that are a single lexeme which can stand as an argument of a call: a quoted text, a word or a
number. Such a text stays that one lexeme in front of everything that cannot go on with a number,
and a name of word characters is one with and without quotes.
-/

set_option autoImplicit false

namespace ConfigConstants

open Text (StartsOutside)

namespace Lexeme

theorem endsBefore_of_isArgument {head : Char} {tail rest : Text}
    (argument : (cut head tail).kind.isArgument = true)
    (outside : StartsOutside isNumberChar rest) :
    (rule head tail).EndsBefore head (cut head tail).kind rest := by
  apply endsBefore_of_startsOutside (LexemeKind.runsToEnd_of_isArgument argument) outside
  all_goals
    intro isKind
    rw [isKind] at argument
    contradiction

end Lexeme

def IsArgument (text : Text) : Prop :=
  ∃ lexeme, lexemes text = [lexeme] ∧ lexeme.kind.isArgument = true

namespace IsArgument

open Lexeme

theorem exists_cut {text : Text} (argument : IsArgument text) :
    ∃ head tail, text = head :: tail ∧ (cut head tail).body = tail ∧
      (cut head tail).kind.isArgument = true := by
  obtain ⟨lexeme, single, isArgument⟩ := argument
  cases text with
  | nil =>
      rw [lexemes_nil] at single
      contradiction
  | cons head tail =>
      rw [lexemes_cons, List.cons.injEq] at single
      obtain ⟨rfl, nothingBehind⟩ := single
      have parts := cut_append head tail
      rw [lexemes_eq_nil_iff.mp nothingBehind, List.append_nil] at parts
      exact ⟨head, tail, rfl, parts, isArgument⟩

/-- An argument stays one lexeme in front of anything that cannot go on with it. -/
theorem lexemes_append {text rest : Text} (argument : IsArgument text)
    (outside : StartsOutside isNumberChar rest) :
    ∃ kind : LexemeKind, kind.isArgument = true ∧
      lexemes (text ++ rest) = ⟨kind, text⟩ :: lexemes rest := by
  obtain ⟨head, tail, rfl, bodyEq, isArgument⟩ := argument.exists_cut
  apply Exists.intro (cut head tail).kind
  constructor
  · exact isArgument
  · have split := lexemes_local (endsBefore_of_isArgument isArgument outside)
    rw [bodyEq] at split
    exact split

theorem startsOutside_isSpace {text : Text} (argument : IsArgument text) :
    StartsOutside isSpace text := by
  obtain ⟨head, tail, rfl, _, isArgument⟩ := argument.exists_cut
  intro next isHead
  cases isHead
  cases space : isSpace head with
  | false => rfl
  | true =>
      have isRule : rule head tail = .spaces := if_pos space
      rw [cut, isRule] at isArgument
      contradiction

theorem of_isWordChar {name : Text} (nonempty : name ≠ [])
    (allWord : ∀ char ∈ name, isWordChar char = true) : IsArgument name := by
  cases name with
  | nil => contradiction
  | cons head tail =>
      have headIsWord := allWord head List.mem_cons_self
      have tailIsWord : ∀ char ∈ tail, isWordChar char = true :=
        fun char member => allWord char (List.mem_cons_of_mem head member)
      have tailIsNumber : ∀ char ∈ tail, isNumberChar char = true :=
        fun char member => isNumberChar_of_isWordChar (tailIsWord char member)
      unfold IsArgument
      rw [lexemes_cons, cut, rule_of_isWordChar headIsWord]
      split
      · simp only [Rule.cut, Cut.numeral, Cut.run, List.takeWhile_eq_self_iff.mpr tailIsNumber,
          List.dropWhile_eq_nil_iff.mpr tailIsNumber, lexemes_nil]
        refine ⟨_, rfl, ?_⟩
        split <;> rfl
      · simp only [Rule.cut, Cut.run, List.takeWhile_eq_self_iff.mpr tailIsWord,
          List.dropWhile_eq_nil_iff.mpr tailIsWord, lexemes_nil]
        exact ⟨_, rfl, rfl⟩

end IsArgument

/-- Quotes around a text that holds neither their mark nor a backslash make one quoted text. -/
theorem IsArgument.wrap {quote : Quote} {inner : Text} (noMark : quote.mark ∉ inner)
    (noBackslash : '\\' ∉ inner) : IsArgument (quote.wrap inner) := by
  have isRule : Lexeme.rule quote.mark (inner ++ [quote.mark]) = .quoted quote := by
    cases quote <;> rfl
  have found : Lexeme.throughQuote? quote (inner ++ [quote.mark]) =
      some (inner ++ [quote.mark], []) :=
    Lexeme.throughQuote?_eq_some_iff.mpr
      ⟨inner, rfl, (List.append_nil _).symm, QuotedBody.of_notMem noMark noBackslash⟩
  unfold IsArgument Quote.wrap
  rw [lexemes_cons, Lexeme.cut, isRule]
  simp only [Lexeme.Rule.cut, found, Lexeme.Cut.through, lexemes_nil]
  exact ⟨_, rfl, rfl⟩

end ConfigConstants
