import ConfigConstants.Proofs.Declaration.Run
import ConfigConstants.Proofs.Lexeme.Arguments
import ConfigConstants.Proofs.Source.Stripping

/-!
The two statements that declare a constant, written out for a given name and literal, and what each
is read as. The one is taken apart at its first equals sign and its last semicolon, the other is cut
into lexemes; both readings find the name and the literal that were written.
-/

set_option autoImplicit false

namespace ConfigConstants

namespace ConstLine

def statement (name literal : Text) : Text :=
  keyword ++ name ++ [' ', '=', ' '] ++ literal ++ [';']

/-- The first equals sign is the one behind the name, and the last semicolon the one at the end. -/
theorem read_statement {name literal : Text} (nonempty : name ≠ []) (noEquals : '=' ∉ name)
    (nameTrimmed : Text.trim name = name) (literalTrimmed : Text.trim literal = literal)
    (line : Nat) : read line (statement name literal) = .ok ⟨name, literal, ⟨line, 1⟩⟩ := by
  have atEquals : Text.splitAtFirst? '=' (statement name literal) =
      some (keyword ++ (name ++ [' ']), ' ' :: literal ++ [';']) := by
    apply Text.splitAtFirst?_eq_some_iff.mpr
    constructor
    · simp [statement]
    · simp [keyword, noEquals]
  have fits : keyword.utf8Length ≤ (keyword ++ (name ++ [' '])).utf8Length := by
    rw [Text.utf8Length_append]
    exact Nat.le_add_right _ _
  have atSemicolon : Text.splitAtLast? ';' (' ' :: literal ++ [';']) = some (' ' :: literal, []) :=
    Text.splitAtLast?_eq_some_iff.mpr ⟨rfl, List.not_mem_nil⟩
  have oneBlank : ∀ char ∈ [' '], Text.isBlank char = true :=
    List.forall_mem_singleton.mpr (by decide)
  have nameEq : Text.trim (name ++ [' ']) = name := by
    rw [← List.nil_append (name ++ [' ']), ← List.append_assoc,
      Text.trim_append_of_blank (List.forall_mem_nil _) name oneBlank, nameTrimmed]
  have literalEq : Text.trim (' ' :: literal) = literal := by
    have around := Text.trim_append_of_blank oneBlank literal (List.forall_mem_nil _)
    rw [List.append_nil] at around
    exact around.trans literalTrimmed
  have isName : name? (keyword ++ (name ++ [' '])) = some name := by
    rw [name?, Text.dropUtf8?_append, Option.map_some, nameEq, Option.filter_some, if_pos]
    simpa using nonempty
  have split : splitAtEquals? (statement name literal) =
      some (keyword ++ (name ++ [' ']), ' ' :: literal ++ [';']) := by
    rw [splitAtEquals?, atEquals, Option.filter_some, if_pos (decide_eq_true fits)]
  simp only [read, split, atSemicolon, isName, literalEq]

theorem ofStripped_statement (name literal : Text) :
    SourceLine.ofStripped (statement name literal) = .constant (statement name literal) := by
  have begins :
      statement name literal = keyword ++ (name ++ [' ', '=', ' '] ++ literal ++ [';']) := by
    simp [statement]
  rw [SourceLine.ofStripped, if_pos]
  rw [begins, Text.afterWord?_append, Option.isSome_some]

end ConstLine

namespace DefineCall

def statement (key literal : Text) : Text :=
  defineWord ++ '(' :: (key ++ ',' :: ' ' :: (literal ++ [')', ';']))

theorem ofStripped_statement (key literal : Text) :
    SourceLine.ofStripped (statement key literal) = .calls (statement key literal) := by
  have noConst : Text.afterWord? ConstLine.keyword (statement key literal) = none := rfl
  have mentions : Text.occursIn defineWord (Text.foldCase (statement key literal)) = true := by
    rw [Text.occursIn_iff, statement, Text.foldCase_append]
    exact List.infix_append' [] _ _
  rw [SourceLine.ofStripped, noConst, Option.isSome_none, if_neg Bool.false_ne_true,
    if_pos mentions]

theorem lexemes_statement {key literal : Text} (keyArgument : IsArgument key)
    (literalArgument : IsArgument literal) :
    ∃ keyKind literalKind : LexemeKind, keyKind.isArgument = true ∧ literalKind.isArgument = true ∧
      lexemes (statement key literal) =
        [⟨.word, defineWord⟩, ⟨.openParenthesis, ['(']⟩, ⟨keyKind, key⟩, ⟨.comma, [',']⟩,
          ⟨.space, [' ']⟩, ⟨literalKind, literal⟩, ⟨.closeParenthesis, [')']⟩,
          ⟨.semicolon, [';']⟩] := by
  have beforeComma : Text.StartsOutside Lexeme.isNumberChar
      (',' :: ' ' :: (literal ++ [')', ';'])) := by
    intro next isHead
    cases isHead
    decide
  have beforeParenthesis : Text.StartsOutside Lexeme.isNumberChar [')', ';'] := by
    intro next isHead
    cases isHead
    decide
  obtain ⟨keyKind, keyIsArgument, keyLexemes⟩ := keyArgument.lexemes_append beforeComma
  obtain ⟨literalKind, literalIsArgument, literalLexemes⟩ :=
    literalArgument.lexemes_append beforeParenthesis
  have notSpace : Text.StartsOutside Lexeme.isSpace (literal ++ [')', ';']) := by
    intro next isHead
    rw [List.head?_append] at isHead
    cases start : literal.head? with
    | some first =>
        rw [start] at isHead
        exact literalArgument.startsOutside_isSpace next (start.trans isHead)
    | none =>
        rw [start] at isHead
        cases isHead
        decide
  have wordCut (rest : Text) : Lexeme.cut 'd' ('e' :: 'f' :: 'i' :: 'n' :: 'e' :: '(' :: rest) =
      ⟨.word, ['e', 'f', 'i', 'n', 'e'], '(' :: rest⟩ := rfl
  have openingCut (rest : Text) : Lexeme.cut '(' rest = ⟨.openParenthesis, [], rest⟩ := rfl
  have commaCut (rest : Text) : Lexeme.cut ',' rest = ⟨.comma, [], rest⟩ := rfl
  have closingCut (rest : Text) : Lexeme.cut ')' rest = ⟨.closeParenthesis, [], rest⟩ := rfl
  have semicolonCut (rest : Text) : Lexeme.cut ';' rest = ⟨.semicolon, [], rest⟩ := rfl
  have spaceLexemes : lexemes (' ' :: (literal ++ [')', ';'])) =
      ⟨.space, [' ']⟩ :: lexemes (literal ++ [')', ';']) := by
    have ends : (Lexeme.rule ' ' []).EndsBefore ' ' (Lexeme.cut ' ' []).kind
        (literal ++ [')', ';']) := notSpace
    exact lexemes_local ends
  refine ⟨keyKind, literalKind, keyIsArgument, literalIsArgument, ?_⟩
  unfold statement defineWord
  simp only [List.cons_append, List.nil_append]
  rw [lexemes_cons, wordCut, lexemes_cons, openingCut, keyLexemes, lexemes_cons, commaCut,
    spaceLexemes, literalLexemes, lexemes_cons, closingCut, lexemes_cons, semicolonCut, lexemes_nil]

theorem lineOutcomes_statement {key literal : Text} (keyArgument : IsArgument key)
    (literalArgument : IsArgument literal) (line : Nat) :
    ∃ position, lineOutcomes line (statement key literal) =
      [.declared ⟨Quote.bare key, literal, position⟩] := by
  obtain ⟨keyKind, literalKind, keyIsArgument, literalIsArgument, cut⟩ :=
    lexemes_statement keyArgument literalArgument
  have keyTakesPart := LexemeKind.separates_eq_false_of_isArgument keyIsArgument
  have literalTakesPart := LexemeKind.separates_eq_false_of_isArgument literalIsArgument
  have isWord : isDefineWord ⟨.word, defineWord⟩ = true := by decide
  have marksTakePart : LexemeKind.word.separates = false ∧
      LexemeKind.openParenthesis.separates = false ∧ LexemeKind.comma.separates = false ∧
      LexemeKind.closeParenthesis.separates = false ∧ LexemeKind.semicolon.separates = false := by
    decide
  have spaceSeparates : LexemeKind.space.separates = true := rfl
  rw [lineOutcomes, locatedLexemes, cut]
  simp [outcomes, outcomesFrom, Lexeme.locate, read, begin?, advance?, isWord, keyIsArgument,
    literalIsArgument, keyTakesPart, literalTakesPart, marksTakePart, spaceSeparates, declaration]

end DefineCall

end ConfigConstants
