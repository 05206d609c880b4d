import ConfigConstants.Proofs.Declaration.Drain
import ConfigConstants.Proofs.Lexeme.Joined

/-!
Statements separated by a semicolon. A semicolon is a lexeme of its own behind everything that has
come to its end, and no call goes on over it. The main statement says that two statements with a
semicolon between them declare what each of them declares alone, save for the places of the second.
-/

set_option autoImplicit false

namespace ConfigConstants

def semicolon : Lexeme := ⟨.semicolon, [';']⟩

theorem lexemes_semicolon_cons (back : Text) :
    lexemes (';' :: back) = semicolon :: lexemes back := by
  rw [lexemes_cons]
  rfl

/-- A semicolon cuts the text in two, unless it is taken into what does not end in front of it. -/
theorem lexemes_append_semicolon {front : Text}
    (ended : ∀ last ∈ (lexemes front).getLast?, last.kind.runsToEnd = false) (back : Text) :
    lexemes (front ++ ';' :: back) = lexemes front ++ semicolon :: lexemes back := by
  by_cases nonempty : front = []
  · rw [nonempty, lexemes_nil, List.nil_append, List.nil_append, lexemes_semicolon_cons]
  · have startsOutside {belongs : Char → Bool} (notInside : belongs ';' = false) :
        Text.StartsOutside belongs (';' :: back) := Text.startsOutside_cons notInside back
    have noDigit : Text.StartsOutside Char.isDigit (';' :: back) := startsOutside rfl
    obtain ⟨earlier, last, frontEq, single, joined⟩ := exists_last_lexemes_append nonempty noDigit
    have lastEnded : last.kind.runsToEnd = false := ended last (by simp [frontEq])
    have behindLast := lexemes_append_of_single single lastEnded
      (startsOutside rfl) (fun _ => startsOutside rfl) (fun _ _ => by simp)
    rw [joined, behindLast, lexemes_semicolon_cons, frontEq, List.append_assoc,
      List.singleton_append]

namespace DefineCall

theorem openAfter_semicolon {lexeme : LocatedLexeme} (isSemicolon : lexeme.kind = .semicolon)
    (call : Option OpenCall) : openAfter call [lexeme] = none := by
  have takesPart : lexeme.kind.separates = false := by rw [isSemicolon]; rfl
  have beginsNone : begin? lexeme = none := by simp [begin?, isDefineWord, isSemicolon]
  rw [openAfter_cons takesPart, openAfter]
  cases call with
  | none => exact beginsNone
  | some openCall =>
      have doesNotFit : advance? lexeme openCall = none := by
        cases openCall with
        | afterWord | afterParenthesis | afterKey | afterComma | afterValue =>
            simp [advance?, isSemicolon, LexemeKind.isArgument]
      simp only [read, doesNotFit]
      exact beginsNone

theorem declarationsFrom_semicolon {lexeme : LocatedLexeme} (isSemicolon : lexeme.kind = .semicolon)
    (call : Option OpenCall) (later : List LocatedLexeme) :
    declarationsFrom call (lexeme :: later) = declarationsFrom none later := by
  rw [declarationsFrom_cons_of_kind_ne (by rw [isSemicolon]; decide),
    openAfter_semicolon isSemicolon]

theorem declarationsFrom_none_moved (move : Position → Position) (lexemes : List LocatedLexeme) :
    declarationsFrom none (lexemes.map (LocatedLexeme.moved move)) =
      (declarationsFrom none lexemes).map (Declaration.moved move) := by
  have moved := outcomesFrom_moved move none lexemes
  rw [Option.map_none] at moved
  rw [declarationsFrom, declarationsFrom, moved, List.filterMap_map, List.map_filterMap]
  congr 1
  funext outcome
  cases outcome <;> rfl

/-- For all texts and every line: if the first text is empty or its last lexeme comes to its end by
itself, then asking for the calls of the two texts with a semicolon between them yields those of the
first and then those of the second, further on by the first text and the semicolon. -/
theorem drain_append_semicolon (line : Nat) (front back : Text)
    (ended : ∀ last ∈ (lexemes front).getLast?, last.kind.runsToEnd = false) :
    (Reader.ofLexemes (locatedLexemes line (front ++ ';' :: back))).drain =
      (Reader.ofLexemes (locatedLexemes line front)).drain ++
        (Reader.ofLexemes (locatedLexemes line back)).drain.map
          (Declaration.moved (Position.further (front.utf8Length + 1))) := by
  have located : locatedLexemes line (front ++ ';' :: back) =
      locatedLexemes line front ++ ⟨semicolon, ⟨line, 1 + front.utf8Length⟩⟩ ::
        (locatedLexemes line back).map
          (LocatedLexeme.moved (Position.further (front.utf8Length + 1))) := by
    rw [locatedLexemes, lexemes_append_semicolon ended, Lexeme.locate_append,
      flatMap_text_lexemes, Lexeme.locate, locatedLexemes, locatedLexemes, ← Lexeme.locate_add,
      Nat.add_assoc]
    rfl
  rw [drain_ofLexemes, drain_ofLexemes, drain_ofLexemes, located, declarationsFrom_append,
    declarationsFrom_semicolon rfl, declarationsFrom_none_moved]

theorem drain_append_semicolon_of_broken_call :
    (∀ last ∈ (lexemes "é define('A'".toList).getLast?, last.kind.runsToEnd = false) ∧
    (Reader.ofLexemes
        (locatedLexemes 3 ("é define('A'".toList ++ ';' :: ",2)define('B',3)".toList))).drain =
      [⟨"B".toList, "3".toList, ⟨3, 25⟩⟩] := by
  refine ⟨by decide +kernel, ?_⟩
  rw [drain_append_semicolon 3 _ _ (by decide +kernel), drain_ofLexemes, drain_ofLexemes]
  decide +kernel

end DefineCall

end ConfigConstants
