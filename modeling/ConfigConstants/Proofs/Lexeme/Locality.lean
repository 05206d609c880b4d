import ConfigConstants.Proofs.Lexeme.ClosingMarks
import ConfigConstants.Proofs.Lexeme.Rules

/-!
Lexing is local: what stands behind a lexeme matters only by where it lets the lexeme end. The main
statement says that a stretch taken from the front of a text is taken unchanged when the text behind
it is replaced by any other in front of which the stretch can end.
-/

set_option autoImplicit false

namespace ConfigConstants

/-- The kinds that nothing but the end of the line ends. -/
def LexemeKind.runsToEnd : LexemeKind → Bool
  | .lineComment | .blockComment false | .unclosedQuote => true
  | _ => false

theorem LexemeKind.runsToEnd_of_isArgument {kind : LexemeKind}
    (argument : kind.isArgument = true) : kind.runsToEnd = false := by
  cases kind with
  | quoted quote | word | number => rfl
  | _ => contradiction

namespace Lexeme

open Text (StartsOutside)

theorem throughCommentEnd?_local {text inside rest : Text}
    (found : throughCommentEnd? text = some (inside, rest)) (other : Text) :
    throughCommentEnd? (inside ++ other) = some (inside, other) := by
  obtain ⟨body, insideEq, _, noEnd⟩ := throughCommentEnd?_eq_some_iff.mp found
  exact throughCommentEnd?_eq_some_iff.mpr ⟨body, insideEq, rfl, noEnd⟩

theorem notMem_of_throughCommentEnd? {line inside rest : Text} {char : Char}
    (found : throughCommentEnd? line = some (inside, rest)) (absent : char ∉ line) :
    char ∉ rest := by
  intro member
  apply absent
  rw [← throughCommentEnd?_append found]
  exact List.mem_append_right _ member

theorem throughQuote?_local {quote : Quote} {text inside rest : Text}
    (found : throughQuote? quote text = some (inside, rest)) (other : Text) :
    throughQuote? quote (inside ++ other) = some (inside, other) := by
  obtain ⟨body, insideEq, _, isBody⟩ := throughQuote?_eq_some_iff.mp found
  exact throughQuote?_eq_some_iff.mpr ⟨body, insideEq, rfl, isBody⟩

/-- Whether a stretch of a kind that a rule has taken can end in front of the given text. -/
def Rule.EndsBefore (head : Char) (kind : LexemeKind) (rest : Text) : Rule → Prop
  | .spaces => StartsOutside isSpace rest
  | .lineComment => rest = []
  | .blockComment => kind = .blockComment true ∨ rest = []
  | .quoted quote => kind = .quoted quote ∨ rest = []
  | .single .other => rule head rest = .single .other
  | .single _ => True
  | .variableName => StartsOutside isWordChar rest
  | .numeral => StartsOutside isNumberChar rest
  | .word => StartsOutside isWordChar rest

theorem cut_endsBefore_rest (head : Char) (tail : Text) :
    (rule head tail).EndsBefore head (cut head tail).kind (cut head tail).rest := by
  unfold cut
  cases applied : rule head tail with
  | spaces => exact Text.startsOutside_dropWhile _ _
  | lineComment => rfl
  | blockComment =>
      have starts := rule_applies head tail
      rw [applied] at starts
      obtain ⟨others, tailEq⟩ := List.head?_eq_some_iff.mp starts.2
      subst tailEq
      cases found : throughCommentEnd? others with
      | none => exact Or.inr (by simp [Rule.cut, Cut.blockComment, Cut.through, found])
      | some pair => exact Or.inl (by simp [Rule.cut, Cut.blockComment, Cut.through, found])
  | quoted quote =>
      cases found : throughQuote? quote tail with
      | none => exact Or.inr (by simp [Rule.cut, Cut.through, found])
      | some pair => exact Or.inl (by simp [Rule.cut, Cut.through, found])
  | single kind => cases kind <;> first | exact applied | trivial
  | variableName => exact Text.startsOutside_dropWhile _ _
  | numeral => exact Text.startsOutside_dropWhile _ _
  | word => exact Text.startsOutside_dropWhile _ _

theorem notMem_rest_cut {head : Char} {tail : Text} {char : Char} (absent : char ∉ head :: tail) :
    char ∉ (cut head tail).rest := by
  intro member
  apply absent
  rw [← cut_append head tail]
  exact List.mem_cons_of_mem head (List.mem_append_right _ member)

theorem beginsNumeral_local {head : Char} {tail : Text} (begins : beginsNumeral head tail = true)
    (rest : Text) : beginsNumeral head (tail.takeWhile isNumberChar ++ rest) = true := by
  by_cases isDigit : head.isDigit = true
  · exact beginsNumeral_of_isDigit isDigit _
  cases tail with
  | nil => simp [beginsNumeral, isDigit] at begins
  | cons next others =>
      by_cases isPoint : next = '.'
      · subst isPoint
        have pointBelongs : isNumberChar '.' = true := by decide
        rw [List.takeWhile_cons_of_pos pointBelongs]
        cases others with
        | nil => simp [beginsNumeral, isDigit] at begins
        | cons third behind =>
            by_cases thirdDigit : third.isDigit = true
            · rw [List.takeWhile_cons_of_pos (isNumberChar_of_isDigit thirdDigit)]
              simpa [beginsNumeral, isDigit] using begins
            · simp [beginsNumeral, isDigit, thirdDigit] at begins
      · have nextDigit : next.isDigit = true := by
          by_cases nextDigit : next.isDigit = true
          · exact nextDigit
          · simp [beginsNumeral, isDigit, isPoint, nextDigit] at begins
        rw [List.takeWhile_cons_of_pos (isNumberChar_of_isDigit nextDigit)]
        simpa [beginsNumeral, isDigit, isPoint] using begins

theorem beginsNumeral_append {head : Char} {tail : Text} (begins : beginsNumeral head tail = true)
    (other : Text) : beginsNumeral head (tail ++ other) = true := by
  have whole := beginsNumeral_local begins (tail.dropWhile isNumberChar ++ other)
  rwa [← List.append_assoc, List.takeWhile_append_dropWhile] at whole

theorem beginsNumeral_append_of_startsOutside {head : Char} {tail other : Text}
    (noNumeral : beginsNumeral head tail = false) (nonempty : tail ≠ [])
    (noDigit : StartsOutside Char.isDigit other) : beginsNumeral head (tail ++ other) = false := by
  cases tail with
  | nil => contradiction
  | cons next others =>
      cases others with
      | cons third behind =>
          rw [← noNumeral]
          exact beginsNumeral_congr rfl fun _ => rfl
      | nil =>
          cases other with
          | nil => exact noNumeral
          | cons third behind =>
              have thirdNotDigit := noDigit third rfl
              simp only [beginsNumeral] at *
              grind

/-- A stretch is cut off by the same rule in front of any text that lets it end. -/
theorem rule_local {head : Char} {tail rest : Text} {applied : Rule}
    (isRule : rule head tail = applied)
    (ends : applied.EndsBefore head (applied.cut head tail).kind rest) :
    rule head ((applied.cut head tail).body ++ rest) = applied := by
  have applies : applied.Applies head tail := isRule ▸ rule_applies head tail
  cases applied with
  | spaces =>
      apply Eq.trans (rule_eq_of_not_mem_lookahead _ _ tail) isRule
      intro member
      have notSpace : isSpace head = false := eq_false_of_mem_lookahead (by decide) member
      rw [Rule.Applies, notSpace] at applies
      contradiction
  | lineComment =>
      have restEq : rest = [] := ends
      rw [restEq, List.append_nil]
      exact isRule
  | blockComment =>
      obtain ⟨isSlash, starts⟩ := applies
      obtain ⟨others, tailEq⟩ := List.head?_eq_some_iff.mp starts
      subst isSlash tailEq
      rfl
  | quoted quote =>
      apply Eq.trans (rule_eq_of_not_mem_lookahead _ _ tail) isRule
      rw [show head = quote.mark from applies]
      cases quote <;> decide
  | single kind =>
      cases kind with
      | other => exact ends
      | openParenthesis | closeParenthesis | comma | semicolon =>
          apply Eq.trans (rule_eq_of_not_mem_lookahead _ _ tail) isRule
          rw [show head = _ from applies]
          decide
      | _ => exact False.elim applies
  | variableName =>
      apply Eq.trans (rule_eq_of_not_mem_lookahead _ _ tail) isRule
      rw [show head = '$' from applies]
      decide
  | numeral =>
      -- a sign looks two code points ahead, but what it finds there belongs to the number
      apply Eq.trans (rule_congr _ _) isRule
      · intro isSlash
        subst isSlash
        exact absurd applies (by simp [Rule.Applies, beginsNumeral, Char.isDigit])
      · exact (beginsNumeral_local applies rest).trans applies.symm
  | word =>
      apply Eq.trans (rule_eq_of_not_mem_lookahead _ _ tail) isRule
      intro member
      have notWord : isWordChar head = false := eq_false_of_mem_lookahead (by decide) member
      rw [Rule.Applies, notWord] at applies
      exact absurd applies.1 (by decide)

theorem Rule.cut_local {head : Char} {tail rest : Text} {applied : Rule}
    (applies : applied.Applies head tail)
    (ends : applied.EndsBefore head (applied.cut head tail).kind rest) :
    applied.cut head ((applied.cut head tail).body ++ rest) =
      ⟨(applied.cut head tail).kind, (applied.cut head tail).body, rest⟩ := by
  have run_local {belongs : Char → Bool} (outside : StartsOutside belongs rest) :
      (tail.takeWhile belongs ++ rest).takeWhile belongs = tail.takeWhile belongs ∧
        (tail.takeWhile belongs ++ rest).dropWhile belongs = rest :=
    ⟨Text.takeWhile_append_of_startsOutside (Text.forall_mem_takeWhile _ _) outside,
      Text.dropWhile_append_of_startsOutside (Text.forall_mem_takeWhile _ _) outside⟩
  cases applied with
  | spaces | variableName | word | numeral =>
      obtain ⟨taken, left⟩ := run_local ends
      simp only [Rule.cut, Cut.numeral, Cut.run, taken, left]
  | lineComment =>
      have restEq : rest = [] := ends
      simp [Rule.cut, restEq]
  | blockComment =>
      obtain ⟨others, tailEq⟩ := List.head?_eq_some_iff.mp applies.2
      subst tailEq
      cases found : throughCommentEnd? others with
      | none =>
          have restEq : rest = [] := by
            simpa [Rule.EndsBefore, Rule.cut, Cut.blockComment, Cut.through, found] using ends
          simp [Rule.cut, Cut.blockComment, Cut.through, found, restEq]
      | some pair =>
          simp [Rule.cut, Cut.blockComment, Cut.through, found, throughCommentEnd?_local found]
  | quoted quote =>
      cases found : throughQuote? quote tail with
      | none =>
          have restEq : rest = [] := by
            simpa [Rule.EndsBefore, Rule.cut, Cut.through, found] using ends
          simp [Rule.cut, Cut.through, found, restEq]
      | some pair => simp [Rule.cut, Cut.through, found, throughQuote?_local found]
  | single kind => simp [Rule.cut]

/-- What follows a lexeme matters only by where it lets the lexeme end. -/
theorem cut_local {head : Char} {tail rest : Text}
    (ends : (rule head tail).EndsBefore head (cut head tail).kind rest) :
    cut head ((cut head tail).body ++ rest) =
      ⟨(cut head tail).kind, (cut head tail).body, rest⟩ := by
  have sameRule := rule_local rfl ends
  unfold cut at *
  rw [sameRule]
  exact Rule.cut_local (rule_applies head tail) ends

theorem Rule.EndsBefore.of_isPrefix {applied : Rule} {head : Char} {kind : LexemeKind}
    {front rest : Text} (ends : applied.EndsBefore head kind rest) (isPrefix : front <+: rest) :
    applied.EndsBefore head kind front := by
  have nothing (restEq : rest = []) : front = [] := by
    rw [restEq] at isPrefix
    exact List.prefix_nil.mp isPrefix
  cases applied with
  | spaces | variableName | numeral | word => exact StartsOutside.of_isPrefix ends isPrefix
  | lineComment => exact nothing ends
  | blockComment | quoted quote => exact ends.imp id nothing
  | single kind =>
      cases kind with
      | other =>
          obtain ⟨noSpace, noHash, noComment, noQuote, noMark, noNumeral, noWord⟩ :=
            rule_eq_other_iff.mp ends
          obtain ⟨behind, rfl⟩ := isPrefix
          apply rule_eq_other_iff.mpr
          refine ⟨noSpace, noHash, ?sameStart, noQuote, noMark, ?sameNumeral, noWord⟩
          case sameStart =>
            intro isSlash
            cases front with
            | nil => simp
            | cons next others => simpa using noComment isSlash
          case sameNumeral =>
            cases begins : beginsNumeral head front with
            | false => rfl
            | true =>
                rw [beginsNumeral_append begins behind] at noNumeral
                contradiction
      | _ => trivial

/-- Something behind what a lexeme ends in front of does not reach the lexeme, unless it is a digit
that a sign finds behind a point. -/
theorem Rule.EndsBefore.extended {applied : Rule} {head : Char} {kind : LexemeKind}
    {rest other : Text} (ends : applied.EndsBefore head kind rest) (nonempty : rest ≠ [])
    (noDigit : StartsOutside Char.isDigit other) :
    applied.EndsBefore head kind (rest ++ other) := by
  have sameHead : (rest ++ other).head? = rest.head? := by
    cases rest with
    | nil => contradiction
    | cons next others => rfl
  have startsOutside {belongs : Char → Bool} (outside : StartsOutside belongs rest) :
      StartsOutside belongs (rest ++ other) := by
    intro next isHead
    exact outside next (sameHead.symm.trans isHead)
  cases applied with
  | spaces | variableName | numeral | word => exact startsOutside ends
  | lineComment => exact absurd ends nonempty
  | blockComment | quoted quote => exact ends.imp id fun restEq => absurd restEq nonempty
  | single kind =>
      cases kind with
      | other =>
          obtain ⟨noSpace, noHash, noComment, noQuote, noMark, noNumeral, noWord⟩ :=
            rule_eq_other_iff.mp ends
          apply rule_eq_other_iff.mpr
          rw [sameHead]
          exact ⟨noSpace, noHash, noComment, noQuote, noMark,
            beginsNumeral_append_of_startsOutside noNumeral nonempty noDigit, noWord⟩
      | _ => trivial

/-- A lexeme that has come to its end can end in front of anything that no number goes on with, if
it does not make a longer run of spaces or the beginning of a comment of it. -/
theorem endsBefore_of_startsOutside {head : Char} {tail rest : Text}
    (ended : (cut head tail).kind.runsToEnd = false) (outside : StartsOutside isNumberChar rest)
    (noSpace : (cut head tail).kind = .space → StartsOutside isSpace rest)
    (noComment : (cut head tail).kind = .other → head = '/' →
      rest.head? ≠ some '/' ∧ rest.head? ≠ some '*') :
    (rule head tail).EndsBefore head (cut head tail).kind rest := by
  have applies := rule_applies head tail
  have noWordChar : StartsOutside isWordChar rest := fun next isHead =>
    isWordChar_of_isNumberChar_eq_false (outside next isHead)
  unfold cut at *
  generalize isRule : rule head tail = applied at *
  cases applied with
  | spaces => exact noSpace rfl
  | lineComment => contradiction
  | blockComment =>
      obtain ⟨others, tailEq⟩ := List.head?_eq_some_iff.mp applies.2
      subst tailEq
      cases found : throughCommentEnd? others with
      | none =>
          simp [Rule.cut, Cut.blockComment, Cut.through, found, LexemeKind.runsToEnd] at ended
      | some pair => exact Or.inl (by simp [Rule.cut, Cut.blockComment, Cut.through, found])
  | quoted quote =>
      cases found : throughQuote? quote tail with
      | none => simp [Rule.cut, Cut.through, found, LexemeKind.runsToEnd] at ended
      | some pair => exact Or.inl (by simp [Rule.cut, Cut.through, found])
  | single kind =>
      cases kind with
      | other =>
          obtain ⟨notSpace, noHash, _, noQuote, noMark, _, noWord⟩ := rule_eq_other_iff.mp isRule
          have notDigit : head.isDigit = false := by
            cases isDigit : head.isDigit with
            | false => rfl
            | true => simp [isWordChar, Char.isAlphanum, isDigit] at noWord
          exact rule_eq_other_iff.mpr ⟨notSpace, noHash, noComment rfl, noQuote, noMark,
            beginsNumeral_of_startsOutside notDigit outside, noWord⟩
      | _ => trivial
  | variableName | word => exact noWordChar
  | numeral => exact outside

end Lexeme

/-- A lexeme is followed by the lexemes of the text behind it, if it can end in front of that. -/
theorem lexemes_local {head : Char} {tail rest : Text}
    (ends : (Lexeme.rule head tail).EndsBefore head (Lexeme.cut head tail).kind rest) :
    lexemes (head :: ((Lexeme.cut head tail).body ++ rest)) =
      ⟨(Lexeme.cut head tail).kind, head :: (Lexeme.cut head tail).body⟩ :: lexemes rest := by
  rw [lexemes_cons, Lexeme.cut_local ends]

end ConfigConstants
