import ConfigConstants.Proofs.Declaration.Placement
import ConfigConstants.Proofs.Lexeme.Members

/-!
The search for `define` that spares most lines the lexer. It looks at the text in which no lexemes
are known yet, but it never spares a line that holds the word of a call: on a line without a match
no call is opened.
-/

set_option autoImplicit false

namespace ConfigConstants

namespace DefineCall

theorem outcomes_of_no_word {lexemes : List LocatedLexeme}
    (noWord : ∀ lexeme ∈ lexemes, isDefineWord lexeme.toLexeme = false) :
    outcomes lexemes = [] := by
  unfold outcomes
  induction lexemes with
  | nil => rfl
  | cons lexeme later ih =>
      have laterNothing := ih fun other member => noWord other (List.mem_cons_of_mem lexeme member)
      have opensNothing : begin? lexeme = none := by
        rw [begin?, noWord lexeme List.mem_cons_self]
        rfl
      rw [outcomesFrom]
      split
      · exact laterNothing
      · rw [read, opensNothing]
        exact laterNothing

theorem outcomes_append_of_no_word {front : List LocatedLexeme}
    (noWord : ∀ lexeme ∈ front, isDefineWord lexeme.toLexeme = false)
    (back : List LocatedLexeme) : outcomes (front ++ back) = outcomes back := by
  have nothingOpen : openAfter none front = none := by
    induction front with
    | nil => rfl
    | cons lexeme later ih =>
        have opensNothing : begin? lexeme = none := by
          rw [begin?, noWord lexeme List.mem_cons_self]
          rfl
        rw [openAfter, read, opensNothing, ite_self]
        exact ih fun other member => noWord other (List.mem_cons_of_mem lexeme member)
  have nothingYielded := outcomes_of_no_word noWord
  unfold outcomes at *
  rw [outcomesFrom_append, nothingYielded, nothingOpen, List.nil_append]

theorem contents_locate_append {front : List Lexeme}
    (noWord : ∀ lexeme ∈ front, isDefineWord lexeme = false) (line column : Nat)
    (back : List Lexeme) :
    contents (Lexeme.locate line column (front ++ back)) =
      contents (Lexeme.locate line column back) := by
  have locatedNoWord : ∀ lexeme ∈ Lexeme.locate line column front,
      isDefineWord lexeme.toLexeme = false := by
    intro lexeme member
    exact noWord lexeme.toLexeme (Lexeme.toLexeme_mem_of_mem_locate member)
  rw [contents, Lexeme.locate_append, outcomes_append_of_no_word locatedNoWord]
  exact contents_locate _ _ _ _ back

theorem occursIn_of_isDefineWord {lexeme : Lexeme} {text : Text}
    (isWord : isDefineWord lexeme = true) (within : lexeme.text <:+: text) :
    Text.occursIn defineWord (Text.foldCase text) = true := by
  unfold isDefineWord at isWord
  rw [Bool.and_eq_true] at isWord
  have spelled : Text.foldCase (lexeme.text.dropWhile (· == '\\')) = defineWord :=
    eq_of_beq isWord.2
  have spellingWithin : lexeme.text.dropWhile (· == '\\') <:+: text :=
    (List.dropWhile_suffix _).isInfix.trans within
  rw [Text.occursIn_iff, ← spelled]
  exact spellingWithin.map Char.toLower

theorem lineOutcomes_of_no_mention {text : Text}
    (noMention : Text.occursIn defineWord (Text.foldCase text) = false) (line : Nat) :
    lineOutcomes line text = [] := by
  apply outcomes_of_no_word
  intro lexeme member
  have isLexeme := Lexeme.toLexeme_mem_of_mem_locate member
  cases isWord : isDefineWord lexeme.toLexeme with
  | false => rfl
  | true =>
      rw [occursIn_of_isDefineWord isWord (text_isInfix_of_mem_lexemes isLexeme)] at noMention
      contradiction

end DefineCall

namespace Source

theorem contents_map_ofOutcome (lexemes : List LocatedLexeme) :
    contents ((DefineCall.outcomes lexemes).map Event.ofOutcome) = DefineCall.contents lexemes := by
  have sameDeclaration :
      Event.declaration? ∘ Event.ofOutcome = DefineCall.Outcome.declaration? := by
    funext outcome
    cases outcome <;> rfl
  rw [contents, List.filterMap_map, sameDeclaration, DefineCall.contents]

/-- Whatever does not begin with the keyword declares what its calls declare, whether or not the
search for `define` has found a match. -/
theorem contents_visibleEvents {visible : Text}
    (noConst : Text.afterWord? ConstLine.keyword (SourceLine.strip visible) = none) (line : Nat) :
    contents (visibleEvents line visible) =
      DefineCall.contents (locatedLexemes line (SourceLine.strip visible)) := by
  unfold visibleEvents SourceLine.ofText SourceLine.ofStripped
  rw [noConst, Option.isSome_none, if_neg Bool.false_ne_true]
  cases mentions : Text.occursIn DefineCall.defineWord
      (Text.foldCase (SourceLine.strip visible)) with
  | true => exact contents_map_ofOutcome _
  | false =>
      have nothing := DefineCall.lineOutcomes_of_no_mention mentions line
      unfold DefineCall.lineOutcomes at nothing
      rw [DefineCall.contents, nothing]
      rfl

end Source

end ConfigConstants
