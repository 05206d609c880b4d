import ConfigConstants.Proofs.Comment.Automaton
import ConfigConstants.Proofs.Comment.Erased

/-!
The automaton that copies what it reads outside comments and of a comment only the marks. It takes
no lexemes either, so that what it does to a part of a text does not depend on where the lexemes of
the whole begin. The main statement says that on one line it writes the erased text.
-/

set_option autoImplicit false

namespace ConfigConstants

namespace CommentAutomaton

def State.inComment : State → Bool
  | .lineComment | .blockComment | .star => true
  | _ => false

/-- What is written for one code point: its own copy, nothing inside a comment, and the whole
closing mark at the end of a block comment. -/
def emit : State → Char → Text
  | .lineComment, _ | .blockComment, _ => []
  | .star, char => if char = '/' then ['*', '/'] else []
  | _, char => [char]

def transduce : State → Text → Text
  | _, [] => []
  | state, head :: tail => emit state head ++ transduce (step state head) tail

theorem transduce_append (state : State) (left right : Text) :
    transduce state (left ++ right) = transduce state left ++ transduce (run state left) right := by
  induction left generalizing state with
  | nil => rfl
  | cons head tail ih =>
      rw [List.cons_append, transduce, transduce, ih, List.append_assoc, run_cons]

theorem emit_of_not_inComment {state : State} (outside : state.inComment = false) (char : Char) :
    emit state char = [char] := by
  cases state <;> first | rfl | contradiction

theorem mem_of_mem_transduce {state : State} {text : Text} {char : Char}
    (member : char ∈ transduce state text) : char ∈ text ∨ char = '*' ∨ char = '/' := by
  induction text generalizing state with
  | nil => contradiction
  | cons head tail ih =>
      cases List.mem_append.mp member with
      | inl here =>
          cases isInside : state.inComment with
          | false =>
              rw [emit_of_not_inComment isInside, List.mem_singleton] at here
              exact Or.inl (here ▸ List.mem_cons_self)
          | true =>
              right
              cases state with
              | star =>
                  rw [emit] at here
                  split at here
                  · simpa using here
                  · contradiction
              | _ => contradiction
      | inr later => exact (ih later).imp_left (List.mem_cons_of_mem head)

theorem transduce_code_of_isPlain {text : Text} (plain : ∀ char ∈ text, IsPlain char) :
    transduce .code text = text := by
  induction text with
  | nil => rfl
  | cons head tail ih =>
      have tailPlain := fun char member => plain char (List.mem_cons_of_mem head member)
      rw [transduce, step_code_of_isPlain (plain head List.mem_cons_self), ih tailPlain]
      rfl

theorem transduce_code_takeWhile {head : Char} {belongs : Char → Bool} (plain : IsPlain head)
    (allPlain : ∀ {char : Char}, belongs char = true → IsPlain char) (tail : Text) :
    transduce .code (head :: tail.takeWhile belongs) = head :: tail.takeWhile belongs := by
  apply transduce_code_of_isPlain
  intro char member
  cases List.mem_cons.mp member with
  | inl same => exact same ▸ plain
  | inr later => exact allPlain (Text.forall_mem_takeWhile belongs tail char later)

theorem transduce_lineComment {text : Text} (noNewline : '\n' ∉ text) :
    transduce .lineComment text = [] := by
  induction text with
  | nil => rfl
  | cons head tail ih =>
      have headDiffers := (List.ne_of_not_mem_cons noNewline).symm
      rw [transduce, step_of_ne_newline headDiffers]
      exact ih (List.not_mem_of_not_mem_cons noNewline)

theorem transduce_star {text : Text} (notSlash : text.head? ≠ some '/') :
    transduce .star text = transduce .blockComment text := by
  cases text with
  | nil => rfl
  | cons head tail =>
      have headNotSlash : head ≠ '/' := by simpa using notSlash
      simp [transduce, emit, step, stepInLine, State.inBlockComment, headNotSlash]

theorem transduce_blockComment_of_end {text inside rest : Text}
    (found : Lexeme.throughCommentEnd? text = some (inside, rest)) (noNewline : '\n' ∉ text) :
    transduce .blockComment inside = ['*', '/'] := by
  fun_induction Lexeme.throughCommentEnd? text generalizing inside with
  | case1 => contradiction
  | case2 rest => cases found; rfl
  | case3 head tail notEnd ih =>
      obtain ⟨⟨tailInside, tailRest⟩, tailFound, same⟩ := Option.map_eq_some_iff.mp found
      cases same
      have headDiffers := (List.ne_of_not_mem_cons noNewline).symm
      have inner := ih tailFound (List.not_mem_of_not_mem_cons noNewline)
      rw [transduce, step_of_ne_newline headDiffers, stepInLine]
      split
      · next isStar =>
          rw [transduce_star]
          · exact inner
          · intro startsSlash
            have tailEq := Lexeme.throughCommentEnd?_append tailFound
            obtain ⟨others, insideEq⟩ := List.head?_eq_some_iff.mp startsSlash
            rw [insideEq] at tailEq
            exact notEnd (others ++ rest) isStar tailEq.symm
      · exact inner

theorem transduce_blockComment_of_no_end {text : Text}
    (absent : Lexeme.throughCommentEnd? text = none) (noNewline : '\n' ∉ text) :
    transduce .blockComment text = [] := by
  fun_induction Lexeme.throughCommentEnd? text with
  | case1 => rfl
  | case2 => contradiction
  | case3 head tail notEnd ih =>
      have headDiffers := (List.ne_of_not_mem_cons noNewline).symm
      have inner := ih (Option.map_eq_none_iff.mp absent) (List.not_mem_of_not_mem_cons noNewline)
      rw [transduce, step_of_ne_newline headDiffers, stepInLine]
      split
      · next isStar =>
          rw [transduce_star]
          · exact inner
          · intro startsSlash
            obtain ⟨others, tailEq⟩ := List.head?_eq_some_iff.mp startsSlash
            exact notEnd others isStar tailEq
      · exact inner

theorem transduce_skipped {quote : Quote} {skipped : Char} (notNewline : skipped ≠ '\n')
    (tail : Text) :
    transduce (.quoted quote) ('\\' :: skipped :: tail) =
      '\\' :: skipped :: transduce (.quoted quote) tail := by
  rw [transduce, transduce, show step (.quoted quote) '\\' = .escaped quote from rfl,
    step_of_ne_newline notNewline]
  rfl

theorem transduce_quoted_of_end {quote : Quote} {text inside rest : Text}
    (found : Lexeme.throughQuote? quote text = some (inside, rest)) (noNewline : '\n' ∉ text) :
    transduce (.quoted quote) inside = inside := by
  fun_induction Lexeme.throughQuote? quote text generalizing inside with
  | case1 => contradiction
  | case2 skipped tail ih =>
      obtain ⟨⟨tailInside, tailRest⟩, tailFound, same⟩ := Option.map_eq_some_iff.mp found
      cases same
      have behind := List.not_mem_of_not_mem_cons noNewline
      rw [transduce_skipped (List.ne_of_not_mem_cons behind).symm,
        ih tailFound (List.not_mem_of_not_mem_cons behind)]
  | case3 tail _ =>
      cases found
      rfl
  | case4 head tail notSkipped notMark ih =>
      obtain ⟨⟨tailInside, tailRest⟩, tailFound, same⟩ := Option.map_eq_some_iff.mp found
      cases same
      have headDiffers := (List.ne_of_not_mem_cons noNewline).symm
      have notBackslash : head ≠ '\\' := by
        intro isBackslash
        cases tail with
        | nil => simp [Lexeme.throughQuote?] at tailFound
        | cons next others => exact notSkipped next others isBackslash rfl
      rw [transduce, step_of_ne_newline headDiffers, stepInLine, if_neg notBackslash,
        if_neg notMark, ih tailFound (List.not_mem_of_not_mem_cons noNewline)]
      rfl

theorem transduce_quoted_of_no_end {quote : Quote} {text : Text}
    (absent : Lexeme.throughQuote? quote text = none) (noNewline : '\n' ∉ text) :
    transduce (.quoted quote) text = text := by
  fun_induction Lexeme.throughQuote? quote text with
  | case1 => rfl
  | case2 skipped tail ih =>
      have behind := List.not_mem_of_not_mem_cons noNewline
      rw [transduce_skipped (List.ne_of_not_mem_cons behind).symm,
        ih (Option.map_eq_none_iff.mp absent) (List.not_mem_of_not_mem_cons behind)]
  | case3 => contradiction
  | case4 head tail notSkipped notMark ih =>
      have headDiffers := (List.ne_of_not_mem_cons noNewline).symm
      cases tail with
      | nil => rfl
      | cons next others =>
          have notBackslash : head ≠ '\\' := fun same => notSkipped next others same rfl
          rw [transduce, step_of_ne_newline headDiffers, stepInLine, if_neg notBackslash,
            if_neg notMark,
            ih (Option.map_eq_none_iff.mp absent) (List.not_mem_of_not_mem_cons noNewline)]
          rfl

/-- What is written for a lexeme is its erased text. -/
theorem transduce_code_cut {head : Char} {tail : Text} (noNewline : '\n' ∉ head :: tail) :
    transduce .code (head :: (Lexeme.cut head tail).body) =
      Lexeme.erased ⟨(Lexeme.cut head tail).kind, head :: (Lexeme.cut head tail).body⟩ := by
  have tailNoNewline := List.not_mem_of_not_mem_cons noNewline
  have applies := Lexeme.rule_applies head tail
  unfold Lexeme.cut
  generalize Lexeme.rule head tail = applied at applies
  cases applied with
  | spaces => exact transduce_code_takeWhile (isPlain_of_isSpace applies) isPlain_of_isSpace tail
  | lineComment =>
      cases applies with
      | inl isHash =>
          rw [isHash]
          exact congrArg (List.cons '#') (transduce_lineComment tailNoNewline)
      | inr slashes =>
          obtain ⟨others, tailEq⟩ := List.head?_eq_some_iff.mp slashes.2
          rw [tailEq] at tailNoNewline
          rw [slashes.1, tailEq]
          exact congrArg (['/', '/'] ++ ·)
            (transduce_lineComment (List.not_mem_of_not_mem_cons tailNoNewline))
  | blockComment =>
      obtain ⟨others, tailEq⟩ := List.head?_eq_some_iff.mp applies.2
      rw [tailEq] at tailNoNewline
      have othersNoNewline := List.not_mem_of_not_mem_cons tailNoNewline
      rw [applies.1, tailEq]
      cases found : Lexeme.throughCommentEnd? others with
      | none =>
          simp only [Lexeme.Rule.cut, Lexeme.Cut.blockComment, Lexeme.Cut.through, found]
          exact congrArg (['/', '*'] ++ ·) (transduce_blockComment_of_no_end found othersNoNewline)
      | some pair =>
          simp only [Lexeme.Rule.cut, Lexeme.Cut.blockComment, Lexeme.Cut.through, found]
          exact congrArg (['/', '*'] ++ ·) (transduce_blockComment_of_end found othersNoNewline)
  | quoted quote =>
      have opens : step .code head = .quoted quote := by
        rw [show head = quote.mark from applies]
        cases quote <;> rfl
      cases found : Lexeme.throughQuote? quote tail with
      | none =>
          simp only [Lexeme.Rule.cut, Lexeme.Cut.through, found, transduce, opens]
          rw [transduce_quoted_of_no_end found tailNoNewline]
          rfl
      | some pair =>
          simp only [Lexeme.Rule.cut, Lexeme.Cut.through, found, transduce, opens]
          rw [transduce_quoted_of_end found tailNoNewline]
          rfl
  | single kind =>
      cases kind with
      | other | openParenthesis | closeParenthesis | comma | semicolon => rfl
      | _ => exact False.elim applies
  | variableName =>
      rw [show head = '$' from applies]
      exact transduce_code_takeWhile ⟨by decide, by decide, by decide⟩ isPlain_of_isWordChar tail
  | numeral =>
      have copied :=
        transduce_code_takeWhile (isPlain_of_beginsNumeral applies) isPlain_of_isNumberChar tail
      simp only [Lexeme.Rule.cut, Lexeme.Cut.numeral, Lexeme.Cut.run]
      split <;> exact copied
  | word =>
      exact transduce_code_takeWhile (isPlain_of_isWordChar applies.1) isPlain_of_isWordChar tail

theorem transduce_slash {rest : Text} (notSlash : rest.head? ≠ some '/')
    (notStar : rest.head? ≠ some '*') : transduce .slash rest = transduce .code rest := by
  cases rest with
  | nil => rfl
  | cons head tail =>
      have headNotSlash : head ≠ '/' := by simpa using notSlash
      have headNotStar : head ≠ '*' := by simpa using notStar
      simp [transduce, emit, step, stepInLine, State.inBlockComment, headNotSlash, headNotStar]

/-- On one line the transducer writes the erased text. -/
theorem transduce_code_eq_eraseVisible {line : Text} (noNewline : '\n' ∉ line) :
    transduce .code line = SourceComment.eraseVisible line := by
  fun_induction lexemes line with
  | case1 => exact SourceComment.eraseVisible_nil.symm
  | case2 head tail ih =>
      have whole : transduce .code (head :: tail) =
          transduce .code (head :: (Lexeme.cut head tail).body) ++
            transduce (run .code (head :: (Lexeme.cut head tail).body))
              (Lexeme.cut head tail).rest := by
        rw [← transduce_append, List.cons_append, Lexeme.cut_append]
      have further : transduce (run .code (head :: (Lexeme.cut head tail).body))
          (Lexeme.cut head tail).rest = transduce .code (Lexeme.cut head tail).rest := by
        by_cases atEnd : (Lexeme.cut head tail).rest = []
        · rw [atEnd]
          rfl
        · cases run_code_cut_of_more noNewline atEnd with
          | inl inCode => rw [inCode]
          | inr atSlash => rw [atSlash.1, transduce_slash atSlash.2.1 atSlash.2.2]
      rw [whole, further, transduce_code_cut noNewline, ih (Lexeme.notMem_rest_cut noNewline),
        SourceComment.eraseVisible_cons]

end CommentAutomaton

end ConfigConstants
