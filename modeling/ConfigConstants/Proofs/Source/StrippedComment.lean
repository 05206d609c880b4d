import ConfigConstants.Proofs.Comment.CarriedFlag
import ConfigConstants.Proofs.Source.StrippedErasure

/-!
Whether a line ends inside a block comment is found out on the line as it is seen, while calls are
read from what stripping leaves of it. Blanks and the opening tag leave the automaton in code, and
nothing that is taken from the end holds a slash or a star, so the main statement is that the last
lexeme of the stripped line tells the same.
-/

set_option autoImplicit false

namespace ConfigConstants

namespace CommentAutomaton

theorem runInLine_code_append {front : Text} (plain : ∀ char ∈ front, IsPlain char) (back : Text) :
    runInLine .code (front ++ back) = runInLine .code back := by
  rw [runInLine_append, runInLine_code_of_isPlain plain]

theorem inBlockComment_runInLine_append {back : Text} (noSlash : '/' ∉ back) (noStar : '*' ∉ back)
    (front : Text) :
    (runInLine .code (front ++ back)).inBlockComment =
      (runInLine .code front).inBlockComment := by
  rw [runInLine_append]
  -- a state may change, say from a slash back to code, but not into a block comment or out of one
  generalize runInLine .code front = state
  induction back generalizing state with
  | nil => rfl
  | cons head tail ih =>
      rw [runInLine_cons,
        ih (List.not_mem_of_not_mem_cons noSlash) (List.not_mem_of_not_mem_cons noStar)]
      exact inBlockComment_stepInLine (List.ne_of_not_mem_cons noSlash).symm
        (List.ne_of_not_mem_cons noStar).symm state

theorem runInLine_code_trimStart (text : Text) :
    runInLine .code (Text.trimStart text) = runInLine .code text := by
  have plain : ∀ char ∈ text.takeWhile Text.isBlank, IsPlain char := by
    intro char member
    exact Text.isPlain_of_isBlank (Text.forall_mem_takeWhile _ _ char member)
  calc runInLine .code (Text.trimStart text)
    _ = runInLine .code (text.takeWhile Text.isBlank ++ text.dropWhile Text.isBlank) :=
        (runInLine_code_append plain _).symm
    _ = runInLine .code text := by rw [List.takeWhile_append_dropWhile]

theorem inBlockComment_runInLine_trimEnd (text : Text) :
    (runInLine .code (Text.trimEnd text)).inBlockComment =
      (runInLine .code text).inBlockComment := by
  obtain ⟨blanks, textEq, allBlank⟩ := Text.exists_trimEnd_append text
  have noSlash : '/' ∉ blanks := fun member => absurd (allBlank _ member) (by decide)
  have noStar : '*' ∉ blanks := fun member => absurd (allBlank _ member) (by decide)
  calc (runInLine .code (Text.trimEnd text)).inBlockComment
    _ = (runInLine .code (Text.trimEnd text ++ blanks)).inBlockComment :=
        (inBlockComment_runInLine_append noSlash noStar _).symm
    _ = (runInLine .code text).inBlockComment := by rw [← textEq]

theorem inBlockComment_runInLine_trim (text : Text) :
    (runInLine .code (Text.trim text)).inBlockComment = (runInLine .code text).inBlockComment := by
  rw [Text.trim, inBlockComment_runInLine_trimEnd, runInLine_code_trimStart]

theorem runInLine_code_dropOpenTag (text : Text) :
    runInLine .code (SourceLine.dropOpenTag text) = runInLine .code text := by
  unfold SourceLine.dropOpenTag
  cases found : Text.afterWord? SourceLine.openTag text with
  | none => rfl
  | some rest =>
      obtain ⟨spelling, textEq, folded⟩ := Text.afterWord?_eq_some found
      have plain : ∀ char ∈ spelling, IsPlain char := by
        intro char member
        apply Text.isPlain_of_toLower_mem SourceLine.holdsNoMark_openTag
        rw [← folded]
        exact List.mem_map_of_mem member
      rw [textEq, runInLine_code_append plain]
      rfl

theorem inBlockComment_runInLine_dropCloseTag (text : Text) :
    (runInLine .code (SourceLine.dropCloseTag text)).inBlockComment =
      (runInLine .code text).inBlockComment := by
  by_cases hasTag : SourceLine.closeTag <:+ text
  · obtain ⟨front, textEq⟩ := hasTag
    rw [← textEq, SourceLine.dropCloseTag_append]
    exact (inBlockComment_runInLine_append (by decide) (by decide) front).symm
  · rw [SourceLine.dropCloseTag_of_not_isSuffix hasTag]

end CommentAutomaton

namespace SourceLine

open CommentAutomaton

theorem inBlockComment_runInLine_strip (line : Text) :
    (runInLine .code (strip line)).inBlockComment = (runInLine .code line).inBlockComment := by
  rw [strip, inBlockComment_runInLine_trim, inBlockComment_runInLine_dropCloseTag,
    runInLine_code_dropOpenTag, inBlockComment_runInLine_trim]

/-- Stripping neither opens nor closes a block comment: the bit of a text is that of the last lexeme
behind stripping, and so is what a line hands to the next, if any of it is seen. -/
theorem stripping_keeps_open_comment (line : Text) :
    SourceComment.endsInComment line =
      ((lexemes (strip line)).getLast?.any fun lexeme => lexeme.kind == .blockComment false) ∧
    ∀ hidden, SourceComment.hidesNext hidden line =
      (SourceComment.visible? hidden line).all fun visible =>
        (lexemes (strip visible)).getLast?.any fun lexeme =>
          lexeme.kind == .blockComment false := by
  have ofText (text : Text) : SourceComment.endsInComment text =
      (lexemes (strip text)).getLast?.any fun lexeme => lexeme.kind == .blockComment false := by
    rw [SourceComment.endsInComment_eq_any_getLast?, ← inBlockComment_runInLine_code,
      ← inBlockComment_runInLine_code, inBlockComment_runInLine_strip]
  constructor
  · exact ofText line
  · intro hidden
    unfold SourceComment.hidesNext
    cases SourceComment.visible? hidden line with
    | none => rfl
    | some visible => exact ofText visible

end SourceLine

end ConfigConstants
