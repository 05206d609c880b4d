import ConfigConstants.Proofs.Lexeme.Joined
import ConfigConstants.Proofs.Source.LineBreak
import ConfigConstants.Proofs.Source.StrippedEnd

/-!
A block comment in front of a source. What it holds has no influence on the constants, but where it
ends has: behind a comment that began on an earlier line the rest of the line is stripped and sorted
as a line of its own, behind one that began on the same line only the lexer sees the rest, and the
line declares no constant by the keyword. The main statement says that comments of either sort are
alike among themselves, and when the two sorts are alike as well.
-/

set_option autoImplicit false

namespace ConfigConstants

namespace SourceComment

def closedComment (body : Text) : Text :=
  commentStart ++ (body ++ ['*', '/'])

theorem getLast?_closedComment (body : Text) : (closedComment body).getLast? = some '/' := by
  rw [closedComment, ← List.append_assoc]
  exact List.getLast?_append_of_ne_nil _ (List.cons_ne_nil _ _)

theorem lexemes_closedComment_append {body : Text} (isBody : CommentBody body) (rest : Text) :
    lexemes (closedComment body ++ rest) =
      ⟨.blockComment true, closedComment body⟩ :: lexemes rest :=
  (Grammar.Takes.closedComment isBody.append_star).lexemes_eq (by decide)

theorem lexemes_commentStart_append {body : Text} (isBody : CommentBody body) :
    lexemes (commentStart ++ body) = [⟨.blockComment false, commentStart ++ body⟩] :=
  (Grammar.Takes.openComment isBody).lexemes_eq_singleton (by decide)

theorem endsInComment_closedComment_append {body : Text} (isBody : CommentBody body)
    (rest : Text) : endsInComment (closedComment body ++ rest) = endsInComment rest := by
  rw [endsInComment_eq_any_getLast?, endsInComment_eq_any_getLast?,
    lexemes_closedComment_append isBody]
  cases lexemes rest with
  | nil => rfl
  | cons next others => rw [List.getLast?_cons_cons]

theorem endsInComment_commentStart_append {body : Text} (isBody : CommentBody body) :
    endsInComment (commentStart ++ body) = true := by
  rw [endsInComment_eq_any_getLast?, lexemes_commentStart_append isBody]
  rfl

end SourceComment

namespace Source

open SourceComment

/-- Lines that do not end the comment they are in have no events and leave it open. -/
theorem eventsFrom_of_commentBody {lines : List Text} (bodies : ∀ line ∈ lines, CommentBody line)
    (number : Nat) : eventsFrom number true lines = [] ∧ hiddenAfter true lines = true := by
  induction lines generalizing number with
  | nil => exact ⟨rfl, rfl⟩
  | cons line later ih =>
      have isHidden : visible? true line = none := by
        rw [visible?, if_pos rfl, (bodies line List.mem_cons_self).throughCommentEnd?_eq_none]
        rfl
      have staysOpen : hidesNext true line = true := by
        rw [hidesNext, isHidden]
      obtain ⟨nothing, leftOpen⟩ :=
        ih (fun other member => bodies other (List.mem_cons_of_mem line member)) (number + 1)
      rw [eventsFrom, lineEvents, isHidden, staysOpen, nothing, hiddenAfter_cons, staysOpen,
        leftOpen]
      exact ⟨rfl, rfl⟩

theorem contents_visibleEvents_of_strip {visible rest : Text}
    (stripped : SourceLine.strip visible = '/' :: rest) (number : Nat) :
    contents (visibleEvents number visible) =
      DefineCall.contents (locatedLexemes number ('/' :: rest)) := by
  have noConst : Text.afterWord? ConstLine.keyword (SourceLine.strip visible) = none := by
    rw [stripped, ConstLine.keyword, Text.afterWord?_cons_cons]
    exact if_neg (by decide)
  rw [contents_visibleEvents noConst, stripped]

/-- Behind a closed comment only the calls of a line are read, and only its end is stripped. -/
theorem contents_visibleEvents_closedComment {body : Text} (isBody : CommentBody body)
    (line : Text) (number : Nat) :
    contents (visibleEvents number (closedComment body ++ line)) =
      DefineCall.contents (locatedLexemes number (SourceLine.stripEnd line)) := by
  have isLast := getLast?_closedComment body
  have isFirst : (closedComment body).head? = some '/' := rfl
  have stripped := SourceLine.strip_append isFirst (by decide) (by decide) isLast (by decide)
    (by decide) line
  have comment : ∀ lexeme ∈ [(⟨.blockComment true, closedComment body⟩ : Lexeme)],
      DefineCall.isDefineWord lexeme = false := by
    intro lexeme member
    rw [List.mem_singleton.mp member]
    rfl
  have withoutComment := DefineCall.contents_locate_append comment number 1
    (lexemes (SourceLine.stripEnd line))
  rw [contents_visibleEvents_of_strip stripped]
  change DefineCall.contents (Lexeme.locate number 1
    (lexemes (closedComment body ++ SourceLine.stripEnd line))) = _
  rw [lexemes_closedComment_append isBody]
  exact withoutComment

theorem contents_visibleEvents_commentStart {body : Text} (isBody : CommentBody body)
    (number : Nat) : contents (visibleEvents number (commentStart ++ body)) = [] := by
  have isFirst : commentStart.head? = some '/' := rfl
  have isLast : commentStart.getLast? = some '*' := rfl
  have stripped := SourceLine.strip_append isFirst (by decide) (by decide) isLast (by decide)
    (by decide) body
  have leftBody : CommentBody (SourceLine.stripEnd body) := by
    apply isBody.of_isInfix
    exact ((Text.trimEnd_isPrefix _).trans ((SourceLine.dropCloseTag_isPrefix _).trans
      (Text.trimEnd_isPrefix body))).isInfix
  rw [contents_visibleEvents_of_strip stripped]
  change DefineCall.contents (Lexeme.locate number 1
    (lexemes (commentStart ++ SourceLine.stripEnd body))) = _
  rw [lexemes_commentStart_append leftBody]
  rfl

def firstLine (text : Text) : Text :=
  (Text.lines text).headD []

/-- What the lines of a text but the first declare, given whether a comment is open there. -/
def laterContents (text : Text) (hidden : Bool) : List (Text × Text) :=
  contents (eventsFrom 2 hidden (Text.lines text).tail)

/-- A text that opens a comment and does not close it declares nothing, over any number of lines. -/
theorem contents_commentStart_append {body : Text} (isBody : CommentBody body) :
    contents (events (commentStart ++ body)) = [] ∧ leavesOpen (commentStart ++ body) = true := by
  have linesEq : Text.lines (commentStart ++ body) =
      (commentStart ++ firstLine body) :: (Text.lines body).tail :=
    Text.lines_append (by decide) (by decide) (by decide) body
  have noMark : dropByteOrderMark (commentStart ++ body) = commentStart ++ body := rfl
  have firstBody : CommentBody (firstLine body) := by
    unfold firstLine
    cases isLines : Text.lines body with
    | nil => decide
    | cons first later =>
        apply isBody.of_isInfix
        apply Text.isInfix_of_mem_lines
        rw [isLines]
        exact List.mem_cons_self
  have laterBodies : ∀ line ∈ (Text.lines body).tail, CommentBody line :=
    fun line member => isBody.of_isInfix (Text.isInfix_of_mem_lines (List.mem_of_mem_tail member))
  have opens : hidesNext false (commentStart ++ firstLine body) = true :=
    endsInComment_commentStart_append firstBody
  obtain ⟨noEvents, staysOpen⟩ := eventsFrom_of_commentBody laterBodies 2
  rw [events, leavesOpen, noMark, linesEq, eventsFrom, hiddenAfter_cons, opens, noEvents,
    List.append_nil]
  exact ⟨contents_visibleEvents_commentStart firstBody 1, staysOpen⟩

/-- A comment on one line: its line and the first one behind it are the same. -/
theorem contents_closedComment_of_notMem {body : Text} (isBody : CommentBody body)
    (oneLine : '\n' ∉ body) (rest : Text) :
    contents (events (closedComment body ++ rest)) =
      DefineCall.contents (locatedLexemes 1 (SourceLine.stripEnd (firstLine rest))) ++
        laterContents rest (endsInComment (firstLine rest)) := by
  have noNewline : '\n' ∉ closedComment body := by
    simp [closedComment, commentStart, oneLine]
  have noReturn : (closedComment body).getLast? ≠ some '\r' := by
    rw [getLast?_closedComment]
    decide
  have linesEq : Text.lines (closedComment body ++ rest) =
      (closedComment body ++ firstLine rest) :: (Text.lines rest).tail :=
    Text.lines_append noNewline noReturn (List.cons_ne_nil _ _) rest
  have noMark : dropByteOrderMark (closedComment body ++ rest) = closedComment body ++ rest := rfl
  have sameBit : hidesNext false (closedComment body ++ firstLine rest) =
      endsInComment (firstLine rest) :=
    endsInComment_closedComment_append isBody (firstLine rest)
  have ofLine : contents (lineEvents 1 false (closedComment body ++ firstLine rest)) =
      DefineCall.contents (locatedLexemes 1 (SourceLine.stripEnd (firstLine rest))) :=
    contents_visibleEvents_closedComment isBody (firstLine rest) 1
  rw [events, noMark, linesEq, eventsFrom, contents_append, sameBit, ofLine, laterContents]

/-- A comment over several lines: the first line behind it is read as if it stood alone. -/
theorem contents_closedComment_of_mem {body : Text} (isBody : CommentBody body)
    (severalLines : '\n' ∈ body) (rest : Text) :
    contents (events (closedComment body ++ rest)) =
      contents (visibleEvents 1 (firstLine rest)) ++
        laterContents rest (endsInComment (firstLine rest)) := by
  obtain ⟨front, last, rfl, noNewline⟩ :
      ∃ front last, body = front ++ '\n' :: last ∧ '\n' ∉ last := by
    cases found : Text.splitAtLast? '\n' body with
    | none => exact absurd severalLines (Text.splitAtLast?_eq_none_iff.mp found)
    | some parts => exact ⟨parts.1, parts.2, Text.splitAtLast?_eq_some_iff.mp found⟩
  have frontBody : CommentBody front := isBody.of_isInfix ⟨[], '\n' :: last, rfl⟩
  have lastBody : CommentBody last := isBody.of_isInfix ⟨front ++ ['\n'], [], by simp⟩
  obtain ⟨nothing, leftOpen⟩ := contents_commentStart_append frontBody
  have sourceEq : closedComment (front ++ '\n' :: last) ++ rest =
      (commentStart ++ front) ++ '\n' :: (last ++ ['*', '/'] ++ rest) := by
    simp [closedComment]
  have linesEq : Text.lines (last ++ ['*', '/'] ++ rest) =
      (last ++ ['*', '/'] ++ firstLine rest) :: (Text.lines rest).tail :=
    Text.lines_append (by simp [noNewline]) (by simp) (by simp) rest
  have visibleEq : visible? true (last ++ ['*', '/'] ++ firstLine rest) =
      some (firstLine rest) := by
    rw [visible?, if_pos rfl, lastBody.throughCommentEnd?_append]
    rfl
  have sameBit : hidesNext true (last ++ ['*', '/'] ++ firstLine rest) =
      endsInComment (firstLine rest) := by
    rw [hidesNext, visibleEq]
  obtain ⟨number, whole⟩ := events_append_newline (commentStart ++ front)
    (last ++ ['*', '/'] ++ rest)
  have ofLine : lineEvents number true (last ++ ['*', '/'] ++ firstLine rest) =
      visibleEvents number (firstLine rest) := by
    rw [lineEvents, visibleEq]
  rw [sourceEq, whole, contents_append, nothing, leftOpen, linesEq, eventsFrom, ofLine, sameBit,
    contents_append, List.nil_append, laterContents, contents_eventsFrom_of_number (number + 1) 2,
    contents_visibleEvents_of_number (firstLine rest) number 1]

/-- For every source behind a block comment: what the comment holds has no influence on the
constants, and neither has where its lines end unless they end in one comment and not in the other.
Even then the constants are the same if the rest of the comment's last line declares none by the
keyword, and does not grow together with a word in front of it. -/
theorem constants_behind_comment {first second rest : Text} (firstBody : CommentBody first)
    (secondBody : CommentBody second)
    (alike : ('\n' ∈ first ↔ '\n' ∈ second) ∨
      Text.afterWord? ConstLine.keyword (SourceLine.strip (firstLine rest)) = none ∧
        SourceLine.StandsApart (firstLine rest)) :
    constants (closedComment first ++ rest) = constants (closedComment second ++ rest) := by
  apply constants_of_contents
  have sameSort : (Text.afterWord? ConstLine.keyword (SourceLine.strip (firstLine rest)) = none ∧
      SourceLine.StandsApart (firstLine rest)) →
      DefineCall.contents (locatedLexemes 1 (SourceLine.stripEnd (firstLine rest))) =
        contents (visibleEvents 1 (firstLine rest)) := by
    rintro ⟨noConst, apart⟩
    rw [contents_visibleEvents noConst, SourceLine.contents_stripEnd apart]
  by_cases inFirst : '\n' ∈ first
  · by_cases inSecond : '\n' ∈ second
    · rw [contents_closedComment_of_mem firstBody inFirst,
        contents_closedComment_of_mem secondBody inSecond]
    · have unlike : ¬ ('\n' ∈ first ↔ '\n' ∈ second) := fun same => inSecond (same.mp inFirst)
      rw [contents_closedComment_of_mem firstBody inFirst,
        contents_closedComment_of_notMem secondBody inSecond,
        sameSort (alike.resolve_left unlike)]
  · by_cases inSecond : '\n' ∈ second
    · have unlike : ¬ ('\n' ∈ first ↔ '\n' ∈ second) := fun same => inFirst (same.mpr inSecond)
      rw [contents_closedComment_of_notMem firstBody inFirst,
        contents_closedComment_of_mem secondBody inSecond,
        sameSort (alike.resolve_left unlike)]
    · rw [contents_closedComment_of_notMem firstBody inFirst,
        contents_closedComment_of_notMem secondBody inSecond]

/-- A tag and a blank between the comment and a call, and a line end in only one of the comments. -/
theorem constants_behind_comment_and_tag :
    (CommentBody " c ".toList ∧ CommentBody "\n".toList ∧
      Text.afterWord? ConstLine.keyword
        (SourceLine.strip (firstLine "<?php define('A', 1);".toList)) = none ∧
      SourceLine.StandsApart (firstLine "<?php define('A', 1);".toList)) ∧
    constants (closedComment " c ".toList ++ "<?php define('A', 1);".toList) =
      constants (closedComment "\n".toList ++ "<?php define('A', 1);".toList) := by
  have noConst : Text.afterWord? ConstLine.keyword
      (SourceLine.strip (firstLine "<?php define('A', 1);".toList)) = none := by
    decide +kernel
  have apart : SourceLine.StandsApart (firstLine "<?php define('A', 1);".toList) := by
    left
    have reversed : (SourceLine.leading (firstLine "<?php define('A', 1);".toList)).reverse =
        " php?<".toList := by
      decide +kernel
    rw [reversed]
    intro next isHead
    cases isHead
    decide
  have firstBody : CommentBody " c ".toList := by decide
  have secondBody : CommentBody "\n".toList := by decide
  exact ⟨⟨firstBody, secondBody, noConst, apart⟩,
    constants_behind_comment firstBody secondBody (Or.inr ⟨noConst, apart⟩)⟩

/-- A constant is declared behind a comment with a line end in it, and not behind one without. -/
theorem keyword_behind_comment_depends_on_line_end :
    CommentBody " c ".toList ∧ CommentBody "\n".toList ∧
      constants (closedComment " c ".toList ++ "const A = 1;".toList) ≠
        constants (closedComment "\n".toList ++ "const A = 1;".toList) := by
  have notDeclared :
      (constants (closedComment " c ".toList ++ "const A = 1;".toList)).get? ['A'] = none := by
    decide +kernel
  have declared :
      (constants (closedComment "\n".toList ++ "const A = 1;".toList)).get? ['A'] =
        some (Scalar.integer 1) := by
    decide +kernel
  refine ⟨by decide, by decide, ?_⟩
  intro same
  rw [same, declared] at notDeclared
  contradiction

end Source

end ConfigConstants
