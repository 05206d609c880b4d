import ConfigConstants.Proofs.Comment.Automaton
import ConfigConstants.Proofs.Lexeme.Members
import ConfigConstants.Proofs.Text.EndedLines
import ConfigConstants.Source.Reading

/-!
The one bit that a line hands to the next. It is computed from a search for `*/`, from a search for
`/*`, and from the last lexeme of the visible text; the main statement says that the automaton over
the whole source gives the same bit at the end of every line, and the same visible text of the line
behind it.
-/

set_option autoImplicit false

namespace ConfigConstants

namespace SourceComment

open CommentAutomaton

theorem endsInComment_eq_any_getLast? (visible : Text) :
    endsInComment visible =
      (lexemes visible).getLast?.any fun lexeme => lexeme.kind == .blockComment false := by
  unfold endsInComment
  cases isOpen : (lexemes visible).getLast?.any fun lexeme =>
      lexeme.kind == .blockComment false with
  | false => exact Bool.and_false _
  | true =>
      obtain ⟨lexeme, isLast, isComment⟩ := (Option.any_eq_true _ _).mp isOpen
      have member := List.mem_of_getLast? isLast
      obtain ⟨head, tail, _, same⟩ := exists_cut_of_mem_lexemes member
      have kindEq : lexeme.kind = .blockComment false := by simpa using isComment
      rw [same] at kindEq
      obtain ⟨isSlash, inside, bodyEq⟩ := Lexeme.cut_of_kind_eq_blockComment kindEq
      have begins : commentStart <+: lexeme.text := by
        rw [same]
        change commentStart <+: head :: (Lexeme.cut head tail).body
        rw [bodyEq, isSlash]
        exact ⟨inside, rfl⟩
      rw [Text.occursIn_iff.mpr (begins.isInfix.trans (text_isInfix_of_mem_lexemes member))]
      rfl

theorem endsInComment_eq_run {visible : Text} (noNewline : '\n' ∉ visible) :
    endsInComment visible = (run .code visible).inBlockComment := by
  rw [endsInComment_eq_any_getLast?, inBlockComment_run_code noNewline]

theorem inBlockComment_run_line {line : Text} (noNewline : '\n' ∉ line) (hidden : Bool) :
    (run (lineStart hidden) line).inBlockComment = hidesNext hidden line := by
  cases hidden with
  | false => exact (endsInComment_eq_run noNewline).symm
  | true =>
      cases found : Lexeme.throughCommentEnd? line with
      | none =>
          simp only [hidesNext, visible?, found, lineStart, if_true, Option.map_none]
          exact run_blockComment_of_no_end found noNewline
      | some pair =>
          have restNoNewline := Lexeme.notMem_of_throughCommentEnd? found noNewline
          have lineEq := Lexeme.throughCommentEnd?_append found
          simp only [hidesNext, visible?, found, lineStart, if_true, Option.map_some]
          rw [endsInComment_eq_run restNoNewline, ← lineEq, run_append,
            run_blockComment_of_end found noNewline]

theorem step_newline (state : State) : step state '\n' = lineStart state.inBlockComment :=
  if_pos rfl

theorem inBlockComment_step_return (state : State) :
    (step state '\r').inBlockComment = state.inBlockComment := by
  cases state with
  | quoted quote | escaped quote => cases quote <;> rfl
  | _ => rfl

theorem run_ended {ended : Text.EndedLine} (fits : ended.Fits)
    (notLast : ended.ending ≠ .endOfText) (hidden : Bool) :
    run (lineStart hidden) ended.text = lineStart (hidesNext hidden ended.line) := by
  rw [Text.EndedLine.text, run_append, ← inBlockComment_run_line fits.1]
  cases ending : ended.ending with
  | endOfText => contradiction
  | newline => exact step_newline _
  | returnNewline =>
      simp only [Text.LineEnd.text, run_cons, run_nil]
      rw [step_newline, inBlockComment_step_return]

theorem run_endedLines {lines : List Text.EndedLine} (wellEnded : Text.WellEnded lines)
    (allEnded : ∀ ended ∈ lines, ended.ending ≠ .endOfText) (hidden : Bool) :
    run (lineStart hidden) (lines.flatMap Text.EndedLine.text) =
      lineStart (hiddenAfter hidden (lines.map Text.EndedLine.line)) := by
  induction lines generalizing hidden with
  | nil => rfl
  | cons first later ih =>
      obtain ⟨fits, _, laterEnded⟩ := wellEnded
      rw [List.flatMap_cons, run_append, run_ended fits (allEnded first List.mem_cons_self),
        List.map_cons, hiddenAfter_cons]
      apply ih laterEnded
      intro ended member
      exact allEnded ended (List.mem_cons_of_mem first member)

theorem inBlockComment_run_endedLines {lines : List Text.EndedLine}
    (wellEnded : Text.WellEnded lines) (hidden : Bool) :
    (run (lineStart hidden) (lines.flatMap Text.EndedLine.text)).inBlockComment =
      hiddenAfter hidden (lines.map Text.EndedLine.line) := by
  induction lines generalizing hidden with
  | nil => cases hidden <;> rfl
  | cons first later ih =>
      obtain ⟨fits, isLast, laterEnded⟩ := wellEnded
      rw [List.flatMap_cons, run_append, List.map_cons, hiddenAfter_cons]
      by_cases atEnd : first.ending = .endOfText
      · rw [isLast atEnd, Text.EndedLine.text, atEnd]
        simpa [Text.LineEnd.text] using inBlockComment_run_line fits.1 hidden
      · rw [run_ended fits atEnd]
        exact ih laterEnded _

end SourceComment

namespace CommentAutomaton

/-- What is left of a line where the automaton is first outside a block comment. -/
def visibleFrom : State → Text → Option Text
  | state, [] => if state.inBlockComment then none else some []
  | state, head :: tail =>
      if state.inBlockComment then visibleFrom (step state head) tail else some (head :: tail)

theorem visibleFrom_star {text : Text} (notSlash : text.head? ≠ some '/') :
    visibleFrom .star text = visibleFrom .blockComment text := by
  cases text with
  | nil => rfl
  | cons head tail =>
      have headNotSlash : head ≠ '/' := by simpa using notSlash
      simp [visibleFrom, step, stepInLine, State.inBlockComment, headNotSlash]

theorem visibleFrom_blockComment {line : Text} (noNewline : '\n' ∉ line) :
    visibleFrom .blockComment line = (Lexeme.throughCommentEnd? line).map Prod.snd := by
  fun_induction Lexeme.throughCommentEnd? line with
  | case1 => rfl
  | case2 rest => cases rest <;> rfl
  | case3 head tail notEnd ih =>
      have headDiffers := (List.ne_of_not_mem_cons noNewline).symm
      have inner := ih (List.not_mem_of_not_mem_cons noNewline)
      have inside :
          visibleFrom (step .blockComment head) tail = visibleFrom .blockComment tail := by
        rw [step_of_ne_newline headDiffers, stepInLine]
        split
        · next isStar =>
            apply visibleFrom_star
            intro startsSlash
            obtain ⟨others, tailEq⟩ := List.head?_eq_some_iff.mp startsSlash
            exact notEnd others isStar tailEq
        · rfl
      have hides : State.blockComment.inBlockComment = true := rfl
      rw [visibleFrom, if_pos hides, inside, inner, Option.map_map]
      rfl

theorem visibleFrom_lineStart {line : Text} (noNewline : '\n' ∉ line) (hidden : Bool) :
    visibleFrom (lineStart hidden) line = SourceComment.visible? hidden line := by
  cases hidden with
  | false => cases line <;> rfl
  | true => exact visibleFrom_blockComment noNewline

/-- The text through the end of its line of the given number, what ends that line included. -/
def textThrough (count : Nat) (text : Text) : Text :=
  ((Text.endedLines text).take count).flatMap Text.EndedLine.text

theorem inBlockComment_run_textThrough (count : Nat) (text : Text) :
    (run .code (textThrough count text)).inBlockComment =
      SourceComment.hiddenAfter false ((Text.lines text).take count) := by
  have wellEnded : Text.WellEnded ((Text.endedLines text).take count) := by
    apply Text.wellEnded_of_append
    rw [List.take_append_drop]
    exact Text.wellEnded_endedLines text
  rw [← Text.map_line_endedLines, ← List.map_take]
  exact SourceComment.inBlockComment_run_endedLines wellEnded false

theorem run_textThrough {count : Nat} {text line : Text}
    (follows : (Text.lines text)[count]? = some line) :
    run .code (textThrough count text) =
      lineStart (SourceComment.hiddenAfter false ((Text.lines text).take count)) := by
  rw [← Text.map_line_endedLines, List.getElem?_map] at follows
  obtain ⟨next, isNext, _⟩ := Option.map_eq_some_iff.mp follows
  have dropped : (Text.endedLines text).drop count =
      next :: (Text.endedLines text).drop (count + 1) := by
    rw [List.drop_eq_getElem?_toList_append, isNext]
    rfl
  have wellEnded := Text.wellEnded_endedLines text
  rw [← List.take_append_drop count (Text.endedLines text), dropped] at wellEnded
  rw [← Text.map_line_endedLines, ← List.map_take]
  exact SourceComment.run_endedLines (Text.wellEnded_of_append wellEnded)
    (Text.ending_ne_endOfText wellEnded) false

/-- The events of a line at whose beginning the automaton is in the given state. -/
def lineEvents (number : Nat) (state : State) (line : Text) : List Event :=
  match visibleFrom state line with
  | none => []
  | some visible => Source.visibleEvents number visible

end CommentAutomaton

namespace Source

theorem eventsFrom_eq_flatten (number : Nat) (hidden : Bool) (lines : List Text) :
    eventsFrom number hidden lines =
      (lines.mapIdx fun index line =>
        lineEvents (number + index) (SourceComment.hiddenAfter hidden (lines.take index))
          line).flatten := by
  induction lines generalizing number hidden with
  | nil => rfl
  | cons line later ih =>
      rw [eventsFrom, ih, List.mapIdx_cons, List.flatten_cons]
      simp only [List.take_zero, SourceComment.hiddenAfter_nil, Nat.add_zero, List.take_succ_cons,
        SourceComment.hiddenAfter_cons, Nat.add_assoc, Nat.add_comm 1]

end Source

namespace CommentAutomaton

/-- For every source, with one byte order mark dropped: the carried bit is that of the automaton at
the end of each line; the text of a line that is looked at is what the automaton leaves of it; so
the events are those of a reader that follows the automaton. Looking for `/*` before cutting a text
into lexemes makes no difference. -/
theorem carried_flag_agrees_with_automaton (source : Text) :
    (∀ count,
      SourceComment.hiddenAfter false
          ((Text.lines (Source.dropByteOrderMark source)).take count) =
        (run .code (textThrough count (Source.dropByteOrderMark source))).inBlockComment) ∧
    ((Text.lines (Source.dropByteOrderMark source)).mapIdx fun index line =>
        SourceComment.visible?
          (SourceComment.hiddenAfter false
            ((Text.lines (Source.dropByteOrderMark source)).take index)) line) =
      ((Text.lines (Source.dropByteOrderMark source)).mapIdx fun index line =>
        visibleFrom (run .code (textThrough index (Source.dropByteOrderMark source))) line) ∧
    Source.events source =
      ((Text.lines (Source.dropByteOrderMark source)).mapIdx fun index line =>
        lineEvents (index + 1)
          (run .code (textThrough index (Source.dropByteOrderMark source))) line).flatten ∧
    ∀ visible,
      SourceComment.endsInComment visible =
        (lexemes visible).getLast?.any fun lexeme => lexeme.kind == .blockComment false := by
  generalize bodyEq : Source.dropByteOrderMark source = body
  have visibleEq : ∀ index line, (Text.lines body)[index]? = some line →
      SourceComment.visible?
          (SourceComment.hiddenAfter false ((Text.lines body).take index)) line =
        visibleFrom (run .code (textThrough index body)) line := by
    intro index line isLine
    have noNewline := Text.newline_notMem_of_mem_lines (List.mem_of_getElem? isLine)
    rw [run_textThrough isLine, visibleFrom_lineStart noNewline]
  refine ⟨?_, ?_, ?_, SourceComment.endsInComment_eq_any_getLast?⟩
  · intro count
    exact (inBlockComment_run_textThrough count body).symm
  · apply List.mapIdx_eq_mapIdx_iff.mpr
    intro index bound
    exact visibleEq index _ (List.getElem?_eq_getElem bound)
  · rw [Source.events, bodyEq, Source.eventsFrom_eq_flatten]
    apply congrArg List.flatten
    apply List.mapIdx_eq_mapIdx_iff.mpr
    intro index bound
    rw [Source.lineEvents, visibleEq index _ (List.getElem?_eq_getElem bound), Nat.add_comm]
    rfl

end CommentAutomaton

end ConfigConstants
