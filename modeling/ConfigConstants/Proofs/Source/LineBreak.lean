import ConfigConstants.Proofs.Constants.LastWins
import ConfigConstants.Proofs.Declaration.Mention
import ConfigConstants.Proofs.Comment.CarriedFlag
import ConfigConstants.Proofs.Text.Runs

/-!
Cutting a source at a line feed, and blanks at the end of a line. The blanks hide nothing, since no
comment ends with one, and stripping takes them off; so the line has the same events. What stands
before a line feed reaches the rest only through the one bit that says whether a block comment is
open there: put behind a line that opens such a comment, or behind an empty line, the rest declares
what it declares in the whole source. The main statement is that the constants of the source are
those of the front, overridden by those of the rest so read.
-/

set_option autoImplicit false

namespace ConfigConstants

namespace SourceLine

theorem strip_append_of_blank {before after : Text}
    (blankBefore : ∀ char ∈ before, Text.isBlank char = true) (text : Text)
    (blankAfter : ∀ char ∈ after, Text.isBlank char = true) :
    strip (before ++ text ++ after) = strip text := by
  unfold strip
  rw [Text.trim_append_of_blank blankBefore text blankAfter]

end SourceLine

namespace SourceComment

theorem visible?_append_of_blank {after : Text}
    (blank : ∀ char ∈ after, Text.isBlank char = true) (hidden : Bool) (line : Text) :
    visible? hidden (line ++ after) = (visible? hidden line).map (· ++ after) := by
  cases hidden with
  | false => rfl
  | true =>
      have noSlash : '/' ∉ after := fun member => absurd (blank '/' member) (by decide)
      simp only [visible?, if_true]
      rw [Lexeme.throughCommentEnd?_append_of_notMem noSlash, Option.map_map, Option.map_map]
      rfl

end SourceComment

namespace Source

theorem lineEvents_append_of_blank {after : Text}
    (blank : ∀ char ∈ after, Text.isBlank char = true) (number : Nat) (hidden : Bool)
    (line : Text) : lineEvents number hidden (line ++ after) = lineEvents number hidden line := by
  unfold lineEvents
  rw [SourceComment.visible?_append_of_blank blank]
  cases SourceComment.visible? hidden line with
  | none => rfl
  | some visible =>
      have stripped := SourceLine.strip_append_of_blank (List.forall_mem_nil _) visible blank
      rw [List.nil_append] at stripped
      change visibleEvents number (visible ++ after) = visibleEvents number visible
      unfold visibleEvents SourceLine.ofText
      rw [stripped]

end Source

namespace SourceComment

open CommentAutomaton

theorem inBlockComment_run_text (hidden : Bool) (text : Text) :
    (run (lineStart hidden) text).inBlockComment = hiddenAfter hidden (Text.lines text) := by
  have ofEnded := inBlockComment_run_endedLines (Text.wellEnded_endedLines text) hidden
  rwa [Text.flatMap_text_endedLines, Text.map_line_endedLines] at ofEnded

theorem hiddenAfter_lines_append_newline (hidden : Bool) (text : Text) :
    hiddenAfter hidden (Text.lines (text ++ ['\n'])) = hiddenAfter hidden (Text.lines text) := by
  rw [← inBlockComment_run_text, ← inBlockComment_run_text, run_append, run_cons, run_nil,
    step_newline]
  cases (run (lineStart hidden) text).inBlockComment <;> rfl

end SourceComment

namespace Text

/-- A text that does not end its last line, and holds nothing but that line, with an end put to it:
a carriage return at its end then belongs to that end. -/
theorem exists_lines_append_newline {line : Text} (noNewline : '\n' ∉ line) :
    ∃ others after, line = others ++ after ∧ (∀ char ∈ after, isBlank char = true) ∧
      lines (line ++ ['\n']) = [others] := by
  by_cases endsInReturn : line.getLast? = some '\r'
  · obtain ⟨others, rfl⟩ := List.getLast?_eq_some_iff.mp endsInReturn
    have othersNoNewline : '\n' ∉ others := fun member =>
      noNewline (List.mem_append_left _ member)
    have fits : EndedLine.Fits ⟨others, .returnNewline⟩ := ⟨othersNoNewline, by simp⟩
    have split := lines_append_ended fits (by simp) []
    refine ⟨others, ['\r'], rfl, List.forall_mem_singleton.mpr (by decide), ?_⟩
    simpa [EndedLine.text, LineEnd.text, lines] using split
  · have fits : EndedLine.Fits ⟨line, .newline⟩ := ⟨noNewline, fun _ => endsInReturn⟩
    have split := lines_append_ended fits (by simp) []
    refine ⟨line, [], (List.append_nil line).symm, List.forall_mem_nil _, ?_⟩
    simpa [EndedLine.text, LineEnd.text, lines] using split

end Text

namespace Source

theorem eventsFrom_lines_append_newline {all : List Text.EndedLine}
    (wellEnded : Text.WellEnded all) (number : Nat) (hidden : Bool) :
    eventsFrom number hidden (Text.lines (all.flatMap Text.EndedLine.text ++ ['\n'])) =
      eventsFrom number hidden (all.map Text.EndedLine.line) := by
  induction all generalizing number hidden with
  | nil =>
      change lineEvents number hidden [] ++ [] = []
      rw [lineEvents_nil, List.append_nil]
  | cons first later ih =>
      obtain ⟨fits, isLast, laterEnded⟩ := wellEnded
      rw [List.flatMap_cons, List.map_cons, eventsFrom]
      by_cases atEnd : first.ending = .endOfText
      · obtain ⟨others, after, lineEq, blank, linesEq⟩ :=
          Text.exists_lines_append_newline fits.1
        rw [isLast atEnd, Text.EndedLine.text, atEnd, Text.LineEnd.text, List.append_nil,
          List.flatMap_nil, List.append_nil, linesEq, lineEq, eventsFrom, List.map_nil]
        rw [lineEvents_append_of_blank blank]
        rfl
      · rw [List.append_assoc, Text.lines_append_ended fits atEnd, eventsFrom, ih laterEnded]

theorem dropByteOrderMark_append_newline (front back : Text) :
    dropByteOrderMark (front ++ '\n' :: back) = dropByteOrderMark front ++ '\n' :: back := by
  cases front with
  | nil => rfl
  | cons head tail =>
      rw [List.cons_append, dropByteOrderMark, dropByteOrderMark]
      split <;> rfl

def leavesOpen (source : Text) : Bool :=
  SourceComment.hiddenAfter false (Text.lines (dropByteOrderMark source))

/-- The events of a source that is cut at a line feed: those of the front, and those of the lines
behind it, which learn nothing of the front but how many lines it has and the one bit. -/
theorem events_append_newline (front back : Text) :
    ∃ number, events (front ++ '\n' :: back) =
      events front ++ eventsFrom number (leavesOpen front) (Text.lines back) := by
  have ofFront : ∀ body : Text,
      eventsFrom 1 false (Text.lines (body ++ ['\n'])) = eventsFrom 1 false (Text.lines body) := by
    intro body
    have ended := eventsFrom_lines_append_newline (Text.wellEnded_endedLines body) 1 false
    rwa [Text.flatMap_text_endedLines, Text.map_line_endedLines] at ended
  unfold events leavesOpen
  rw [dropByteOrderMark_append_newline, Text.lines_append_newline, eventsFrom_append, ofFront,
    SourceComment.hiddenAfter_lines_append_newline]
  exact ⟨_, rfl⟩

theorem contents_visibleEvents_of_number (visible : Text) (number other : Nat) :
    contents (visibleEvents number visible) = contents (visibleEvents other visible) := by
  cases isConst : Text.afterWord? ConstLine.keyword (SourceLine.strip visible) with
  | none =>
      rw [contents_visibleEvents isConst, contents_visibleEvents isConst]
      exact DefineCall.contents_locate _ _ _ _ _
  | some rest =>
      have constant : SourceLine.ofText visible = .constant (SourceLine.strip visible) := by
        rw [SourceLine.ofText, SourceLine.ofStripped, isConst]
        rfl
      simp only [visibleEvents, constant]
      unfold ConstLine.read
      split
      · rfl
      split
      · rfl
      split <;> rfl

theorem contents_eventsFrom_of_number (number other : Nat) (hidden : Bool) (lines : List Text) :
    contents (eventsFrom number hidden lines) = contents (eventsFrom other hidden lines) := by
  induction lines generalizing number other hidden with
  | nil => rfl
  | cons line later ih =>
      have sameLine : contents (lineEvents number hidden line) =
          contents (lineEvents other hidden line) := by
        unfold lineEvents
        cases SourceComment.visible? hidden line with
        | none => rfl
        | some visible => exact contents_visibleEvents_of_number visible number other
      rw [eventsFrom, eventsFrom, contents_append, contents_append, sameLine,
        ih (number + 1) (other + 1)]

/-- A line that leaves a block comment open, or an empty one. -/
def opening (leftOpen : Bool) : Text :=
  if leftOpen then SourceComment.commentStart else []

theorem events_opening (leftOpen : Bool) : events (opening leftOpen) = [] := by
  cases leftOpen <;> rfl

theorem leavesOpen_opening (leftOpen : Bool) : leavesOpen (opening leftOpen) = leftOpen := by
  unfold leavesOpen
  rw [← SourceComment.inBlockComment_run_text]
  cases leftOpen <;> rfl

/-- What a source declares is what the front declares and then what the rest declares behind a line
that opens what the front left open. -/
theorem contents_append_newline (front back : Text) :
    contents (events (front ++ '\n' :: back)) =
      contents (events front) ++
        contents (events (opening (leavesOpen front) ++ '\n' :: back)) := by
  obtain ⟨number, whole⟩ := events_append_newline front back
  obtain ⟨other, reopened⟩ := events_append_newline (opening (leavesOpen front)) back
  rw [events_opening, leavesOpen_opening, List.nil_append] at reopened
  rw [whole, reopened, contents_append, contents_eventsFrom_of_number number other]

theorem constants_append_newline_eq_override (front back : Text) :
    constants (front ++ '\n' :: back) =
      (constants front).override (constants (opening (leavesOpen front) ++ '\n' :: back)) := by
  have split : (declarations (front ++ '\n' :: back)).map Declaration.content =
      (declarations front ++
        declarations (opening (leavesOpen front) ++ '\n' :: back)).map Declaration.content := by
    rw [List.map_append]
    exact contents_append_newline front back
  have parts := Constants.declareAll_of_map_content split NameMap.empty
  rw [Constants.declareAll_append] at parts
  exact parts.trans (Constants.declareAll_eq_override _ _)

/-- For every cut of a source at a line feed: its constants are those of the front, overridden by
those of the rest behind a line that opens a block comment if the front ends inside one. So the
names of the rest win, nothing that the front declares is removed, and two fronts that leave the
same bit are followed by the same declarations. -/
theorem constants_append_newline (front back : Text) :
    constants (front ++ '\n' :: back) =
        (constants front).override (constants (opening (leavesOpen front) ++ '\n' :: back)) ∧
    (∀ name, (constants (front ++ '\n' :: back)).get? name =
        ((constants (opening (leavesOpen front) ++ '\n' :: back)).get? name).or
          ((constants front).get? name)) ∧
    (∀ name, (constants front).contains name = true →
        (constants (front ++ '\n' :: back)).contains name = true) ∧
    ∀ other, leavesOpen other = leavesOpen front →
      ∃ following,
        contents (events (front ++ '\n' :: back)) = contents (events front) ++ following ∧
        contents (events (other ++ '\n' :: back)) = contents (events other) ++ following := by
  have whole := constants_append_newline_eq_override front back
  have lookUp := NameMap.get?_override (constants front)
    (constants (opening (leavesOpen front) ++ '\n' :: back))
  refine ⟨whole, ?_, ?_, ?_⟩
  · intro name
    rw [whole, lookUp]
  · intro name declared
    rw [NameMap.contains_eq_isSome] at declared ⊢
    rw [whole, lookUp, Option.isSome_or, declared, Bool.or_true]
  · intro other sameBit
    refine ⟨_, contents_append_newline front back, ?_⟩
    rw [← sameBit]
    exact contents_append_newline other back

end Source

end ConfigConstants
