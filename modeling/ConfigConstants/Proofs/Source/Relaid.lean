import ConfigConstants.Proofs.Source.LineBreak
import ConfigConstants.Proofs.Source.StrippedErasure

/-!
Laying out the lines of a source anew. For each line it is chosen which spaces and tabs stand in
front of its text and behind it, and whether a carriage return belongs to its end. Blanks neither
open nor close a comment and are stripped before a line is read, so the main statement is that no
choice changes an event or a constant.
-/

set_option autoImplicit false

namespace ConfigConstants

namespace CommentAutomaton

theorem inBlockComment_step_of_isInert {char : Char} (inert : IsInert char) (state : State) :
    (step state char).inBlockComment = state.inBlockComment := by
  obtain ⟨notSlash, _, notStar, notNewline⟩ := inert
  rw [step_of_ne_newline notNewline, inBlockComment_stepInLine notSlash notStar]

theorem inBlockComment_run_of_isInert {text : Text} (inert : ∀ char ∈ text, IsInert char)
    (state : State) : (run state text).inBlockComment = state.inBlockComment := by
  induction text generalizing state with
  | nil => rfl
  | cons head tail ih =>
      rw [run_cons, ih (fun char member => inert char (List.mem_cons_of_mem head member)),
        inBlockComment_step_of_isInert (inert head List.mem_cons_self)]

theorem run_lineStart_of_blank {blanks : Text}
    (blank : ∀ char ∈ blanks, Text.isBlank char = true) (noNewline : '\n' ∉ blanks)
    (hidden : Bool) : run (lineStart hidden) blanks = lineStart hidden := by
  cases hidden with
  | false =>
      apply run_code_of_isPlain
      intro char member
      exact Text.isPlain_of_isBlank (blank char member)
  | true =>
      induction blanks with
      | nil => rfl
      | cons head tail ih =>
          have headNotStar : head ≠ '*' :=
            Text.ne_of_belongs (blank head List.mem_cons_self) (by decide)
          have headDiffers := (List.ne_of_not_mem_cons noNewline).symm
          have stays : step (lineStart true) head = lineStart true := by
            rw [step_of_ne_newline headDiffers]
            exact if_neg headNotStar
          rw [run_cons, stays]
          exact ih (fun char member => blank char (List.mem_cons_of_mem head member))
            (List.not_mem_of_not_mem_cons noNewline)

end CommentAutomaton

namespace Lexeme

theorem throughCommentEnd?_prepend_of_notMem {before : Text} (noStar : '*' ∉ before)
    (line : Text) :
    throughCommentEnd? (before ++ line) =
      (throughCommentEnd? line).map fun (inside, rest) => (before ++ inside, rest) := by
  induction before with
  | nil => exact Option.map_id'.symm
  | cons head tail ih =>
      have headNotStar := List.ne_of_not_mem_cons noStar
      have noEndHere : ¬ ['*', '/'] <+: head :: (tail ++ line) := by
        intro startsEnd
        exact headNotStar (List.cons_prefix_cons.mp startsEnd).1
      rw [List.cons_append, throughCommentEnd?_cons noEndHere,
        ih (List.not_mem_of_not_mem_cons noStar), Option.map_map]
      rfl

end Lexeme

namespace SourceComment

open CommentAutomaton

theorem hidesNext_of_blank {before line after : Text}
    (blankBefore : ∀ char ∈ before, Text.isBlank char = true)
    (blankAfter : ∀ char ∈ after, Text.isBlank char = true)
    (noNewline : '\n' ∉ before ++ line ++ after) (hidden : Bool) :
    hidesNext hidden (before ++ line ++ after) = hidesNext hidden line := by
  have noNewlines : ('\n' ∉ before ∧ '\n' ∉ line) ∧ '\n' ∉ after := by
    simpa only [List.mem_append, not_or] using noNewline
  have inert : ∀ char ∈ after, IsInert char := by
    intro char member
    apply Text.isInert_of_isBlank (blankAfter char member)
    rintro rfl
    exact noNewlines.2 member
  rw [← inBlockComment_run_line noNewline, run_append, run_append,
    inBlockComment_run_of_isInert inert,
    run_lineStart_of_blank blankBefore noNewlines.1.1, inBlockComment_run_line noNewlines.1.2]

end SourceComment

namespace Source

theorem lineEvents_of_blank {before line after : Text}
    (blankBefore : ∀ char ∈ before, Text.isBlank char = true)
    (blankAfter : ∀ char ∈ after, Text.isBlank char = true) (number : Nat) (hidden : Bool) :
    lineEvents number hidden (before ++ line ++ after) = lineEvents number hidden line := by
  rw [lineEvents_append_of_blank blankAfter]
  unfold lineEvents SourceComment.visible?
  cases hidden with
  | false =>
      have stripped := SourceLine.strip_append_of_blank blankBefore line (List.forall_mem_nil _)
      rw [List.append_nil] at stripped
      change visibleEvents number (before ++ line) = visibleEvents number line
      unfold visibleEvents SourceLine.ofText
      rw [stripped]
  | true =>
      have noStar : '*' ∉ before := fun member => absurd (blankBefore '*' member) (by decide)
      rw [Lexeme.throughCommentEnd?_prepend_of_notMem noStar, Option.map_map]
      rfl

/-- How a line is laid out: spaces and tabs in front of its text and behind it, and whether a
carriage return belongs to its end. -/
structure LineLayout where
  before : Text
  after : Text
  withReturn : Bool
  blank_before : ∀ char ∈ before, char = ' ' ∨ char = '\t'
  blank_after : ∀ char ∈ after, char = ' ' ∨ char = '\t'

namespace LineLayout

/-- A last line that nothing ends stays so. -/
def ending (layout : LineLayout) : Text.LineEnd → Text.LineEnd
  | .endOfText => .endOfText
  | .newline | .returnNewline => if layout.withReturn then .returnNewline else .newline

def text (layout : LineLayout) (ended : Text.EndedLine) : Text :=
  layout.before ++ ended.line ++ layout.after ++ (layout.ending ended.ending).text

theorem isBlank_of_space_or_tab {char : Char} (spaceOrTab : char = ' ' ∨ char = '\t') :
    Text.isBlank char = true := by
  rcases spaceOrTab with rfl | rfl <;> decide

variable (layout : LineLayout)

theorem isBlank_before : ∀ char ∈ layout.before, Text.isBlank char = true :=
  fun char member => isBlank_of_space_or_tab (layout.blank_before char member)

theorem isBlank_after : ∀ char ∈ layout.after, Text.isBlank char = true :=
  fun char member => isBlank_of_space_or_tab (layout.blank_after char member)

theorem newline_notMem_before : '\n' ∉ layout.before :=
  fun member => absurd (layout.blank_before '\n' member) (by decide)

theorem newline_notMem_after : '\n' ∉ layout.after :=
  fun member => absurd (layout.blank_after '\n' member) (by decide)

/-- What stands behind the text of a line up to its line feed. -/
def trailing : Text :=
  layout.after ++ if layout.withReturn then ['\r'] else []

theorem isBlank_trailing : ∀ char ∈ layout.trailing, Text.isBlank char = true := by
  intro char member
  rcases List.mem_append.mp member with inAfter | inEnd
  · exact layout.isBlank_after char inAfter
  · split at inEnd
    · rw [List.mem_singleton.mp inEnd]
      decide
    · contradiction

theorem newline_notMem_trailing : '\n' ∉ layout.trailing := by
  unfold trailing
  rw [List.mem_append, not_or]
  refine ⟨layout.newline_notMem_after, ?_⟩
  split <;> decide

theorem text_of_ne_endOfText {ended : Text.EndedLine} (notLast : ended.ending ≠ .endOfText) :
    layout.text ended = layout.before ++ ended.line ++ layout.trailing ++ ['\n'] := by
  unfold text trailing
  cases ending : ended.ending with
  | endOfText => contradiction
  | newline | returnNewline =>
      rw [LineLayout.ending]
      cases layout.withReturn <;> simp [Text.LineEnd.text]

/-- A line that is laid out anew is read back as one line, which has the same events and leaves the
same bit to the next line. A carriage return that the line itself ended in may have become part of
its end. -/
theorem exists_lines_text {ended : Text.EndedLine} (noNewline : '\n' ∉ ended.line)
    (notLast : ended.ending ≠ .endOfText) (rest : Text) :
    ∃ line, Text.lines (layout.text ended ++ rest) = line :: Text.lines rest ∧
      (∀ number hidden, lineEvents number hidden line = lineEvents number hidden ended.line) ∧
      ∀ hidden, SourceComment.hidesNext hidden line =
        SourceComment.hidesNext hidden ended.line := by
  have laidNoNewline : '\n' ∉ layout.before ++ ended.line ++ layout.trailing := by
    simp only [List.mem_append, not_or]
    exact ⟨⟨layout.newline_notMem_before, noNewline⟩, layout.newline_notMem_trailing⟩
  obtain ⟨line, blanks, laidEq, blank, linesEq⟩ := Text.exists_lines_append_newline laidNoNewline
  refine ⟨line, ?_, ?_, ?_⟩
  · rw [layout.text_of_ne_endOfText notLast, List.append_assoc, List.singleton_append,
      Text.lines_append_newline, linesEq, List.singleton_append]
  · intro number hidden
    rw [← lineEvents_append_of_blank blank, ← laidEq,
      lineEvents_of_blank layout.isBlank_before layout.isBlank_trailing]
  · intro hidden
    have asRead := SourceComment.hidesNext_of_blank (List.forall_mem_nil _) blank
      (by rw [List.nil_append, ← laidEq]; exact laidNoNewline) hidden
    rw [List.nil_append, ← laidEq] at asRead
    rw [← asRead,
      SourceComment.hidesNext_of_blank layout.isBlank_before layout.isBlank_trailing laidNoNewline]

end LineLayout

/-- The lines one behind the other, each in its own layout; the lines count from the given index. -/
def layOutFrom (layouts : Nat → LineLayout) (index : Nat) : List Text.EndedLine → Text
  | [] => []
  | ended :: later => (layouts index).text ended ++ layOutFrom layouts (index + 1) later

/-- The source with each of its lines laid out anew, behind a byte order mark if it has one. -/
def relaid (layouts : Nat → LineLayout) : Text → Text
  | [] => []
  | head :: tail =>
      if head = byteOrderMark then head :: layOutFrom layouts 0 (Text.endedLines tail)
      else layOutFrom layouts 0 (Text.endedLines (head :: tail))

theorem eventsFrom_layOutFrom {all : List Text.EndedLine} (wellEnded : Text.WellEnded all)
    (layouts : Nat → LineLayout) (index number : Nat) (hidden : Bool) :
    eventsFrom number hidden (Text.lines (layOutFrom layouts index all)) =
      eventsFrom number hidden (all.map Text.EndedLine.line) := by
  induction all generalizing index number hidden with
  | nil => rfl
  | cons first later ih =>
      obtain ⟨fits, isLast, laterEnded⟩ := wellEnded
      rw [layOutFrom, List.map_cons, eventsFrom]
      by_cases atEnd : first.ending = .endOfText
      · have laidEq : (layouts index).text first =
            (layouts index).before ++ first.line ++ (layouts index).after := by
          rw [LineLayout.text, atEnd]
          exact List.append_nil _
        have sameEvents : lineEvents number hidden
            ((layouts index).before ++ first.line ++ (layouts index).after) =
              lineEvents number hidden first.line :=
          lineEvents_of_blank (layouts index).isBlank_before (layouts index).isBlank_after _ _
        have noNewline : '\n' ∉ (layouts index).text first := by
          rw [laidEq]
          simp only [List.mem_append, not_or]
          exact ⟨⟨(layouts index).newline_notMem_before, fits.1⟩,
            (layouts index).newline_notMem_after⟩
        rw [isLast atEnd, layOutFrom, List.append_nil, List.map_nil, eventsFrom, List.append_nil,
          ← sameEvents, ← laidEq]
        by_cases nothing : (layouts index).text first = []
        · rw [nothing, lineEvents_nil]
          rfl
        · rw [Text.lines_of_newline_notMem noNewline nothing, eventsFrom, eventsFrom,
            List.append_nil]
      · obtain ⟨line, linesEq, sameEvents, sameBit⟩ :=
          (layouts index).exists_lines_text fits.1 atEnd (layOutFrom layouts (index + 1) later)
        rw [linesEq, eventsFrom, sameEvents, sameBit, ih laterEnded]

theorem head?_layOutFrom_ne_byteOrderMark {text : Text}
    (noMark : text.head? ≠ some byteOrderMark) (layouts : Nat → LineLayout) :
    (layOutFrom layouts 0 (Text.endedLines text)).head? ≠ some byteOrderMark := by
  have wellEnded := Text.wellEnded_endedLines text
  have textEq := Text.flatMap_text_endedLines text
  have notMark {blank : Char} (spaceOrTab : blank = ' ' ∨ blank = '\t') :
      blank ≠ byteOrderMark := by
    rcases spaceOrTab with rfl | rfl <;> decide
  cases ended : Text.endedLines text with
  | nil => simp [layOutFrom]
  | cons first later =>
      rw [ended] at wellEnded textEq
      rw [layOutFrom, LineLayout.text]
      -- the first part that is not empty begins the whole
      cases before : (layouts 0).before with
      | cons blank others =>
          have spaceOrTab := (layouts 0).blank_before blank (by rw [before]; simp)
          simpa using notMark spaceOrTab
      | nil =>
          cases line : first.line with
          | cons next others =>
              rw [← textEq, List.flatMap_cons, Text.EndedLine.text, line] at noMark
              simpa using noMark
          | nil =>
              cases after : (layouts 0).after with
              | cons blank others =>
                  have spaceOrTab := (layouts 0).blank_after blank (by rw [after]; simp)
                  simpa using notMark spaceOrTab
              | nil =>
                  cases ending : first.ending with
                  | endOfText =>
                      rw [wellEnded.2.1 ending]
                      exact (Option.some_ne_none _).symm
                  | newline | returnNewline =>
                      rw [LineLayout.ending]
                      cases (layouts 0).withReturn <;> simp [Text.LineEnd.text, byteOrderMark]

theorem dropByteOrderMark_relaid (layouts : Nat → LineLayout) (source : Text) :
    dropByteOrderMark (relaid layouts source) =
      layOutFrom layouts 0 (Text.endedLines (dropByteOrderMark source)) := by
  cases source with
  | nil => rfl
  | cons head tail =>
      rw [relaid, dropByteOrderMark]
      by_cases isMark : head = byteOrderMark
      · rw [if_pos isMark, if_pos isMark, dropByteOrderMark, if_pos isMark]
      · rw [if_neg isMark, if_neg isMark]
        apply dropByteOrderMark_of_head?_ne
        apply head?_layOutFrom_ne_byteOrderMark
        exact fun same => isMark (Option.some.inj same)

/-- However the lines of a source are laid out, its events are the same, places included, and so
are its constants. -/
theorem layout_without_influence (layouts : Nat → LineLayout) (source : Text) :
    events (relaid layouts source) = events source ∧
      constants (relaid layouts source) = constants source := by
  have sameEvents : events (relaid layouts source) = events source := by
    rw [events, events, dropByteOrderMark_relaid,
      ← Text.map_line_endedLines (dropByteOrderMark source)]
    exact eventsFrom_layOutFrom (Text.wellEnded_endedLines _) layouts 0 1 false
  constructor
  · exact sameEvents
  · rw [constants, constants, declarations, declarations, sameEvents]

example : relaid (fun _ => ⟨[' '], ['\t'], true, by simp, by simp⟩) "const A = 1;\n/*".toList =
    " const A = 1;\t\r\n /*\t".toList := by
  decide +kernel

end Source

end ConfigConstants
