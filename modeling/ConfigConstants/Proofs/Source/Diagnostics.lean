import ConfigConstants.Proofs.Comment.CarriedFlag
import ConfigConstants.Proofs.Source.Log
import ConfigConstants.Proofs.Source.Skipped

/-!
Where the log says that a call broke off. The column counts the bytes of the text that was cut into
lexemes, and what is skipped in front of that text is not among them. The main statement finds the
lexeme in its line of the source, behind the bytes that are skipped there; so the logged column is
the lexeme's own on every line on which nothing is skipped.
-/

set_option autoImplicit false

namespace ConfigConstants

namespace Text

/-- Whether the part stands in the line from the given column on; columns count bytes from one. -/
def StandsAt (part : Text) (column : Nat) (line : Text) : Prop :=
  ∃ before behind, line = before ++ part ++ behind ∧ column = utf8Length before + 1

theorem standsAt_iff {part line : Text} {column : Nat} :
    part.StandsAt column line ↔
      column ≠ 0 ∧ (dropUtf8? (column - 1) line).any part.isPrefixOf = true := by
  constructor
  · rintro ⟨before, behind, rfl, rfl⟩
    rw [Nat.add_sub_cancel, List.append_assoc, dropUtf8?_append, Option.any_some,
      List.isPrefixOf_iff_prefix]
    exact ⟨Nat.succ_ne_zero _, List.prefix_append part behind⟩
  · rintro ⟨nonzero, stands⟩
    obtain ⟨rest, dropped, isPrefix⟩ := (Option.any_eq_true _ _).mp stands
    obtain ⟨before, rfl, beforeLength⟩ := dropUtf8?_eq_some dropped
    obtain ⟨behind, rfl⟩ := List.isPrefixOf_iff_prefix.mp isPrefix
    refine ⟨before, behind, (List.append_assoc _ _ _).symm, ?_⟩
    omega

instance (part : Text) (column : Nat) (line : Text) : Decidable (part.StandsAt column line) :=
  decidable_of_iff _ standsAt_iff.symm

theorem StandsAt.within {part inner : Text} {column : Nat} (stands : part.StandsAt column inner)
    (front trailing : Text) :
    part.StandsAt (utf8Length front + column) (front ++ inner ++ trailing) := by
  obtain ⟨before, behind, rfl, rfl⟩ := stands
  refine ⟨front ++ before, behind ++ trailing, ?_, ?_⟩
  · simp only [List.append_assoc]
  · rw [utf8Length_append, Nat.add_assoc]

end Text

namespace Lexeme

theorem exists_before_of_mem_locate {line column : Nat} {lexemes : List Lexeme}
    {located : LocatedLexeme} (member : located ∈ locate line column lexemes) :
    ∃ before behind, lexemes.flatMap Lexeme.text = before ++ located.text ++ behind ∧
      located.position.column = column + Text.utf8Length before := by
  induction lexemes generalizing column with
  | nil => contradiction
  | cons first later ih =>
      rw [locate] at member
      cases List.mem_cons.mp member with
      | inl isFirst =>
          subst isFirst
          exact ⟨[], later.flatMap Lexeme.text, rfl, rfl⟩
      | inr isLater =>
          obtain ⟨before, behind, laterEq, place⟩ := ih isLater
          refine ⟨first.text ++ before, behind, ?_, ?_⟩
          · rw [List.flatMap_cons, laterEq]
            simp only [List.append_assoc]
          · rw [place, Text.utf8Length_append, Nat.add_assoc]

end Lexeme

theorem standsAt_of_mem_locatedLexemes {line : Nat} {text : Text} {located : LocatedLexeme}
    (member : located ∈ locatedLexemes line text) :
    located.text.StandsAt located.position.column text := by
  obtain ⟨before, behind, textEq, place⟩ := Lexeme.exists_before_of_mem_locate member
  rw [flatMap_text_lexemes] at textEq
  exact ⟨before, behind, textEq, place.trans (Nat.add_comm _ _)⟩

namespace DefineCall

theorem read_abandoned {lexeme breaking : LocatedLexeme} {call : Option OpenCall}
    {broken : OpenCall} (isOutcome : (read lexeme call).2 = some (.abandoned broken breaking)) :
    breaking = lexeme := by
  cases call with
  | none => contradiction
  | some openCall =>
      rw [read] at isOutcome
      cases progress : advance? lexeme openCall with
      | none =>
          simp only [progress, Option.some.injEq, Outcome.abandoned.injEq] at isOutcome
          exact isOutcome.2.symm
      | some reached => cases reached <;> simp [progress] at isOutcome

theorem mem_of_abandoned_mem_outcomesFrom {call : Option OpenCall} {lexemes : List LocatedLexeme}
    {broken : OpenCall} {breaking : LocatedLexeme}
    (member : .abandoned broken breaking ∈ outcomesFrom call lexemes) : breaking ∈ lexemes := by
  induction lexemes generalizing call with
  | nil => contradiction
  | cons lexeme later ih =>
      rw [outcomesFrom] at member
      split at member
      · exact List.mem_cons_of_mem lexeme (ih member)
      · cases List.mem_append.mp member with
        | inl here =>
            rw [read_abandoned (Option.mem_toList.mp here)]
            exact List.mem_cons_self
        | inr afterwards => exact List.mem_cons_of_mem lexeme (ih afterwards)

end DefineCall

namespace Source

theorem standsAt_of_abandoned_mem_visibleEvents {number : Nat} {visible : Text}
    {broken : DefineCall.OpenCall} {breaking : LocatedLexeme}
    (member : .abandonedCall broken breaking ∈ visibleEvents number visible) :
    breaking.text.StandsAt breaking.position.column (SourceLine.strip visible) := by
  unfold visibleEvents at member
  cases sorted : SourceLine.ofText visible with
  | nothing => simp [sorted] at member
  | constant text =>
      simp only [sorted, List.mem_singleton] at member
      cases read : ConstLine.read number text <;> simp [read, Event.ofConstLine] at member
  | calls text =>
      have isStripped : text = SourceLine.strip visible := by
        unfold SourceLine.ofText SourceLine.ofStripped at sorted
        split at sorted
        · cases sorted
        split at sorted
        · exact (SourceLine.calls.inj sorted).symm
        · cases sorted
      simp only [sorted, List.mem_map] at member
      obtain ⟨outcome, isOutcome, isEvent⟩ := member
      cases outcome with
      | declared declaration => cases isEvent
      | abandoned other lexeme =>
          obtain ⟨rfl, rfl⟩ := Event.abandonedCall.inj isEvent
          rw [← isStripped]
          exact standsAt_of_mem_locatedLexemes
            (DefineCall.mem_of_abandoned_mem_outcomesFrom isOutcome)

/-- What is skipped of a line before it is cut into lexemes: all that a comment hides of it, and
what stripping takes from the beginning of the rest. -/
def skipped (hidden : Bool) (line : Text) : Text :=
  SourceComment.hiddenPart hidden line ++
    SourceLine.leading ((SourceComment.visible? hidden line).getD [])

theorem standsAt_of_abandoned_mem_lineEvents {number : Nat} {hidden : Bool} {line : Text}
    {broken : DefineCall.OpenCall} {breaking : LocatedLexeme}
    (member : .abandonedCall broken breaking ∈ lineEvents number hidden line) :
    breaking.text.StandsAt
      (Text.utf8Length (skipped hidden line) + breaking.position.column) line := by
  unfold lineEvents at member
  cases isVisible : SourceComment.visible? hidden line with
  | none => simp [isVisible] at member
  | some visible =>
      simp only [isVisible] at member
      have inStripped := standsAt_of_abandoned_mem_visibleEvents member
      obtain ⟨trailing, visibleEq⟩ := SourceLine.exists_leading_append_strip visible
      have lineEq : line = skipped hidden line ++ SourceLine.strip visible ++ trailing := by
        calc line
          _ = SourceComment.hiddenPart hidden line ++ visible :=
            (SourceComment.hiddenPart_append_visible isVisible).symm
          _ = SourceComment.hiddenPart hidden line ++
              (SourceLine.leading visible ++ SourceLine.strip visible ++ trailing) :=
            congrArg _ visibleEq
          _ = _ := by
            rw [skipped, isVisible, Option.getD_some]
            simp only [List.append_assoc]
      have inLine := inStripped.within (skipped hidden line) trailing
      rwa [← lineEq] at inLine

theorem exists_line_of_mem_eventsFrom {number : Nat} {hidden : Bool} {lines : List Text}
    {event : Event} (member : event ∈ eventsFrom number hidden lines) :
    ∃ index line, lines[index]? = some line ∧
      event ∈ lineEvents (number + index)
        (SourceComment.hiddenAfter hidden (lines.take index)) line := by
  rw [eventsFrom_eq_flatten, List.mem_flatten] at member
  obtain ⟨ofLine, isLine, inLine⟩ := member
  obtain ⟨index, bound, rfl⟩ := List.mem_mapIdx.mp isLine
  exact ⟨index, lines[index], List.getElem?_eq_getElem bound, inLine⟩

/-- Whether a lexeme stands in the source where it says: on the line of its number, from its column
on. A byte order mark is no part of the first line. -/
def PointsAt (source : Text) (located : LocatedLexeme) : Prop :=
  ∃ index line, located.position.line = index + 1 ∧
    (Text.lines (dropByteOrderMark source))[index]? = some line ∧
    located.text.StandsAt located.position.column line

/-- For every call that the log says was broken off: it names a line of the source, and the lexeme
that broke the call off stands there, as many bytes to the right of the logged column as are skipped
in front of the text that was read. Where nothing is skipped the log points at the lexeme. -/
theorem abandoned_call_stands_behind_skipped {source : Text} {broken : DefineCall.OpenCall}
    {breaking : LocatedLexeme} (member : .abandonedCall broken breaking ∈ events source) :
    ∃ index line, breaking.position.line = index + 1 ∧
      (Text.lines (dropByteOrderMark source))[index]? = some line ∧
      breaking.text.StandsAt
        (Text.utf8Length (skipped (SourceComment.hiddenAfter false
          ((Text.lines (dropByteOrderMark source)).take index)) line) +
            breaking.position.column) line ∧
      (skipped (SourceComment.hiddenAfter false
          ((Text.lines (dropByteOrderMark source)).take index)) line = [] →
        PointsAt source breaking) := by
  obtain ⟨index, line, isLine, inLine⟩ := exists_line_of_mem_eventsFrom member
  have onLine : breaking.position.line = index + 1 := by
    have place := line?_of_mem_lineEvents inLine
    rw [Event.line?, Option.some.injEq, Nat.add_comm] at place
    exact place
  have stands := standsAt_of_abandoned_mem_lineEvents inLine
  refine ⟨index, line, onLine, isLine, stands, ?_⟩
  intro nothingSkipped
  rw [nothingSkipped, Text.utf8Length_nil, Nat.zero_add] at stands
  exact ⟨index, line, onLine, isLine, stands⟩

/-- Behind a comment, a blank, a tag and another blank, ten bytes in all, the column is short by
ten. -/
theorem abandoned_call_stands_behind_comment_and_tag :
    .abandonedCall .afterParenthesis ⟨⟨.semicolon, [';']⟩, ⟨2, 8⟩⟩ ∈
        events "/*\n */ <?php define(;".toList ∧
      ∃ index line, 2 = index + 1 ∧
        (Text.lines (dropByteOrderMark "/*\n */ <?php define(;".toList))[index]? = some line ∧
        Text.StandsAt [';'] (Text.utf8Length (skipped (SourceComment.hiddenAfter false
          ((Text.lines (dropByteOrderMark "/*\n */ <?php define(;".toList)).take index)) line) + 8)
            line := by
  have member : .abandonedCall .afterParenthesis ⟨⟨.semicolon, [';']⟩, ⟨2, 8⟩⟩ ∈
      events "/*\n */ <?php define(;".toList := by
    decide +kernel
  obtain ⟨index, line, onLine, isLine, stands, _⟩ := abandoned_call_stands_behind_skipped member
  exact ⟨member, index, line, onLine, isLine, stands⟩

/-- Two blanks in front of a call are enough for the log to point beside the lexeme. -/
theorem indented_call_points_beside_lexeme :
    .abandonedCall .afterParenthesis ⟨⟨.semicolon, [';']⟩, ⟨1, 8⟩⟩ ∈
        events "  define(;".toList ∧
      ¬ PointsAt "  define(;".toList ⟨⟨.semicolon, [';']⟩, ⟨1, 8⟩⟩ := by
  constructor
  · decide +kernel
  · rintro ⟨index, line, onLine, isLine, stands⟩
    obtain rfl : index = 0 := (Nat.succ.inj onLine).symm
    have onlyLine : Text.lines (dropByteOrderMark "  define(;".toList) =
        ["  define(;".toList] := by
      decide +kernel
    rw [onlyLine] at isLine
    cases isLine
    exact absurd stands (by decide +kernel)

end Source

end ConfigConstants
