import ConfigConstants.Proofs.Declaration.Placement
import ConfigConstants.Proofs.Source.Scan

/-!
The log of a scan. Each event names the line that it comes from, and the lines come one after the
other; a visible line that begins with the keyword has exactly one event, and a line that is hidden
or declares nothing has none. The main statement puts this beside the constants of the scan, which
are what is left of the declarations in the log.
-/

set_option autoImplicit false

namespace ConfigConstants

namespace DefineCall

theorem line_of_mem_outcomes {lexemes : List LocatedLexeme} {line : Nat}
    (onLine : ∀ lexeme ∈ lexemes, lexeme.position.line = line) :
    ∀ outcome ∈ outcomes lexemes,
      (∀ declaration, outcome = .declared declaration → declaration.position.line = line) ∧
      ∀ call breaking, outcome = .abandoned call breaking → breaking.position.line = line := by
  -- moving the lexemes to the line where they stand changes none, so it changes no outcome
  have unmoved : lexemes.map (LocatedLexeme.moved fun position => ⟨line, position.column⟩) =
      lexemes := by
    rw [← List.map_id lexemes, List.map_map]
    apply List.map_congr_left
    intro lexeme member
    change lexeme.moved _ = lexeme
    rw [LocatedLexeme.moved, ← onLine lexeme member]
  have moved := outcomesFrom_moved (fun position => ⟨line, position.column⟩) none lexemes
  rw [Option.map_none, unmoved] at moved
  intro outcome member
  have fixed : outcome.moved (fun position => ⟨line, position.column⟩) = outcome :=
    List.map_inj_left.mp (moved.symm.trans (List.map_id _).symm) outcome member
  constructor
  · rintro declaration rfl
    have sameDeclaration := Outcome.declared.inj fixed
    rw [← sameDeclaration, Declaration.moved]
  · rintro call breaking rfl
    have sameBreaking := (Outcome.abandoned.inj fixed).2
    rw [← sameBreaking, LocatedLexeme.moved]

end DefineCall

namespace Event

def line? : Event → Option Nat
  | .abandonedCall _ breaking => some breaking.position.line
  | .extracted declaration => some declaration.position.line
  | .skippedConst error => some error.position.line
  | .loaded _ _ => none

def ofLine (number : Nat) (log : List Event) : List Event :=
  log.filter fun event => event.line? = some number

/-- Whether an event that follows another one comes from the same line or a later one. -/
def InLineOrder (earlier later : Event) : Prop :=
  ∀ first ∈ earlier.line?, ∀ second ∈ later.line?, first ≤ second

end Event

namespace Source

theorem line?_ofConstLine_read (number : Nat) (text : Text) :
    (Event.ofConstLine (ConstLine.read number text)).line? = some number := by
  unfold ConstLine.read
  split
  · rfl
  split
  · rfl
  split <;> rfl

theorem line?_of_mem_visibleEvents {number : Nat} {visible : Text} {event : Event}
    (member : event ∈ visibleEvents number visible) : event.line? = some number := by
  unfold visibleEvents at member
  cases sorted : SourceLine.ofText visible with
  | constant text =>
      simp only [sorted, List.mem_singleton] at member
      rw [member]
      exact line?_ofConstLine_read number text
  | calls text =>
      simp only [sorted, List.mem_map] at member
      obtain ⟨outcome, isOutcome, rfl⟩ := member
      have onLine := DefineCall.line_of_mem_outcomes
        (fun lexeme isLexeme => Lexeme.line_of_mem_locate isLexeme) outcome isOutcome
      cases outcome with
      | declared declaration => exact congrArg some (onLine.1 declaration rfl)
      | abandoned call breaking => exact congrArg some (onLine.2 call breaking rfl)
  | nothing =>
      simp only [sorted, List.not_mem_nil] at member

theorem line?_of_mem_lineEvents {number : Nat} {hidden : Bool} {line : Text} {event : Event}
    (member : event ∈ lineEvents number hidden line) : event.line? = some number := by
  unfold lineEvents at member
  cases isVisible : SourceComment.visible? hidden line with
  | none => simp only [isVisible, List.not_mem_nil] at member
  | some visible =>
      simp only [isVisible] at member
      exact line?_of_mem_visibleEvents member

theorem exists_line?_of_mem_eventsFrom {number : Nat} {hidden : Bool} {lines : List Text}
    {event : Event} (member : event ∈ eventsFrom number hidden lines) :
    ∃ place, event.line? = some place ∧ number ≤ place := by
  induction lines generalizing number hidden with
  | nil => contradiction
  | cons line later ih =>
      rw [eventsFrom, List.mem_append] at member
      cases member with
      | inl ofLine => exact ⟨number, line?_of_mem_lineEvents ofLine, Nat.le_refl number⟩
      | inr ofLater =>
          obtain ⟨place, isPlace, beyond⟩ := ih ofLater
          exact ⟨place, isPlace, Nat.le_of_succ_le beyond⟩

theorem pairwise_inLineOrder_eventsFrom (number : Nat) (hidden : Bool) (lines : List Text) :
    (eventsFrom number hidden lines).Pairwise Event.InLineOrder := by
  induction lines generalizing number hidden with
  | nil => exact List.Pairwise.nil
  | cons line later ih =>
      rw [eventsFrom, List.pairwise_append]
      refine ⟨?_, ih _ _, ?_⟩
      · apply List.pairwise_of_forall_mem_list
        intro earlier isEarlier following isFollowing first isFirst second isSecond
        rw [line?_of_mem_lineEvents isEarlier, Option.mem_some_iff] at isFirst
        rw [line?_of_mem_lineEvents isFollowing, Option.mem_some_iff] at isSecond
        omega
      · intro earlier isEarlier following isFollowing first isFirst second isSecond
        obtain ⟨place, isPlace, beyond⟩ := exists_line?_of_mem_eventsFrom isFollowing
        rw [line?_of_mem_lineEvents isEarlier, Option.mem_some_iff] at isFirst
        rw [isPlace, Option.mem_some_iff] at isSecond
        omega

/-- The events with the number of a line are those that reading this line yields. -/
theorem ofLine_eventsFrom {lines : List Text} {index : Nat} {line : Text}
    (isLine : lines[index]? = some line) (number : Nat) (hidden : Bool) :
    Event.ofLine (number + index) (eventsFrom number hidden lines) =
      lineEvents (number + index) (SourceComment.hiddenAfter hidden (lines.take index)) line := by
  induction lines generalizing index number hidden with
  | nil => contradiction
  | cons first later ih =>
      rw [eventsFrom, Event.ofLine, List.filter_append]
      cases index with
      | zero =>
          have firstEq : first = line := Option.some.inj isLine
          have ofFirst : (lineEvents number hidden first).filter
              (fun event => event.line? = some number) = lineEvents number hidden first := by
            apply List.filter_eq_self.mpr
            intro event member
            rw [line?_of_mem_lineEvents member, decide_eq_true rfl]
          have ofLater : (eventsFrom (number + 1) (SourceComment.hidesNext hidden first)
              later).filter (fun event => event.line? = some number) = [] := by
            apply List.filter_eq_nil_iff.mpr
            intro event member isHere
            obtain ⟨place, isPlace, beyond⟩ := exists_line?_of_mem_eventsFrom member
            rw [isPlace, decide_eq_true_iff, Option.some.injEq] at isHere
            omega
          rw [Nat.add_zero, ofFirst, ofLater, List.append_nil, firstEq]
          rfl
      | succ index =>
          have ofFirst : (lineEvents number hidden first).filter
              (fun event => event.line? = some (number + (index + 1))) = [] := by
            apply List.filter_eq_nil_iff.mpr
            intro event member isHere
            rw [line?_of_mem_lineEvents member, decide_eq_true_iff, Option.some.injEq] at isHere
            omega
          have ofLater := ih isLine (number + 1) (SourceComment.hidesNext hidden first)
          have sameNumber : number + 1 + index = number + (index + 1) := by omega
          rw [sameNumber] at ofLater
          rw [ofFirst, List.nil_append, List.take_succ_cons, SourceComment.hiddenAfter_cons]
          exact ofLater

end Source

namespace Scan

/-- For every source, over the scan's whole log: the constants are what is left of the logged
declarations when the last of each name wins; the log names lines in ascending order; a visible line
that begins with the keyword has exactly one event, which takes a declaration over or skips the
line; and a line that a comment hides, or that declares nothing, has none. -/
theorem constants_and_log_agree (source : Text) :
    (ofSource source).constants.IsLastWinsView
        ((ofSource source).log.filterMap Event.declaration?) ∧
    ((ofSource source).constants = Source.constants source ∧
      (ofSource source).log = Source.events source) ∧
    (∀ event ∈ (ofSource source).log, event.line?.isSome = true) ∧
    (ofSource source).log.Pairwise Event.InLineOrder ∧
    ∀ index line, (Text.lines (Source.dropByteOrderMark source))[index]? = some line →
      (SourceComment.visible? (SourceComment.hiddenAfter false
          ((Text.lines (Source.dropByteOrderMark source)).take index)) line = none →
        Event.ofLine (index + 1) (ofSource source).log = []) ∧
      ∀ visible, SourceComment.visible? (SourceComment.hiddenAfter false
          ((Text.lines (Source.dropByteOrderMark source)).take index)) line = some visible →
        (SourceLine.ofText visible = .nothing →
          Event.ofLine (index + 1) (ofSource source).log = []) ∧
        ∀ text, SourceLine.ofText visible = .constant text →
          (∃ declaration,
            Event.ofLine (index + 1) (ofSource source).log = [.extracted declaration]) ∨
          ∃ malformed,
            Event.ofLine (index + 1) (ofSource source).log = [.skippedConst malformed] := by
  obtain ⟨sameConstants, sameLog⟩ := ofSource_eq source
  refine ⟨?_, ⟨sameConstants, sameLog⟩, ?_, ?_, ?_⟩
  · rw [sameConstants, sameLog]
    exact Constants.isLastWinsView_ofDeclarations _
  · intro event member
    rw [sameLog] at member
    obtain ⟨place, isPlace, _⟩ := Source.exists_line?_of_mem_eventsFrom member
    rw [isPlace]
    rfl
  · rw [sameLog]
    exact Source.pairwise_inLineOrder_eventsFrom _ _ _
  · intro index line isLine
    -- the log's events of a line are what this one line yields behind the lines in front of it
    have ofLine := Source.ofLine_eventsFrom isLine 1 false
    rw [Nat.add_comm 1 index] at ofLine
    rw [sameLog, Source.events, ofLine, Source.lineEvents]
    constructor
    · intro isHidden
      rw [isHidden]
    · intro visible isVisible
      simp only [isVisible, Source.visibleEvents]
      constructor
      · intro declaresNothing
        rw [declaresNothing]
      · intro text isConst
        simp only [isConst]
        cases ConstLine.read (index + 1) text with
        | ok declaration => exact Or.inl ⟨declaration, rfl⟩
        | error malformed => exact Or.inr ⟨malformed, rfl⟩

end Scan

end ConfigConstants
