import ConfigConstants.Declaration.CallReader
import ConfigConstants.Proofs.Constants.LastWins
import ConfigConstants.Proofs.Declaration.Drain

/-!
Scanning a source line by line with everything that a scan keeps up to date: the constants, the log,
and the one bit about comments. A declaration is taken over and logged in the same breath, and the
calls of a line are asked for one at a time. The main statements say what a line, and any number of
lines, do to a scan, and that a scan ends with the constants and the events of its source.
-/

set_option autoImplicit false

namespace ConfigConstants

structure Scan where
  constants : Constants
  log : List Event
  hidden : Bool
  linesRead : Nat

namespace Scan

def start : Scan :=
  ⟨NameMap.empty, [], false, 0⟩

def report (scan : Scan) (event : Event) : Scan :=
  { scan with log := scan.log ++ [event] }

def insert (scan : Scan) (declaration : Declaration) : Scan :=
  { scan with
    constants := scan.constants.declare declaration
    log := scan.log ++ [.extracted declaration] }

/-- Asks a reader for its declarations until there are no more; the calls that it abandons on the
way to a declaration are logged before the declaration is. -/
def readCalls (scan : Scan) (reader : DefineCall.Reader) : Scan :=
  match _declared : reader.next.declared with
  | none => (reader.next.abandoned.map Event.ofOutcome).foldl report scan
  | some declaration =>
      readCalls (((reader.next.abandoned.map Event.ofOutcome).foldl report scan).insert declaration)
        reader.next.reader
termination_by reader.unread.length
decreasing_by exact DefineCall.Reader.length_unread_next_lt _declared

def readVisible (scan : Scan) (visible : Text) : Scan :=
  match SourceLine.ofText visible with
  | .constant text =>
      match ConstLine.read (scan.linesRead + 1) text with
      | .ok declaration => scan.insert declaration
      | .error malformed => scan.report (.skippedConst malformed)
  | .calls text => scan.readCalls (.ofLexemes (locatedLexemes (scan.linesRead + 1) text))
  | .nothing => scan

/-- Reads one line. A line that is hidden as a whole leaves everything but the count as it is. -/
def readLine (scan : Scan) (line : Text) : Scan :=
  match SourceComment.visible? scan.hidden line with
  | none => { scan with linesRead := scan.linesRead + 1 }
  | some visible =>
      { scan.readVisible visible with
        hidden := SourceComment.endsInComment visible
        linesRead := scan.linesRead + 1 }

def ofSource (source : Text) : Scan :=
  (Text.lines (Source.dropByteOrderMark source)).foldl readLine start

/-- The scan with further events in its log and their declarations taken over. -/
def after (scan : Scan) (events : List Event) : Scan :=
  { scan with
    constants := scan.constants.declareAll (events.filterMap Event.declaration?)
    log := scan.log ++ events }

theorem after_nil (scan : Scan) : scan.after [] = scan := by
  unfold after
  rw [List.append_nil]
  rfl

theorem after_append (scan : Scan) (earlier later : List Event) :
    scan.after (earlier ++ later) = (scan.after earlier).after later := by
  unfold after
  rw [List.filterMap_append, Constants.declareAll_append, List.append_assoc]

theorem insert_eq_after (scan : Scan) (declaration : Declaration) :
    scan.insert declaration = scan.after [.extracted declaration] :=
  rfl

theorem report_eq_after (scan : Scan) {event : Event} (noDeclaration : event.declaration? = none) :
    scan.report event = scan.after [event] := by
  unfold after
  rw [List.filterMap_cons, noDeclaration]
  rfl

theorem foldl_report_eq_after (scan : Scan) {events : List Event}
    (noDeclaration : ∀ event ∈ events, event.declaration? = none) :
    events.foldl report scan = scan.after events := by
  induction events generalizing scan with
  | nil => exact (after_nil scan).symm
  | cons event later ih =>
      rw [List.foldl_cons, report_eq_after scan (noDeclaration event List.mem_cons_self),
        ih _ fun other member => noDeclaration other (List.mem_cons_of_mem event member),
        ← after_append, List.singleton_append]

theorem declaration?_ofOutcome (outcome : DefineCall.Outcome) :
    (Event.ofOutcome outcome).declaration? = outcome.declaration? := by
  cases outcome <;> rfl

theorem foldl_report_abandoned (scan : Scan) (reader : DefineCall.Reader) :
    (reader.next.abandoned.map Event.ofOutcome).foldl report scan =
      scan.after (reader.next.abandoned.map Event.ofOutcome) := by
  apply foldl_report_eq_after
  intro event member
  obtain ⟨outcome, abandoned, rfl⟩ := List.mem_map.mp member
  rw [declaration?_ofOutcome]
  exact List.filterMap_eq_nil_iff.mp
    (DefineCall.Reader.filterMap_abandoned_nextFrom reader.call reader.unread) outcome abandoned

/-- One at a time, a reader's calls are logged as the outcomes of all its lexemes. -/
theorem readCalls_eq_after (scan : Scan) (reader : DefineCall.Reader) :
    scan.readCalls reader = scan.after (reader.outcomes.map Event.ofOutcome) := by
  fun_induction readCalls scan reader with
  | case1 scan reader ended =>
      rw [foldl_report_abandoned, DefineCall.Reader.outcomes_eq_next reader, ended,
        DefineCall.Reader.outcomes_reader_next ended, Option.map_none, Option.toList_none,
        List.append_nil, List.append_nil]
  | case2 scan reader declaration declared ih =>
      rw [ih, foldl_report_abandoned, insert_eq_after, ← after_append, ← after_append,
        DefineCall.Reader.outcomes_eq_next reader, declared, List.map_append, List.map_append,
        List.append_assoc]
      rfl

theorem readVisible_eq_after (scan : Scan) (visible : Text) :
    scan.readVisible visible = scan.after (Source.visibleEvents (scan.linesRead + 1) visible) := by
  unfold readVisible Source.visibleEvents
  cases SourceLine.ofText visible with
  | constant text =>
      cases read : ConstLine.read (scan.linesRead + 1) text with
      | ok declaration =>
          simp only [read]
          exact insert_eq_after scan declaration
      | error malformed =>
          simp only [read]
          exact report_eq_after scan rfl
  | calls text => exact readCalls_eq_after scan _
  | nothing => exact (after_nil scan).symm

theorem readLine_eq (scan : Scan) (line : Text) :
    scan.readLine line =
      { scan.after (Source.lineEvents (scan.linesRead + 1) scan.hidden line) with
        hidden := SourceComment.hidesNext scan.hidden line
        linesRead := scan.linesRead + 1 } := by
  unfold readLine Source.lineEvents SourceComment.hidesNext
  cases isVisible : SourceComment.visible? scan.hidden line with
  | none =>
      have stillHidden : scan.hidden = true := by
        cases hidden : scan.hidden with
        | true => rfl
        | false =>
            rw [hidden] at isVisible
            contradiction
      simp only [after_nil, ← stillHidden]
  | some visible => simp only [readVisible_eq_after]

theorem foldl_readLine (scan : Scan) (lines : List Text) :
    lines.foldl readLine scan =
      { scan.after (Source.eventsFrom (scan.linesRead + 1) scan.hidden lines) with
        hidden := SourceComment.hiddenAfter scan.hidden lines
        linesRead := scan.linesRead + lines.length } := by
  induction lines generalizing scan with
  | nil => simp only [List.foldl_nil, Source.eventsFrom, after_nil, List.length_nil, Nat.add_zero,
      SourceComment.hiddenAfter_nil]
  | cons line later ih =>
      rw [List.foldl_cons, ih, readLine_eq, Source.eventsFrom, after_append,
        SourceComment.hiddenAfter_cons, List.length_cons]
      simp only [after, Nat.add_assoc, Nat.add_comm 1]

/-- A scan from the start ends with the constants and the events of the source. -/
theorem ofSource_eq (source : Text) :
    (ofSource source).constants = Source.constants source ∧
      (ofSource source).log = Source.events source := by
  unfold ofSource
  rw [foldl_readLine]
  exact ⟨rfl, List.nil_append _⟩

end Scan

end ConfigConstants
