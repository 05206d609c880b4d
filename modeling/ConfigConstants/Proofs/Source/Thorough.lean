import ConfigConstants.Proofs.Declaration.Mention
import ConfigConstants.Proofs.Source.Scan

/-!
A thorough scan: one that does not search for `define` first, but reads the calls of every visible
line that does not begin with the keyword. The lines that only it reads have no call to open, so it
finds nothing that the search passes over. The main statement is that the two scans come to the same
constants and the same log.
-/

set_option autoImplicit false

namespace ConfigConstants

namespace DefineCall

namespace Reader

theorem next_of_outcomes_eq_nil {reader : Reader} (nothingToCome : reader.outcomes = []) :
    reader.next.abandoned = [] ∧ reader.next.declared = none := by
  rw [outcomes_eq_next, List.append_eq_nil_iff, List.append_eq_nil_iff, Option.toList_eq_nil_iff,
    Option.map_eq_none_iff] at nothingToCome
  exact nothingToCome.1

end Reader

end DefineCall

namespace SourceLine

theorem no_mention_of_nothing {line : Text} (declaresNothing : ofText line = .nothing) :
    Text.occursIn DefineCall.defineWord (Text.foldCase (strip line)) = false := by
  unfold ofText ofStripped at declaresNothing
  split at declaresNothing
  · cases declaresNothing
  split at declaresNothing
  · cases declaresNothing
  · next noMention => exact eq_false_of_ne_true noMention

theorem text_eq_strip_of_calls {line text : Text} (isCalls : ofText line = .calls text) :
    text = strip line := by
  unfold ofText ofStripped at isCalls
  split at isCalls
  · cases isCalls
  split at isCalls
  · exact (SourceLine.calls.inj isCalls).symm
  · cases isCalls

theorem lineOutcomes_of_nothing {line : Text} (declaresNothing : ofText line = .nothing)
    (number : Nat) : DefineCall.lineOutcomes number (strip line) = [] :=
  DefineCall.lineOutcomes_of_no_mention (no_mention_of_nothing declaresNothing) number

end SourceLine

namespace Scan

/-- Reads a visible line for its calls, unless it begins with the keyword. -/
def readVisibleThoroughly (scan : Scan) (visible : Text) : Scan :=
  match SourceLine.ofText visible with
  | .constant _ => scan.readVisible visible
  | .calls _ | .nothing =>
      scan.readCalls
        (.ofLexemes (locatedLexemes (scan.linesRead + 1) (SourceLine.strip visible)))

def readLineThoroughly (scan : Scan) (line : Text) : Scan :=
  match SourceComment.visible? scan.hidden line with
  | none => { scan with linesRead := scan.linesRead + 1 }
  | some visible =>
      { scan.readVisibleThoroughly visible with
        hidden := SourceComment.endsInComment visible
        linesRead := scan.linesRead + 1 }

def ofSourceThoroughly (source : Text) : Scan :=
  (Text.lines (Source.dropByteOrderMark source)).foldl readLineThoroughly start

theorem readVisibleThoroughly_eq (scan : Scan) (visible : Text) :
    scan.readVisibleThoroughly visible = scan.readVisible visible := by
  unfold readVisibleThoroughly
  cases sorted : SourceLine.ofText visible with
  | constant text => rfl
  | calls text =>
      simp only [readVisible, sorted, SourceLine.text_eq_strip_of_calls sorted]
  | nothing =>
      have noOutcome := SourceLine.lineOutcomes_of_nothing sorted (scan.linesRead + 1)
      have unchanged : scan.readVisible visible = scan := by
        simp only [readVisible, sorted]
      rw [unchanged]
      change scan.readCalls _ = scan
      rw [readCalls_eq_after]
      change scan.after ((DefineCall.lineOutcomes _ _).map Event.ofOutcome) = scan
      rw [noOutcome, List.map_nil, after_nil]

theorem readLineThoroughly_eq (scan : Scan) (line : Text) :
    scan.readLineThoroughly line = scan.readLine line := by
  unfold readLineThoroughly readLine
  cases SourceComment.visible? scan.hidden line with
  | none => rfl
  | some visible => simp only [readVisibleThoroughly_eq]

/-- The search for `define` loses nothing. Reading a line that declares nothing for its calls, with
any number, yields no declaration and abandons no call; and for every source the thorough scan ends
as the scan does, with the constants and the events of the source. -/
theorem search_for_define_loses_nothing :
    (∀ (line : Text) (number : Nat), SourceLine.ofText line = .nothing →
      DefineCall.lineOutcomes number (SourceLine.strip line) = [] ∧
      (DefineCall.Reader.ofLexemes
        (locatedLexemes number (SourceLine.strip line))).next.abandoned = [] ∧
      (DefineCall.Reader.ofLexemes
        (locatedLexemes number (SourceLine.strip line))).next.declared = none) ∧
    ∀ source : Text,
      ofSourceThoroughly source = ofSource source ∧
      (ofSourceThoroughly source).constants = Source.constants source ∧
      (ofSourceThoroughly source).log = Source.events source := by
  constructor
  · intro line number declaresNothing
    have noOutcome := SourceLine.lineOutcomes_of_nothing declaresNothing number
    exact ⟨noOutcome, DefineCall.Reader.next_of_outcomes_eq_nil noOutcome⟩
  · intro source
    have sameStep : readLineThoroughly = readLine :=
      funext fun scan => funext fun line => readLineThoroughly_eq scan line
    have sameScan : ofSourceThoroughly source = ofSource source := by
      rw [ofSourceThoroughly, sameStep, ofSource]
    rw [sameScan]
    exact ⟨rfl, ofSource_eq source⟩

end Scan

end ConfigConstants
