import ConfigConstants.Proofs.Comment.CarriedFlag
import ConfigConstants.Proofs.Source.Content
import ConfigConstants.Proofs.Source.Statement

/-!
Writing declarations out and reading them back. Each declaration stands on a line of its own, in one
of the forms that the reader knows, and is read back as its name and its literal whatever the
literal holds: its line leaves no comment open, so the lines before it do not matter. The main
statement is about whole files of such lines.
-/

set_option autoImplicit false

namespace ConfigConstants

/-- The forms of a declaration; the name in a call may stand in quotes. -/
inductive DeclarationForm where
  | constLine
  | call (nameQuote : Option Quote)
  deriving DecidableEq, Repr

structure WrittenDeclaration where
  form : DeclarationForm
  name : Text
  literal : Text
  indent : Text
  ending : Text.LineEnd
  nonempty : name ≠ []
  isWord : ∀ char ∈ name, Lexeme.isWordChar char = true
  noBackslash : '\\' ∉ name
  nameTrimmed : Text.trim name = name
  isArgument : IsArgument literal
  noNewline : '\n' ∉ literal
  literalTrimmed : Text.trim literal = literal
  indented : ∀ char ∈ indent, char = ' ' ∨ char = '\t'
  hasEnd : ending ≠ .endOfText

instance : Inhabited WrittenDeclaration where
  default :=
    { form := .call none
      name := ['A']
      literal := ['1']
      indent := []
      ending := .newline
      nonempty := List.cons_ne_nil _ _
      isWord := List.forall_mem_singleton.mpr (by decide)
      noBackslash := by decide
      nameTrimmed := by decide
      isArgument :=
        IsArgument.of_isWordChar (List.cons_ne_nil _ _) (List.forall_mem_singleton.mpr (by decide))
      noNewline := by decide
      literalTrimmed := by decide
      indented := List.forall_mem_nil _
      hasEnd := by decide }

namespace WrittenDeclaration

def content (written : WrittenDeclaration) : Text × Text :=
  (written.name, written.literal)

def statement (written : WrittenDeclaration) : Text :=
  match written.form with
  | .constLine => ConstLine.statement written.name written.literal
  | .call none => DefineCall.statement written.name written.literal
  | .call (some quote) => DefineCall.statement (quote.wrap written.name) written.literal

def ended (written : WrittenDeclaration) : Text.EndedLine :=
  ⟨written.indent ++ written.statement, written.ending⟩

/-- The file with the given declarations, one to a line. -/
def render (written : List WrittenDeclaration) : Text :=
  (written.map ended).flatMap Text.EndedLine.text

end WrittenDeclaration

namespace Source

theorem lineEvents_of_constant {line text : Text}
    (isConst : SourceLine.ofText line = .constant text) (number : Nat) :
    lineEvents number false line = [Event.ofConstLine (ConstLine.read number text)] := by
  simp [lineEvents, SourceComment.visible?, visibleEvents, isConst]

theorem lineEvents_of_calls {line text : Text} (isCall : SourceLine.ofText line = .calls text)
    (number : Nat) :
    lineEvents number false line = (DefineCall.lineOutcomes number text).map Event.ofOutcome := by
  simp [lineEvents, SourceComment.visible?, visibleEvents, isCall]

end Source

open CommentAutomaton

theorem IsArgument.run_code {text : Text} (argument : IsArgument text) (noNewline : '\n' ∉ text) :
    run .code text = .code := by
  obtain ⟨head, tail, rfl, bodyEq, isArgument⟩ := argument.exists_cut
  have behind := run_code_cut noNewline
  rw [bodyEq] at behind
  revert isArgument behind
  cases (Lexeme.cut head tail).kind with
  | quoted quote | word | number => exact fun _ inCode => inCode
  | _ => exact fun isArgument => absurd isArgument Bool.false_ne_true

namespace WrittenDeclaration

variable (written : WrittenDeclaration)

theorem notMem_name {char : Char} (outside : Lexeme.isWordChar char = false) :
    char ∉ written.name := by
  intro member
  have isWord := written.isWord char member
  rw [outside] at isWord
  contradiction

theorem isArgument_name : IsArgument written.name :=
  IsArgument.of_isWordChar written.nonempty written.isWord

theorem isArgument_wrap_name (quote : Quote) : IsArgument (quote.wrap written.name) := by
  apply IsArgument.wrap
  · apply written.notMem_name
    cases quote <;> decide
  · exact written.noBackslash

theorem bare_name : Quote.bare written.name = written.name := by
  have noLayer : Quote.unwrap? written.name = none := by
    apply Option.eq_none_iff_forall_ne_some.mpr
    intro inner found
    obtain ⟨quote, wrapped⟩ := Quote.unwrap?_eq_some_iff.mp found
    have outside : Lexeme.isWordChar quote.mark = false := by cases quote <;> decide
    apply written.notMem_name outside
    rw [wrapped]
    exact List.mem_cons_self
  rw [Quote.bare, noLayer, Option.getD_none]

theorem newline_notMem_statement : '\n' ∉ written.statement := by
  have notInName := written.notMem_name (show Lexeme.isWordChar '\n' = false by decide)
  have notInLiteral := written.noNewline
  unfold statement
  split
  · simp [ConstLine.statement, ConstLine.keyword, notInName, notInLiteral]
  · simp [DefineCall.statement, DefineCall.defineWord, notInName, notInLiteral]
  · next quote _ =>
      have notMark : '\n' ≠ quote.mark := by cases quote <;> decide
      simp [DefineCall.statement, DefineCall.defineWord, Quote.wrap, notInName, notInLiteral,
        notMark]

theorem newline_notMem_line : '\n' ∉ written.indent ++ written.statement := by
  intro member
  cases List.mem_append.mp member with
  | inl inIndent =>
      cases written.indented '\n' inIndent with
      | inl isSpace => exact absurd isSpace (by decide)
      | inr isTab => exact absurd isTab (by decide)
  | inr inStatement => exact written.newline_notMem_statement inStatement

theorem exists_statement_eq :
    ∃ first inner, written.statement = first :: (inner ++ [';']) ∧ (first = 'c' ∨ first = 'd') := by
  have call (key : Text) : ∃ first inner, DefineCall.statement key written.literal =
      first :: (inner ++ [';']) ∧ (first = 'c' ∨ first = 'd') :=
    ⟨'d', ['e', 'f', 'i', 'n', 'e', '('] ++ key ++ [',', ' '] ++ written.literal ++ [')'],
      by simp [DefineCall.statement, DefineCall.defineWord], Or.inr rfl⟩
  unfold statement
  split
  · exact ⟨'c', _, rfl, Or.inl rfl⟩
  · exact call _
  · exact call _

theorem fits_ended : written.ended.Fits := by
  constructor
  · exact written.newline_notMem_line
  · intro _ endsInReturn
    obtain ⟨first, inner, statementEq, _⟩ := written.exists_statement_eq
    rw [ended, statementEq, ← List.cons_append, ← List.append_assoc,
      List.getLast?_concat] at endsInReturn
    exact absurd endsInReturn (by decide)

theorem run_code_indent : run .code written.indent = .code := by
  apply run_code_of_isPlain
  intro char member
  cases written.indented char member with
  | inl isSpace => exact isPlain_of_isSpace (by rw [isSpace]; decide)
  | inr isTab => exact isPlain_of_isSpace (by rw [isTab]; decide)

theorem run_code_call {key : Text} (keyInCode : run .code key = .code) :
    run .code (DefineCall.statement key written.literal) = .code := by
  have literalInCode := written.isArgument.run_code written.noNewline
  have statementEq : DefineCall.statement key written.literal =
      (DefineCall.defineWord ++ ['(']) ++ key ++ [',', ' '] ++ written.literal ++ [')', ';'] := by
    simp [DefineCall.statement]
  rw [statementEq, run_append, run_append, run_append, run_append,
    show run .code (DefineCall.defineWord ++ ['(']) = .code from rfl, keyInCode,
    show run .code [',', ' '] = .code from rfl, literalInCode]
  rfl

theorem run_code_line : run .code (written.indent ++ written.statement) = .code := by
  have literalInCode := written.isArgument.run_code written.noNewline
  have nameInCode := written.isArgument_name.run_code (written.notMem_name (by decide))
  rw [run_append, run_code_indent]
  unfold statement
  split
  · rw [ConstLine.statement, run_append, run_append, run_append, run_append,
      show run .code ConstLine.keyword = .code from rfl, nameInCode,
      show run .code [' ', '=', ' '] = .code from rfl, literalInCode]
    rfl
  · exact written.run_code_call nameInCode
  · next quote _ =>
      apply run_code_call
      apply (written.isArgument_wrap_name quote).run_code
      have notInName := written.notMem_name (show Lexeme.isWordChar '\n' = false by decide)
      have notMark : '\n' ≠ quote.mark := by cases quote <;> decide
      simp [Quote.wrap, notInName, notMark]

theorem hidesNext_line :
    SourceComment.hidesNext false (written.indent ++ written.statement) = false := by
  rw [← SourceComment.inBlockComment_run_line written.newline_notMem_line]
  rw [show lineStart false = .code from rfl, written.run_code_line]
  rfl

theorem lineEvents_line (number : Nat) :
    ∃ position, Source.lineEvents number false (written.indent ++ written.statement) =
      [.extracted ⟨written.name, written.literal, position⟩] := by
  have blank : ∀ char ∈ written.indent, Text.isBlank char = true := by
    intro char member
    cases written.indented char member with
    | inl isSpace => rw [isSpace]; decide
    | inr isTab => rw [isTab]; decide
  have stripped : SourceLine.strip (written.indent ++ written.statement) = written.statement := by
    obtain ⟨first, inner, statementEq, isLetter⟩ := written.exists_statement_eq
    rw [statementEq]
    cases isLetter with
    | inl isC =>
        rw [isC]
        exact SourceLine.strip_statement blank (by decide) (by decide) inner
    | inr isD =>
        rw [isD]
        exact SourceLine.strip_statement blank (by decide) (by decide) inner
  cases form : written.form with
  | constLine =>
      have isConst : SourceLine.ofText (written.indent ++ written.statement) =
          .constant (ConstLine.statement written.name written.literal) := by
        rw [SourceLine.ofText, stripped, statement, form, ConstLine.ofStripped_statement]
      apply Exists.intro ⟨number, 1⟩
      rw [Source.lineEvents_of_constant isConst, ConstLine.read_statement written.nonempty
        (written.notMem_name (by decide)) written.nameTrimmed written.literalTrimmed]
      rfl
  | call nameQuote =>
      have key : ∃ key, IsArgument key ∧ Quote.bare key = written.name ∧
          written.statement = DefineCall.statement key written.literal := by
        cases nameQuote with
        | none =>
            exact ⟨_, written.isArgument_name, written.bare_name, by rw [statement, form]⟩
        | some quote =>
            refine ⟨_, written.isArgument_wrap_name quote, ?_, by rw [statement, form]⟩
            rw [Quote.bare, Quote.unwrap?_wrap, Option.getD_some]
      obtain ⟨key, keyArgument, bareKey, statementEq⟩ := key
      have isCall : SourceLine.ofText (written.indent ++ written.statement) =
          .calls (DefineCall.statement key written.literal) := by
        rw [SourceLine.ofText, stripped, statementEq, DefineCall.ofStripped_statement]
      obtain ⟨position, outcome⟩ :=
        DefineCall.lineOutcomes_statement keyArgument written.isArgument number
      apply Exists.intro position
      rw [Source.lineEvents_of_calls isCall, outcome, bareKey]
      rfl

theorem lines_render (all : List WrittenDeclaration) :
    Text.lines (render all) = all.map fun written => written.indent ++ written.statement := by
  induction all with
  | nil => rfl
  | cons first later ih =>
      rw [render, List.map_cons, List.flatMap_cons,
        Text.lines_append_ended first.fits_ended first.hasEnd, List.map_cons]
      exact congrArg (List.cons _) ih

theorem contents_eventsFrom (number : Nat) (all : List WrittenDeclaration) :
    Source.contents (Source.eventsFrom number false
      (all.map fun written => written.indent ++ written.statement)) = all.map content := by
  induction all generalizing number with
  | nil => rfl
  | cons first later ih =>
      obtain ⟨position, events⟩ := first.lineEvents_line number
      rw [List.map_cons, Source.eventsFrom, events, first.hidesNext_line, Source.contents_append,
        ih, List.map_cons]
      rfl

theorem head?_text_ne_byteOrderMark (rest : Text) :
    (written.ended.text ++ rest).head? ≠ some Source.byteOrderMark := by
  obtain ⟨letter, inner, statementEq, isLetter⟩ := written.exists_statement_eq
  rw [Text.EndedLine.text, ended, statementEq]
  intro isMark
  cases indentEq : written.indent with
  | nil =>
      rw [indentEq] at isMark
      have letterEq : letter = Source.byteOrderMark := Option.some.inj isMark
      cases isLetter with
      | inl isC => exact absurd (isC.symm.trans letterEq) (by decide)
      | inr isD => exact absurd (isD.symm.trans letterEq) (by decide)
  | cons blank others =>
      rw [indentEq] at isMark
      have blankEq : blank = Source.byteOrderMark := Option.some.inj isMark
      cases written.indented blank (by rw [indentEq]; exact List.mem_cons_self) with
      | inl isSpace => exact absurd (isSpace.symm.trans blankEq) (by decide)
      | inr isTab => exact absurd (isTab.symm.trans blankEq) (by decide)

theorem dropByteOrderMark_render (all : List WrittenDeclaration) :
    Source.dropByteOrderMark (render all) = render all := by
  cases all with
  | nil => rfl
  | cons first later =>
      apply Source.dropByteOrderMark_of_head?_ne
      rw [render, List.map_cons, List.flatMap_cons]
      exact first.head?_text_ne_byteOrderMark _

theorem contents_events (all : List WrittenDeclaration) :
    Source.contents (Source.events (render all)) = all.map content := by
  rw [Source.events, dropByteOrderMark_render, lines_render]
  exact contents_eventsFrom 1 all

/-- Reading back what was written gives each name the value of its last literal and knows no other
name. The forms, the indentation and the line ends make no difference. -/
theorem constants_render (all : List WrittenDeclaration) :
    (∀ name, (Source.constants (render all)).get? name =
      (all.reverse.find? fun written => written.name = name).map
        fun written => Scalar.ofLiteral written.literal) ∧
    (∀ name, name ∈ (Source.constants (render all)).names ↔
      ∃ written ∈ all, written.name = name) ∧
    ∀ other : List WrittenDeclaration, other.map content = all.map content →
      Source.constants (render other) = Source.constants (render all) := by
  have lookup : ∀ name, (Source.constants (render all)).get? name =
      (all.reverse.find? fun written => written.name = name).map
        fun written => Scalar.ofLiteral written.literal := by
    intro name
    have declared : (Source.declarations (render all)).map Declaration.content = all.map content :=
      contents_events all
    rw [Source.constants, Constants.get?_ofDeclarations, declared, ← List.map_reverse,
      List.find?_map, Option.map_map]
    rfl
  refine ⟨lookup, ?_, ?_⟩
  · intro name
    rw [NameMap.mem_names_iff, lookup]
    simp
  · intro other same
    apply Source.constants_of_contents
    rw [contents_events, contents_events, same]

end WrittenDeclaration

end ConfigConstants
