import ConfigConstants.Proofs.Lexeme.Grammar
import ConfigConstants.Proofs.Lexeme.Stretch

/-!
Texts put one behind the other. Save for a digit, what is put behind a text reaches only the last
lexeme of the text: either it begins lexemes of its own, or it lengthens a run of spaces, or it is
taken into a comment or a quoted text that has not come to its end.
-/

set_option autoImplicit false

namespace ConfigConstants

open Text (StartsOutside)

/-- Putting a text behind another leaves all lexemes of the first but the last one, and that one is
the only lexeme of its own text. A digit could make a number of a sign and a point that are two
lexemes without it. -/
theorem exists_last_lexemes_append {front back : Text} (nonempty : front ≠ [])
    (noDigit : StartsOutside Char.isDigit back) :
    ∃ earlier last, lexemes front = earlier ++ [last] ∧ lexemes last.text = [last] ∧
      lexemes (front ++ back) = earlier ++ lexemes (last.text ++ back) := by
  suffices joined : ∃ earlier last, lexemes front = earlier ++ [last] ∧
      lexemes (front ++ back) = earlier ++ lexemes (last.text ++ back) by
    obtain ⟨earlier, last, frontEq, joined⟩ := joined
    have isMember : last ∈ lexemes front := by
      rw [frontEq]
      exact List.mem_append_right _ List.mem_cons_self
    exact ⟨earlier, last, frontEq, lexemes_text_of_mem isMember, joined⟩
  fun_induction lexemes front with
  | case1 => contradiction
  | case2 head tail ih =>
      have parts := Lexeme.cut_append head tail
      by_cases isLast : (Lexeme.cut head tail).rest = []
      · rw [isLast, List.append_nil] at parts
        refine ⟨[], ⟨(Lexeme.cut head tail).kind, head :: (Lexeme.cut head tail).body⟩, ?_, ?_⟩
        · rw [isLast, lexemes_nil]
          rfl
        · rw [parts]
          rfl
      · obtain ⟨earlier, last, restEq, joined⟩ := ih isLast
        have split := lexemes_local
          ((Lexeme.cut_endsBefore_rest head tail).extended isLast noDigit)
        rw [← List.append_assoc, parts] at split
        refine ⟨_ :: earlier, last, by rw [restEq]; rfl, ?_⟩
        rw [List.cons_append, split, joined]
        rfl

namespace Grammar

theorem Takes.lexemes_eq {production : Production} {kind : LexemeKind} {taken rest : Text}
    (takes : Takes production kind taken rest) (specific : production.Precedes .word) :
    lexemes (taken ++ rest) = ⟨kind, taken⟩ :: lexemes rest := by
  obtain ⟨head, body, rfl⟩ := takes.exists_cons
  cases ofRule_rule_of_begins takes.begins specific
  rw [List.cons_append, lexemes_cons, Lexeme.cut,
    takes.cut_eq (Lexeme.rule_applies head (body ++ rest))]

theorem Takes.lexemes_eq_singleton {production : Production} {kind : LexemeKind} {text : Text}
    (takes : Takes production kind text []) (specific : production.Precedes .word) :
    lexemes text = [⟨kind, text⟩] := by
  have first := takes.lexemes_eq specific
  rwa [List.append_nil, lexemes_nil] at first

theorem exists_takes_of_cons {text : Text} {lexeme : Lexeme} {later : List Lexeme}
    (whole : lexemes text = lexeme :: later) :
    ∃ production rest, Takes production lexeme.kind lexeme.text rest ∧
      text = lexeme.text ++ rest ∧ lexemes rest = later := by
  cases text with
  | nil =>
      rw [lexemes_nil] at whole
      contradiction
  | cons head tail =>
      rw [lexemes_cons, List.cons.injEq] at whole
      obtain ⟨rfl, laterEq⟩ := whole
      refine ⟨_, _, takes_cut_of_applies (Lexeme.rule_applies head tail), ?_, laterEq⟩
      exact congrArg (head :: ·) (Lexeme.cut_append head tail).symm

theorem runsToEnd_of_mem_marks {mark : Char} {kind : LexemeKind} (member : (mark, kind) ∈ marks) :
    kind.runsToEnd = false := by
  simp only [marks, List.mem_cons, Prod.mk.injEq, List.not_mem_nil, or_false] at member
  rcases member with ⟨_, rfl⟩ | ⟨_, rfl⟩ | ⟨_, rfl⟩ | ⟨_, rfl⟩
  all_goals rfl

theorem Takes.rest_eq_nil {production : Production} {kind : LexemeKind} {taken rest : Text}
    (takes : Takes production kind taken rest) (runs : kind.runsToEnd = true) : rest = [] := by
  cases takes with
  | slashes | hash | openComment _ | unclosedQuote _ _ => rfl
  | punctuation member =>
      rw [runsToEnd_of_mem_marks member] at runs
      contradiction
  | _ => contradiction

theorem eq_nil_of_runsToEnd {text : Text} {lexeme : Lexeme} {later : List Lexeme}
    (whole : lexemes text = lexeme :: later) (runs : lexeme.kind.runsToEnd = true) :
    later = [] := by
  obtain ⟨production, rest, takes, _, rfl⟩ := exists_takes_of_cons whole
  rw [takes.rest_eq_nil runs, lexemes_nil]

end Grammar

section Single

open Grammar (Takes marks)

variable {kind : LexemeKind} {text : Text} (single : lexemes text = [⟨kind, text⟩])

include single

theorem exists_takes_of_single : ∃ production, Takes production kind text [] := by
  obtain ⟨production, rest, takes, _, nothingBehind⟩ := Grammar.exists_takes_of_cons single
  rw [lexemes_eq_nil_iff.mp nothingBehind] at takes
  exact ⟨production, takes⟩

theorem lexemes_append_of_single {back : Text} (ended : kind.runsToEnd = false)
    (outside : StartsOutside Lexeme.isNumberChar back)
    (noSpace : kind = .space → StartsOutside Lexeme.isSpace back)
    (noComment : kind = .other → text = ['/'] → back.head? ≠ some '/' ∧ back.head? ≠ some '*') :
    lexemes (text ++ back) = ⟨kind, text⟩ :: lexemes back := by
  obtain ⟨production, takes⟩ := exists_takes_of_single single
  cases text with
  | nil =>
      rw [lexemes_nil] at single
      contradiction
  | cons head tail =>
      rw [lexemes_cons, List.cons.injEq, Lexeme.mk.injEq, List.cons.injEq] at single
      obtain ⟨⟨rfl, _, bodyEq⟩, _⟩ := single
      have ends := Lexeme.endsBefore_of_startsOutside ended outside noSpace
        (by
          intro isOther isSlash
          generalize (Lexeme.cut head tail).kind = kind at *
          subst isOther
          cases takes with
          | other => exact noComment rfl (by rw [isSlash])
          | punctuation member => simp [marks] at member)
      have split := lexemes_local ends
      rw [bodyEq] at split
      exact split

theorem lexemes_append_of_closedComment (isClosed : kind = .blockComment true) (back : Text) :
    lexemes (text ++ back) = ⟨kind, text⟩ :: lexemes back := by
  obtain ⟨production, takes⟩ := exists_takes_of_single single
  subst isClosed
  cases takes with
  | closedComment noEnd => exact (Takes.closedComment noEnd).lexemes_eq (by decide)
  | punctuation member => simp [marks] at member

theorem lexemes_append_of_lineComment (isLine : kind = .lineComment) (back : Text) :
    lexemes (text ++ back) = [⟨kind, text ++ back⟩] := by
  obtain ⟨production, takes⟩ := exists_takes_of_single single
  subst isLine
  cases takes with
  | slashes => exact Takes.slashes.lexemes_eq_singleton (by decide)
  | hash => exact Takes.hash.lexemes_eq_singleton (by decide)
  | punctuation member => simp [marks] at member

theorem lexemes_append_of_runsToEnd (runs : kind.runsToEnd = true) {blanks : Text}
    (blank : ∀ char ∈ blanks, Lexeme.isSpace char = true) :
    lexemes (text ++ blanks) = [⟨kind, text ++ blanks⟩] := by
  have absent {char : Char} (notSpace : Lexeme.isSpace char = false) : char ∉ blanks := by
    intro member
    rw [blank char member] at notSpace
    contradiction
  obtain ⟨production, takes⟩ := exists_takes_of_single single
  cases takes with
  | slashes => exact Takes.slashes.lexemes_eq_singleton (by decide)
  | hash => exact Takes.hash.lexemes_eq_singleton (by decide)
  | @openComment inside noEnd =>
      have unclosed := Lexeme.throughCommentEnd?_eq_none_iff.mpr noEnd
      have stillUnclosed := Lexeme.throughCommentEnd?_append_of_notMem (absent (by decide)) inside
      rw [unclosed, Option.map_none] at stillUnclosed
      have noEndBehind := Lexeme.throughCommentEnd?_eq_none_iff.mp stillUnclosed
      exact (Takes.openComment noEndBehind).lexemes_eq_singleton (by decide)
  | @unclosedQuote quote inside dangling isBody atEnd =>
      have unclosed : Lexeme.throughQuote? quote (inside ++ dangling) = none :=
        Lexeme.throughQuote?_eq_none_iff.mpr ⟨inside, dangling, rfl, isBody, atEnd⟩
      have stillUnclosed := Lexeme.throughQuote?_append_eq_none unclosed
        (absent (by cases quote <;> decide)) (absent (by decide))
      obtain ⟨body, newDangling, wholeEq, newBody, newEnd⟩ :=
        Lexeme.throughQuote?_eq_none_iff.mp stillUnclosed
      rw [List.cons_append, wholeEq]
      exact (Takes.unclosedQuote newBody newEnd).lexemes_eq_singleton (by decide)
  | punctuation member =>
      rw [Grammar.runsToEnd_of_mem_marks member] at runs
      contradiction
  | _ => contradiction

theorem isSpace_of_single (isSpace : kind = .space) :
    ∀ char ∈ text, Lexeme.isSpace char = true := by
  obtain ⟨production, takes⟩ := exists_takes_of_single single
  subst isSpace
  cases takes with
  | spaces _ longest => exact longest.inside
  | punctuation member => simp [marks] at member

end Single

end ConfigConstants
