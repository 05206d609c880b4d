import ConfigConstants.Proofs.Declaration.Drain
import ConfigConstants.Proofs.Lexeme.Joined

/-!
What can be put between two lexemes of a line. Spaces go on with the lexeme in front of them or are
a lexeme of their own, and so is a closed comment; either way the lexemes that take part in calls
stay, save for a quoted text that is not closed. The main statement says that the calls hold the
same names and literals.
-/

set_option autoImplicit false

namespace ConfigConstants

open Text (StartsOutside)

def participants (text : Text) : List Lexeme :=
  (lexemes text).filter fun lexeme => !lexeme.kind.separates

theorem participants_dropWhile_isSpace (text : Text) :
    participants (text.dropWhile Lexeme.isSpace) = participants text := by
  cases text with
  | nil => rfl
  | cons head tail =>
      cases isSpace : Lexeme.isSpace head with
      | false => rw [List.dropWhile_cons_of_neg (by simp [isSpace])]
      | true =>
          have isRule : Lexeme.rule head tail = .spaces := if_pos isSpace
          rw [List.dropWhile_cons_of_pos isSpace, participants, participants, lexemes_cons,
            Lexeme.cut, isRule]
          rfl

theorem participants_spaces_append {spaces : Text}
    (blank : ∀ char ∈ spaces, Lexeme.isSpace char = true) (back : Text) :
    participants (spaces ++ back) = participants back := by
  rw [← participants_dropWhile_isSpace, List.dropWhile_append_of_pos blank,
    participants_dropWhile_isSpace]

/-- What can be put behind the given lexeme: spaces, or a closed comment that this lexeme neither
takes in nor makes the beginning of another comment. -/
inductive Separator (before : Option Lexeme) : Text → Prop
  | spaces {text : Text} : (∀ char ∈ text, Lexeme.isSpace char = true) → Separator before text
  | comment {text : Text} : lexemes text = [⟨.blockComment true, text⟩] →
      (∀ lexeme ∈ before, lexeme ≠ ⟨.other, ['/']⟩ ∧ lexeme.kind ≠ .blockComment false ∧
        lexeme.kind ≠ .unclosedQuote) → Separator before text

theorem head?_of_closedComment {text : Text}
    (single : lexemes text = [⟨.blockComment true, text⟩]) :
    text.head? = some '/' := by
  obtain ⟨production, takes⟩ := exists_takes_of_single single
  cases takes with
  | closedComment => rfl
  | punctuation member => simp [Grammar.marks] at member

namespace Separator

variable {before : Option Lexeme} {separator : Text}

theorem participants_append (separates : Separator before separator) (back : Text) :
    participants (separator ++ back) = participants back := by
  cases separates with
  | spaces blank => exact participants_spaces_append blank back
  | comment single _ =>
      rw [participants, lexemes_append_of_closedComment single rfl]
      rfl

theorem startsOutside_isNumberChar (separates : Separator before separator)
    (nonempty : separator ≠ []) (back : Text) :
    StartsOutside Lexeme.isNumberChar (separator ++ back) := by
  cases separator with
  | nil => contradiction
  | cons head tail =>
      apply Text.startsOutside_cons
      cases separates with
      | spaces blank => exact Lexeme.isNumberChar_of_isSpace (blank head List.mem_cons_self)
      | comment single _ =>
          cases head?_of_closedComment single
          rfl

theorem startsOutside_isDigit (separates : Separator before separator)
    (nonempty : separator ≠ []) (back : Text) :
    StartsOutside Char.isDigit (separator ++ back) :=
  fun next isHead => Lexeme.isDigit_of_isNumberChar_eq_false
    (separates.startsOutside_isNumberChar nonempty back next isHead)

end Separator

theorem participants_append_of_lexemes_append {front back : Text}
    (cut : lexemes (front ++ back) = lexemes front ++ lexemes back) :
    participants (front ++ back) = participants front ++ participants back := by
  rw [participants, cut, List.filter_append]
  rfl

/-- A separator behind a lexeme that has come to its end leaves the lexemes on both its sides. -/
theorem participants_single_append {kind : LexemeKind} {text separator : Text}
    (single : lexemes text = [⟨kind, text⟩]) (ended : kind.runsToEnd = false)
    (separates : Separator (some ⟨kind, text⟩) separator) (nonempty : separator ≠ [])
    (back : Text) :
    participants (text ++ (separator ++ back)) = participants text ++ participants back := by
  by_cases bothSpaces : kind = .space ∧ ∀ char ∈ separator, Lexeme.isSpace char = true
  · -- the two are one lexeme then
    obtain ⟨isSpace, blank⟩ := bothSpaces
    have nothingInText : participants text = [] := by
      rw [participants, single, isSpace]
      rfl
    rw [participants_spaces_append (isSpace_of_single single isSpace),
      participants_spaces_append blank, nothingInText, List.nil_append]
  · have outside := separates.startsOutside_isNumberChar nonempty back
    have split : lexemes (text ++ (separator ++ back)) =
        ⟨kind, text⟩ :: lexemes (separator ++ back) := by
      obtain ⟨head, tail, rfl⟩ := List.exists_cons_of_ne_nil nonempty
      cases separates with
      | spaces blank =>
          have headBlank := blank head List.mem_cons_self
          refine lexemes_append_of_single single ended outside ?notSpace fun _ _ => ?noComment
          case notSpace => exact fun isSpace => absurd ⟨isSpace, blank⟩ bothSpaces
          case noComment =>
            rw [List.cons_append, List.head?_cons]
            constructor
            all_goals
              intro isMark
              cases isMark
              contradiction
      | comment closed taken =>
          cases head?_of_closedComment closed
          refine lexemes_append_of_single single ended outside ?notSpace ?noComment
          case notSpace => exact fun _ => Text.startsOutside_cons rfl _
          case noComment =>
            rintro rfl rfl
            exact absurd rfl (taken _ rfl).1
    rw [← separates.participants_append back, ← participants_append_of_lexemes_append]
    rw [split, single, List.singleton_append]

theorem lexemes_append_separator_of_runsToEnd {kind : LexemeKind} {text separator : Text}
    (single : lexemes text = [⟨kind, text⟩]) (runs : kind.runsToEnd = true)
    (separates : Separator (some ⟨kind, text⟩) separator) :
    lexemes (text ++ separator) = [⟨kind, text ++ separator⟩] := by
  cases separates with
  | spaces blank => exact lexemes_append_of_runsToEnd single runs blank
  | comment _ taken =>
      obtain ⟨_, notComment, notQuote⟩ := taken _ rfl
      cases kind with
      | lineComment => exact lexemes_append_of_lineComment single rfl separator
      | blockComment closed => cases closed <;> contradiction
      | _ => contradiction

namespace DefineCall

theorem contents_of_participants {left right : Text} (same : participants left = participants right)
    (line : Nat) : contents (locatedLexemes line left) = contents (locatedLexemes line right) :=
  contents_locate_of_filter same line 1 line 1

/-- What calls hold does not depend on the last lexeme, unless that closes one. -/
theorem contents_of_last {text : Text} {earlier : List Lexeme} {last : Lexeme}
    (whole : lexemes text = earlier ++ [last]) (notClosing : last.kind ≠ .closeParenthesis)
    (line : Nat) :
    contents (locatedLexemes line text) = contents (Lexeme.locate line 1 earlier) := by
  rw [locatedLexemes, whole, Lexeme.locate_append, Lexeme.locate, Lexeme.locate]
  apply congrArg (List.map Declaration.content)
  calc
    declarationsFrom none (Lexeme.locate line 1 earlier ++ [_]) =
        declarationsFrom none (Lexeme.locate line 1 earlier) ++ declarationsFrom _ [_] :=
      declarationsFrom_append _ _ _
    _ = declarationsFrom none (Lexeme.locate line 1 earlier) ++ declarationsFrom _ [] := by
      rw [declarationsFrom_cons_of_kind_ne notClosing]
    _ = declarationsFrom none (Lexeme.locate line 1 earlier) := List.append_nil _

theorem contents_append_separator {front back separator : Text}
    (cut : lexemes (front ++ back) = lexemes front ++ lexemes back)
    (separates : Separator (lexemes front).getLast? separator) (line : Nat) :
    contents (locatedLexemes line (front ++ (separator ++ back))) =
      contents (locatedLexemes line (front ++ back)) := by
  by_cases empty : separator = []
  · rw [empty, List.nil_append]
  by_cases atStart : front = []
  · rw [atStart, List.nil_append, List.nil_append]
    exact contents_of_participants (separates.participants_append back) line
  obtain ⟨earlier, last, frontEq, single, joined⟩ :=
    exists_last_lexemes_append atStart (separates.startsOutside_isDigit empty back)
  rw [frontEq, List.getLast?_append, List.getLast?_singleton, Option.some_or] at separates
  cases runs : last.kind.runsToEnd with
  | false =>
      apply contents_of_participants
      rw [participants_append_of_lexemes_append cut, participants, joined, List.filter_append]
      have behindLast := participants_single_append single runs separates empty back
      unfold participants at *
      rw [behindLast, single, frontEq, List.filter_append, List.append_assoc]
  | true =>
      -- the separator goes into the last lexeme, and that one closes no call
      have nothingBehind : back = [] := by
        have fromLast := lexemes_drop (front ++ back) earlier.length
        rw [cut, frontEq, List.append_assoc, List.drop_left] at fromLast
        exact lexemes_eq_nil_iff.mp (Grammar.eq_nil_of_runsToEnd fromLast runs)
      have notClosing : last.kind ≠ .closeParenthesis := by
        intro isClosing
        rw [isClosing] at runs
        contradiction
      rw [nothingBehind, List.append_nil] at joined ⊢
      rw [lexemes_append_separator_of_runsToEnd single runs separates] at joined
      rw [List.append_nil, contents_of_last joined notClosing, contents_of_last frontEq notClosing]

/-- For every text and every number of lexemes at its front: with a separator put behind these
lexemes, asking for the calls yields the same names and literals in the same order. -/
theorem drain_with_separator (line : Nat) (text : Text) (count : Nat) (separator : Text)
    (separates : Separator ((lexemes text).take count).getLast? separator) :
    (Reader.ofLexemes (locatedLexemes line
        (((lexemes text).take count).flatMap Lexeme.text ++
          (separator ++ ((lexemes text).drop count).flatMap Lexeme.text)))).drain.map
      Declaration.content =
    (Reader.ofLexemes (locatedLexemes line text)).drain.map Declaration.content := by
  have parts := flatMap_text_take_append_drop text count
  have separatesFront :
      Separator (lexemes (((lexemes text).take count).flatMap Lexeme.text)).getLast? separator := by
    rwa [lexemes_take]
  have sameContents := contents_append_separator
    (by rw [parts, lexemes_take, lexemes_drop, List.take_append_drop]) separatesFront line
  rw [parts] at sameContents
  rw [drain_ofLexemes, drain_ofLexemes]
  exact sameContents

/-- A comment inside a call changes nothing, not even one that holds the end of a call. -/
theorem drain_with_comment_inside_call :
    Separator ((lexemes "define('A',1);".toList).take 2).getLast? "/*,0);define(*/".toList ∧
    (Reader.ofLexemes
        (locatedLexemes 1 "define(/*,0);define(*/'A',1);".toList)).drain.map Declaration.content =
      [("A".toList, "1".toList)] := by
  have separates : Separator ((lexemes "define('A',1);".toList).take 2).getLast?
      "/*,0);define(*/".toList := by
    refine .comment (by decide +kernel) ?_
    have last : ((lexemes "define('A',1);".toList).take 2).getLast? =
        some ⟨.openParenthesis, ['(']⟩ := by decide +kernel
    intro lexeme isLast
    rw [last] at isLast
    cases isLast
    decide
  refine ⟨separates, ?_⟩
  have same := drain_with_separator 1 "define('A',1);".toList 2 "/*,0);define(*/".toList separates
  have whole : ((lexemes "define('A',1);".toList).take 2).flatMap Lexeme.text ++
      ("/*,0);define(*/".toList ++
        ((lexemes "define('A',1);".toList).drop 2).flatMap Lexeme.text) =
      "define(/*,0);define(*/'A',1);".toList := by decide +kernel
  rw [whole] at same
  rw [same, drain_ofLexemes]
  decide +kernel

end DefineCall

end ConfigConstants
