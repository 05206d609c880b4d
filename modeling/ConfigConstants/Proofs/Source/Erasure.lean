import ConfigConstants.Proofs.Comment.CarriedFlag
import ConfigConstants.Proofs.Declaration.Mention
import ConfigConstants.Proofs.Source.StrippedErasure

/-!
Comments have no influence on the constants. A source is erased line by line: what a comment hides
of a line goes, and of the comments that begin on a line only the marks stay. Where no line that
declares by keyword holds a comment, the erased source has the same constants, so that two sources
that differ only inside comments have the same constants too.
-/

set_option autoImplicit false

namespace ConfigConstants

namespace SourceComment

def eraseLine (hidden : Bool) (line : Text) : Text :=
  if hidden then
    match Lexeme.throughCommentEnd? line with
    | none => []
    | some (_, rest) => '*' :: '/' :: eraseVisible rest
  else eraseVisible line

theorem endsInComment_eraseVisible (visible : Text) :
    endsInComment (eraseVisible visible) = endsInComment visible := by
  rw [endsInComment_eq_any_getLast?, endsInComment_eq_any_getLast?, lexemes_eraseVisible,
    List.getLast?_map]
  cases (lexemes visible).getLast? <;> rfl

theorem visible?_eraseLine (hidden : Bool) (line : Text) :
    visible? hidden (eraseLine hidden line) = (visible? hidden line).map eraseVisible := by
  cases hidden with
  | false => rfl
  | true =>
      simp only [visible?, eraseLine, if_true]
      cases Lexeme.throughCommentEnd? line with
      | none => rfl
      | some pair => rfl

theorem hidesNext_eraseLine (hidden : Bool) (line : Text) :
    hidesNext hidden (eraseLine hidden line) = hidesNext hidden line := by
  rw [hidesNext, hidesNext, visible?_eraseLine]
  cases visible? hidden line with
  | none => rfl
  | some visible => exact endsInComment_eraseVisible visible

theorem newline_notMem_visible? {hidden : Bool} {line visible : Text}
    (isVisible : visible? hidden line = some visible) (noNewline : '\n' ∉ line) :
    '\n' ∉ visible := by
  cases hidden with
  | false =>
      cases isVisible
      exact noNewline
  | true =>
      obtain ⟨pair, found, rfl⟩ := Option.map_eq_some_iff.mp isVisible
      exact Lexeme.notMem_of_throughCommentEnd? found noNewline

theorem newline_notMem_eraseVisible {visible : Text} (noNewline : '\n' ∉ visible) :
    '\n' ∉ eraseVisible visible := by
  intro member
  rw [← CommentAutomaton.transduce_code_eq_eraseVisible noNewline] at member
  rcases CommentAutomaton.mem_of_mem_transduce member with inText | isStar | isSlash
  · exact noNewline inText
  · exact absurd isStar (by decide)
  · exact absurd isSlash (by decide)

theorem getLast?_of_getLast?_eraseVisible {visible : Text} (noNewline : '\n' ∉ visible)
    (isLast : (eraseVisible visible).getLast? = some '\r') : visible.getLast? = some '\r' := by
  have inert : CommentAutomaton.IsInert '\r' := ⟨by decide, by decide, by decide, by decide⟩
  rw [← CommentAutomaton.transduce_code_eq_eraseVisible noNewline] at isLast
  obtain ⟨others, rfl, _⟩ :=
    SourceLine.exists_concat_of_getLast?_transduce noNewline inert isLast
  exact List.getLast?_concat

theorem newline_notMem_eraseLine {line : Text} (noNewline : '\n' ∉ line) (hidden : Bool) :
    '\n' ∉ eraseLine hidden line := by
  cases hidden with
  | false => exact newline_notMem_eraseVisible noNewline
  | true =>
      simp only [eraseLine, if_true]
      cases found : Lexeme.throughCommentEnd? line with
      | none => exact List.not_mem_nil
      | some pair =>
          have rest :=
            newline_notMem_eraseVisible (Lexeme.notMem_of_throughCommentEnd? found noNewline)
          simp [rest]

theorem getLast?_of_getLast?_eraseLine {hidden : Bool} {line : Text} (noNewline : '\n' ∉ line)
    (isLast : (eraseLine hidden line).getLast? = some '\r') : line.getLast? = some '\r' := by
  cases hidden with
  | false => exact getLast?_of_getLast?_eraseVisible noNewline isLast
  | true =>
      simp only [eraseLine, if_true] at isLast
      cases found : Lexeme.throughCommentEnd? line with
      | none =>
          rw [found] at isLast
          contradiction
      | some pair =>
          rw [found] at isLast
          change ('*' :: '/' :: eraseVisible pair.2).getLast? = some '\r' at isLast
          have restLast : (eraseVisible pair.2).getLast? = some '\r' := by
            cases erased : eraseVisible pair.2 with
            | nil =>
                rw [erased] at isLast
                exact absurd isLast (by decide)
            | cons next others =>
                rw [erased] at isLast
                simpa [List.getLast?_cons_cons] using isLast
          have lineLast := getLast?_of_getLast?_eraseVisible
            (Lexeme.notMem_of_throughCommentEnd? found noNewline) restLast
          rw [← Lexeme.throughCommentEnd?_append found, List.getLast?_append, lineLast]
          rfl

theorem fits_eraseLine {ended : Text.EndedLine} (fits : ended.Fits) (hidden : Bool) :
    Text.EndedLine.Fits ⟨eraseLine hidden ended.line, ended.ending⟩ := by
  constructor
  · exact newline_notMem_eraseLine fits.1 hidden
  · intro isNewline isLast
    exact fits.2 isNewline (getLast?_of_getLast?_eraseLine fits.1 isLast)

end SourceComment

namespace Source

open SourceComment

def eraseFrom (hidden : Bool) : List Text.EndedLine → Text
  | [] => []
  | ended :: later =>
      eraseLine hidden ended.line ++ ended.ending.text ++
        eraseFrom (hidesNext hidden ended.line) later

/-- The source with nothing left of its comments but their marks. -/
def erase : Text → Text
  | [] => []
  | head :: tail =>
      if head = byteOrderMark then head :: eraseFrom false (Text.endedLines tail)
      else eraseFrom false (Text.endedLines (head :: tail))

/-- The visible parts of the lines, lines that are hidden as a whole left out. -/
def visibleTextsFrom (hidden : Bool) : List Text → List Text
  | [] => []
  | line :: later =>
      (visible? hidden line).toList ++ visibleTextsFrom (hidesNext hidden line) later

def visibleTexts (source : Text) : List Text :=
  visibleTextsFrom false (Text.lines (dropByteOrderMark source))

/-- No visible text that declares by keyword holds a comment. -/
def ConstLinesBare (visibles : List Text) : Prop :=
  ∀ visible ∈ visibles, ∀ text, SourceLine.ofText visible = .constant text →
    ∀ lexeme ∈ lexemes visible, lexeme.kind.isComment = false

theorem afterWord?_strip_eraseVisible {visible : Text} (noNewline : '\n' ∉ visible) :
    Text.afterWord? ConstLine.keyword (SourceLine.strip (eraseVisible visible)) =
      (Text.afterWord? ConstLine.keyword (SourceLine.strip visible)).map
        (CommentAutomaton.transduce .code) := by
  rw [← CommentAutomaton.transduce_code_eq_eraseVisible noNewline,
    SourceLine.strip_transduce noNewline,
    Text.afterWord?_transduce SourceLine.holdsNoMark_keyword]

theorem contents_locatedLexemes_eraseVisible (text : Text) (line : Nat) :
    DefineCall.contents (locatedLexemes line (eraseVisible text)) =
      DefineCall.contents (locatedLexemes line text) := by
  rw [locatedLexemes, locatedLexemes, lexemes_eraseVisible]
  apply DefineCall.contents_locate_of_filter
  induction lexemes text with
  | nil => rfl
  | cons lexeme later ih =>
      cases separates : lexeme.kind.separates with
      | true => simpa [Lexeme.erase, separates] using ih
      | false =>
          have notComment : lexeme.kind.isComment = false := by
            cases kind : lexeme.kind <;> first | rfl | (rw [kind] at separates; contradiction)
          simpa [Lexeme.erase, separates, Lexeme.erased_of_not_isComment notComment] using ih

theorem contents_visibleEvents_eraseVisible {visible : Text} (noNewline : '\n' ∉ visible)
    (bare : ∀ text, SourceLine.ofText visible = .constant text →
      ∀ lexeme ∈ lexemes visible, lexeme.kind.isComment = false) (line : Nat) :
    contents (visibleEvents line (eraseVisible visible)) =
      contents (visibleEvents line visible) := by
  have erasedConst := afterWord?_strip_eraseVisible noNewline
  cases isConst : Text.afterWord? ConstLine.keyword (SourceLine.strip visible) with
  | some rest =>
      have constant : SourceLine.ofText visible = .constant (SourceLine.strip visible) := by
        rw [SourceLine.ofText, SourceLine.ofStripped, isConst]
        rfl
      rw [eraseVisible_of_no_comment (bare _ constant)]
  | none =>
      rw [isConst, Option.map_none] at erasedConst
      rw [contents_visibleEvents erasedConst, contents_visibleEvents isConst,
        SourceLine.strip_eraseVisible noNewline, contents_locatedLexemes_eraseVisible]

theorem contents_lineEvents_eraseLine {hidden : Bool} {line : Text} (noNewline : '\n' ∉ line)
    (bare : ConstLinesBare (visible? hidden line).toList) (number : Nat) :
    contents (lineEvents number hidden (eraseLine hidden line)) =
      contents (lineEvents number hidden line) := by
  rw [lineEvents, lineEvents, visible?_eraseLine]
  cases isVisible : visible? hidden line with
  | none => rfl
  | some visible =>
      rw [isVisible] at bare
      exact contents_visibleEvents_eraseVisible (newline_notMem_visible? isVisible noNewline)
        (bare visible (List.mem_singleton_self visible)) number

/-- Line by line the erased source declares the same. A last line of which nothing is left is not
read as a line any more, but then it had declared nothing. -/
theorem contents_eventsFrom_eraseFrom {all : List Text.EndedLine} (wellEnded : Text.WellEnded all)
    {hidden : Bool}
    (bare : ConstLinesBare (visibleTextsFrom hidden (all.map Text.EndedLine.line)))
    (number : Nat) :
    contents (eventsFrom number hidden (Text.lines (eraseFrom hidden all))) =
      contents (eventsFrom number hidden (all.map Text.EndedLine.line)) := by
  induction all generalizing hidden number with
  | nil => rfl
  | cons first later ih =>
      obtain ⟨fits, isLast, laterEnded⟩ := wellEnded
      have here := contents_lineEvents_eraseLine fits.1
        (fun visible member => bare visible (List.mem_append_left _ member)) number
      rw [List.map_cons, eventsFrom, contents_append, ← here, eraseFrom]
      by_cases atEnd : first.ending = .endOfText
      · rw [isLast atEnd, atEnd, eraseFrom, List.map_nil, eventsFrom, Text.LineEnd.text,
          List.append_nil, List.append_nil]
        cases left : eraseLine hidden first.line with
        | nil =>
            rw [lineEvents_nil, Text.lines, eventsFrom]
            rfl
        | cons head tail =>
            rw [← left, Text.lines_of_newline_notMem (newline_notMem_eraseLine fits.1 hidden)
              (by rw [left]; simp), eventsFrom, eventsFrom, contents_append]
      · have split := Text.lines_append_ended (fits_eraseLine fits hidden) atEnd
          (eraseFrom (hidesNext hidden first.line) later)
        change Text.lines (eraseLine hidden first.line ++ first.ending.text ++ _) = _ at split
        rw [split, eventsFrom, contents_append, hidesNext_eraseLine]
        rw [ih laterEnded fun visible member => bare visible (List.mem_append_right _ member)]

theorem head?_eraseFrom_endedLines (text : Text) :
    (eraseFrom false (Text.endedLines text)).head? = text.head? := by
  have wellEnded := Text.wellEnded_endedLines text
  have textEq := Text.flatMap_text_endedLines text
  cases ended : Text.endedLines text with
  | nil =>
      rw [ended] at textEq
      rw [← textEq]
      rfl
  | cons first later =>
      rw [ended] at wellEnded textEq
      rw [← textEq, eraseFrom, List.flatMap_cons, Text.EndedLine.text]
      simp only [List.append_assoc, List.head?_append]
      change (eraseVisible first.line).head?.or _ = _
      rw [head?_eraseVisible]
      cases first.line.head? with
      | some head => rfl
      | none =>
          cases ending : first.ending with
          | endOfText =>
              rw [wellEnded.2.1 ending]
              rfl
          | newline | returnNewline => rfl

theorem dropByteOrderMark_erase (source : Text) :
    dropByteOrderMark (erase source) =
      eraseFrom false (Text.endedLines (dropByteOrderMark source)) := by
  cases source with
  | nil => rfl
  | cons head tail =>
      rw [erase, dropByteOrderMark]
      by_cases isMark : head = byteOrderMark
      · rw [if_pos isMark, if_pos isMark, dropByteOrderMark, if_pos isMark]
      · rw [if_neg isMark, if_neg isMark]
        apply dropByteOrderMark_of_head?_ne
        rw [head?_eraseFrom_endedLines]
        exact fun same => isMark (Option.some.inj same)

theorem constants_erase {source : Text} (bare : ConstLinesBare (visibleTexts source)) :
    constants (erase source) = constants source := by
  unfold visibleTexts at bare
  rw [← Text.map_line_endedLines] at bare
  apply constants_of_contents
  rw [events, events, dropByteOrderMark_erase,
    ← Text.map_line_endedLines (dropByteOrderMark source)]
  exact contents_eventsFrom_eraseFrom (Text.wellEnded_endedLines _) bare 1

/-- What is written inside comments has no influence: erasing it leaves the constants, and two
sources of which the same is left have the same constants. -/
theorem comments_without_influence {source : Text} (bare : ConstLinesBare (visibleTexts source)) :
    constants (erase source) = constants source ∧
      ∀ other, ConstLinesBare (visibleTexts other) → erase other = erase source →
        constants other = constants source := by
  have erased := constants_erase bare
  constructor
  · exact erased
  · intro other otherBare sameErasure
    rw [← constants_erase otherBare, sameErasure, erased]

theorem comments_without_influence_over_lines :
    ConstLinesBare (visibleTexts
      "const A = 1;\n/* define('B', 2);\n */ define('C', 3); // define('D', 4);".toList) ∧
    constants (erase
        "const A = 1;\n/* define('B', 2);\n */ define('C', 3); // define('D', 4);".toList) =
      constants
        "const A = 1;\n/* define('B', 2);\n */ define('C', 3); // define('D', 4);".toList := by
  have bare : ConstLinesBare (visibleTexts
      "const A = 1;\n/* define('B', 2);\n */ define('C', 3); // define('D', 4);".toList) := by
    have visibles : visibleTexts
        "const A = 1;\n/* define('B', 2);\n */ define('C', 3); // define('D', 4);".toList =
          ["const A = 1;".toList, "/* define('B', 2);".toList,
            " define('C', 3); // define('D', 4);".toList] := by
      decide +kernel
    have noComment : (lexemes "const A = 1;".toList).any (fun lexeme => lexeme.kind.isComment) =
        false := by
      decide +kernel
    have firstCall : SourceLine.ofText "/* define('B', 2);".toList =
        .calls "/* define('B', 2);".toList := rfl
    have secondCall : SourceLine.ofText " define('C', 3); // define('D', 4);".toList =
        .calls "define('C', 3); // define('D', 4);".toList := rfl
    rw [visibles]
    intro visible member text isConst lexeme isLexeme
    simp only [List.mem_cons, List.not_mem_nil, or_false] at member
    rcases member with rfl | rfl | rfl
    · exact eq_false_of_ne_true (List.any_eq_false.mp noComment lexeme isLexeme)
    · rw [firstCall] at isConst
      cases isConst
    · rw [secondCall] at isConst
      cases isConst
  exact ⟨bare, (comments_without_influence bare).1⟩

example : erase "const A = 1;\n/* define('B', 2);\n */ define('C', 3); // define('D', 4);".toList =
    "const A = 1;\n/*\n*/ define('C', 3); //".toList := by
  decide +kernel

end Source

end ConfigConstants
