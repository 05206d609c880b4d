import ConfigConstants.Proofs.Lexeme.ByteAgreement
import ConfigConstants.Proofs.Lexeme.ClosingMarks

/-!
The grammar of lexemes. It is written over code points and says what each production takes from the
front of a text; a line is read by taking, again and again, what the first production takes that
takes anything. The main statement is that the byte reader yields the lexemes that the grammar
derives, and that there are no others.
-/

set_option autoImplicit false

namespace ConfigConstants

namespace Grammar

open Lexeme (isSpace isWordChar isNumberChar)
open Text (StartsOutside)

inductive Production where
  | spaces
  | lineComment
  | blockComment
  | quoted
  | punctuation
  | variableName
  | number
  | word
  | other
  deriving DecidableEq

def productions : List Production :=
  [.spaces, .lineComment, .blockComment, .quoted, .punctuation, .variableName, .number, .word,
    .other]

def Production.Precedes (earlier later : Production) : Prop :=
  productions.idxOf earlier < productions.idxOf later
  deriving Decidable

structure LongestRun (belongs : Char → Bool) (run rest : Text) : Prop where
  inside : ∀ char ∈ run, belongs char = true
  outside : StartsOutside belongs rest

inductive StartsNumber : Text → Prop
  | digit {digit : Char} {behind : Text} : digit.isDigit = true → StartsNumber (digit :: behind)
  | point {digit : Char} {behind : Text} :
      digit.isDigit = true → StartsNumber ('.' :: digit :: behind)
  | sign {sign digit : Char} {behind : Text} :
      sign = '-' ∨ sign = '+' → digit.isDigit = true → StartsNumber (sign :: digit :: behind)
  | signPoint {sign digit : Char} {behind : Text} :
      sign = '-' ∨ sign = '+' → digit.isDigit = true →
      StartsNumber (sign :: '.' :: digit :: behind)

def marks : List (Char × LexemeKind) :=
  [('(', .openParenthesis), (')', .closeParenthesis), (',', .comma), (';', .semicolon)]

/-- `Takes production kind taken rest` says that the production takes a lexeme of that kind and text
from the front of the text and leaves the rest. -/
inductive Takes : Production → LexemeKind → Text → Text → Prop
  | spaces {run rest : Text} : run ≠ [] → LongestRun isSpace run rest →
      Takes .spaces .space run rest
  | slashes {text : Text} : Takes .lineComment .lineComment ('/' :: '/' :: text) []
  | hash {text : Text} : Takes .lineComment .lineComment ('#' :: text) []
  | closedComment {inside rest : Text} : ¬ ['*', '/'] <:+: inside ++ ['*'] →
      Takes .blockComment (.blockComment true) ('/' :: '*' :: (inside ++ ['*', '/'])) rest
  | openComment {inside : Text} : ¬ ['*', '/'] <:+: inside →
      Takes .blockComment (.blockComment false) ('/' :: '*' :: inside) []
  | closedQuote {quote : Quote} {inside rest : Text} : QuotedBody quote inside →
      Takes .quoted (.quoted quote) (quote.wrap inside) rest
  | unclosedQuote {quote : Quote} {inside dangling : Text} : QuotedBody quote inside →
      dangling = [] ∨ dangling = ['\\'] →
      Takes .quoted .unclosedQuote (quote.mark :: (inside ++ dangling)) []
  | punctuation {mark : Char} {kind : LexemeKind} {rest : Text} : (mark, kind) ∈ marks →
      Takes .punctuation kind [mark] rest
  | variableName {run rest : Text} : LongestRun isWordChar run rest →
      Takes .variableName .variableName ('$' :: run) rest
  | number {head : Char} {run rest : Text} : StartsNumber (head :: (run ++ rest)) →
      LongestRun isNumberChar run rest → Numeral.countedAccepts (head :: run) = true →
      Takes .number .number (head :: run) rest
  | likeNumber {head : Char} {run rest : Text} : StartsNumber (head :: (run ++ rest)) →
      LongestRun isNumberChar run rest → Numeral.countedAccepts (head :: run) = false →
      Takes .number .word (head :: run) rest
  | word {run rest : Text} : run ≠ [] → LongestRun isWordChar run rest →
      Takes .word .word run rest
  | other {char : Char} {rest : Text} : Takes .other .other [char] rest

def Production.Applies (production : Production) (text : Text) : Prop :=
  ∃ kind taken rest, Takes production kind taken rest ∧ taken ++ rest = text

/-- The lexemes of a text: what the first production that applies takes, and then those of the
rest. -/
inductive Derives : Text → List Lexeme → Prop
  | nil : Derives [] []
  | cons {production : Production} {kind : LexemeKind} {taken rest : Text} {later : List Lexeme}
      (takes : Takes production kind taken rest)
      (first : ∀ earlier : Production, earlier.Precedes production →
        ¬ earlier.Applies (taken ++ rest))
      (others : Derives rest later) : Derives (taken ++ rest) (⟨kind, taken⟩ :: later)

/-! ## Runs and the beginnings of numbers -/

theorem longestRun_takeWhile (belongs : Char → Bool) (text : Text) :
    LongestRun belongs (text.takeWhile belongs) (text.dropWhile belongs) :=
  ⟨Text.forall_mem_takeWhile belongs text, Text.startsOutside_dropWhile belongs text⟩

theorem LongestRun.cons {belongs : Char → Bool} {head : Char} {run rest : Text}
    (headBelongs : belongs head = true) (longest : LongestRun belongs run rest) :
    LongestRun belongs (head :: run) rest :=
  ⟨List.forall_mem_cons.mpr ⟨headBelongs, longest.inside⟩, longest.outside⟩

theorem LongestRun.of_cons {belongs : Char → Bool} {head : Char} {run rest : Text}
    (longest : LongestRun belongs (head :: run) rest) :
    belongs head = true ∧ LongestRun belongs run rest :=
  ⟨longest.inside head List.mem_cons_self,
    fun char member => longest.inside char (List.mem_cons_of_mem head member), longest.outside⟩

theorem LongestRun.run_eq {belongs : Char → Bool} {run rest : Text}
    (longest : LongestRun belongs run rest) (kind : LexemeKind) :
    Lexeme.Cut.run kind belongs (run ++ rest) = ⟨kind, run, rest⟩ := by
  rw [Lexeme.Cut.run, Text.takeWhile_append_of_startsOutside longest.inside longest.outside,
    Text.dropWhile_append_of_startsOutside longest.inside longest.outside]

theorem exists_cons_of_any_head? {test : Char → Bool} {text : Text}
    (passes : text.head?.any test = true) :
    ∃ next behind, text = next :: behind ∧ test next = true := by
  obtain ⟨next, isHead, nextPasses⟩ := (Option.any_eq_true _ _).mp passes
  obtain ⟨behind, textEq⟩ := List.head?_eq_some_iff.mp isHead
  exact ⟨next, behind, textEq, nextPasses⟩

theorem startsNumber_iff {head : Char} {tail : Text} :
    StartsNumber (head :: tail) ↔ Lexeme.beginsNumeral head tail = true := by
  constructor
  · intro starts
    cases starts with
    | digit isDigit => exact Lexeme.beginsNumeral_of_isDigit isDigit tail
    | point isDigit => exact isDigit
    | sign isSign isDigit =>
        have notPoint := Text.ne_of_belongs isDigit (show Char.isDigit '.' = false from rfl)
        rcases isSign with rfl | rfl
        all_goals simp [Lexeme.beginsNumeral, notPoint, isDigit]
    | signPoint isSign isDigit =>
        rcases isSign with rfl | rfl
        all_goals exact isDigit
  · intro begins
    unfold Lexeme.beginsNumeral at begins
    split at begins
    · next isDigit => exact .digit isDigit
    split at begins
    · next isPoint =>
        obtain ⟨digit, behind, rfl, isDigit⟩ := exists_cons_of_any_head? begins
        rw [isPoint]
        exact .point isDigit
    split at begins
    · next isSign =>
        split at begins
        · obtain ⟨digit, behind, rfl, isDigit⟩ := exists_cons_of_any_head? begins
          exact .signPoint isSign isDigit
        · obtain ⟨digit, behind, rfl, isDigit⟩ := exists_cons_of_any_head? begins
          exact .sign isSign isDigit
    · contradiction

/-! ## What the lexer takes -/

theorem mark_injective : Function.Injective Quote.mark := by
  intro quote other same
  cases quote <;> cases other <;> first | rfl | exact absurd same (by decide)

def ofRule : Lexeme.Rule → Production
  | .spaces => .spaces
  | .lineComment => .lineComment
  | .blockComment => .blockComment
  | .quoted _ => .quoted
  | .single .other => .other
  | .single _ => .punctuation
  | .variableName => .variableName
  | .numeral => .number
  | .word => .word

theorem cut_closedComment (head : Char) {inside : Text} (noEnd : ¬ ['*', '/'] <:+: inside ++ ['*'])
    (rest : Text) :
    Lexeme.Rule.cut head ('*' :: (inside ++ ['*', '/'] ++ rest)) .blockComment =
      ⟨.blockComment true, '*' :: (inside ++ ['*', '/']), rest⟩ := by
  have found := Lexeme.throughCommentEnd?_eq_some_iff.mpr
    ⟨inside, rfl, (rfl : inside ++ ['*', '/'] ++ rest = _), noEnd⟩
  simp only [Lexeme.Rule.cut, Lexeme.Cut.blockComment, found, Lexeme.Cut.through]

theorem cut_openComment (head : Char) {inside : Text} (noEnd : ¬ ['*', '/'] <:+: inside) :
    Lexeme.Rule.cut head ('*' :: inside) .blockComment =
      ⟨.blockComment false, '*' :: inside, []⟩ := by
  have absent := Lexeme.throughCommentEnd?_eq_none_iff.mpr noEnd
  simp only [Lexeme.Rule.cut, Lexeme.Cut.blockComment, absent, Lexeme.Cut.through]

theorem cut_closedQuote (head : Char) {quote : Quote} {inside : Text}
    (isBody : QuotedBody quote inside) (rest : Text) :
    Lexeme.Rule.cut head (inside ++ [quote.mark] ++ rest) (.quoted quote) =
      ⟨.quoted quote, inside ++ [quote.mark], rest⟩ := by
  have found := Lexeme.throughQuote?_eq_some_iff.mpr
    ⟨inside, rfl, (rfl : inside ++ [quote.mark] ++ rest = _), isBody⟩
  simp only [Lexeme.Rule.cut, found, Lexeme.Cut.through]

theorem cut_unclosedQuote (head : Char) {quote : Quote} {inside dangling : Text}
    (isBody : QuotedBody quote inside) (atEnd : dangling = [] ∨ dangling = ['\\']) :
    Lexeme.Rule.cut head (inside ++ dangling) (.quoted quote) =
      ⟨.unclosedQuote, inside ++ dangling, []⟩ := by
  have absent := Lexeme.throughQuote?_eq_none_iff.mpr ⟨inside, dangling, rfl, isBody, atEnd⟩
  simp only [Lexeme.Rule.cut, absent, Lexeme.Cut.through]

theorem cut_numeral {head : Char} {run rest : Text} (longest : LongestRun isNumberChar run rest) :
    Lexeme.Rule.cut head (run ++ rest) .numeral =
      ⟨if Numeral.countedAccepts (head :: run) then .number else .word, run, rest⟩ := by
  have isRun : (run ++ rest).takeWhile isNumberChar = run :=
    Text.takeWhile_append_of_startsOutside longest.inside longest.outside
  rw [Lexeme.Rule.cut, Lexeme.Cut.numeral, isRun, longest.run_eq]

theorem takes_cut_of_applies {head : Char} {tail : Text} {applied : Lexeme.Rule}
    (applies : applied.Applies head tail) :
    Takes (ofRule applied) (applied.cut head tail).kind (head :: (applied.cut head tail).body)
      (applied.cut head tail).rest := by
  cases applied with
  | spaces =>
      exact .spaces (List.cons_ne_nil _ _) ((longestRun_takeWhile isSpace tail).cons applies)
  | lineComment =>
      rcases applies with rfl | ⟨rfl, startsSlash⟩
      · exact .hash
      · obtain ⟨text, rfl⟩ := List.head?_eq_some_iff.mp startsSlash
        exact .slashes
  | blockComment =>
      obtain ⟨rfl, startsStar⟩ := applies
      obtain ⟨inner, rfl⟩ := List.head?_eq_some_iff.mp startsStar
      cases found : Lexeme.throughCommentEnd? inner with
      | none =>
          have noEnd := Lexeme.throughCommentEnd?_eq_none_iff.mp found
          rw [cut_openComment '/' noEnd]
          exact .openComment noEnd
      | some parts =>
          obtain ⟨inside, insideEq, innerEq, noEnd⟩ :=
            Lexeme.throughCommentEnd?_eq_some_iff.mp found
          rw [innerEq, insideEq, cut_closedComment '/' noEnd]
          exact .closedComment noEnd
  | quoted quote =>
      have isMark : head = quote.mark := applies
      cases found : Lexeme.throughQuote? quote tail with
      | none =>
          obtain ⟨inside, dangling, tailEq, isBody, atEnd⟩ :=
            Lexeme.throughQuote?_eq_none_iff.mp found
          rw [tailEq, cut_unclosedQuote head isBody atEnd, isMark]
          exact .unclosedQuote isBody atEnd
      | some parts =>
          obtain ⟨inside, insideEq, tailEq, isBody⟩ := Lexeme.throughQuote?_eq_some_iff.mp found
          rw [tailEq, insideEq, cut_closedQuote head isBody, isMark]
          exact .closedQuote isBody
  | single kind =>
      cases kind with
      | openParenthesis | closeParenthesis | comma | semicolon =>
          rw [show head = _ from applies]
          exact .punctuation (by simp [marks, Lexeme.Rule.cut])
      | other => exact .other
      | _ => exact False.elim applies
  | variableName =>
      rw [show head = '$' from applies]
      exact .variableName (longestRun_takeWhile isWordChar tail)
  | numeral =>
      have longest := longestRun_takeWhile isNumberChar tail
      have tailEq : tail.takeWhile isNumberChar ++ tail.dropWhile isNumberChar = tail :=
        List.takeWhile_append_dropWhile
      have starts := startsNumber_iff.mpr applies
      rw [← tailEq] at starts
      rw [← tailEq, cut_numeral longest]
      cases accepted : Numeral.countedAccepts (head :: tail.takeWhile isNumberChar) with
      | true => exact .number starts longest accepted
      | false => exact .likeNumber starts longest accepted
  | word =>
      exact .word (List.cons_ne_nil _ _) ((longestRun_takeWhile isWordChar tail).cons applies.1)

theorem Takes.cut_eq {head : Char} {body rest : Text} {kind : LexemeKind} {applied : Lexeme.Rule}
    (takes : Takes (ofRule applied) kind (head :: body) rest)
    (applies : applied.Applies head (body ++ rest)) :
    applied.cut head (body ++ rest) = ⟨kind, body, rest⟩ := by
  cases applied with
  | spaces =>
      cases takes with
      | spaces _ longest => exact longest.of_cons.2.run_eq .space
  | lineComment =>
      cases takes with
      | slashes | hash =>
          rw [List.append_nil]
          rfl
  | blockComment =>
      cases takes with
      | closedComment noEnd => exact cut_closedComment _ noEnd _
      | openComment noEnd =>
          rw [List.append_nil]
          exact cut_openComment _ noEnd
  | quoted quote =>
      have isMark : head = quote.mark := applies
      cases takes with
      | closedQuote isBody =>
          cases mark_injective isMark
          exact cut_closedQuote _ isBody _
      | unclosedQuote isBody atEnd =>
          cases mark_injective isMark
          rw [List.append_nil]
          exact cut_unclosedQuote _ isBody atEnd
  | single kind =>
      cases kind with
      | openParenthesis | closeParenthesis | comma | semicolon =>
          cases takes with
          | punctuation member =>
              rw [show head = _ from applies] at member
              simp [marks] at member
              rw [member]
              rfl
      | other =>
          cases takes with
          | other => rfl
      | _ => exact False.elim applies
  | variableName =>
      cases takes with
      | variableName longest => exact longest.run_eq .variableName
  | numeral =>
      cases takes with
      | number _ longest accepted => rw [cut_numeral longest, if_pos accepted]
      | likeNumber _ longest rejected =>
          rw [cut_numeral longest, rejected]
          rfl
  | word =>
      cases takes with
      | word _ longest => exact longest.of_cons.2.run_eq .word

/-! ## Which production comes first -/

/-- What stands at the front of a text of which a production takes something. -/
def Production.Begins (head : Char) (tail : Text) : Production → Prop
  | .spaces => isSpace head = true
  | .lineComment => head = '#' ∨ head = '/' ∧ tail.head? = some '/'
  | .blockComment => head = '/' ∧ tail.head? = some '*'
  | .quoted => ∃ quote : Quote, head = quote.mark
  | .punctuation => ∃ kind, (head, kind) ∈ marks
  | .variableName => head = '$'
  | .number => Lexeme.beginsNumeral head tail = true
  | .word => isWordChar head = true
  | .other => True

theorem Takes.exists_cons {production : Production} {kind : LexemeKind} {taken rest : Text}
    (takes : Takes production kind taken rest) : ∃ head body, taken = head :: body := by
  cases takes with
  | spaces nonempty _ | word nonempty _ => exact List.exists_cons_of_ne_nil nonempty
  | _ => exact ⟨_, _, rfl⟩

theorem Takes.begins {production : Production} {kind : LexemeKind} {head : Char} {body rest : Text}
    (takes : Takes production kind (head :: body) rest) :
    production.Begins head (body ++ rest) := by
  cases takes with
  | spaces _ longest => exact longest.of_cons.1
  | slashes => exact Or.inr ⟨rfl, rfl⟩
  | hash => exact Or.inl rfl
  | closedComment => exact ⟨rfl, rfl⟩
  | openComment => exact ⟨rfl, rfl⟩
  | closedQuote => exact ⟨_, rfl⟩
  | unclosedQuote => exact ⟨_, rfl⟩
  | punctuation member => exact ⟨_, member⟩
  | variableName => rfl
  | number starts => exact startsNumber_iff.mp starts
  | likeNumber starts => exact startsNumber_iff.mp starts
  | word _ longest => exact longest.of_cons.1
  | other => trivial

theorem rule_of_beginsNumeral {head : Char} {tail : Text}
    (begins : Lexeme.beginsNumeral head tail = true) : Lexeme.rule head tail = .numeral := by
  by_cases isDigit : head.isDigit = true
  · have isWord : isWordChar head = true := by
      simp [isWordChar, Char.isAlphanum, isDigit]
    rw [Lexeme.rule_of_isWordChar isWord, if_pos isDigit]
  · have signOrPoint : head = '.' ∨ head = '-' ∨ head = '+' := by
      by_contra neither
      rw [not_or] at neither
      rw [Lexeme.beginsNumeral_of_not_sign neither.1 neither.2] at begins
      contradiction
    rcases signOrPoint with rfl | rfl | rfl
    all_goals
      change (if Lexeme.beginsNumeral _ tail = true then Lexeme.Rule.numeral else _) = _
      rw [if_pos begins]

/-- Up to words, no two productions begin alike. -/
theorem ofRule_rule_of_begins {production : Production} {head : Char} {tail : Text}
    (begins : production.Begins head tail) (specific : production.Precedes .word) :
    ofRule (Lexeme.rule head tail) = production := by
  cases production with
  | spaces => exact congrArg ofRule (if_pos begins)
  | lineComment =>
      rcases begins with rfl | ⟨rfl, startsSlash⟩
      · rfl
      · obtain ⟨text, rfl⟩ := List.head?_eq_some_iff.mp startsSlash
        rfl
  | blockComment =>
      obtain ⟨rfl, startsStar⟩ := begins
      obtain ⟨inner, rfl⟩ := List.head?_eq_some_iff.mp startsStar
      rfl
  | quoted =>
      obtain ⟨quote, rfl⟩ := begins
      cases quote <;> rfl
  | punctuation =>
      obtain ⟨kind, member⟩ := begins
      simp only [marks, List.mem_cons, Prod.mk.injEq, List.not_mem_nil, or_false] at member
      rcases member with ⟨rfl, _⟩ | ⟨rfl, _⟩ | ⟨rfl, _⟩ | ⟨rfl, _⟩
      all_goals rfl
  | variableName =>
      cases begins
      rfl
  | number => rw [rule_of_beginsNumeral begins]; rfl
  | word | other => exact absurd specific (by decide)

theorem not_precedes_of_begins {production : Production} {head : Char} {tail : Text}
    (begins : production.Begins head tail) :
    ¬ production.Precedes (ofRule (Lexeme.rule head tail)) := by
  cases production with
  | word =>
      rw [Lexeme.rule_of_isWordChar begins]
      split <;> decide
  | other => cases ofRule (Lexeme.rule head tail) <;> decide
  | _ =>
      rw [ofRule_rule_of_begins begins (by decide)]
      exact Nat.lt_irrefl _

theorem precedes_trichotomy (left right : Production) :
    left.Precedes right ∨ left = right ∨ right.Precedes left := by
  cases left <;> cases right <;> decide

/-- The production of the rule that the lexer applies is the only one that is the first to apply. -/
theorem eq_ofRule_of_first {production : Production} {kind : LexemeKind} {head : Char}
    {body rest : Text} (takes : Takes production kind (head :: body) rest)
    (first : ∀ earlier : Production, earlier.Precedes production →
      ¬ earlier.Applies (head :: (body ++ rest))) :
    production = ofRule (Lexeme.rule head (body ++ rest)) := by
  have taken := takes_cut_of_applies (Lexeme.rule_applies head (body ++ rest))
  rcases precedes_trichotomy production (ofRule (Lexeme.rule head (body ++ rest))) with
    earlier | same | later
  · exact absurd earlier (not_precedes_of_begins takes.begins)
  · exact same
  · refine absurd ⟨_, _, _, taken, ?_⟩ (first _ later)
    rw [List.cons_append]
    exact congrArg (head :: ·) (Lexeme.cut_append head (body ++ rest))

/-- The lexemes of a text are those that the grammar derives. -/
theorem derives_iff {text : Text} {found : List Lexeme} :
    Derives text found ↔ found = lexemes text := by
  constructor
  · intro derives
    induction derives with
    | nil => rw [lexemes_nil]
    | cons takes first _ ih =>
        obtain ⟨head, body, rfl⟩ := takes.exists_cons
        cases eq_ofRule_of_first takes first
        have cutEq := takes.cut_eq (Lexeme.rule_applies _ _)
        rw [List.cons_append, lexemes_cons, Lexeme.cut, cutEq, ih]
  · rintro rfl
    fun_induction lexemes text with
    | case1 => exact .nil
    | case2 head tail ih =>
        have parts : head :: (Lexeme.cut head tail).body ++ (Lexeme.cut head tail).rest =
            head :: tail := congrArg (head :: ·) (Lexeme.cut_append head tail)
        have first : ∀ earlier : Production, earlier.Precedes (ofRule (Lexeme.rule head tail)) →
            ¬ earlier.Applies (head :: tail) := by
          rintro earlier precedes ⟨kind, taken, rest, takes, takenParts⟩
          obtain ⟨next, body, rfl⟩ := takes.exists_cons
          rw [List.cons_append, List.cons.injEq] at takenParts
          obtain ⟨rfl, rfl⟩ := takenParts
          exact not_precedes_of_begins takes.begins precedes
        rw [← parts] at first ⊢
        exact .cons (takes_cut_of_applies (Lexeme.rule_applies head tail)) first ih

/-- The byte reader yields, for every line, the lexemes that the grammar derives from it, and the
grammar derives no others. The reader stops only where it cannot count the digits and points of a
number; where counts wrap around, and in every line of less than `2 ^ 31` bytes, it reads to the
end. In a run of less than `2 ^ 31` bytes the grammar's numbers are the decimals. -/
theorem byteReader_derives (overflow : Overflow) (line : Nat) (text : Text) :
    (∀ found, ByteReader.lexemes? overflow line text = some found →
      found = locatedLexemes line text ∧
      ∀ derived, Derives text derived ↔ derived = found.map LocatedLexeme.toLexeme) ∧
    (∃ derived, Derives text derived) ∧
    (overflow = .wraps ∨ Text.utf8Length text < 0x80000000 →
      (ByteReader.lexemes? overflow line text).isSome = true) ∧
    ∀ run : Text, Text.utf8Length run < 0x80000000 →
      (Numeral.countedAccepts run = true ↔ Numeral.IsDecimal run) := by
  refine ⟨?derived, ⟨lexemes text, derives_iff.mpr rfl⟩, ?ends, ?decimals⟩
  case derived =>
    intro found read
    obtain ⟨rfl, _⟩ := ByteReader.lexemes?_eq_some_iff.mp read
    refine ⟨rfl, ?_⟩
    intro derived
    rw [locatedLexemes, Lexeme.map_toLexeme_locate]
    exact derives_iff
  case ends =>
    intro countable
    rw [ByteReader.lexemes?_of_countable countable]
    rfl
  case decimals =>
    intro run short
    rw [Numeral.countedAccepts_eq_accepts short, Numeral.accepts_iff_isDecimal]

end Grammar

end ConfigConstants
