import ConfigConstants.Proofs.Lexeme.Locality
import ConfigConstants.Source.Line

/-!
An automaton that reads a source text one code point at a time and knows whether it stands in code,
in a quoted text, or in a comment. It knows nothing of lexemes. The main statement about one line is
that the automaton ends inside a block comment exactly when the last lexeme of the line is a block
comment that is not closed. Inside a line the automaton takes a line feed like any other blank, and
of that run the statement holds for every text.
-/

set_option autoImplicit false

namespace ConfigConstants

namespace CommentAutomaton

/-- Where the automaton stands. `slash` and `star` remember the first half of a mark of two code
points, `escaped` a backslash in a quoted text. -/
inductive State where
  | code
  | slash
  | lineComment
  | blockComment
  | star
  | quoted (quote : Quote)
  | escaped (quote : Quote)
  deriving DecidableEq, Repr

def State.inBlockComment : State → Bool
  | .blockComment | .star => true
  | _ => false

def State.inQuotes : State → Bool
  | .quoted _ | .escaped _ => true
  | _ => false

def stepInCode (char : Char) : State :=
  if char = '/' then .slash
  else if char = '#' then .lineComment
  else
    match Quote.ofMark? char with
    | some quote => .quoted quote
    | none => .code

def stepInLine : State → Char → State
  | .code, char => stepInCode char
  | .slash, char =>
      if char = '/' then .lineComment else if char = '*' then .blockComment else stepInCode char
  | .lineComment, _ => .lineComment
  | .blockComment, char => if char = '*' then .star else .blockComment
  | .star, char =>
      if char = '/' then .code else if char = '*' then .star else .blockComment
  | .quoted quote, char =>
      if char = '\\' then .escaped quote else if char = quote.mark then .code else .quoted quote
  | .escaped quote, _ => .quoted quote

/-- Where a line begins; only a block comment outlasts the line before. -/
def lineStart (hidden : Bool) : State :=
  if hidden then .blockComment else .code

/-- A line feed ends a line comment and a quoted text, also behind a backslash. -/
def step (state : State) (char : Char) : State :=
  if char = '\n' then lineStart state.inBlockComment else stepInLine state char

def run (state : State) (text : Text) : State :=
  text.foldl step state

/-- The run of an automaton that never comes to the end of its line. -/
def runInLine (state : State) (text : Text) : State :=
  text.foldl stepInLine state

@[simp] theorem run_nil (state : State) : run state [] = state := rfl

@[simp] theorem run_cons (state : State) (head : Char) (tail : Text) :
    run state (head :: tail) = run (step state head) tail := rfl

theorem run_append (state : State) (left right : Text) :
    run state (left ++ right) = run (run state left) right :=
  List.foldl_append

@[simp] theorem runInLine_nil (state : State) : runInLine state [] = state := rfl

@[simp] theorem runInLine_cons (state : State) (head : Char) (tail : Text) :
    runInLine state (head :: tail) = runInLine (stepInLine state head) tail := rfl

theorem runInLine_append (state : State) (left right : Text) :
    runInLine state (left ++ right) = runInLine (runInLine state left) right :=
  List.foldl_append

theorem step_of_ne_newline {char : Char} (notNewline : char ≠ '\n') (state : State) :
    step state char = stepInLine state char :=
  if_neg notNewline

theorem run_eq_runInLine {text : Text} (noNewline : '\n' ∉ text) (state : State) :
    run state text = runInLine state text := by
  induction text generalizing state with
  | nil => rfl
  | cons head tail ih =>
      have headDiffers := (List.ne_of_not_mem_cons noNewline).symm
      rw [run_cons, runInLine_cons, step_of_ne_newline headDiffers]
      exact ih (List.not_mem_of_not_mem_cons noNewline) _

theorem foldl_of_stays {advance : State → Char → State} {state : State} {text : Text}
    (stays : ∀ char ∈ text, advance state char = state) : text.foldl advance state = state := by
  induction text with
  | nil => rfl
  | cons head tail ih =>
      rw [List.foldl_cons, stays head List.mem_cons_self]
      exact ih fun char member => stays char (List.mem_cons_of_mem head member)

/-- A code point that begins neither a comment nor a quoted text. -/
def IsPlain (char : Char) : Prop :=
  char ≠ '/' ∧ char ≠ '#' ∧ Quote.ofMark? char = none

theorem stepInLine_code_of_isPlain {char : Char} (plain : IsPlain char) :
    stepInLine .code char = .code := by
  obtain ⟨notSlash, notHash, noQuote⟩ := plain
  simp [stepInLine, stepInCode, notSlash, notHash, noQuote]

theorem step_code_of_isPlain {char : Char} (plain : IsPlain char) : step .code char = .code := by
  unfold step
  split
  · rfl
  · exact stepInLine_code_of_isPlain plain

theorem run_code_of_isPlain {text : Text} (plain : ∀ char ∈ text, IsPlain char) :
    run .code text = .code :=
  foldl_of_stays fun char member => step_code_of_isPlain (plain char member)

theorem runInLine_code_of_isPlain {text : Text} (plain : ∀ char ∈ text, IsPlain char) :
    runInLine .code text = .code :=
  foldl_of_stays fun char member => stepInLine_code_of_isPlain (plain char member)

theorem inBlockComment_stepInLine {char : Char} (notSlash : char ≠ '/') (notStar : char ≠ '*')
    (state : State) : (stepInLine state char).inBlockComment = state.inBlockComment := by
  have inCode : (stepInCode char).inBlockComment = false := by
    unfold stepInCode
    rw [if_neg notSlash]
    split
    · rfl
    · split <;> rfl
  cases state with
  | code => exact inCode
  | slash =>
      rw [stepInLine, if_neg notSlash, if_neg notStar]
      exact inCode
  | lineComment => rfl
  | blockComment =>
      rw [stepInLine, if_neg notStar]
  | star =>
      rw [stepInLine, if_neg notSlash, if_neg notStar]
      rfl
  | quoted quote =>
      rw [stepInLine]
      split
      · rfl
      · split <;> rfl
  | escaped quote => rfl

theorem isPlain_of_belongs {belongs : Char → Bool} {char : Char} (inside : belongs char = true)
    (noSlash : belongs '/' = false) (noHash : belongs '#' = false)
    (noMark : ∀ quote : Quote, belongs quote.mark = false) : IsPlain char :=
  ⟨Text.ne_of_belongs inside noSlash, Text.ne_of_belongs inside noHash,
    Lexeme.ofMark?_of_ne fun quote => Text.ne_of_belongs inside (noMark quote)⟩

theorem isPlain_of_isNumberChar {char : Char} (isNumber : Lexeme.isNumberChar char = true) :
    IsPlain char :=
  isPlain_of_belongs isNumber (by decide) (by decide) (by intro quote; cases quote <;> decide)

theorem isPlain_of_isWordChar {char : Char} (isWord : Lexeme.isWordChar char = true) :
    IsPlain char :=
  isPlain_of_isNumberChar (Lexeme.isNumberChar_of_isWordChar isWord)

theorem isPlain_of_isSpace {char : Char} (isSpace : Lexeme.isSpace char = true) :
    IsPlain char :=
  isPlain_of_belongs isSpace (by decide) (by decide) (by intro quote; cases quote <;> decide)

theorem runInLine_slash {rest : Text} (notSlash : rest.head? ≠ some '/')
    (notStar : rest.head? ≠ some '*') (nonempty : rest ≠ []) :
    runInLine .slash rest = runInLine .code rest := by
  cases rest with
  | nil => contradiction
  | cons head tail =>
      have headNotSlash : head ≠ '/' := by simpa using notSlash
      have headNotStar : head ≠ '*' := by simpa using notStar
      simp [stepInLine, headNotSlash, headNotStar]

theorem runInLine_lineComment (text : Text) : runInLine .lineComment text = .lineComment :=
  foldl_of_stays fun _ _ => rfl

theorem runInLine_star {text : Text} (notSlash : text.head? ≠ some '/') (nonempty : text ≠ []) :
    runInLine .star text = runInLine .blockComment text := by
  cases text with
  | nil => contradiction
  | cons head tail =>
      have headNotSlash : head ≠ '/' := by simpa using notSlash
      simp [stepInLine, headNotSlash]

theorem runInLine_blockComment_of_end {text inside rest : Text}
    (found : Lexeme.throughCommentEnd? text = some (inside, rest)) :
    runInLine .blockComment inside = .code := by
  fun_induction Lexeme.throughCommentEnd? text generalizing inside with
  | case1 => contradiction
  | case2 rest => cases found; rfl
  | case3 head tail notEnd ih =>
      obtain ⟨⟨tailInside, tailRest⟩, tailFound, same⟩ := Option.map_eq_some_iff.mp found
      cases same
      have inner := ih tailFound
      rw [runInLine_cons, stepInLine]
      split
      · next isStar =>
          have tailEq := Lexeme.throughCommentEnd?_append tailFound
          obtain ⟨next, others, insideEq⟩ := List.exists_cons_of_ne_nil
            (show tailInside ≠ [] by intro empty; rw [empty] at inner; contradiction)
          rw [runInLine_star _ (by rw [insideEq]; simp)]
          · exact inner
          · intro startsSlash
            rw [insideEq] at startsSlash tailEq
            have nextEq : next = '/' := by simpa using startsSlash
            exact notEnd (others ++ rest) isStar (by rw [← tailEq, nextEq]; rfl)
      · exact inner

theorem runInLine_blockComment_of_no_end {text : Text}
    (absent : Lexeme.throughCommentEnd? text = none) :
    (runInLine .blockComment text).inBlockComment = true := by
  fun_induction Lexeme.throughCommentEnd? text with
  | case1 => rfl
  | case2 => contradiction
  | case3 head tail notEnd ih =>
      have inner := ih (Option.map_eq_none_iff.mp absent)
      rw [runInLine_cons, stepInLine]
      split
      · next isStar =>
          cases tail with
          | nil => rfl
          | cons next others =>
              rw [runInLine_star _ (by simp)]
              · exact inner
              · intro startsSlash
                have nextEq : next = '/' := by simpa using startsSlash
                exact notEnd others isStar (by rw [nextEq])
      · exact inner

theorem runInLine_quoted_of_end {quote : Quote} {text inside rest : Text}
    (found : Lexeme.throughQuote? quote text = some (inside, rest)) :
    runInLine (.quoted quote) inside = .code := by
  fun_induction Lexeme.throughQuote? quote text generalizing inside with
  | case1 => contradiction
  | case2 skipped tail ih =>
      obtain ⟨⟨tailInside, tailRest⟩, tailFound, same⟩ := Option.map_eq_some_iff.mp found
      cases same
      rw [runInLine_cons, runInLine_cons,
        show stepInLine (.quoted quote) '\\' = .escaped quote from rfl, stepInLine]
      exact ih tailFound
  | case3 tail _ =>
      cases found
      cases quote <;> rfl
  | case4 head tail notSkipped notMark ih =>
      obtain ⟨⟨tailInside, tailRest⟩, tailFound, same⟩ := Option.map_eq_some_iff.mp found
      cases same
      have notBackslash : head ≠ '\\' := by
        intro isBackslash
        cases tail with
        | nil => simp [Lexeme.throughQuote?] at tailFound
        | cons next others => exact notSkipped next others isBackslash rfl
      rw [runInLine_cons, stepInLine, if_neg notBackslash, if_neg notMark]
      exact ih tailFound

theorem runInLine_quoted_of_no_end {quote : Quote} {text : Text}
    (absent : Lexeme.throughQuote? quote text = none) :
    (runInLine (.quoted quote) text).inQuotes = true := by
  fun_induction Lexeme.throughQuote? quote text with
  | case1 => rfl
  | case2 skipped tail ih =>
      rw [runInLine_cons, runInLine_cons,
        show stepInLine (.quoted quote) '\\' = .escaped quote from rfl, stepInLine]
      exact ih (Option.map_eq_none_iff.mp absent)
  | case3 => contradiction
  | case4 head tail notSkipped notMark ih =>
      rw [runInLine_cons, stepInLine]
      split
      · next isBackslash =>
          cases tail with
          | nil => rfl
          | cons next others => exact False.elim (notSkipped next others isBackslash rfl)
      · exact ih (Option.map_eq_none_iff.mp absent)

theorem isPlain_of_beginsNumeral {head : Char} {tail : Text}
    (begins : Lexeme.beginsNumeral head tail = true) : IsPlain head := by
  by_cases isPoint : head = '.'
  · subst isPoint
    exact ⟨by decide, by decide, by decide⟩
  by_cases isSign : head = '-' ∨ head = '+'
  · rcases isSign with same | same <;>
      · subst same
        exact ⟨by decide, by decide, by decide⟩
  · rw [Lexeme.beginsNumeral_of_not_sign isPoint isSign] at begins
    exact isPlain_of_isNumberChar (Lexeme.isNumberChar_of_isDigit begins)

theorem runInLine_code_takeWhile {head : Char} {belongs : Char → Bool} (plain : IsPlain head)
    (allPlain : ∀ {char : Char}, belongs char = true → IsPlain char) (tail : Text) :
    runInLine .code (head :: tail.takeWhile belongs) = .code := by
  apply runInLine_code_of_isPlain
  intro char member
  rcases List.mem_cons.mp member with same | later
  · rw [same]
    exact plain
  · exact allPlain (List.all_eq_true.mp List.all_takeWhile char later)

/-- Where the automaton can stand behind a lexeme of each kind, if it stood in code before. -/
def Behind : LexemeKind → State → Prop
  | .lineComment, state => state = .lineComment
  | .blockComment false, state => state.inBlockComment = true
  | .unclosedQuote, state => state.inQuotes = true
  | .other, state => state = .code ∨ state = .slash
  | _, state => state = .code

theorem runInLine_code_cut (head : Char) (tail : Text) :
    Behind (Lexeme.cut head tail).kind
      (runInLine .code (head :: (Lexeme.cut head tail).body)) := by
  have applies := Lexeme.rule_applies head tail
  unfold Lexeme.cut
  generalize Lexeme.rule head tail = applied at applies
  cases applied with
  | spaces => exact runInLine_code_takeWhile (isPlain_of_isSpace applies) isPlain_of_isSpace tail
  | lineComment =>
      rcases applies with isHash | ⟨isSlash, starts⟩
      · subst isHash
        exact runInLine_lineComment tail
      · obtain ⟨others, tailEq⟩ := List.head?_eq_some_iff.mp starts
        subst isSlash tailEq
        exact runInLine_lineComment others
  | blockComment =>
      obtain ⟨isSlash, starts⟩ := applies
      obtain ⟨others, tailEq⟩ := List.head?_eq_some_iff.mp starts
      subst isSlash tailEq
      cases found : Lexeme.throughCommentEnd? others with
      | none =>
          simp only [Lexeme.Rule.cut, Lexeme.Cut.blockComment, Lexeme.Cut.through, found]
          exact runInLine_blockComment_of_no_end found
      | some pair =>
          simp only [Lexeme.Rule.cut, Lexeme.Cut.blockComment, Lexeme.Cut.through, found]
          exact runInLine_blockComment_of_end found
  | quoted quote =>
      have opens : stepInLine .code head = .quoted quote := by
        rw [show head = quote.mark from applies]
        cases quote <;> rfl
      cases found : Lexeme.throughQuote? quote tail with
      | none =>
          simp only [Lexeme.Rule.cut, Lexeme.Cut.through, found, Behind, runInLine_cons, opens]
          exact runInLine_quoted_of_no_end found
      | some pair =>
          simp only [Lexeme.Rule.cut, Lexeme.Cut.through, found, Behind, runInLine_cons, opens]
          exact runInLine_quoted_of_end found
  | single kind =>
      cases kind with
      | other =>
          obtain ⟨notHash, noQuote, _⟩ := applies
          simp only [Lexeme.Rule.cut, Behind, runInLine_cons, runInLine_nil]
          -- a slash that begins no comment is a lexeme of its own, and may still be half a mark
          by_cases isSlash : head = '/'
          · subst isSlash
            exact Or.inr rfl
          · exact Or.inl (stepInLine_code_of_isPlain ⟨isSlash, notHash, noQuote⟩)
      | openParenthesis | closeParenthesis | comma | semicolon =>
          rw [show head = _ from applies]
          rfl
      | _ => exact False.elim applies
  | variableName =>
      rw [show head = '$' from applies]
      exact runInLine_code_takeWhile ⟨by decide, by decide, by decide⟩ isPlain_of_isWordChar tail
  | numeral =>
      have inCode :=
        runInLine_code_takeWhile (isPlain_of_beginsNumeral applies) isPlain_of_isNumberChar tail
      simp only [Lexeme.Rule.cut, Lexeme.Cut.numeral, Lexeme.Cut.run]
      split <;> exact inCode
  | word =>
      exact runInLine_code_takeWhile (isPlain_of_isWordChar applies.1) isPlain_of_isWordChar tail

theorem eq_slash_of_stepInLine_code {char : Char} (atSlash : stepInLine .code char = .slash) :
    char = '/' := by
  apply Decidable.byContradiction
  intro notSlash
  by_cases isHash : char = '#'
  · subst isHash
    contradiction
  · cases found : Quote.ofMark? char with
    | none =>
        rw [stepInLine_code_of_isPlain ⟨notSlash, isHash, found⟩] at atSlash
        contradiction
    | some quote =>
        rw [← Quote.mark_eq_of_ofMark? found] at atSlash
        cases quote <;> contradiction

/-- Behind a lexeme that another one follows the automaton stands in code, or at a slash that is
not half a mark. -/
theorem runInLine_code_cut_of_more {head : Char} {tail : Text}
    (more : (Lexeme.cut head tail).rest ≠ []) :
    runInLine .code (head :: (Lexeme.cut head tail).body) = .code ∨
      runInLine .code (head :: (Lexeme.cut head tail).body) = .slash ∧
        (Lexeme.cut head tail).rest.head? ≠ some '/' ∧
        (Lexeme.cut head tail).rest.head? ≠ some '*' := by
  have behind := runInLine_code_cut head tail
  have ends := Lexeme.cut_endsBefore_rest head tail
  have applies := Lexeme.rule_applies head tail
  unfold Lexeme.cut at *
  generalize Lexeme.rule head tail = applied at *
  cases applied with
  | lineComment => exact absurd ends more
  | blockComment =>
      rcases ends with closed | atEnd
      · rw [closed] at behind
        exact Or.inl behind
      · contradiction
  | quoted quote =>
      rcases ends with closed | atEnd
      · rw [closed] at behind
        exact Or.inl behind
      · contradiction
  | single kind =>
      cases kind with
      | other =>
          rcases behind with inCode | atSlash
          · exact Or.inl inCode
          · exact Or.inr ⟨atSlash, applies.2.2 (eq_slash_of_stepInLine_code atSlash)⟩
      | openParenthesis | closeParenthesis | comma | semicolon => exact Or.inl behind
      | _ => exact False.elim applies
  | numeral =>
      simp only [Lexeme.Rule.cut, Lexeme.Cut.numeral, Lexeme.Cut.run] at behind
      split at behind <;> exact Or.inl behind
  | spaces | variableName | word => exact Or.inl behind

theorem runInLine_code_eq_runInLine_rest {head : Char} {tail : Text}
    (more : (Lexeme.cut head tail).rest ≠ []) :
    runInLine .code (head :: tail) = runInLine .code (Lexeme.cut head tail).rest := by
  have whole : runInLine .code (head :: tail) =
      runInLine (runInLine .code (head :: (Lexeme.cut head tail).body))
        (Lexeme.cut head tail).rest := by
    rw [← runInLine_append, List.cons_append, Lexeme.cut_append]
  rcases runInLine_code_cut_of_more more with inCode | ⟨atSlash, notSlash, notStar⟩
  · rw [whole, inCode]
  · rw [whole, atSlash, runInLine_slash notSlash notStar more]

theorem inBlockComment_of_behind {kind : LexemeKind} {state : State} (behind : Behind kind state) :
    state.inBlockComment = (kind == .blockComment false) := by
  cases kind with
  | blockComment closed =>
      cases closed with
      | false => exact behind
      | true => rw [show state = .code from behind]; rfl
  | unclosedQuote => cases state <;> first | rfl | contradiction
  | other => rcases behind with same | same <;> (rw [same]; rfl)
  | _ => rw [show state = _ from behind]; rfl

/-- At the end of a line the automaton is inside a block comment exactly when the last lexeme is a
block comment that is not closed. -/
theorem inBlockComment_runInLine_code (text : Text) :
    (runInLine .code text).inBlockComment =
      (lexemes text).getLast?.any fun lexeme => lexeme.kind == .blockComment false := by
  fun_induction lexemes text with
  | case1 => rfl
  | case2 head tail ih =>
      by_cases atEnd : (Lexeme.cut head tail).rest = []
      · have bodyEq : (Lexeme.cut head tail).body = tail := by
          have parts := Lexeme.cut_append head tail
          rwa [atEnd, List.append_nil] at parts
        have behind := runInLine_code_cut head tail
        rw [bodyEq] at behind
        rw [atEnd, lexemes_nil, inBlockComment_of_behind behind]
        rfl
      · have following : lexemes (Lexeme.cut head tail).rest ≠ [] :=
          mt lexemes_eq_nil_iff.mp atEnd
        rw [runInLine_code_eq_runInLine_rest atEnd, ih]
        obtain ⟨next, others, lexemesEq⟩ := List.exists_cons_of_ne_nil following
        rw [lexemesEq, List.getLast?_cons_cons]

/-! ## Texts without a line feed -/

theorem run_blockComment_of_end {text inside rest : Text}
    (found : Lexeme.throughCommentEnd? text = some (inside, rest)) (noNewline : '\n' ∉ text) :
    run .blockComment inside = .code := by
  have insideNoNewline : '\n' ∉ inside := by
    intro member
    rw [← Lexeme.throughCommentEnd?_append found] at noNewline
    exact noNewline (List.mem_append_left rest member)
  rw [run_eq_runInLine insideNoNewline, runInLine_blockComment_of_end found]

theorem run_blockComment_of_no_end {text : Text}
    (absent : Lexeme.throughCommentEnd? text = none) (noNewline : '\n' ∉ text) :
    (run .blockComment text).inBlockComment = true := by
  rw [run_eq_runInLine noNewline, runInLine_blockComment_of_no_end absent]

theorem run_code_lexeme {head : Char} {tail : Text} (noNewline : '\n' ∉ head :: tail) :
    run .code (head :: (Lexeme.cut head tail).body) =
      runInLine .code (head :: (Lexeme.cut head tail).body) := by
  apply run_eq_runInLine
  intro member
  rw [← Lexeme.cut_append head tail, ← List.cons_append] at noNewline
  exact noNewline (List.mem_append_left _ member)

theorem run_code_cut {head : Char} {tail : Text} (noNewline : '\n' ∉ head :: tail) :
    Behind (Lexeme.cut head tail).kind (run .code (head :: (Lexeme.cut head tail).body)) := by
  rw [run_code_lexeme noNewline]
  exact runInLine_code_cut head tail

theorem run_code_cut_of_more {head : Char} {tail : Text} (noNewline : '\n' ∉ head :: tail)
    (more : (Lexeme.cut head tail).rest ≠ []) :
    run .code (head :: (Lexeme.cut head tail).body) = .code ∨
      run .code (head :: (Lexeme.cut head tail).body) = .slash ∧
        (Lexeme.cut head tail).rest.head? ≠ some '/' ∧
        (Lexeme.cut head tail).rest.head? ≠ some '*' := by
  rw [run_code_lexeme noNewline]
  exact runInLine_code_cut_of_more more

theorem inBlockComment_run_code {line : Text} (noNewline : '\n' ∉ line) :
    (run .code line).inBlockComment =
      (lexemes line).getLast?.any fun lexeme => lexeme.kind == .blockComment false := by
  rw [run_eq_runInLine noNewline, inBlockComment_runInLine_code]

example : (run .code "/*/ 'a' // */ \"/*\"".toList).inBlockComment = false := by decide

example : (run .code "'\\'/*' /*/".toList).inBlockComment = true := by decide

end CommentAutomaton

end ConfigConstants
