import ConfigConstants.Quote

/-!
Lexemes of one line: a kind and the exact text it was cut from, quotes and comment marks included.
Spaces and comments only separate; quoted texts, words and numbers can be arguments of a call. A
word character is an ASCII letter or digit, an underscore, a backslash, or anything beyond ASCII. A
block comment and a quoted text reach through their closing mark.
-/

set_option autoImplicit false

namespace ConfigConstants

/-- What a lexeme is. A comment that is not closed and a quote that is not closed run to the end of
the line. -/
inductive LexemeKind where
  | space
  | lineComment
  | blockComment (closed : Bool)
  | quoted (quote : Quote)
  | unclosedQuote
  | word
  | variableName
  | number
  | openParenthesis
  | closeParenthesis
  | comma
  | semicolon
  | other
  deriving DecidableEq, Repr

namespace LexemeKind

/-- Spaces and comments take no part in a call. -/
def separates : LexemeKind → Bool
  | .space | .lineComment | .blockComment _ => true
  | _ => false

def isArgument : LexemeKind → Bool
  | .quoted _ | .word | .number => true
  | _ => false

theorem separates_eq_false_of_isArgument {kind : LexemeKind} (argument : kind.isArgument = true) :
    kind.separates = false := by
  cases kind <;> simp_all [isArgument, separates]

end LexemeKind

structure Lexeme where
  kind : LexemeKind
  text : Text
  deriving DecidableEq, Repr

namespace Lexeme

def isSpace (char : Char) : Bool :=
  char == ' ' || char == '\t' || char == '\r' || char == '\n'

def isWordChar (char : Char) : Bool :=
  char.isAlphanum || char == '_' || char == '\\' || decide (0x80 ≤ char.toNat)

def isNumberChar (char : Char) : Bool :=
  char == '.' || isWordChar char

def throughCommentEnd? : Text → Option (Text × Text)
  | [] => none
  | '*' :: '/' :: rest => some (['*', '/'], rest)
  | head :: tail => (throughCommentEnd? tail).map fun (inside, rest) => (head :: inside, rest)

theorem throughCommentEnd?_append {text inside rest : Text}
    (found : throughCommentEnd? text = some (inside, rest)) : inside ++ rest = text := by
  fun_induction throughCommentEnd? text generalizing inside with
  | case1 => contradiction
  | case2 rest => cases found; rfl
  | case3 head tail _ ih =>
      obtain ⟨⟨tailInside, tailRest⟩, tailFound, same⟩ := Option.map_eq_some_iff.mp found
      cases same
      rw [List.cons_append, ih tailFound]

/-- The text through the first mark of the quote that is not skipped, and what follows it. A
backslash skips the code point behind it, whatever that is. -/
def throughQuote? (quote : Quote) : Text → Option (Text × Text)
  | [] => none
  | '\\' :: skipped :: tail =>
      (throughQuote? quote tail).map fun (inside, rest) => ('\\' :: skipped :: inside, rest)
  | head :: tail =>
      if head = quote.mark then some ([head], tail)
      else (throughQuote? quote tail).map fun (inside, rest) => (head :: inside, rest)

theorem throughQuote?_append {quote : Quote} {text inside rest : Text}
    (found : throughQuote? quote text = some (inside, rest)) : inside ++ rest = text := by
  fun_induction throughQuote? quote text generalizing inside with
  | case1 => contradiction
  | case2 skipped tail ih =>
      obtain ⟨⟨tailInside, tailRest⟩, tailFound, same⟩ := Option.map_eq_some_iff.mp found
      cases same
      rw [List.cons_append, List.cons_append, ih tailFound]
  | case3 tail _ => cases found; rfl
  | case4 head tail _ _ ih =>
      obtain ⟨⟨tailInside, tailRest⟩, tailFound, same⟩ := Option.map_eq_some_iff.mp found
      cases same
      rw [List.cons_append, ih tailFound]

end Lexeme

end ConfigConstants
