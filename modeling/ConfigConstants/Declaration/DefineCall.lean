import ConfigConstants.Declaration.ConstLine

/-!
Declarations of the form `define(name, value)`, any number to a line. A call is six lexemes in a
row, spaces and comments aside: the word, an opening parenthesis, a literal, a comma, a literal, and
a closing parenthesis. A lexeme that does not fit ends the call without a declaration and may itself
begin the next one.
-/

set_option autoImplicit false

namespace ConfigConstants

namespace DefineCall

/-- A call that has begun, by what has been read of it. -/
inductive OpenCall where
  | afterWord
  | afterParenthesis
  | afterKey (key : LocatedLexeme)
  | afterComma (key : LocatedLexeme)
  | afterValue (key value : LocatedLexeme)
  deriving DecidableEq, Repr

namespace OpenCall

def stageName : OpenCall → Text
  | .afterWord => "AfterDefine".toList
  | .afterParenthesis => "ExpectKey".toList
  | .afterKey _ => "HaveKey".toList
  | .afterComma _ => "ExpectValue".toList
  | .afterValue _ _ => "HaveValue".toList

end OpenCall

def defineWord : Text := ['d', 'e', 'f', 'i', 'n', 'e']

/-- Whether the lexeme names the function, in any ASCII case and with any number of backslashes in
front of it. -/
def isDefineWord (lexeme : Lexeme) : Bool :=
  lexeme.kind == .word && Text.foldCase (lexeme.text.dropWhile (· == '\\')) == defineWord

/-- The declaration of a complete call: a quoted name loses its quotes, the value stays as it is
written. -/
def declaration (key value : LocatedLexeme) : Declaration :=
  ⟨Quote.bare key.text, value.text, key.position⟩

/-- What a call becomes with a lexeme that fits: a longer call, or a declaration. -/
inductive Progress where
  | goesOn (call : OpenCall)
  | completes (declaration : Declaration)
  deriving DecidableEq, Repr

def advance? (lexeme : LocatedLexeme) : OpenCall → Option Progress
  | .afterWord => if lexeme.kind = .openParenthesis then some (.goesOn .afterParenthesis) else none
  | .afterParenthesis => if lexeme.kind.isArgument then some (.goesOn (.afterKey lexeme)) else none
  | .afterKey key => if lexeme.kind = .comma then some (.goesOn (.afterComma key)) else none
  | .afterComma key =>
      if lexeme.kind.isArgument then some (.goesOn (.afterValue key lexeme)) else none
  | .afterValue key value =>
      if lexeme.kind = .closeParenthesis then some (.completes (declaration key value)) else none

def begin? (lexeme : LocatedLexeme) : Option OpenCall :=
  if isDefineWord lexeme.toLexeme then some .afterWord else none

inductive Outcome where
  | declared (declaration : Declaration)
  | abandoned (call : OpenCall) (breaking : LocatedLexeme)
  deriving DecidableEq, Repr

/-- Reads one lexeme: the call that is open after it, and the outcome of the call that it ends. -/
def read (lexeme : LocatedLexeme) : Option OpenCall → Option OpenCall × Option Outcome
  | none => (begin? lexeme, none)
  | some call =>
      match advance? lexeme call with
      | some (.goesOn longer) => (some longer, none)
      | some (.completes declared) => (none, some (.declared declared))
      | none => (begin? lexeme, some (.abandoned call lexeme))

/-- The outcomes of all calls, in the order in which they end. A call that is still open at the end
has none. -/
def outcomesFrom : Option OpenCall → List LocatedLexeme → List Outcome
  | _, [] => []
  | call, lexeme :: later =>
      if lexeme.kind.separates then outcomesFrom call later
      else (read lexeme call).2.toList ++ outcomesFrom (read lexeme call).1 later

def outcomes (lexemes : List LocatedLexeme) : List Outcome :=
  outcomesFrom none lexemes

def lineOutcomes (line : Nat) (text : Text) : List Outcome :=
  outcomes (locatedLexemes line text)

end DefineCall

end ConfigConstants
