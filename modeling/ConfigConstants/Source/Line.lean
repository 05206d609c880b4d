import ConfigConstants.Declaration.DefineCall

/-!
What a source line shows and what it can declare. The one thing that a line hands to the next is
whether it ends inside a block comment; the next line is then visible only behind the comment's end.
Blanks and PHP tags at the two ends of what is visible are dropped. A line that begins with the
keyword then declares one constant; any other that mentions `define` may hold calls, and its lexemes
decide whether it does. No other line declares anything.
-/

set_option autoImplicit false

namespace ConfigConstants

namespace SourceComment

def commentStart : Text := ['/', '*']

/-- The part of a line that is not hidden by a comment begun on an earlier line. -/
def visible? (hidden : Bool) (line : Text) : Option Text :=
  if hidden then (Lexeme.throughCommentEnd? line).map Prod.snd else some line

/-- Whether a visible text ends inside a block comment. Only a text that holds a comment's start
has to be cut into lexemes to tell. -/
def endsInComment (visible : Text) : Bool :=
  Text.occursIn commentStart visible &&
    (lexemes visible).getLast?.any fun lexeme => lexeme.kind == .blockComment false

/-- Whether the line behind a given one begins inside a block comment. A line that is hidden as a
whole leaves the comment open. -/
def hidesNext (hidden : Bool) (line : Text) : Bool :=
  match visible? hidden line with
  | none => true
  | some visible => endsInComment visible

def hiddenAfter (hidden : Bool) (lines : List Text) : Bool :=
  lines.foldl hidesNext hidden

@[simp] theorem hiddenAfter_nil (hidden : Bool) : hiddenAfter hidden [] = hidden := rfl

theorem hiddenAfter_cons (hidden : Bool) (line : Text) (later : List Text) :
    hiddenAfter hidden (line :: later) = hiddenAfter (hidesNext hidden line) later := rfl

end SourceComment

/-- A line by what it can declare, with the text that is left of it. -/
inductive SourceLine where
  | constant (text : Text)
  | calls (text : Text)
  | nothing
  deriving DecidableEq, Repr

namespace SourceLine

def openTag : Text := ['<', '?', 'p', 'h', 'p']

def closeTag : Text := ['?', '>']

/-- The text behind an opening tag in any ASCII case, or all of it. -/
def dropOpenTag (text : Text) : Text :=
  (Text.afterWord? openTag text).getD text

def dropCloseTag (text : Text) : Text :=
  Text.dropEnd closeTag text

/-- The line without blanks and tags at its ends. -/
def strip (line : Text) : Text :=
  Text.trim (dropCloseTag (dropOpenTag (Text.trim line)))

def ofStripped (text : Text) : SourceLine :=
  if (Text.afterWord? ConstLine.keyword text).isSome then .constant text
  else if Text.occursIn DefineCall.defineWord (Text.foldCase text) then .calls text
  else .nothing

def ofText (line : Text) : SourceLine :=
  ofStripped (strip line)

end SourceLine

end ConfigConstants
