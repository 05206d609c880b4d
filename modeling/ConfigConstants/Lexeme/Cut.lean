import ConfigConstants.Lexeme.Basic
import ConfigConstants.Numeral

/-!
Cutting a line into lexemes. The first code point and at most two behind it decide which rule
applies, and the rule takes a stretch from the front. The main statements say that a rule splits the
text and that the lexemes of a line, put together, are the line.
-/

set_option autoImplicit false

namespace ConfigConstants

namespace Lexeme

inductive Rule where
  | spaces
  | lineComment
  | blockComment
  | quoted (quote : Quote)
  | single (kind : LexemeKind)
  | variableName
  | numeral
  | word
  deriving DecidableEq

/-- A point begins a number if a digit follows; a sign does if a digit follows, or a point and a
digit. -/
def beginsNumeral (head : Char) (tail : Text) : Bool :=
  if head.isDigit then true
  else if head = '.' then tail.head?.any Char.isDigit
  else if head = '-' ∨ head = '+' then
    match tail with
    | '.' :: behind => behind.head?.any Char.isDigit
    | _ => tail.head?.any Char.isDigit
  else false

def plainRule (head : Char) (tail : Text) : Rule :=
  if head = '(' then .single .openParenthesis
  else if head = ')' then .single .closeParenthesis
  else if head = ',' then .single .comma
  else if head = ';' then .single .semicolon
  else if head = '$' then .variableName
  else if beginsNumeral head tail then .numeral
  else if isWordChar head then .word
  else .single .other

def rule (head : Char) (tail : Text) : Rule :=
  if isSpace head then .spaces
  else if head = '#' then .lineComment
  else if head = '/' ∧ tail.head? = some '/' then .lineComment
  else if head = '/' ∧ tail.head? = some '*' then .blockComment
  else
    match Quote.ofMark? head with
    | some quote => .quoted quote
    | none => plainRule head tail

/-- A stretch taken from the front of a text: its kind, what it holds behind the first code point,
and what follows it. -/
structure Cut where
  kind : LexemeKind
  body : Text
  rest : Text
  deriving DecidableEq

def Cut.run (kind : LexemeKind) (belongs : Char → Bool) (tail : Text) : Cut :=
  ⟨kind, tail.takeWhile belongs, tail.dropWhile belongs⟩

def Cut.through (closed unclosed : LexemeKind) (tail : Text) : Option (Text × Text) → Cut
  | some (inside, rest) => ⟨closed, inside, rest⟩
  | none => ⟨unclosed, tail, []⟩

/-- A block comment whose `/` has been read. Its `*` cannot be part of the closing mark. -/
def Cut.blockComment : Text → Cut
  | [] => ⟨.blockComment false, [], []⟩
  | star :: tail =>
      let inner := Cut.through (.blockComment true) (.blockComment false) tail
        (throughCommentEnd? tail)
      ⟨inner.kind, star :: inner.body, inner.rest⟩

/-- A run that begins like a number is one only if all of it is a numeral; `1e3`, `0x1A` and
`1.2.3` stay whole and are words. -/
def Cut.numeral (head : Char) (tail : Text) : Cut :=
  Cut.run (if Numeral.countedAccepts (head :: tail.takeWhile isNumberChar) then .number else .word)
    isNumberChar tail

def Rule.cut (head : Char) (tail : Text) : Rule → Cut
  | .spaces => Cut.run .space isSpace tail
  | .lineComment => ⟨.lineComment, tail, []⟩
  | .blockComment => Cut.blockComment tail
  | .quoted quote => Cut.through (.quoted quote) .unclosedQuote tail (throughQuote? quote tail)
  | .single kind => ⟨kind, [], tail⟩
  | .variableName => Cut.run .variableName isWordChar tail
  | .numeral => Cut.numeral head tail
  | .word => Cut.run .word isWordChar tail

def cut (head : Char) (tail : Text) : Cut :=
  (rule head tail).cut head tail

theorem Cut.run_append (kind : LexemeKind) (belongs : Char → Bool) (tail : Text) :
    (Cut.run kind belongs tail).body ++ (Cut.run kind belongs tail).rest = tail :=
  List.takeWhile_append_dropWhile

theorem Cut.through_append {closed unclosed : LexemeKind} {tail : Text}
    {found : Option (Text × Text)}
    (splits : ∀ inside rest, found = some (inside, rest) → inside ++ rest = tail) :
    (Cut.through closed unclosed tail found).body ++
      (Cut.through closed unclosed tail found).rest = tail := by
  cases found with
  | none => simp [Cut.through]
  | some pair => exact splits pair.1 pair.2 rfl

theorem Cut.blockComment_append (tail : Text) :
    (Cut.blockComment tail).body ++ (Cut.blockComment tail).rest = tail := by
  cases tail with
  | nil => rfl
  | cons star inner =>
      rw [Cut.blockComment, List.cons_append,
        Cut.through_append fun _ _ found => throughCommentEnd?_append found]

theorem Rule.cut_append (applied : Rule) (head : Char) (tail : Text) :
    (applied.cut head tail).body ++ (applied.cut head tail).rest = tail := by
  cases applied with
  | spaces => exact Cut.run_append _ _ _
  | lineComment => exact List.append_nil _
  | blockComment => exact Cut.blockComment_append tail
  | quoted quote => exact Cut.through_append fun _ _ found => throughQuote?_append found
  | single kind => rfl
  | variableName => exact Cut.run_append _ _ _
  | numeral => exact Cut.run_append _ _ _
  | word => exact Cut.run_append _ _ _

theorem cut_append (head : Char) (tail : Text) :
    (cut head tail).body ++ (cut head tail).rest = tail :=
  Rule.cut_append _ head tail

theorem length_rest_cut_le (head : Char) (tail : Text) :
    (cut head tail).rest.length ≤ tail.length := by
  have lengths := congrArg List.length (cut_append head tail)
  rw [List.length_append] at lengths
  omega

end Lexeme

def lexemes : Text → List Lexeme
  | [] => []
  | head :: tail =>
      ⟨(Lexeme.cut head tail).kind, head :: (Lexeme.cut head tail).body⟩ ::
        lexemes (Lexeme.cut head tail).rest
termination_by text => text.length
decreasing_by
  have shorter := Lexeme.length_rest_cut_le head tail
  simp only [List.length_cons]
  omega

@[simp] theorem lexemes_nil : lexemes [] = [] := by
  rw [lexemes]

theorem lexemes_cons (head : Char) (tail : Text) :
    lexemes (head :: tail) =
      ⟨(Lexeme.cut head tail).kind, head :: (Lexeme.cut head tail).body⟩ ::
        lexemes (Lexeme.cut head tail).rest := by
  rw [lexemes]

/-- Cutting loses nothing. -/
theorem flatMap_text_lexemes (text : Text) : (lexemes text).flatMap Lexeme.text = text := by
  fun_induction lexemes text with
  | case1 => rfl
  | case2 head tail ih =>
      rw [List.flatMap_cons, ih, List.cons_append, Lexeme.cut_append]

theorem lexemes_eq_nil_iff {text : Text} : lexemes text = [] ↔ text = [] := by
  cases text <;> simp [lexemes_cons]

theorem text_ne_nil_of_mem_lexemes {text : Text} {lexeme : Lexeme}
    (member : lexeme ∈ lexemes text) : lexeme.text ≠ [] := by
  fun_induction lexemes text with
  | case1 => simp at member
  | case2 head tail ih =>
      rcases List.mem_cons.mp member with rfl | later
      · simp
      · exact ih later

end ConfigConstants
