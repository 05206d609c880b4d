import ConfigConstants.Lexeme.Located
import ConfigConstants.Proofs.Text.Bytes

/-!
A reader that cuts a line into lexemes by looking at single bytes. It knows how many bytes it has
read and jumps ahead by numbers of bytes; the text of a lexeme is the slice of the line between two
such offsets. A slice whose ends do not lie between code points does not exist, and then the reader
gives no result at all. Every reading takes at least one byte, so the reader comes to an end.
-/

set_option autoImplicit false

namespace ConfigConstants

namespace Text

/-- The text between two offsets in bytes. Both have to lie between code points. -/
def slice? (start stop : Nat) (text : Text) : Option Text := do
  let behindStart ← dropUtf8? start text
  let behindStop ← dropUtf8? stop text
  if start ≤ stop then some (behindStart.take (behindStart.length - behindStop.length)) else none

theorem slice?_append (before inside behind : Text) :
    slice? (utf8Length before) (utf8Length before + utf8Length inside)
      (before ++ inside ++ behind) = some inside := by
  have atStart : dropUtf8? (utf8Length before) (before ++ inside ++ behind) =
      some (inside ++ behind) := by
    rw [List.append_assoc, dropUtf8?_append]
  have atStop : dropUtf8? (utf8Length before + utf8Length inside) (before ++ inside ++ behind) =
      some behind := by
    rw [← utf8Length_append, dropUtf8?_append]
  simp only [slice?, atStart, atStop]
  simp

end Text

namespace ByteReader

open Numeral (isDigitByte)

def isSpace (byte : UInt8) : Bool :=
  byte == ' '.toUInt8 || byte == '\t'.toUInt8 || byte == '\r'.toUInt8 || byte == '\n'.toUInt8

def isAlphanumeric (byte : UInt8) : Bool :=
  isDigitByte byte || ('a'.toUInt8 ≤ byte && byte ≤ 'z'.toUInt8) ||
    ('A'.toUInt8 ≤ byte && byte ≤ 'Z'.toUInt8)

/-- Bytes beyond ASCII are always part of a word, so that code points stay whole. -/
def isWordByte (byte : UInt8) : Bool :=
  isAlphanumeric byte || byte == '_'.toUInt8 || byte == '\\'.toUInt8 || 0x80 ≤ byte

def isNumberByte (byte : UInt8) : Bool :=
  byte == '.'.toUInt8 || isWordByte byte

def startsNumber (byte : UInt8) (later : List UInt8) : Bool :=
  if byte = '.'.toUInt8 then later.head?.any isDigitByte
  else
    later.head?.any isDigitByte ||
      (later.head? == some '.'.toUInt8 && later.tail.head?.any isDigitByte)

def rule (byte : UInt8) (later : List UInt8) : Lexeme.Rule :=
  if isSpace byte then .spaces
  else if byte = '/'.toUInt8 ∧ later.head? = some '/'.toUInt8 then .lineComment
  else if byte = '#'.toUInt8 then .lineComment
  else if byte = '/'.toUInt8 ∧ later.head? = some '*'.toUInt8 then .blockComment
  else if byte = '\x27'.toUInt8 then .quoted .single
  else if byte = '\x22'.toUInt8 then .quoted .double
  else if byte = '('.toUInt8 then .single .openParenthesis
  else if byte = ')'.toUInt8 then .single .closeParenthesis
  else if byte = ','.toUInt8 then .single .comma
  else if byte = ';'.toUInt8 then .single .semicolon
  else if byte = '$'.toUInt8 then .variableName
  else if (byte = '-'.toUInt8 ∨ byte = '+'.toUInt8 ∨ byte = '.'.toUInt8) ∧
      startsNumber byte later then .numeral
  else if isDigitByte byte then .numeral
  else if isWordByte byte then .word
  else .single .other

def throughCommentEnd? : List UInt8 → Option Nat
  | [] => none
  | byte :: later =>
      if byte = '*'.toUInt8 ∧ later.head? = some '/'.toUInt8 then some 2
      else (throughCommentEnd? later).map (· + 1)

/-- How many bytes there are through the first mark that no backslash skips. A backslash skips one
byte. -/
def throughMark? (mark : UInt8) : List UInt8 → Option Nat
  | [] => none
  | byte :: later =>
      if byte = '\\'.toUInt8 then
        match later with
        | [] => none
        | _ :: behind => (throughMark? mark behind).map (· + 2)
      else if byte = mark then some 1
      else (throughMark? mark later).map (· + 1)

/-- What one reading takes: the kind, and the number of bytes behind the first one. -/
structure Reading where
  kind : LexemeKind
  more : Nat
  deriving DecidableEq

def Reading.run (kind : LexemeKind) (belongs : UInt8 → Bool) (later : List UInt8) : Reading :=
  ⟨kind, (later.takeWhile belongs).length⟩

def Reading.through (closed unclosed : LexemeKind) (length : Nat) : Option Nat → Reading
  | some count => ⟨closed, count⟩
  | none => ⟨unclosed, length⟩

/-- Reads a run that begins like a number; whether it is one is decided by counting on the slice. -/
def readNumeral? (overflow : Overflow) (text : Text) (position : Nat) (later : List UInt8) :
    Option Reading := do
  let numeral ← text.slice? position (position + 1 + (later.takeWhile isNumberByte).length)
  let accepted ← Numeral.countedAccepts? overflow numeral
  return Reading.run (if accepted then .number else .word) isNumberByte later

def read? (overflow : Overflow) (text : Text) (position : Nat) (later : List UInt8) :
    Lexeme.Rule → Option Reading
  | .spaces => some (.run .space isSpace later)
  | .lineComment => some ⟨.lineComment, later.length⟩
  | .blockComment =>
      some (.through (.blockComment true) (.blockComment false) later.length
        ((throughCommentEnd? later.tail).map (· + 1)))
  | .quoted quote =>
      some (.through (.quoted quote) .unclosedQuote later.length
        (throughMark? quote.mark.toUInt8 later))
  | .single kind => some ⟨kind, 0⟩
  | .variableName => some (.run .variableName isWordByte later)
  | .numeral => readNumeral? overflow text position later
  | .word => some (.run .word isWordByte later)

def lexemesFrom? (overflow : Overflow) (line : Nat) (text : Text) (position : Nat) :
    List UInt8 → Option (List LocatedLexeme)
  | [] => some []
  | byte :: later => do
      let reading ← read? overflow text position later (rule byte later)
      let slice ← text.slice? position (position + 1 + reading.more)
      let others ← lexemesFrom? overflow line text (position + 1 + reading.more)
        (later.drop reading.more)
      some (⟨⟨reading.kind, slice⟩, ⟨line, position + 1⟩⟩ :: others)
termination_by unread => unread.length
decreasing_by
  rw [List.length_drop, List.length_cons]
  omega

def lexemes? (overflow : Overflow) (line : Nat) (text : Text) : Option (List LocatedLexeme) :=
  lexemesFrom? overflow line text 0 (Text.Utf8.encode text)

end ByteReader

end ConfigConstants
