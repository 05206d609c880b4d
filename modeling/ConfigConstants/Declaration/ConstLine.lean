import ConfigConstants.Lexeme.Located

/-!
Declarations, and those of the form `const NAME = value;`, one to a line. The name ends at the first
equals sign and the value at the last semicolon behind it, whatever the value holds. A line that
cannot be split so has one flaw, the first of three that applies.
-/

set_option autoImplicit false

namespace ConfigConstants

structure Declaration where
  name : Text
  literal : Text
  position : Position
  deriving DecidableEq, Repr

/-- What is missing on a line that should declare a constant. -/
inductive ConstFlaw where
  | missingEquals
  | missingSemicolon
  | missingName
  deriving DecidableEq, Repr

namespace ConstFlaw

def reason : ConstFlaw → Text
  | .missingEquals => "missing '='".toList
  | .missingSemicolon => "missing ';'".toList
  | .missingName => "missing name".toList

end ConstFlaw

structure MalformedConst where
  flaw : ConstFlaw
  position : Position
  deriving DecidableEq, Repr

namespace MalformedConst

def describeKind (reason : Text) : Text :=
  "malformed const declaration: ".toList ++ reason

def describe (reason : Text) (position : Position) : Text :=
  describeKind reason ++ " at line ".toList ++ Nat.toDigits 10 position.line ++
    ", column ".toList ++ Nat.toDigits 10 position.column

def message (error : MalformedConst) : Text :=
  describe error.flaw.reason error.position

end MalformedConst

namespace ConstLine

def keyword : Text := ['c', 'o', 'n', 's', 't', ' ']

/-- The line before and behind its first equals sign. The keyword has to fit in front of it. -/
def splitAtEquals? (text : Text) : Option (Text × Text) :=
  (Text.splitAtFirst? '=' text).filter fun (before, _) =>
    decide (keyword.utf8Length ≤ before.utf8Length)

/-- The name in front of the equals sign, if there is one behind the keyword. What stands in the
keyword's place is not looked at, but it has to end between two code points. -/
def name? (before : Text) : Option Text :=
  ((Text.dropUtf8? keyword.utf8Length before).map Text.trim).filter fun name => !name.isEmpty

def read (line : Nat) (text : Text) : Except MalformedConst Declaration :=
  match splitAtEquals? text with
  | none => .error ⟨.missingEquals, ⟨line, 1⟩⟩
  | some (before, behind) =>
      match Text.splitAtLast? ';' behind with
      | none => .error ⟨.missingSemicolon, ⟨line, 1⟩⟩
      | some (literal, _) =>
          match name? before with
          | none => .error ⟨.missingName, ⟨line, 1⟩⟩
          | some name => .ok ⟨name, Text.trim literal, ⟨line, 1⟩⟩

end ConstLine

end ConfigConstants
