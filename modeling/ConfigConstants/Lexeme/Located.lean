import ConfigConstants.Lexeme.Cut

/-!
Lexemes with the place where they stand. Lines count from one; the column is one more than the
number of UTF-8 bytes in front of the lexeme on its line.
-/

set_option autoImplicit false

namespace ConfigConstants

structure Position where
  line : Nat
  column : Nat
  deriving DecidableEq, Repr

structure LocatedLexeme extends Lexeme where
  position : Position
  deriving DecidableEq, Repr

namespace Lexeme

/-- Places lexemes one behind the other, from the given column on. -/
def locate (line column : Nat) : List Lexeme → List LocatedLexeme
  | [] => []
  | lexeme :: later =>
      ⟨lexeme, ⟨line, column⟩⟩ :: locate line (column + lexeme.text.utf8Length) later

@[simp] theorem map_toLexeme_locate (line column : Nat) (lexemes : List Lexeme) :
    (locate line column lexemes).map LocatedLexeme.toLexeme = lexemes := by
  induction lexemes generalizing column with
  | nil => rfl
  | cons lexeme later ih => rw [locate, List.map_cons, ih]

theorem toLexeme_mem_of_mem_locate {line column : Nat} {lexemes : List Lexeme}
    {located : LocatedLexeme} (member : located ∈ locate line column lexemes) :
    located.toLexeme ∈ lexemes := by
  rw [← map_toLexeme_locate line column lexemes]
  exact List.mem_map_of_mem member

theorem locate_append (line column : Nat) (earlier later : List Lexeme) :
    locate line column (earlier ++ later) =
      locate line column earlier ++
        locate line (column + Text.utf8Length (earlier.flatMap Lexeme.text)) later := by
  induction earlier generalizing column with
  | nil => rfl
  | cons lexeme others ih =>
      rw [List.cons_append, locate, locate, ih, List.cons_append, List.flatMap_cons,
        Text.utf8Length_append, Nat.add_assoc]

theorem getElem?_locate (line column : Nat) (lexemes : List Lexeme) (index : Nat) :
    (locate line column lexemes)[index]? =
      (lexemes[index]?).map fun lexeme =>
        ⟨lexeme, ⟨line, column + Text.utf8Length ((lexemes.take index).flatMap Lexeme.text)⟩⟩ := by
  induction lexemes generalizing column index with
  | nil => rfl
  | cons lexeme later ih =>
      cases index with
      | zero => rfl
      | succ index =>
          rw [locate, List.getElem?_cons_succ, List.getElem?_cons_succ, ih, List.take_succ_cons,
            List.flatMap_cons, Text.utf8Length_append, Nat.add_assoc]

theorem line_of_mem_locate {line column : Nat} {lexemes : List Lexeme} {located : LocatedLexeme}
    (member : located ∈ locate line column lexemes) : located.position.line = line := by
  obtain ⟨index, atIndex⟩ := List.mem_iff_getElem?.mp member
  rw [getElem?_locate] at atIndex
  obtain ⟨lexeme, _, rfl⟩ := Option.map_eq_some_iff.mp atIndex
  rfl

end Lexeme

def locatedLexemes (line : Nat) (text : Text) : List LocatedLexeme :=
  Lexeme.locate line 1 (lexemes text)

end ConfigConstants
