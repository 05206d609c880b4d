import ConfigConstants.Proofs.Declaration.Run
import ConfigConstants.Proofs.Source.Content

/-!
The reader of calls only hands positions on. Moving the places of all lexemes moves the places of
the outcomes and changes nothing else, so what the declared calls hold depends on the kinds and the
texts of the significant lexemes alone.
-/

set_option autoImplicit false

namespace ConfigConstants

variable (move : Position → Position)

def LocatedLexeme.moved (lexeme : LocatedLexeme) : LocatedLexeme :=
  ⟨lexeme.toLexeme, move lexeme.position⟩

def Declaration.moved (declaration : Declaration) : Declaration :=
  ⟨declaration.name, declaration.literal, move declaration.position⟩

namespace DefineCall

def OpenCall.moved : OpenCall → OpenCall
  | .afterWord => .afterWord
  | .afterParenthesis => .afterParenthesis
  | .afterKey key => .afterKey (key.moved move)
  | .afterComma key => .afterComma (key.moved move)
  | .afterValue key value => .afterValue (key.moved move) (value.moved move)

def Progress.moved : Progress → Progress
  | .goesOn call => .goesOn (call.moved move)
  | .completes declaration => .completes (declaration.moved move)

def Outcome.moved : Outcome → Outcome
  | .declared declaration => .declared (declaration.moved move)
  | .abandoned call breaking => .abandoned (call.moved move) (breaking.moved move)

theorem advance?_moved (lexeme : LocatedLexeme) (call : OpenCall) :
    advance? (lexeme.moved move) (call.moved move) =
      (advance? lexeme call).map (Progress.moved move) := by
  cases call with
  | afterWord | afterParenthesis | afterKey key | afterComma key | afterValue key value =>
      simp only [advance?, apply_ite (Option.map (Progress.moved move)), Option.map_some,
        Option.map_none]
      rfl

theorem begin?_moved (lexeme : LocatedLexeme) :
    begin? (lexeme.moved move) = (begin? lexeme).map (OpenCall.moved move) := by
  rw [begin?, begin?, apply_ite (Option.map (OpenCall.moved move))]
  rfl

theorem read_moved (lexeme : LocatedLexeme) (call : Option OpenCall) :
    read (lexeme.moved move) (call.map (OpenCall.moved move)) =
      ((read lexeme call).1.map (OpenCall.moved move),
        (read lexeme call).2.map (Outcome.moved move)) := by
  cases call with
  | none => rw [Option.map_none, read, read, begin?_moved, Option.map_none]
  | some openCall =>
      rw [Option.map_some, read, read, advance?_moved]
      cases advance? lexeme openCall with
      | none =>
          rw [begin?_moved]
          rfl
      | some progress => cases progress <;> rfl

theorem outcomesFrom_moved (call : Option OpenCall) (lexemes : List LocatedLexeme) :
    outcomesFrom (call.map (OpenCall.moved move)) (lexemes.map (LocatedLexeme.moved move)) =
      (outcomesFrom call lexemes).map (Outcome.moved move) := by
  induction lexemes generalizing call with
  | nil => rfl
  | cons lexeme later ih =>
      have sameKind : (lexeme.moved move).kind = lexeme.kind := rfl
      rw [List.map_cons, outcomesFrom, outcomesFrom, sameKind]
      split
      · exact ih call
      · rw [read_moved, ih, List.map_append]
        cases (read lexeme call).2 <;> rfl

/-- What the declared calls of a list hold, places aside. -/
def contents (lexemes : List LocatedLexeme) : List (Text × Text) :=
  ((outcomes lexemes).filterMap Outcome.declaration?).map Declaration.content

theorem contents_moved (lexemes : List LocatedLexeme) :
    contents (lexemes.map (LocatedLexeme.moved move)) = contents lexemes := by
  have moved := outcomesFrom_moved move none lexemes
  rw [Option.map_none] at moved
  unfold contents outcomes
  rw [moved]
  induction outcomesFrom none lexemes with
  | nil => rfl
  | cons outcome later ih =>
      cases outcome with
      | declared declaration => exact congrArg (List.cons _) ih
      | abandoned broken breaking => exact ih

theorem contents_significant (lexemes : List LocatedLexeme) :
    contents (significant lexemes) = contents lexemes := by
  unfold contents outcomes
  rw [outcomesFrom_significant]

theorem contents_of_map_toLexeme {left right : List LocatedLexeme}
    (same : (significant left).map LocatedLexeme.toLexeme =
      (significant right).map LocatedLexeme.toLexeme) : contents left = contents right := by
  -- put all lexemes into one place, where the two lists are equal
  have inOnePlace (lexemes : List LocatedLexeme) :
      lexemes.map (LocatedLexeme.moved fun _ => ⟨0, 0⟩) =
        (lexemes.map LocatedLexeme.toLexeme).map fun lexeme => ⟨lexeme, ⟨0, 0⟩⟩ := by
    rw [List.map_map]
    rfl
  rw [← contents_significant left, ← contents_significant right,
    ← contents_moved (fun _ => ⟨0, 0⟩) (significant left),
    ← contents_moved (fun _ => ⟨0, 0⟩) (significant right), inOnePlace, inOnePlace, same]

theorem map_toLexeme_significant (lexemes : List LocatedLexeme) :
    (significant lexemes).map LocatedLexeme.toLexeme =
      (lexemes.map LocatedLexeme.toLexeme).filter fun lexeme => !lexeme.kind.separates := by
  rw [significant, List.filter_map]
  rfl

/-- What the calls of lexemes hold depends on the lexemes that are no spaces or comments, not on
where they stand. -/
theorem contents_locate_of_filter {left right : List Lexeme}
    (same : (left.filter fun lexeme => !lexeme.kind.separates) =
      right.filter fun lexeme => !lexeme.kind.separates) (line column otherLine otherColumn : Nat) :
    contents (Lexeme.locate line column left) =
      contents (Lexeme.locate otherLine otherColumn right) := by
  apply contents_of_map_toLexeme
  rw [map_toLexeme_significant, map_toLexeme_significant, Lexeme.map_toLexeme_locate,
    Lexeme.map_toLexeme_locate, same]

theorem contents_locate (line column otherLine otherColumn : Nat) (found : List Lexeme) :
    contents (Lexeme.locate line column found) =
      contents (Lexeme.locate otherLine otherColumn found) :=
  contents_locate_of_filter rfl line column otherLine otherColumn

end DefineCall

end ConfigConstants
