import ConfigConstants.Proofs.Declaration.Placement
import ConfigConstants.Proofs.Lexeme.Locality

/-!
Stretches of neighbouring lexemes. What a lexeme can end in front of may be cut short, so whatever
stands behind a stretch can be taken away without a change to the stretch. The main statement says
that the text of a stretch is cut into the lexemes of the stretch again.
-/

set_option autoImplicit false

namespace ConfigConstants

theorem flatMap_text_take_append_drop (text : Text) (count : Nat) :
    ((lexemes text).take count).flatMap Lexeme.text ++
      ((lexemes text).drop count).flatMap Lexeme.text = text := by
  rw [← List.flatMap_append, List.take_append_drop, flatMap_text_lexemes]

theorem flatMap_text_take_isPrefix (text : Text) (count : Nat) :
    ((lexemes text).take count).flatMap Lexeme.text <+: text :=
  ⟨_, flatMap_text_take_append_drop text count⟩

/-- What a text holds up to the end of a lexeme is cut as it is in the text. -/
theorem lexemes_take (text : Text) (count : Nat) :
    lexemes (((lexemes text).take count).flatMap Lexeme.text) = (lexemes text).take count := by
  fun_induction lexemes text generalizing count with
  | case1 => simp
  | case2 head tail ih =>
      cases count with
      | zero => simp
      | succ count =>
          have ends := (Lexeme.cut_endsBefore_rest head tail).of_isPrefix
            (flatMap_text_take_isPrefix (Lexeme.cut head tail).rest count)
          rw [List.take_succ_cons, List.flatMap_cons, List.cons_append, lexemes_local ends, ih]

/-- What a text holds from the beginning of a lexeme on is cut as it is in the text. -/
theorem lexemes_drop (text : Text) (count : Nat) :
    lexemes (((lexemes text).drop count).flatMap Lexeme.text) = (lexemes text).drop count := by
  fun_induction lexemes text generalizing count with
  | case1 => simp
  | case2 head tail ih =>
      cases count with
      | zero =>
          rw [List.drop_zero, List.flatMap_cons, flatMap_text_lexemes, List.cons_append,
            Lexeme.cut_append, lexemes_cons]
      | succ count => rw [List.drop_succ_cons, ih]

theorem lexemes_extract (text : Text) (first last : Nat) :
    lexemes (((lexemes text).extract first last).flatMap Lexeme.text) =
      (lexemes text).extract first last := by
  have ofRest := lexemes_take (((lexemes text).drop first).flatMap Lexeme.text) (last - first)
  rw [lexemes_drop] at ofRest
  exact ofRest

theorem lexemes_text_of_mem {text : Text} {lexeme : Lexeme} (member : lexeme ∈ lexemes text) :
    lexemes lexeme.text = [lexeme] := by
  obtain ⟨front, back, whole⟩ := List.append_of_mem member
  have single := lexemes_extract text front.length (front.length + 1)
  rw [whole, List.extract_eq_take_drop, List.drop_left, Nat.add_sub_cancel_left,
    List.take_succ_cons, List.take_zero, List.flatMap_singleton] at single
  exact single

def Position.further (bytes : Nat) (position : Position) : Position :=
  ⟨position.line, position.column + bytes⟩

namespace Lexeme

theorem locate_add (line column bytes : Nat) (found : List Lexeme) :
    locate line (column + bytes) found =
      (locate line column found).map (LocatedLexeme.moved (Position.further bytes)) := by
  induction found generalizing column with
  | nil => rfl
  | cons lexeme later ih =>
      rw [locate, locate, List.map_cons, Nat.add_right_comm, ih]
      rfl

theorem take_locate (line column : Nat) (found : List Lexeme) (count : Nat) :
    (locate line column found).take count = locate line column (found.take count) := by
  induction found generalizing column count with
  | nil => simp [locate]
  | cons lexeme later ih =>
      cases count with
      | zero => rfl
      | succ count => rw [locate, List.take_succ_cons, List.take_succ_cons, locate, ih]

theorem drop_locate (line column : Nat) (found : List Lexeme) (count : Nat) :
    (locate line column found).drop count =
      locate line (column + Text.utf8Length ((found.take count).flatMap Lexeme.text))
        (found.drop count) := by
  induction found generalizing column count with
  | nil => simp [locate]
  | cons lexeme later ih =>
      cases count with
      | zero => rfl
      | succ count =>
          rw [locate, List.drop_succ_cons, List.drop_succ_cons, ih, List.take_succ_cons,
            List.flatMap_cons, Text.utf8Length_append, Nat.add_assoc]

end Lexeme

/-- For every text and any stretch of its lexemes, from one index up to another: the text of the
stretch is cut into these lexemes again, with the same kinds and texts, and they stand where they
stood but for the bytes in front of the stretch. So the text of one lexeme is that lexeme alone, and
a text that begins where a lexeme does holds the later ones. -/
theorem locatedLexemes_of_stretch (line : Nat) (text : Text) (first last : Nat) :
    ((locatedLexemes line text).extract first last =
      (locatedLexemes line (((lexemes text).extract first last).flatMap Lexeme.text)).map
        (LocatedLexeme.moved (Position.further
          (Text.utf8Length (((lexemes text).take first).flatMap Lexeme.text))))) ∧
    lexemes (((lexemes text).extract first last).flatMap Lexeme.text) =
      (lexemes text).extract first last ∧
    (∀ lexeme ∈ lexemes text, lexemes lexeme.text = [lexeme]) ∧
    lexemes (((lexemes text).drop first).flatMap Lexeme.text) = (lexemes text).drop first := by
  refine ⟨?_, lexemes_extract text first last, fun lexeme => lexemes_text_of_mem,
    lexemes_drop text first⟩
  rw [locatedLexemes, locatedLexemes, lexemes_extract, ← Lexeme.locate_add,
    List.extract_eq_take_drop, List.extract_eq_take_drop, Lexeme.drop_locate, Lexeme.take_locate]

end ConfigConstants
