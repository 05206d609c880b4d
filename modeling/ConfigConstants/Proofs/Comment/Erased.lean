import ConfigConstants.Proofs.Lexeme.Locality
import ConfigConstants.Proofs.Lexeme.Members

/-!
A visible text with nothing left of its comments but their marks. The main statement says that the
erased text is cut into the same lexemes, each comment among them reduced to its marks.
-/

set_option autoImplicit false

namespace ConfigConstants

namespace Lexeme

/-- The text of a lexeme, of a comment only the marks. -/
def erased (lexeme : Lexeme) : Text :=
  match lexeme.kind with
  | .lineComment => if lexeme.text.head? = some '#' then ['#'] else ['/', '/']
  | .blockComment true => ['/', '*', '*', '/']
  | .blockComment false => ['/', '*']
  | _ => lexeme.text

def erase (lexeme : Lexeme) : Lexeme :=
  ⟨lexeme.kind, lexeme.erased⟩

theorem erased_of_not_isComment {lexeme : Lexeme} (notComment : lexeme.kind.isComment = false) :
    lexeme.erased = lexeme.text := by
  cases lexeme with
  | mk kind text => cases kind <;> first | rfl | contradiction

end Lexeme

namespace SourceComment

open Lexeme

def eraseVisible (visible : Text) : Text :=
  (lexemes visible).flatMap Lexeme.erased

@[simp] theorem eraseVisible_nil : eraseVisible [] = [] := by
  rw [eraseVisible, lexemes_nil, List.flatMap_nil]

theorem eraseVisible_cons (head : Char) (tail : Text) :
    eraseVisible (head :: tail) =
      Lexeme.erased ⟨(cut head tail).kind, head :: (cut head tail).body⟩ ++
        eraseVisible (cut head tail).rest := by
  rw [eraseVisible, lexemes_cons, List.flatMap_cons, eraseVisible]

theorem eraseVisible_of_no_comment {visible : Text}
    (noComment : ∀ lexeme ∈ lexemes visible, lexeme.kind.isComment = false) :
    eraseVisible visible = visible := by
  have sameTexts : (lexemes visible).map Lexeme.erased = (lexemes visible).map Lexeme.text := by
    apply List.map_congr_left
    intro lexeme member
    exact erased_of_not_isComment (noComment lexeme member)
  rw [eraseVisible, List.flatMap_def, sameTexts, ← List.flatMap_def, flatMap_text_lexemes]

theorem head?_eraseVisible (visible : Text) : (eraseVisible visible).head? = visible.head? := by
  cases visible with
  | nil => rw [eraseVisible_nil]
  | cons head tail =>
      rw [eraseVisible_cons]
      cases isComment : (cut head tail).kind.isComment with
      | false =>
          rw [erased_of_not_isComment isComment]
          rfl
      | true =>
          cases cut_of_isComment isComment with
          | inl line =>
              obtain ⟨starts, cutEq⟩ := line
              rw [cutEq]
              by_cases isHash : head = '#'
              · rw [isHash]
                rfl
              · have isSlash : head = '/' := (starts.resolve_left isHash).1
                rw [isSlash]
                rfl
          | inr block =>
              obtain ⟨isSlash, ⟨others, tailEq⟩, cutEq⟩ := block
              rw [cutEq, tailEq, isSlash, Cut.blockComment]
              cases throughCommentEnd? others <;> rfl

/-- Behind a point no comment is erased at once, so that one more code point stays. -/
theorem head?_tail_eraseVisible_point (behind : Text) :
    (eraseVisible ('.' :: behind)).tail.head? = behind.head? := by
  have notComment : (cut '.' behind).kind.isComment = false := by
    cases isComment : (cut '.' behind).kind.isComment with
    | false => rfl
    | true =>
        cases cut_of_isComment isComment with
        | inl line => exact absurd line.1 (by simp)
        | inr block => exact absurd block.1 (by decide)
  have parts := cut_append '.' behind
  rw [eraseVisible_cons, erased_of_not_isComment notComment, List.cons_append, List.tail_cons]
  cases body : (cut '.' behind).body with
  | nil =>
      rw [body, List.nil_append] at parts
      rw [List.nil_append, head?_eraseVisible, parts]
  | cons next others =>
      rw [body] at parts
      rw [← parts]
      rfl

theorem beginsNumeral_eraseVisible (head : Char) (rest : Text) :
    beginsNumeral head (eraseVisible rest) = beginsNumeral head rest := by
  apply beginsNumeral_congr (head?_eraseVisible rest)
  intro isPoint
  rw [head?_eraseVisible] at isPoint
  obtain ⟨behind, restEq⟩ := List.head?_eq_some_iff.mp isPoint
  rw [restEq, head?_tail_eraseVisible_point, List.tail_cons]

theorem startsOutside_eraseVisible {belongs : Char → Bool} {rest : Text}
    (outside : Text.StartsOutside belongs rest) :
    Text.StartsOutside belongs (eraseVisible rest) := by
  intro next isHead
  rw [head?_eraseVisible] at isHead
  exact outside next isHead

theorem endsBefore_eraseVisible {applied : Rule} {head : Char} {kind : LexemeKind} {rest : Text}
    (ends : applied.EndsBefore head kind rest) :
    applied.EndsBefore head kind (eraseVisible rest) := by
  have nothing (restEq : rest = []) : eraseVisible rest = [] := by
    rw [restEq, eraseVisible_nil]
  cases applied with
  | spaces | variableName | numeral | word => exact startsOutside_eraseVisible ends
  | lineComment => exact nothing ends
  | blockComment | quoted quote => exact ends.imp id nothing
  | single single =>
      cases single with
      | other =>
          change rule head (eraseVisible rest) = _
          rw [rule_congr (fun _ => head?_eraseVisible rest) (beginsNumeral_eraseVisible head rest)]
          exact ends
      | _ => trivial

/-- Erasing goes lexeme by lexeme and leaves their kinds. -/
theorem lexemes_eraseVisible (visible : Text) :
    lexemes (eraseVisible visible) = (lexemes visible).map Lexeme.erase := by
  fun_induction lexemes visible with
  | case1 => rw [eraseVisible_nil, lexemes_nil, List.map_nil]
  | case2 head tail ih =>
      rw [eraseVisible_cons, List.map_cons, ← ih, Lexeme.erase]
      cases isComment : (cut head tail).kind.isComment with
      | false =>
          rw [erased_of_not_isComment isComment, List.cons_append]
          exact lexemes_local (endsBefore_eraseVisible (cut_endsBefore_rest head tail))
      | true =>
          cases cut_of_isComment isComment with
          | inl line =>
              obtain ⟨starts, cutEq⟩ := line
              rw [cutEq, eraseVisible_nil, lexemes_nil, List.append_nil]
              by_cases isHash : head = '#'
              · rw [isHash]
                change lexemes ['#'] = [⟨.lineComment, ['#']⟩]
                rw [lexemes_cons]
                exact congrArg (List.cons _) lexemes_nil
              · have isSlash : head = '/' := (starts.resolve_left isHash).1
                rw [isSlash]
                change lexemes ['/', '/'] = [⟨.lineComment, ['/', '/']⟩]
                rw [lexemes_cons]
                exact congrArg (List.cons _) lexemes_nil
          | inr block =>
              obtain ⟨isSlash, ⟨others, tailEq⟩, cutEq⟩ := block
              rw [cutEq, tailEq, isSlash, Cut.blockComment]
              cases throughCommentEnd? others with
              | none =>
                  change lexemes (['/', '*'] ++ eraseVisible []) =
                    ⟨.blockComment false, ['/', '*']⟩ :: lexemes (eraseVisible [])
                  rw [eraseVisible_nil, List.append_nil, lexemes_cons]
                  rfl
              | some pair =>
                  change lexemes (['/', '*', '*', '/'] ++ eraseVisible pair.2) = _
                  rw [List.cons_append, lexemes_cons]
                  rfl

end SourceComment

end ConfigConstants
