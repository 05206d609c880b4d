import Mathlib.Data.List.Induction
import ConfigConstants.Proofs.Comment.Transducer

/-!
The two ends of an erased text. Its first code point is that of the text; its last one is that of
the text too, unless the text ends in a comment and the last thing written is a mark. A part without
marks is copied as a whole or left out as a whole.
-/

set_option autoImplicit false

namespace ConfigConstants

namespace CommentAutomaton

/-- A code point that no mark of a comment holds, on one line. -/
def IsInert (char : Char) : Prop :=
  char ≠ '/' ∧ char ≠ '#' ∧ char ≠ '*' ∧ char ≠ '\n'

theorem inComment_stepInCode {char : Char} (inert : IsInert char) :
    (stepInCode char).inComment = false := by
  unfold stepInCode
  rw [if_neg inert.1, if_neg inert.2.1]
  split <;> rfl

theorem inComment_step {char : Char} (inert : IsInert char) (state : State) :
    (step state char).inComment = state.inComment := by
  obtain ⟨notSlash, notHash, notStar, notNewline⟩ := inert
  rw [step_of_ne_newline notNewline]
  cases state with
  | code => exact inComment_stepInCode ⟨notSlash, notHash, notStar, notNewline⟩
  | slash =>
      rw [stepInLine, if_neg notSlash, if_neg notStar]
      exact inComment_stepInCode ⟨notSlash, notHash, notStar, notNewline⟩
  | lineComment => rfl
  | blockComment =>
      rw [stepInLine, if_neg notStar]
  | star =>
      rw [stepInLine, if_neg notSlash, if_neg notStar]
      rfl
  | quoted quote =>
      rw [stepInLine]
      split
      · rfl
      · split <;> rfl
  | escaped quote => rfl

theorem transduce_of_isInert {text : Text} (inert : ∀ char ∈ text, IsInert char) (state : State) :
    transduce state text = if state.inComment then [] else text := by
  induction text generalizing state with
  | nil => cases state.inComment <;> rfl
  | cons head tail ih =>
      have headInert := inert head List.mem_cons_self
      rw [transduce, ih (fun char member => inert char (List.mem_cons_of_mem head member)),
        inComment_step headInert]
      cases isInside : state.inComment with
      | false =>
          rw [emit_of_not_inComment isInside]
          rfl
      | true =>
          cases state with
          | star =>
              rw [emit, if_neg headInert.1]
              rfl
          | lineComment | blockComment => rfl
          | _ => contradiction

theorem head?_transduce_code (text : Text) : (transduce .code text).head? = text.head? := by
  cases text <;> rfl

theorem emit_of_inComment {state : State} (isInside : state.inComment = true) {char : Char}
    (notNewline : char ≠ '\n') :
    (emit state char = [] ∧ (step state char).inComment = true) ∨
      (char = '/' ∧ emit state char = ['*', '/'] ∧ (step state char).inComment = false) := by
  rw [step_of_ne_newline notNewline]
  cases state with
  | lineComment => exact Or.inl ⟨rfl, rfl⟩
  | blockComment =>
      left
      rw [stepInLine]
      split <;> exact ⟨rfl, rfl⟩
  | star =>
      by_cases isSlash : char = '/'
      · rw [isSlash]
        exact Or.inr ⟨rfl, rfl, rfl⟩
      · left
        rw [stepInLine, emit, if_neg isSlash, if_neg isSlash]
        split <;> exact ⟨rfl, rfl⟩
  | _ => contradiction

theorem mark_of_inComment_step {state : State} (outside : state.inComment = false) {char : Char}
    (notNewline : char ≠ '\n') (enters : (step state char).inComment = true) :
    char = '/' ∨ char = '*' ∨ char = '#' := by
  apply Decidable.byContradiction
  intro noMark
  simp only [not_or] at noMark
  have inert : IsInert char := ⟨noMark.1, noMark.2.2, noMark.2.1, notNewline⟩
  rw [inComment_step inert, outside] at enters
  contradiction

theorem getLast?_transduce_code {line : Text} (noNewline : '\n' ∉ line) :
    ((run .code line).inComment = true →
      ∃ mark, (transduce .code line).getLast? = some mark ∧
        (mark = '/' ∨ mark = '*' ∨ mark = '#')) ∧
    ((run .code line).inComment = false → (transduce .code line).getLast? = line.getLast?) := by
  induction line using List.reverseRecOn with
  | nil => exact ⟨fun isInside => absurd isInside Bool.false_ne_true, fun _ => rfl⟩
  | append_singleton others last ih =>
      have lastDiffers : last ≠ '\n' := by
        intro same
        exact noNewline (by simp [same])
      have inOthers := ih fun member => noNewline (List.mem_append_left _ member)
      rw [transduce_append, run_append, run_cons, run_nil, List.getLast?_concat, transduce,
        transduce, List.append_nil]
      cases isInside : (run .code others).inComment with
      | false =>
          rw [emit_of_not_inComment isInside, List.getLast?_concat]
          constructor
          · intro enters
            exact ⟨last, rfl, mark_of_inComment_step isInside lastDiffers enters⟩
          · exact fun _ => rfl
      | true =>
          cases emit_of_inComment isInside lastDiffers with
          | inl stays =>
              rw [stays.1, stays.2, List.append_nil]
              exact ⟨fun _ => inOthers.1 isInside,
                fun outside => absurd outside.symm Bool.false_ne_true⟩
          | inr leaves =>
              obtain ⟨rfl, closing, outside⟩ := leaves
              rw [closing, outside, List.getLast?_append]
              exact ⟨fun inside => absurd inside Bool.false_ne_true, fun _ => rfl⟩

end CommentAutomaton

end ConfigConstants
