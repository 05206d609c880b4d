import ConfigConstants.Proofs.Lexeme.Rules

/-!
What can be said of a lexeme by its membership in the lexemes of a text: it was cut from the front
of some end of that text, its own text stands there, and its kind tells how it begins.
-/

set_option autoImplicit false

namespace ConfigConstants

/-- Each lexeme of a text was cut from the front of some end of it. -/
theorem exists_cut_of_mem_lexemes {text : Text} {lexeme : Lexeme} (member : lexeme ∈ lexemes text) :
    ∃ head tail, head :: tail <:+ text ∧
      lexeme = ⟨(Lexeme.cut head tail).kind, head :: (Lexeme.cut head tail).body⟩ := by
  fun_induction lexemes text with
  | case1 => simp at member
  | case2 head tail ih =>
      rcases List.mem_cons.mp member with same | later
      · exact ⟨head, tail, List.suffix_refl _, same⟩
      · obtain ⟨next, behind, isSuffix, same⟩ := ih later
        refine ⟨next, behind, isSuffix.trans ?_, same⟩
        exact ⟨head :: (Lexeme.cut head tail).body, by rw [List.cons_append, Lexeme.cut_append]⟩

theorem text_isInfix_of_mem_lexemes {text : Text} {lexeme : Lexeme}
    (member : lexeme ∈ lexemes text) : lexeme.text <:+: text := by
  obtain ⟨head, tail, isSuffix, same⟩ := exists_cut_of_mem_lexemes member
  have isPrefix : head :: (Lexeme.cut head tail).body <+: head :: tail :=
    ⟨(Lexeme.cut head tail).rest, by rw [List.cons_append, Lexeme.cut_append]⟩
  rw [same]
  exact isPrefix.isInfix.trans isSuffix.isInfix

def LexemeKind.isComment : LexemeKind → Bool
  | .lineComment | .blockComment _ => true
  | _ => false

namespace Lexeme

theorem cut_of_isComment {head : Char} {tail : Text}
    (isComment : (cut head tail).kind.isComment = true) :
    ((head = '#' ∨ head = '/' ∧ tail.head? = some '/') ∧
      cut head tail = ⟨.lineComment, tail, []⟩) ∨
    (head = '/' ∧ (∃ others, tail = '*' :: others) ∧ cut head tail = Cut.blockComment tail) := by
  have applies := rule_applies head tail
  unfold cut at *
  generalize rule head tail = applied at *
  cases applied with
  | lineComment => exact Or.inl ⟨applies, rfl⟩
  | blockComment =>
      obtain ⟨isSlash, starts⟩ := applies
      exact Or.inr ⟨isSlash, List.head?_eq_some_iff.mp starts, rfl⟩
  | quoted quote =>
      cases found : throughQuote? quote tail <;>
        simp [Rule.cut, Cut.through, found, LexemeKind.isComment] at isComment
  | numeral =>
      simp only [Rule.cut, Cut.numeral, Cut.run] at isComment
      split at isComment <;> contradiction
  | single kind =>
      cases kind with
      | lineComment | blockComment closed => exact False.elim applies
      | _ => contradiction
  | spaces | variableName | word => contradiction

theorem cut_of_kind_eq_blockComment {head : Char} {tail : Text} {closed : Bool}
    (isBlock : (cut head tail).kind = .blockComment closed) :
    head = '/' ∧ ∃ inside, (cut head tail).body = '*' :: inside := by
  have isComment : (cut head tail).kind.isComment = true := by
    rw [isBlock]
    rfl
  cases cut_of_isComment isComment with
  | inl line =>
      rw [line.2] at isBlock
      contradiction
  | inr block =>
      obtain ⟨isSlash, ⟨others, tailEq⟩, cutEq⟩ := block
      subst tailEq
      rw [cutEq]
      exact ⟨isSlash, _, rfl⟩

end Lexeme

end ConfigConstants
