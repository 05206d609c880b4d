import Mathlib.Data.List.Basic
import ConfigConstants.Proofs.Text.Runs
import ConfigConstants.Source.Line

/-!
What stripping leaves of a line. It takes blanks and tags from the two ends only, so what is left is
a part of the line, and a statement between blanks is left as it was written.
-/

set_option autoImplicit false

namespace ConfigConstants

namespace Text

theorem afterWord?_append (word rest : Text) : afterWord? word (word ++ rest) = some rest := by
  unfold afterWord?
  rw [List.take_left, if_pos rfl, List.drop_left]

theorem afterWord?_nil_left (text : Text) : afterWord? [] text = some text := by
  cases text <;> rfl

theorem afterWord?_cons_cons (first : Char) (others : Text) (head : Char) (tail : Text) :
    afterWord? (first :: others) (head :: tail) =
      if head.toLower = first.toLower then afterWord? others tail else none := by
  unfold afterWord? foldCase
  rw [List.length_cons, List.take_succ_cons, List.drop_succ_cons, List.map_cons, List.map_cons]
  by_cases sameFirst : head.toLower = first.toLower
  · rw [if_pos sameFirst, sameFirst]
    simp only [List.cons.injEq, true_and]
  · rw [if_neg sameFirst, if_neg]
    intro same
    exact sameFirst (List.cons.inj same).1

end Text

namespace SourceLine

theorem dropOpenTag_of_ne {first : Char} (notTag : first.toLower ≠ '<') (rest : Text) :
    dropOpenTag (first :: rest) = first :: rest := by
  have different : first.toLower ≠ '<'.toLower := notTag
  unfold dropOpenTag openTag
  rw [Text.afterWord?_cons_cons, if_neg different, Option.getD_none]

theorem dropOpenTag_isSuffix (text : Text) : dropOpenTag text <:+ text := by
  unfold dropOpenTag
  cases found : Text.afterWord? openTag text with
  | none => exact List.suffix_refl text
  | some rest =>
      obtain ⟨spelling, textEq, _⟩ := Text.afterWord?_eq_some found
      exact ⟨spelling, textEq.symm⟩

theorem dropCloseTag_append (text : Text) : dropCloseTag (text ++ closeTag) = text := by
  unfold dropCloseTag Text.dropEnd
  rw [List.isSuffixOf?_eq_some_iff_append_eq.mpr rfl, Option.getD_some]

theorem dropCloseTag_of_not_isSuffix {text : Text} (noTag : ¬ closeTag <:+ text) :
    dropCloseTag text = text := by
  unfold dropCloseTag Text.dropEnd
  cases found : closeTag.isSuffixOf? text with
  | none => rfl
  | some before => exact absurd ⟨before, List.isSuffixOf?_eq_some_iff_append_eq.mp found⟩ noTag

theorem dropCloseTag_of_getLast? {text : Text} (notTag : text.getLast? ≠ some '>') :
    dropCloseTag text = text := by
  apply dropCloseTag_of_not_isSuffix
  intro isSuffix
  obtain ⟨before, textEq⟩ := isSuffix
  rw [← textEq] at notTag
  simp [closeTag] at notTag

theorem dropCloseTag_isPrefix (text : Text) : dropCloseTag text <+: text := by
  by_cases hasTag : closeTag <:+ text
  · obtain ⟨before, textEq⟩ := hasTag
    rw [← textEq, dropCloseTag_append]
    exact List.prefix_append before closeTag
  · have kept := dropCloseTag_of_not_isSuffix hasTag
    exact kept.symm ▸ List.prefix_refl text

/-- A statement that begins like a word and ends with a semicolon is what is left of its line. -/
theorem strip_statement {indent : Text} (blank : ∀ char ∈ indent, Text.isBlank char = true)
    {first : Char} (notBlank : Text.isBlank first = false) (notTag : first.toLower ≠ '<')
    (inner : Text) :
    strip (indent ++ first :: (inner ++ [';'])) = first :: (inner ++ [';']) := by
  have start : Text.StartsOutside Text.isBlank (first :: (inner ++ [';'])) := by
    intro next isHead
    cases isHead
    exact notBlank
  have finish : Text.StartsOutside Text.isBlank (first :: (inner ++ [';'])).reverse := by
    intro next isHead
    rw [List.head?_reverse, ← List.cons_append, List.getLast?_concat] at isHead
    cases isHead
    decide
  have trimmed : Text.trim (first :: (inner ++ [';'])) = first :: (inner ++ [';']) :=
    Text.trim_of_startsOutside start finish
  have onLine : Text.trim (indent ++ first :: (inner ++ [';'])) = first :: (inner ++ [';']) := by
    have around :=
      Text.trim_append_of_blank blank (first :: (inner ++ [';'])) (List.forall_mem_nil _)
    rw [List.append_nil] at around
    rw [around, trimmed]
  have noTag : (first :: (inner ++ [';'])).getLast? ≠ some '>' := by
    rw [← List.cons_append, List.getLast?_concat]
    decide
  rw [strip, onLine, dropOpenTag_of_ne notTag, dropCloseTag_of_getLast? noTag, trimmed]

end SourceLine

end ConfigConstants
