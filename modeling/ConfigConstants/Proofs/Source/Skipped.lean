import ConfigConstants.Proofs.Source.StrippedErasure
import ConfigConstants.Source.Line

/-!
What stands in front of the text that a line is read for. A comment from an earlier line, blanks, an
opening tag, and blanks behind the tag are skipped, and the text that is read follows on them.
-/

set_option autoImplicit false

namespace ConfigConstants

namespace SourceComment

def hiddenPart (hidden : Bool) (line : Text) : Text :=
  if hidden then ((Lexeme.throughCommentEnd? line).map Prod.fst).getD line else []

theorem hiddenPart_append_visible {hidden : Bool} {line visible : Text}
    (isVisible : visible? hidden line = some visible) :
    hiddenPart hidden line ++ visible = line := by
  cases hidden with
  | false => exact (Option.some.inj isVisible).symm
  | true =>
      obtain ⟨⟨inside, rest⟩, found, rfl⟩ := Option.map_eq_some_iff.mp isVisible
      rw [hiddenPart, if_pos rfl, found]
      exact Lexeme.throughCommentEnd?_append found

end SourceComment

namespace SourceLine

/-- The opening tag at the beginning of a text, as it is spelled there, or nothing. -/
def spelledOpenTag (text : Text) : Text :=
  if (Text.afterWord? openTag text).isSome then text.take openTag.length else []

def leading (line : Text) : Text :=
  line.takeWhile Text.isBlank ++ spelledOpenTag (Text.trim line) ++
    (dropCloseTag (dropOpenTag (Text.trim line))).takeWhile Text.isBlank

theorem spelledOpenTag_append_dropOpenTag (text : Text) :
    spelledOpenTag text ++ dropOpenTag text = text := by
  unfold spelledOpenTag dropOpenTag Text.afterWord?
  split
  · exact List.take_append_drop _ _
  · rfl

/-- The stripped text stands in its line, behind what stripping takes from the beginning. -/
theorem exists_leading_append_strip (line : Text) :
    ∃ trailing, line = leading line ++ strip line ++ trailing := by
  obtain ⟨blanksAtEnd, startEq, _⟩ := Text.exists_trimEnd_append (Text.trimStart line)
  obtain ⟨closing, tagEq⟩ := dropCloseTag_isPrefix (dropOpenTag (Text.trim line))
  obtain ⟨blanksInside, insideEq, _⟩ := Text.exists_trimEnd_append
    (Text.trimStart (dropCloseTag (dropOpenTag (Text.trim line))))
  have inner : dropCloseTag (dropOpenTag (Text.trim line)) =
      (dropCloseTag (dropOpenTag (Text.trim line))).takeWhile Text.isBlank ++ strip line ++
        blanksInside := by
    calc dropCloseTag (dropOpenTag (Text.trim line))
      _ = (dropCloseTag (dropOpenTag (Text.trim line))).takeWhile Text.isBlank ++
          Text.trimStart (dropCloseTag (dropOpenTag (Text.trim line))) :=
        List.takeWhile_append_dropWhile.symm
      _ = _ := by
        rw [insideEq, List.append_assoc]
        rfl
  apply Exists.intro (blanksInside ++ closing ++ blanksAtEnd)
  calc line
    _ = line.takeWhile Text.isBlank ++ Text.trimStart line :=
      List.takeWhile_append_dropWhile.symm
    _ = line.takeWhile Text.isBlank ++ (Text.trim line ++ blanksAtEnd) :=
      congrArg (line.takeWhile Text.isBlank ++ ·) startEq
    _ = line.takeWhile Text.isBlank ++ (spelledOpenTag (Text.trim line) ++
          (dropCloseTag (dropOpenTag (Text.trim line)) ++ closing) ++ blanksAtEnd) := by
      rw [tagEq, spelledOpenTag_append_dropOpenTag]
    _ = _ := by
      rw [leading]
      simp only [List.append_assoc]
      rw [← List.append_assoc _ (strip line), ← List.append_assoc _ blanksInside, ← inner]

end SourceLine

end ConfigConstants
