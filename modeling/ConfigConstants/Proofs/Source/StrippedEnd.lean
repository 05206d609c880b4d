import ConfigConstants.Proofs.Declaration.Mention
import ConfigConstants.Proofs.Lexeme.Locality
import ConfigConstants.Proofs.Source.Skipped

/-!
A text with something in front of it on its line. Only its end is stripped then, so the blanks and
the tag at its beginning are left to the lexer. The main statement says when that makes no
difference to the calls: what is left in front holds no word of a call, and it must not grow
together with the word that follows it.
-/

set_option autoImplicit false

namespace ConfigConstants

namespace Text

theorem trimEnd_append {front : Text} (finish : StartsOutside isBlank front.reverse)
    (text : Text) : trimEnd (front ++ text) = front ++ trimEnd text := by
  obtain ⟨blanks, textEq, blank⟩ := exists_trimEnd_append text
  have outside : StartsOutside isBlank (front ++ trimEnd text).reverse := by
    rw [List.reverse_append]
    exact (startsOutside_reverse_trimEnd text).append finish
  calc trimEnd (front ++ text)
    _ = trimEnd (front ++ trimEnd text ++ blanks) := by
      rw [List.append_assoc, ← textEq]
    _ = trimEnd (front ++ trimEnd text) := trimEnd_append_of_blank _ blank
    _ = front ++ trimEnd text := trimEnd_of_startsOutside outside

theorem startsOutside_trim (text : Text) : StartsOutside isBlank (trim text) := by
  obtain ⟨behind, whole⟩ := trimEnd_isPrefix (trimStart text)
  intro next isHead
  apply startsOutside_dropWhile isBlank text next
  change (trimStart text).head? = some next
  rw [← whole, List.head?_append]
  change (trim text).head?.or _ = _
  rw [isHead]
  rfl

theorem startsOutside_reverse_append_trim {text : Text} (nonempty : trim text ≠ [])
    (front : Text) : StartsOutside isBlank (front ++ trim text).reverse := by
  rw [List.reverse_append]
  intro last isLast
  rw [List.head?_append_of_ne_nil _ (by simpa using nonempty)] at isLast
  exact startsOutside_reverse_trimEnd (trimStart text) last isLast

end Text

namespace SourceLine

def stripEnd (text : Text) : Text :=
  Text.trimEnd (dropCloseTag (Text.trimEnd text))

theorem dropCloseTag_append_of_last {front : Text}
    (noPart : ∀ last, front.getLast? = some last → last ∉ closeTag) (text : Text) :
    dropCloseTag (front ++ text) = front ++ dropCloseTag text := by
  by_cases hasTag : closeTag <:+ text
  · obtain ⟨before, rfl⟩ := hasTag
    rw [← List.append_assoc, dropCloseTag_append, dropCloseTag_append]
  · rw [dropCloseTag_of_not_isSuffix hasTag, dropCloseTag_of_not_isSuffix]
    rintro ⟨before, same⟩
    rcases List.append_eq_append_iff.mp same with ⟨part, frontEq, tagEq⟩ | ⟨part, _, textEq⟩
    · rcases List.eq_nil_or_concat part with rfl | ⟨others, last, rfl⟩
      · exact hasTag ⟨[], tagEq⟩
      · apply noPart last
        · rw [frontEq, List.concat_eq_append, ← List.append_assoc, List.getLast?_concat]
        · rw [tagEq]
          simp
    · exact hasTag ⟨part, textEq.symm⟩

/-- Something that stripping cannot take anything from keeps the beginning of a text from being
stripped. -/
theorem strip_append {front : Text} {first last : Char} (isFirst : front.head? = some first)
    (firstNotBlank : Text.isBlank first = false) (notTag : first.toLower ≠ '<')
    (isLast : front.getLast? = some last) (lastNotBlank : Text.isBlank last = false)
    (noPart : last ∉ closeTag) (text : Text) :
    strip (front ++ text) = front ++ stripEnd text := by
  obtain ⟨others, rfl⟩ := List.head?_eq_some_iff.mp isFirst
  have start (behind : Text) : Text.StartsOutside Text.isBlank (first :: others ++ behind) := by
    intro next isHead
    cases isHead
    exact firstNotBlank
  have finish : Text.StartsOutside Text.isBlank (first :: others).reverse := by
    intro next isHead
    rw [List.head?_reverse, isLast] at isHead
    cases isHead
    exact lastNotBlank
  have lastNoPart : ∀ mark, (first :: others).getLast? = some mark → mark ∉ closeTag := by
    intro mark isMark
    rw [isLast] at isMark
    cases isMark
    exact noPart
  have trimmed (behind : Text) :
      Text.trim (first :: others ++ behind) = first :: others ++ Text.trimEnd behind := by
    rw [Text.trim, Text.trimStart_of_startsOutside (start behind), Text.trimEnd_append finish]
  rw [strip, trimmed, List.cons_append, dropOpenTag_of_ne notTag, ← List.cons_append,
    dropCloseTag_append_of_last lastNoPart, trimmed]
  rfl

theorem foldCase_spelledOpenTag (text : Text) :
    Text.foldCase (spelledOpenTag text) = openTag ∨ spelledOpenTag text = [] := by
  unfold spelledOpenTag Text.afterWord?
  split
  · next same => exact Or.inl same
  · exact Or.inr rfl

theorem getLast?_spelledOpenTag_notMem (text : Text) :
    ∀ last, (spelledOpenTag text).getLast? = some last → last ∉ closeTag := by
  intro last isLast member
  rcases foldCase_spelledOpenTag text with same | nothing
  · have foldedLast := congrArg List.getLast? same
    rw [Text.foldCase, List.getLast?_map, isLast] at foldedLast
    have either : last = '?' ∨ last = '>' := by simpa [closeTag] using member
    rcases either with rfl | rfl <;> exact absurd foldedLast (by decide)
  · rw [nothing] at isLast
    contradiction

theorem stripEnd_eq_trimEnd (text : Text) :
    stripEnd text = Text.trimEnd (leading text ++ strip text) := by
  obtain ⟨blanksAtEnd, startEq, blankAtEnd⟩ := Text.exists_trimEnd_append (Text.trimStart text)
  have blankAtStart := Text.forall_mem_takeWhile Text.isBlank text
  have textEq : text = text.takeWhile Text.isBlank ++ Text.trim text ++ blanksAtEnd := by
    calc text
      _ = text.takeWhile Text.isBlank ++ Text.trimStart text :=
        List.takeWhile_append_dropWhile.symm
      _ = text.takeWhile Text.isBlank ++ (Text.trim text ++ blanksAtEnd) :=
        congrArg (text.takeWhile Text.isBlank ++ ·) startEq
      _ = _ := (List.append_assoc _ _ _).symm
  have endEq : Text.trimEnd text =
      Text.trimEnd (text.takeWhile Text.isBlank ++ Text.trim text) :=
    (congrArg Text.trimEnd textEq).trans (Text.trimEnd_append_of_blank _ blankAtEnd)
  have blankNoPart : ∀ last, (text.takeWhile Text.isBlank).getLast? = some last →
      last ∉ closeTag := by
    intro last isLast member
    have blank := blankAtStart last (List.mem_of_getLast? isLast)
    have either : last = '?' ∨ last = '>' := by simpa [closeTag] using member
    rcases either with rfl | rfl <;> exact absurd blank (by decide)
  obtain ⟨blanksInside, insideEq, blankInside⟩ := Text.exists_trimEnd_append
    (Text.trimStart (dropCloseTag (dropOpenTag (Text.trim text))))
  by_cases allBlank : Text.trim text = []
  · -- there is no tag, and blanks are all that stands in front of nothing
    have nothing : Text.trimEnd (text.takeWhile Text.isBlank) = [] := by
      have trimmed := Text.trimEnd_append_of_blank [] blankAtStart
      rwa [List.nil_append] at trimmed
    have noTag : spelledOpenTag [] = [] := rfl
    have noText : dropCloseTag (dropOpenTag []) = [] := rfl
    have noLine : Text.trim [] = [] := rfl
    rw [stripEnd, endEq, leading, strip, allBlank, noTag, noText, noLine, List.takeWhile_nil]
    simp only [List.append_nil]
    rw [nothing]
    rfl
  · have finish := Text.startsOutside_reverse_append_trim allBlank (text.takeWhile Text.isBlank)
    calc stripEnd text
      _ = Text.trimEnd (dropCloseTag (text.takeWhile Text.isBlank ++ Text.trim text)) := by
        rw [stripEnd, endEq, Text.trimEnd_of_startsOutside finish]
      _ = Text.trimEnd (text.takeWhile Text.isBlank ++ (spelledOpenTag (Text.trim text) ++
            dropCloseTag (dropOpenTag (Text.trim text)))) := by
        rw [dropCloseTag_append_of_last blankNoPart,
          ← dropCloseTag_append_of_last (getLast?_spelledOpenTag_notMem _),
          spelledOpenTag_append_dropOpenTag]
      _ = Text.trimEnd (leading text ++
            Text.trimStart (dropCloseTag (dropOpenTag (Text.trim text)))) := by
        rw [leading, List.append_assoc, List.append_assoc, Text.trimStart,
          List.takeWhile_append_dropWhile]
      _ = Text.trimEnd (leading text ++ strip text) := by
        rw [insideEq, ← List.append_assoc, Text.trimEnd_append_of_blank _ blankInside]
        rfl

def isLeadingChar (char : Char) : Bool :=
  Text.isBlank char || openTag.contains char.toLower

theorem isLeadingChar_of_isBlank {char : Char} (blank : Text.isBlank char = true) :
    isLeadingChar char = true := by
  rw [isLeadingChar, blank, Bool.true_or]

theorem isLeadingChar_of_mem_leading {line : Text} :
    ∀ char ∈ leading line, isLeadingChar char = true := by
  intro char member
  rw [leading, List.mem_append, List.mem_append] at member
  rcases member with (outer | inTag) | inner
  · exact isLeadingChar_of_isBlank (Text.forall_mem_takeWhile _ _ char outer)
  · have folded : char.toLower ∈ Text.foldCase (spelledOpenTag (Text.trim line)) :=
      List.mem_map_of_mem inTag
    rcases foldCase_spelledOpenTag (Text.trim line) with same | nothing
    · rw [same] at folded
      rw [isLeadingChar, List.contains_iff_mem.mpr folded, Bool.or_true]
    · rw [nothing] at inTag
      contradiction
  · exact isLeadingChar_of_isBlank (Text.forall_mem_takeWhile _ _ char inner)

theorem isDigit_of_isLeadingChar {char : Char} (isLeading : isLeadingChar char = true) :
    char.isDigit = false := by
  cases isDigit : char.isDigit with
  | false => rfl
  | true =>
      have range : 48 ≤ char.toNat ∧ char.toNat ≤ 57 := by
        simpa [Char.isDigit, UInt32.le_iff_toNat_le] using isDigit
      rcases Bool.or_eq_true_iff.mp isLeading with blank | inTag
      · simp only [Text.isBlank, Text.blankRanges, List.any_cons, List.any_nil, Bool.or_false,
          Bool.or_eq_true, Bool.and_eq_true, decide_eq_true_eq] at blank
        omega
      · have kept : char.toLower = char := by
          apply dif_neg
          simp only [ge_iff_le, UInt32.le_iff_toNat_le]
          change ¬ (65 ≤ char.toNat ∧ char.toNat ≤ 90)
          omega
        have noDigit : openTag.any Char.isDigit = false := by decide
        rw [kept] at inTag
        exact absurd isDigit (List.any_eq_false.mp noDigit char (List.contains_iff_mem.mp inTag))

theorem toLower_ne_of_isLeadingChar {char : Char} (isLeading : isLeadingChar char = true) :
    char.toLower ≠ 'd' := by
  intro same
  rcases Text.eq_or_eq_of_toLower_eq same (show 'D'.val + 32 = 'd'.val by decide) with rfl | rfl
  · exact absurd isLeading (by decide)
  · exact absurd isLeading (by decide)

end SourceLine

namespace Lexeme

open Text (StartsOutside)
open SourceLine (isLeadingChar)

theorem endsBefore_of_isLeadingChar {head : Char} {tail text : Text}
    (isLeading : ∀ char ∈ head :: tail, isLeadingChar char = true)
    (noSpace : StartsOutside isSpace text)
    (apart : StartsOutside isWordChar (head :: tail).reverse ∨ StartsOutside isWordChar text) :
    (rule head tail).EndsBefore head (cut head tail).kind ((cut head tail).rest ++ text) := by
  have headLeading := isLeading head List.mem_cons_self
  have differs {other : Char} (notLeading : isLeadingChar other = false) : head ≠ other :=
    Text.ne_of_belongs headLeading notLeading
  have ends := cut_endsBefore_rest head tail
  have applies := rule_applies head tail
  cases applied : rule head tail with
  | spaces =>
      rw [applied] at ends
      exact ends.append noSpace
  | word =>
      rw [applied] at ends
      rcases apart with lastOutside | textOutside
      · intro next isHead
        cases restEq : (cut head tail).rest with
        | cons first others =>
            rw [restEq] at ends isHead
            exact ends next isHead
        | nil =>
            -- then the word runs to the end of the leading text, which ends in no word character
            have allWord : ∀ char ∈ head :: tail, isWordChar char = true := by
              rw [applied] at applies
              rw [cut, applied] at restEq
              intro char member
              rcases List.mem_cons.mp member with rfl | inTail
              · exact applies.1
              · exact List.dropWhile_eq_nil_iff.mp restEq char inTail
            have last : ((head :: tail).reverse).head? =
                some ((head :: tail).getLast (List.cons_ne_nil head tail)) := by
              rw [List.head?_reverse, List.getLast?_eq_some_getLast]
            have isWord := allWord _ (List.getLast_mem (List.cons_ne_nil head tail))
            rw [lastOutside _ last] at isWord
            contradiction
      · exact ends.append textOutside
  | single kind =>
      cases kind with
      | other =>
          apply Eq.trans (rule_eq_of_not_mem_lookahead _ _ tail) applied
          intro member
          have notLeading : isLeadingChar head = false :=
            eq_false_of_mem_lookahead (by decide) member
          rw [headLeading] at notLeading
          contradiction
      | _ => trivial
  -- what the other rules begin with is neither a blank nor a part of a tag
  | lineComment =>
      rw [applied] at applies
      rcases applies with isHash | ⟨isSlash, _⟩
      · exact absurd isHash (differs (by decide))
      · exact absurd isSlash (differs (by decide))
  | blockComment =>
      rw [applied] at applies
      exact absurd applies.1 (differs (by decide))
  | quoted quote =>
      rw [applied] at applies
      exact absurd applies (differs (by cases quote <;> decide))
  | variableName =>
      rw [applied] at applies
      exact absurd applies (differs (by decide))
  | numeral =>
      rw [applied] at applies
      have notSign : ¬ (head = '-' ∨ head = '+') :=
        not_or.mpr ⟨differs (by decide), differs (by decide)⟩
      have noNumeral := beginsNumeral_of_not_sign (differs (by decide)) notSign tail
      rw [show beginsNumeral head tail = true from applies,
        SourceLine.isDigit_of_isLeadingChar headLeading] at noNumeral
      contradiction

end Lexeme

namespace SourceLine

open Text (StartsOutside)

/-- A leading text and what follows it are cut apart, unless a word begins in one and goes on in the
other. -/
theorem lexemes_append_of_isLeadingChar {front text : Text}
    (isLeading : ∀ char ∈ front, isLeadingChar char = true)
    (noSpace : StartsOutside Lexeme.isSpace text)
    (apart : StartsOutside Lexeme.isWordChar front.reverse ∨
      StartsOutside Lexeme.isWordChar text) :
    lexemes (front ++ text) = lexemes front ++ lexemes text := by
  fun_induction lexemes front with
  | case1 => rfl
  | case2 head tail ih =>
      have parts := Lexeme.cut_append head tail
      have split := lexemes_local (Lexeme.endsBefore_of_isLeadingChar isLeading noSpace apart)
      have restApart : StartsOutside Lexeme.isWordChar (Lexeme.cut head tail).rest.reverse ∨
          StartsOutside Lexeme.isWordChar text := by
        refine apart.imp_left fun lastOutside next isHead => lastOutside next ?_
        rw [← parts, List.reverse_cons, List.reverse_append, List.append_assoc, List.head?_append,
          isHead]
        rfl
      rw [← List.append_assoc, parts] at split
      rw [List.cons_append, split, ih ?_ restApart, List.cons_append]
      intro char member
      apply isLeading
      rw [← parts]
      exact List.mem_cons_of_mem head (List.mem_append_right _ member)

theorem isDefineWord_of_isLeadingChar {front : Text}
    (isLeading : ∀ char ∈ front, isLeadingChar char = true) :
    ∀ lexeme ∈ lexemes front, DefineCall.isDefineWord lexeme = false := by
  intro lexeme member
  cases isWord : DefineCall.isDefineWord lexeme with
  | false => rfl
  | true =>
      have mention := DefineCall.occursIn_of_isDefineWord isWord
        (text_isInfix_of_mem_lexemes member)
      have folded : 'd' ∈ Text.foldCase front :=
        (Text.occursIn_iff.mp mention).subset List.mem_cons_self
      obtain ⟨char, inFront, same⟩ := List.mem_map.mp folded
      exact absurd same (toLower_ne_of_isLeadingChar (isLeading char inFront))

/-- Whether the text that is left of a line does not grow together with a word in front of it. -/
def StandsApart (line : Text) : Prop :=
  Text.StartsOutside Lexeme.isWordChar (leading line).reverse ∨
    Text.StartsOutside Lexeme.isWordChar (strip line)

theorem startsOutside_isSpace_strip (line : Text) :
    Text.StartsOutside Lexeme.isSpace (strip line) := by
  intro next isHead
  have notBlank := Text.startsOutside_trim _ next isHead
  cases isSpace : Lexeme.isSpace next with
  | false => rfl
  | true =>
      have either : ((next = ' ' ∨ next = '\t') ∨ next = '\r') ∨ next = '\n' := by
        simpa [Lexeme.isSpace] using isSpace
      rcases either with ((rfl | rfl) | rfl) | rfl <;> exact absurd notBlank (by decide)

/-- The calls of a line are the same when its beginning is not stripped. -/
theorem contents_stripEnd {line : Text} (apart : StandsApart line) (number : Nat) :
    DefineCall.contents (locatedLexemes number (stripEnd line)) =
      DefineCall.contents (locatedLexemes number (strip line)) := by
  rw [stripEnd_eq_trimEnd]
  by_cases nothing : strip line = []
  · have noWord : ∀ lexeme ∈ lexemes (Text.trimEnd (leading line)),
        DefineCall.isDefineWord lexeme = false := by
      apply isDefineWord_of_isLeadingChar
      intro char member
      exact isLeadingChar_of_mem_leading char ((Text.trimEnd_isPrefix _).subset member)
    have withoutFront := DefineCall.contents_locate_append noWord number 1 []
    rw [List.append_nil] at withoutFront
    rw [nothing, List.append_nil, locatedLexemes, locatedLexemes, lexemes_nil, withoutFront]
  · have finish : Text.StartsOutside Text.isBlank (leading line ++ strip line).reverse :=
      Text.startsOutside_reverse_append_trim nothing (leading line)
    rw [Text.trimEnd_of_startsOutside finish, locatedLexemes,
      lexemes_append_of_isLeadingChar isLeadingChar_of_mem_leading
        (startsOutside_isSpace_strip line) apart,
      DefineCall.contents_locate_append
        (isDefineWord_of_isLeadingChar isLeadingChar_of_mem_leading)]
    rfl

end SourceLine

end ConfigConstants
