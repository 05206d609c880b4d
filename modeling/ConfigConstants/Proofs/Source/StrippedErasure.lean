import ConfigConstants.Proofs.Comment.TransducedEnds
import ConfigConstants.Proofs.Source.Stripping

/-!
Stripping an erased line. Blanks and tags hold no mark of a comment, so they stand at the ends of
the erased line just where they stand at the ends of the line, save for those that a comment has
hidden. The main statement says that erasing and stripping can be done in either order.
-/

set_option autoImplicit false

namespace ConfigConstants

open CommentAutomaton

namespace Text

theorem isPlain_of_isBlank {char : Char} (blank : isBlank char = true) : IsPlain char :=
  isPlain_of_belongs blank (by decide) (by decide) (by intro quote; cases quote <;> decide)

theorem isInert_of_isBlank {char : Char} (blank : isBlank char = true) (notNewline : char ≠ '\n') :
    IsInert char :=
  ⟨ne_of_belongs blank (by decide), ne_of_belongs blank (by decide),
    ne_of_belongs blank (by decide), notNewline⟩

theorem trimStart_transduce (line : Text) :
    trimStart (transduce .code line) = transduce .code (trimStart line) := by
  have blank := forall_mem_takeWhile isBlank line
  have plain : ∀ char ∈ line.takeWhile isBlank, IsPlain char :=
    fun char member => isPlain_of_isBlank (blank char member)
  have outside : StartsOutside isBlank (transduce .code (trimStart line)) := by
    intro next isHead
    rw [head?_transduce_code] at isHead
    exact startsOutside_dropWhile isBlank line next isHead
  have whole : transduce .code line =
      line.takeWhile isBlank ++ transduce .code (trimStart line) := by
    have parts := transduce_append .code (line.takeWhile isBlank) (line.dropWhile isBlank)
    rw [List.takeWhile_append_dropWhile, transduce_code_of_isPlain plain,
      run_code_of_isPlain plain] at parts
    exact parts
  rw [whole]
  exact dropWhile_append_of_startsOutside blank outside

theorem exists_trimEnd_append (text : Text) :
    ∃ blanks, text = trimEnd text ++ blanks ∧ ∀ char ∈ blanks, isBlank char = true := by
  apply Exists.intro (text.reverse.takeWhile isBlank).reverse
  constructor
  · rw [trimEnd, ← List.reverse_append, List.takeWhile_append_dropWhile, List.reverse_reverse]
  · intro char member
    exact forall_mem_takeWhile isBlank text.reverse char (List.mem_reverse.mp member)

theorem startsOutside_reverse_trimEnd (text : Text) :
    StartsOutside isBlank (trimEnd text).reverse := by
  rw [trimEnd, List.reverse_reverse]
  exact startsOutside_dropWhile isBlank text.reverse

theorem trimEnd_transduce {line : Text} (noNewline : '\n' ∉ line) :
    trimEnd (transduce .code line) = transduce .code (trimEnd line) := by
  obtain ⟨blanks, lineEq, allBlank⟩ := exists_trimEnd_append line
  have frontNoNewline : '\n' ∉ trimEnd line :=
    fun member => noNewline (List.IsPrefix.subset (trimEnd_isPrefix line) member)
  have inert : ∀ char ∈ blanks, IsInert char := by
    intro char member
    apply isInert_of_isBlank (allBlank char member)
    intro isNewline
    apply noNewline
    rw [lineEq, ← isNewline]
    exact List.mem_append_right _ member
  have stillBlank : ∀ char ∈ transduce (run .code (trimEnd line)) blanks, isBlank char = true := by
    rw [transduce_of_isInert inert]
    split
    · exact List.forall_mem_nil _
    · exact allBlank
  have outside : StartsOutside isBlank (transduce .code (trimEnd line)).reverse := by
    intro last isLast
    rw [List.head?_reverse] at isLast
    have written := getLast?_transduce_code frontNoNewline
    cases isInside : (run .code (trimEnd line)).inComment with
    | true =>
        obtain ⟨mark, isMark, marks⟩ := written.1 isInside
        have same : mark = last := Option.some.inj (isMark.symm.trans isLast)
        rw [← same]
        rcases marks with slash | star | hash
        · rw [slash]; decide
        · rw [star]; decide
        · rw [hash]; decide
    | false =>
        rw [written.2 isInside, ← List.head?_reverse] at isLast
        exact startsOutside_reverse_trimEnd line last isLast
  have whole : transduce .code line = transduce .code (trimEnd line) ++
      transduce (run .code (trimEnd line)) blanks := by
    rw [← transduce_append, ← lineEq]
  rw [whole, trimEnd_append_of_blank _ stillBlank, trimEnd_of_startsOutside outside]

theorem trim_transduce {line : Text} (noNewline : '\n' ∉ line) :
    trim (transduce .code line) = transduce .code (trim line) := by
  have startNoNewline : '\n' ∉ trimStart line :=
    fun member => noNewline ((List.dropWhile_suffix isBlank).subset member)
  rw [trim, trimStart_transduce, trimEnd_transduce startNoNewline, trim]

/-- A word none of whose spellings holds a mark. -/
def HoldsNoMark (word : Text) : Prop :=
  '/' ∉ foldCase word ∧ '#' ∉ foldCase word ∧ ∀ quote : Quote, quote.mark ∉ foldCase word

theorem isPlain_of_toLower_mem {word : Text} (noMark : HoldsNoMark word) {char : Char}
    (member : char.toLower ∈ foldCase word) : IsPlain char := by
  obtain ⟨noSlash, noHash, noQuote⟩ := noMark
  refine ⟨?_, ?_, ?_⟩
  · intro isSlash
    rw [isSlash] at member
    exact noSlash member
  · intro isHash
    rw [isHash] at member
    exact noHash member
  · apply Option.eq_none_iff_forall_ne_some.mpr
    intro quote found
    rw [← Quote.mark_eq_of_ofMark? found] at member
    apply noQuote quote
    cases quote <;> exact member

theorem afterWord?_transduce {word : Text} (noMark : HoldsNoMark word) (line : Text) :
    afterWord? word (transduce .code line) = (afterWord? word line).map (transduce .code) := by
  induction word generalizing line with
  | nil => rw [afterWord?_nil_left, afterWord?_nil_left, Option.map_some]
  | cons first others ih =>
      cases line with
      | nil => rfl
      | cons head tail =>
          change afterWord? (first :: others) (head :: transduce (step .code head) tail) = _
          rw [afterWord?_cons_cons, afterWord?_cons_cons]
          by_cases sameFirst : head.toLower = first.toLower
          · have headPlain : IsPlain head := by
              apply isPlain_of_toLower_mem noMark
              rw [sameFirst]
              exact List.mem_cons_self
            have othersNoMark : HoldsNoMark others :=
              ⟨List.not_mem_of_not_mem_cons noMark.1, List.not_mem_of_not_mem_cons noMark.2.1,
                fun quote => List.not_mem_of_not_mem_cons (noMark.2.2 quote)⟩
            rw [if_pos sameFirst, if_pos sameFirst, step_code_of_isPlain headPlain]
            exact ih othersNoMark tail
          · rw [if_neg sameFirst, if_neg sameFirst, Option.map_none]

end Text

namespace SourceLine

theorem holdsNoMark_openTag : Text.HoldsNoMark openTag :=
  ⟨by decide, by decide, by intro quote; cases quote <;> decide⟩

theorem holdsNoMark_keyword : Text.HoldsNoMark ConstLine.keyword :=
  ⟨by decide, by decide, by intro quote; cases quote <;> decide⟩

theorem dropOpenTag_transduce (line : Text) :
    dropOpenTag (transduce .code line) = transduce .code (dropOpenTag line) := by
  unfold dropOpenTag
  rw [Text.afterWord?_transduce holdsNoMark_openTag]
  cases Text.afterWord? openTag line <;> rfl

theorem isInert_of_mem_closeTag {char : Char} (member : char ∈ closeTag) : IsInert char := by
  have either : char = '?' ∨ char = '>' := by simpa [closeTag] using member
  cases either with
  | inl isQuestion =>
      rw [isQuestion]
      exact ⟨by decide, by decide, by decide, by decide⟩
  | inr isGreater =>
      rw [isGreater]
      exact ⟨by decide, by decide, by decide, by decide⟩

theorem getLast?_transduce_ne_of_inComment {line : Text} (noNewline : '\n' ∉ line)
    (isInside : (run .code line).inComment = true) {char : Char} (inert : IsInert char) :
    (transduce .code line).getLast? ≠ some char := by
  obtain ⟨mark, isLast, isMark⟩ := (getLast?_transduce_code noNewline).1 isInside
  rw [isLast]
  intro same
  cases same
  rcases isMark with slash | star | hash
  · exact inert.1 slash
  · exact inert.2.2.1 star
  · exact inert.2.1 hash

theorem exists_concat_of_getLast?_transduce {line : Text} (noNewline : '\n' ∉ line) {last : Char}
    (inert : IsInert last) (isLast : (transduce .code line).getLast? = some last) :
    ∃ others, line = others ++ [last] ∧ (run .code others).inComment = false ∧
      transduce .code line = transduce .code others ++ [last] := by
  have outside : (run .code line).inComment = false := by
    cases isInside : (run .code line).inComment with
    | false => rfl
    | true => exact absurd isLast (getLast?_transduce_ne_of_inComment noNewline isInside inert)
  rw [(getLast?_transduce_code noNewline).2 outside] at isLast
  obtain ⟨others, rfl⟩ := List.getLast?_eq_some_iff.mp isLast
  rw [run_append, run_cons, run_nil, inComment_step inert] at outside
  refine ⟨others, rfl, outside, ?_⟩
  rw [transduce_append, transduce, emit_of_not_inComment outside]
  rfl

/-- A closing tag that a comment holds is not there any more, and the mark of that comment cannot be
taken for the end of one. -/
theorem dropCloseTag_transduce {line : Text} (noNewline : '\n' ∉ line) :
    dropCloseTag (transduce .code line) = transduce .code (dropCloseTag line) := by
  have questionInert : IsInert '?' := isInert_of_mem_closeTag (by decide)
  have greaterInert : IsInert '>' := isInert_of_mem_closeTag (by decide)
  by_cases hasTag : closeTag <:+ line
  · obtain ⟨before, lineEq⟩ := hasTag
    have beforeNoNewline : '\n' ∉ before := by
      intro member
      apply noNewline
      rw [← lineEq]
      exact List.mem_append_left _ member
    rw [← lineEq, dropCloseTag_append, transduce_append,
      transduce_of_isInert fun char member => isInert_of_mem_closeTag member]
    cases isInside : (run .code before).inComment with
    | false => exact dropCloseTag_append _
    | true =>
        rw [if_pos rfl, List.append_nil]
        exact dropCloseTag_of_getLast?
          (getLast?_transduce_ne_of_inComment beforeNoNewline isInside greaterInert)
  · rw [dropCloseTag_of_not_isSuffix hasTag]
    apply dropCloseTag_of_not_isSuffix
    intro isSuffix
    obtain ⟨before, written⟩ := isSuffix
    have lastWritten : (transduce .code line).getLast? = some '>' := by
      rw [← written]
      simp [closeTag]
    obtain ⟨others, rfl, _, copied⟩ :=
      exists_concat_of_getLast?_transduce noNewline greaterInert lastWritten
    have othersNoNewline : '\n' ∉ others := fun member => noNewline (List.mem_append_left _ member)
    have othersWritten : transduce .code others = before ++ ['?'] := by
      have sameEnd : transduce .code others ++ ['>'] = before ++ ['?'] ++ ['>'] := by
        rw [← copied, ← written]
        simp [closeTag]
      exact List.append_cancel_right sameEnd
    have questionWritten : (transduce .code others).getLast? = some '?' := by
      rw [othersWritten, List.getLast?_concat]
    obtain ⟨front, rfl, _, _⟩ :=
      exists_concat_of_getLast?_transduce othersNoNewline questionInert questionWritten
    exact hasTag ⟨front, by simp [closeTag]⟩

theorem strip_transduce {line : Text} (noNewline : '\n' ∉ line) :
    strip (transduce .code line) = transduce .code (strip line) := by
  have trimmed : '\n' ∉ Text.trim line :=
    fun member => noNewline ((Text.trim_isInfix line).subset member)
  have opened : '\n' ∉ dropOpenTag (Text.trim line) :=
    fun member => trimmed ((dropOpenTag_isSuffix _).subset member)
  have closed : '\n' ∉ dropCloseTag (dropOpenTag (Text.trim line)) :=
    fun member => opened ((dropCloseTag_isPrefix _).subset member)
  rw [strip, Text.trim_transduce noNewline, dropOpenTag_transduce, dropCloseTag_transduce opened,
    Text.trim_transduce closed, strip]

theorem newline_notMem_strip {line : Text} (noNewline : '\n' ∉ line) : '\n' ∉ strip line := by
  intro member
  apply noNewline
  apply (Text.trim_isInfix line).subset
  apply (dropOpenTag_isSuffix _).subset
  apply (dropCloseTag_isPrefix _).subset
  exact (Text.trim_isInfix _).subset member

/-- Erasing and stripping can be done in either order. -/
theorem strip_eraseVisible {line : Text} (noNewline : '\n' ∉ line) :
    strip (SourceComment.eraseVisible line) = SourceComment.eraseVisible (strip line) := by
  rw [← transduce_code_eq_eraseVisible noNewline, strip_transduce noNewline,
    transduce_code_eq_eraseVisible (newline_notMem_strip noNewline)]

end SourceLine

end ConfigConstants
