import ConfigConstants.Text.Lines

/-!
The lines of a text together with what ends them. `lines` forgets the ends; here they are kept, so
that a text can be taken apart and put together again. The main statements say that nothing is lost
that way, and that a line with an end of its own is read back as that line, whatever follows.
-/

set_option autoImplicit false

namespace ConfigConstants

namespace Text

/-- What ends a line. Only the last line of a text can end with the text. -/
inductive LineEnd where
  | endOfText
  | newline
  | returnNewline
  deriving DecidableEq, Repr

def LineEnd.text : LineEnd → Text
  | .endOfText => []
  | .newline => ['\n']
  | .returnNewline => ['\r', '\n']

structure EndedLine where
  line : Text
  ending : LineEnd
  deriving DecidableEq, Repr

namespace EndedLine

def text (ended : EndedLine) : Text :=
  ended.line ++ ended.ending.text

/-- A carriage return directly before a line feed would belong to the line's end. -/
def Fits (ended : EndedLine) : Prop :=
  '\n' ∉ ended.line ∧ (ended.ending = .newline → ended.line.getLast? ≠ some '\r')

def prependToFirst (head : Char) : List EndedLine → List EndedLine
  | [] => [⟨[head], .endOfText⟩]
  | first :: others => ⟨head :: first.line, first.ending⟩ :: others

end EndedLine

def endedLines : Text → List EndedLine
  | [] => []
  | '\r' :: '\n' :: rest => ⟨[], .returnNewline⟩ :: endedLines rest
  | '\n' :: rest => ⟨[], .newline⟩ :: endedLines rest
  | head :: rest => EndedLine.prependToFirst head (endedLines rest)

/-- Each line fits its end, and no line follows one that ends with the text. -/
def WellEnded : List EndedLine → Prop
  | [] => True
  | first :: later =>
      first.Fits ∧ (first.ending = .endOfText → later = []) ∧ WellEnded later

theorem map_line_endedLines (text : Text) :
    (endedLines text).map EndedLine.line = lines text := by
  fun_induction endedLines text with
  | case1 => rfl
  | case2 rest ih => rw [List.map_cons, ih, lines]
  | case3 rest ih => rw [List.map_cons, ih]; simp [lines]
  | case4 head rest notPair notNewline ih =>
      rw [lines, ← ih]
      · cases endedLines rest <;> rfl
      · exact notPair
      · exact notNewline

theorem flatMap_text_endedLines (text : Text) :
    (endedLines text).flatMap EndedLine.text = text := by
  fun_induction endedLines text with
  | case1 => rfl
  | case2 rest ih => rw [List.flatMap_cons, ih]; rfl
  | case3 rest ih => rw [List.flatMap_cons, ih]; rfl
  | case4 head rest _ _ ih =>
      cases ended : endedLines rest with
      | nil =>
          rw [ended] at ih
          simp only [List.flatMap_nil] at ih
          rw [← ih]
          rfl
      | cons first others =>
          rw [ended] at ih
          rw [← ih]
          rfl

theorem wellEnded_endedLines (text : Text) : WellEnded (endedLines text) := by
  fun_induction endedLines text with
  | case1 => trivial
  | case2 rest ih => exact ⟨⟨by simp, by simp⟩, by simp, ih⟩
  | case3 rest ih => exact ⟨⟨by simp, by simp⟩, by simp, ih⟩
  | case4 head rest notPair notNewline ih =>
      have different : '\n' ≠ head := fun same => notNewline same.symm
      cases ended : endedLines rest with
      | nil =>
          exact ⟨⟨by simpa [EndedLine.prependToFirst] using different, by simp⟩, by simp, trivial⟩
      | cons first others =>
          rw [ended] at ih
          obtain ⟨⟨noNewline, noReturn⟩, isLast, laterEnded⟩ := ih
          refine ⟨⟨by simp [different, noNewline], ?_⟩, isLast, laterEnded⟩
          intro isNewline
          cases content : first.line with
          | cons next tail =>
              have noReturn := noReturn isNewline
              rw [content] at noReturn
              simpa [content, List.getLast?_cons_cons] using noReturn
          | nil =>
              -- a bare line feed comes next, so the head is no carriage return
              have restEq : rest = '\n' :: others.flatMap EndedLine.text := by
                rw [← flatMap_text_endedLines rest, ended, List.flatMap_cons, EndedLine.text,
                  content, isNewline]
                rfl
              have notReturn : head ≠ '\r' := fun same => notPair _ same restEq
              simpa [content] using notReturn

theorem wellEnded_of_append {front back : List EndedLine} (ended : WellEnded (front ++ back)) :
    WellEnded front := by
  induction front with
  | nil => trivial
  | cons first others ih =>
      obtain ⟨fits, isLast, laterEnded⟩ := ended
      refine ⟨fits, ?_, ih laterEnded⟩
      intro atEnd
      exact (List.append_eq_nil_iff.mp (isLast atEnd)).1

theorem ending_ne_endOfText {front back : List EndedLine} {next : EndedLine}
    (ended : WellEnded (front ++ next :: back)) :
    ∀ earlier ∈ front, earlier.ending ≠ .endOfText := by
  induction front with
  | nil => simp
  | cons first others ih =>
      obtain ⟨_, isLast, laterEnded⟩ := ended
      intro earlier member atEnd
      rcases List.mem_cons.mp member with same | later
      · rw [same] at atEnd
        simpa using isLast atEnd
      · exact ih laterEnded earlier later atEnd

/-- A line with an end of its own is read back, and the text behind it is read as if nothing stood
before. -/
theorem lines_append_ended {ended : EndedLine} (fits : ended.Fits)
    (notLast : ended.ending ≠ .endOfText) (rest : Text) :
    lines (ended.text ++ rest) = ended.line :: lines rest := by
  obtain ⟨line, ending⟩ := ended
  obtain ⟨noNewline, noReturn⟩ := fits
  simp only [EndedLine.text] at *
  induction line with
  | nil =>
      cases ending with
      | endOfText => contradiction
      | newline => simp [LineEnd.text, lines]
      | returnNewline => simp [LineEnd.text, lines]
  | cons head tail ih =>
      have headDiffers := List.ne_of_not_mem_cons noNewline
      have tailNoNewline := List.not_mem_of_not_mem_cons noNewline
      have unpaired : head = '\r' → (tail ++ ending.text ++ rest).head? ≠ some '\n' := by
        intro isReturn
        cases tail with
        | cons next others =>
            have nextDiffers : next ≠ '\n' := fun same => tailNoNewline (by rw [same]; simp)
            simpa using nextDiffers
        | nil =>
            cases ending with
            | endOfText => contradiction
            | newline => exact absurd (by rw [isReturn]; rfl) (noReturn rfl)
            | returnNewline => simp [LineEnd.text]
      have tailNoReturn : ending = .newline → tail.getLast? ≠ some '\r' := by
        intro isNewline
        have noReturn := noReturn isNewline
        cases tail with
        | nil => simp
        | cons next others => simpa [List.getLast?_cons_cons] using noReturn
      rw [List.cons_append, List.cons_append, lines_cons headDiffers.symm unpaired,
        ih tailNoNewline tailNoReturn]
      rfl

theorem lines_of_newline_notMem {line : Text} (noNewline : '\n' ∉ line) (nonempty : line ≠ []) :
    lines line = [line] := by
  induction line with
  | nil => contradiction
  | cons head tail ih =>
      have headDiffers := List.ne_of_not_mem_cons noNewline
      have tailNoNewline := List.not_mem_of_not_mem_cons noNewline
      have unpaired : head = '\r' → tail.head? ≠ some '\n' := by
        intro _ startsWithNewline
        exact tailNoNewline (List.mem_of_head? startsWithNewline)
      rw [lines_cons headDiffers.symm unpaired]
      cases tail with
      | nil => rfl
      | cons next others => rw [ih tailNoNewline (by simp)]; rfl

theorem lines_append {front : Text} (noNewline : '\n' ∉ front)
    (noReturn : front.getLast? ≠ some '\r') (nonempty : front ≠ []) (back : Text) :
    lines (front ++ back) = (front ++ (lines back).headD []) :: (lines back).tail := by
  induction front with
  | nil => contradiction
  | cons head tail ih =>
      have headDiffers := (List.ne_of_not_mem_cons noNewline).symm
      have tailNoNewline := List.not_mem_of_not_mem_cons noNewline
      cases tail with
      | nil =>
          have notReturn : head ≠ '\r' := by simpa using noReturn
          rw [List.cons_append, List.nil_append,
            lines_cons headDiffers fun isReturn => absurd isReturn notReturn]
          cases lines back <;> rfl
      | cons next others =>
          have unpaired : head = '\r' → (next :: others ++ back).head? ≠ some '\n' := by
            intro _ startsWithNewline
            exact tailNoNewline (List.mem_of_head? startsWithNewline)
          rw [List.getLast?_cons_cons] at noReturn
          rw [List.cons_append, lines_cons headDiffers unpaired,
            ih tailNoNewline noReturn (List.cons_ne_nil next others)]
          rfl

theorem isInfix_of_mem_lines {text line : Text} (member : line ∈ lines text) : line <:+: text := by
  rw [← map_line_endedLines] at member
  obtain ⟨ended, isEnded, rfl⟩ := List.mem_map.mp member
  obtain ⟨front, back, split⟩ := List.append_of_mem isEnded
  have whole := flatMap_text_endedLines text
  rw [split, List.flatMap_append, List.flatMap_cons, EndedLine.text] at whole
  refine ⟨front.flatMap EndedLine.text, ended.ending.text ++ back.flatMap EndedLine.text, ?_⟩
  rw [← whole]
  simp only [List.append_assoc]

end Text

end ConfigConstants
