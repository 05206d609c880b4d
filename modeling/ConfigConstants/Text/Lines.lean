import ConfigConstants.Text.Basic

/-!
Lines of a source text. A line ends at a line feed, and a carriage return directly before that line
feed belongs to the line's end; what follows the last line feed is a line of its own unless it is
empty.
-/

set_option autoImplicit false

namespace ConfigConstants

namespace Text

def prependToFirst (head : Char) : List Text → List Text
  | [] => [[head]]
  | first :: others => (head :: first) :: others

theorem prependToFirst_append (head : Char) {front : List Text} (nonempty : front ≠ [])
    (back : List Text) :
    prependToFirst head (front ++ back) = prependToFirst head front ++ back := by
  cases front with
  | nil => exact absurd rfl nonempty
  | cons first others => rfl

def lines : Text → List Text
  | [] => []
  | '\r' :: '\n' :: rest => [] :: lines rest
  | '\n' :: rest => [] :: lines rest
  | head :: rest => prependToFirst head (lines rest)

theorem lines_eq_nil_iff {text : Text} : lines text = [] ↔ text = [] := by
  fun_cases lines text with
  | case1 => simp
  | case2 => simp
  | case3 => simp
  | case4 head rest => cases lines rest <;> simp [prependToFirst]

theorem lines_cons {head : Char} {rest : Text} (notNewline : head ≠ '\n')
    (notPair : head = '\r' → rest.head? ≠ some '\n') :
    lines (head :: rest) = prependToFirst head (lines rest) := by
  rw [lines]
  · intro behind isReturn same
    subst same
    exact notPair isReturn rfl
  · exact notNewline

/-- A line feed ends a line whatever stands around it: the text behind it is cut into lines as if
nothing stood before. -/
theorem lines_append_newline (before behind : Text) :
    lines (before ++ '\n' :: behind) = lines (before ++ ['\n']) ++ lines behind := by
  fun_induction lines before with
  | case1 => simp [lines]
  | case2 rest ih => simp [lines, ih]
  | case3 rest ih => simp [lines, ih]
  | case4 head rest notPair notNewline ih =>
      cases rest with
      | nil =>
          by_cases isReturn : head = '\r'
          · subst isReturn
            simp [lines]
          · have unpaired (after : Text) : head = '\r' → ('\n' :: after).head? ≠ some '\n' :=
              fun same => absurd same isReturn
            simp only [List.cons_append, List.nil_append] at ih ⊢
            rw [lines_cons notNewline (unpaired behind), lines_cons notNewline (unpaired []), ih,
              prependToFirst_append head (by simp [lines_eq_nil_iff])]
      | cons next others =>
          have unpaired (after : Text) :
              head = '\r' → (next :: others ++ after).head? ≠ some '\n' := by
            intro isReturn startsWithNewline
            simp only [List.cons_append, List.head?_cons, Option.some.injEq] at startsWithNewline
            exact notPair others isReturn (by rw [startsWithNewline])
          change lines (head :: (next :: others ++ '\n' :: behind)) =
            lines (head :: (next :: others ++ ['\n'])) ++ lines behind
          rw [lines_cons notNewline (unpaired _), lines_cons notNewline (unpaired _), ih,
            prependToFirst_append head (by simp [lines_eq_nil_iff])]

theorem newline_notMem_of_mem_lines {text line : Text} (member : line ∈ lines text) :
    '\n' ∉ line := by
  fun_induction lines text generalizing line with
  | case1 => simp at member
  | case2 rest ih =>
      rcases List.mem_cons.mp member with rfl | later
      · simp
      · exact ih later
  | case3 rest ih =>
      rcases List.mem_cons.mp member with rfl | later
      · simp
      · exact ih later
  | case4 head rest _ notNewline ih =>
      have headDiffers : head ≠ '\n' := notNewline
      cases restLines : lines rest with
      | nil =>
          rw [restLines, prependToFirst] at member
          simp only [List.mem_singleton] at member
          subst member
          simpa using headDiffers.symm
      | cons first others =>
          rw [restLines, prependToFirst] at member
          rcases List.mem_cons.mp member with rfl | later
          · have absent : '\n' ∉ first := ih (by rw [restLines]; exact List.mem_cons_self)
            simp [headDiffers.symm, absent]
          · exact ih (by rw [restLines]; exact List.mem_cons_of_mem _ later)

end Text

end ConfigConstants
