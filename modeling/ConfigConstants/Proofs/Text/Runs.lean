import Mathlib.Data.List.TakeWhile
import ConfigConstants.Text.Basic

/-!
Runs of code points of one class at the ends of a text, with trimming as the case of blanks, and
lists cut at a separator. What is put around a text does not change its run as long as it begins
outside the class; blanks around a text do not change what trimming leaves. No part of a list that
is cut holds the separator, and around any one of the parts the list is what the others make.
-/

set_option autoImplicit false

namespace ConfigConstants

namespace Text

theorem ne_of_belongs {belongs : Char → Bool} {char other : Char} (inside : belongs char = true)
    (outside : belongs other = false) : char ≠ other := by
  intro same
  rw [same, outside] at inside
  contradiction

/-- Whether the text is empty or begins with a code point without the property. -/
def StartsOutside (belongs : Char → Bool) (text : Text) : Prop :=
  ∀ next, text.head? = some next → belongs next = false

theorem startsOutside_cons {belongs : Char → Bool} {head : Char} (outside : belongs head = false)
    (tail : Text) : StartsOutside belongs (head :: tail) := by
  intro next isHead
  cases isHead
  exact outside

theorem StartsOutside.append {belongs : Char → Bool} {left right : Text}
    (leftOutside : StartsOutside belongs left) (rightOutside : StartsOutside belongs right) :
    StartsOutside belongs (left ++ right) := by
  cases left with
  | nil => exact rightOutside
  | cons head tail => exact leftOutside

theorem StartsOutside.of_isPrefix {belongs : Char → Bool} {front rest : Text}
    (outside : StartsOutside belongs rest) (isPrefix : front <+: rest) :
    StartsOutside belongs front := by
  obtain ⟨behind, rfl⟩ := isPrefix
  intro next isHead
  apply outside next
  rw [List.head?_append, isHead, Option.some_or]

theorem takeWhile_append_of_startsOutside {belongs : Char → Bool} {run rest : Text}
    (inside : ∀ char ∈ run, belongs char = true) (outside : StartsOutside belongs rest) :
    (run ++ rest).takeWhile belongs = run := by
  rw [List.takeWhile_append_of_pos inside]
  cases rest with
  | nil => simp
  | cons next others => simp [outside next rfl]

theorem dropWhile_append_of_startsOutside {belongs : Char → Bool} {run rest : Text}
    (inside : ∀ char ∈ run, belongs char = true) (outside : StartsOutside belongs rest) :
    (run ++ rest).dropWhile belongs = rest := by
  rw [List.dropWhile_append_of_pos inside]
  cases rest with
  | nil => rfl
  | cons next others => simp [outside next rfl]

theorem startsOutside_dropWhile (belongs : Char → Bool) (text : Text) :
    StartsOutside belongs (text.dropWhile belongs) := by
  induction text with
  | nil => simp [StartsOutside]
  | cons head tail ih =>
      by_cases member : belongs head = true
      · simpa [member] using ih
      · intro next isHead
        simp only [List.dropWhile_cons, member, Bool.false_eq_true, if_false, List.head?_cons,
          Option.some.injEq] at isHead
        rw [← isHead]
        simpa using member

theorem forall_mem_takeWhile (belongs : Char → Bool) (text : Text) :
    ∀ char ∈ text.takeWhile belongs, belongs char = true :=
  List.all_eq_true.mp List.all_takeWhile

theorem trimStart_of_startsOutside {text : Text} (outside : StartsOutside isBlank text) :
    trimStart text = text := by
  cases text with
  | nil => rfl
  | cons head tail =>
      unfold trimStart
      rw [List.dropWhile_cons, outside head rfl]
      rfl

theorem trimEnd_of_startsOutside {text : Text} (outside : StartsOutside isBlank text.reverse) :
    trimEnd text = text := by
  have reversed := trimStart_of_startsOutside outside
  unfold trimStart at reversed
  rw [trimEnd, reversed, List.reverse_reverse]

theorem trim_of_startsOutside {text : Text} (start : StartsOutside isBlank text)
    (finish : StartsOutside isBlank text.reverse) : trim text = text := by
  rw [trim, trimStart_of_startsOutside start, trimEnd_of_startsOutside finish]

theorem trimEnd_append_of_blank (text : Text) {after : Text}
    (blank : ∀ char ∈ after, isBlank char = true) : trimEnd (text ++ after) = trimEnd text := by
  unfold trimEnd
  rw [List.reverse_append, List.dropWhile_append_of_pos]
  intro char member
  exact blank char (List.mem_reverse.mp member)

theorem trim_append_of_blank {before after : Text}
    (blankBefore : ∀ char ∈ before, isBlank char = true) (text : Text)
    (blankAfter : ∀ char ∈ after, isBlank char = true) :
    trim (before ++ text ++ after) = trim text := by
  have nothingLeft : trimStart after = [] := List.dropWhile_eq_nil_iff.mpr blankAfter
  unfold trim
  rw [List.append_assoc]
  unfold trimStart at *
  rw [List.dropWhile_append_of_pos blankBefore, List.dropWhile_append]
  split
  · next allBlank =>
      rw [nothingLeft, List.isEmpty_iff.mp allBlank]
  · exact trimEnd_append_of_blank _ blankAfter

section Parts

variable {α : Type}

theorem notMem_of_mem_splitOn [BEq α] [LawfulBEq α] {separator : α} {whole part : List α}
    (member : part ∈ whole.splitOn separator) : separator ∉ part := by
  induction whole generalizing part with
  | nil =>
      rw [List.splitOn_nil, List.mem_singleton] at member
      rw [member]
      exact List.not_mem_nil
  | cons head tail ih =>
      rw [List.splitOn_cons_eq_if_modifyHead] at member
      split at member
      · cases List.mem_cons.mp member with
        | inl isEmpty =>
            rw [isEmpty]
            exact List.not_mem_nil
        | inr later => exact ih later
      · next differs =>
          cases parts : tail.splitOn separator with
          | nil =>
              rw [parts] at member
              contradiction
          | cons first others =>
              rw [parts, List.modifyHead_cons, List.mem_cons] at member
              cases member with
              | inl isFirst =>
                  have firstWithout := ih (parts ▸ List.mem_cons_self)
                  rw [isFirst]
                  exact List.not_mem_cons_of_ne_of_not_mem
                    (fun same => differs (beq_iff_eq.mpr same.symm)) firstWithout
              | inr later => exact ih (parts ▸ List.mem_cons_of_mem first later)

theorem intercalate_cons (separator : α) (part : List α) (behind : List (List α)) :
    [separator].intercalate (part :: behind) = part ++ behind.flatMap (separator :: ·) := by
  induction behind generalizing part with
  | nil => simp [List.intercalate_singleton]
  | cons next others ih =>
      rw [List.intercalate_cons_cons, ih, List.flatMap_cons, List.append_assoc]
      rfl

theorem intercalate_append_cons (separator : α) (front : List (List α)) (part : List α)
    (behind : List (List α)) :
    [separator].intercalate (front ++ part :: behind) =
      front.flatMap (· ++ [separator]) ++ part ++ behind.flatMap (separator :: ·) := by
  induction front with
  | nil => exact intercalate_cons separator part behind
  | cons first others ih =>
      rw [List.cons_append, List.intercalate_cons_of_ne_nil (by simp), ih, List.flatMap_cons]
      simp only [List.append_assoc]

theorem eq_of_splitOn_eq_append_cons [BEq α] [LawfulBEq α] {separator : α} {whole part : List α}
    {front behind : List (List α)} (parts : whole.splitOn separator = front ++ part :: behind) :
    whole = front.flatMap (· ++ [separator]) ++ part ++ behind.flatMap (separator :: ·) := by
  rw [← intercalate_append_cons, ← parts, List.intercalate_splitOn]

end Parts

end Text

end ConfigConstants
