/-!
Source text as a list of code points, with what the library needs of it: its length in UTF-8 bytes,
in which columns are counted; its spelling with ASCII letters in lower case, by which keywords are
compared; parts of it before and behind a mark; and the blanks that are trimmed from its ends.
-/

set_option autoImplicit false

namespace ConfigConstants

/-- A piece of source text, code point by code point. -/
abbrev Text := List Char

namespace Text

def utf8Length : Text → Nat
  | [] => 0
  | head :: tail => head.utf8Size + utf8Length tail

@[simp] theorem utf8Length_nil : utf8Length [] = 0 := rfl

@[simp] theorem utf8Length_cons (head : Char) (tail : Text) :
    utf8Length (head :: tail) = head.utf8Size + utf8Length tail := rfl

@[simp] theorem utf8Length_append (left right : Text) :
    utf8Length (left ++ right) = utf8Length left + utf8Length right := by
  induction left with
  | nil => simp
  | cons head tail ih =>
      rw [List.cons_append, utf8Length_cons, utf8Length_cons, ih, Nat.add_assoc]

theorem length_le_utf8Length (text : Text) : text.length ≤ utf8Length text := by
  induction text with
  | nil => simp
  | cons head tail ih =>
      have positive := head.utf8Size_pos
      simp only [List.length_cons, utf8Length_cons]
      omega

/-- The text behind its first `count` UTF-8 bytes; there is none if the text is shorter or the
offset lies inside a code point. -/
def dropUtf8? : Nat → Text → Option Text
  | 0, text => some text
  | _ + 1, [] => none
  | count + 1, head :: tail =>
      if head.utf8Size ≤ count + 1 then dropUtf8? (count + 1 - head.utf8Size) tail else none

theorem dropUtf8?_append (start rest : Text) :
    dropUtf8? (utf8Length start) (start ++ rest) = some rest := by
  induction start with
  | nil => simp [dropUtf8?]
  | cons head tail ih =>
      have positive := head.utf8Size_pos
      obtain ⟨count, same⟩ : ∃ count, utf8Length (head :: tail) = count + 1 :=
        ⟨utf8Length (head :: tail) - 1, by rw [utf8Length_cons]; omega⟩
      have fits : head.utf8Size ≤ count + 1 := by rw [← same, utf8Length_cons]; omega
      have remaining : count + 1 - head.utf8Size = utf8Length tail := by
        rw [← same, utf8Length_cons]; omega
      rw [same, List.cons_append, dropUtf8?, if_pos fits, remaining, ih]

/-- An offset is usable exactly when it ends a leading part of the text. -/
theorem dropUtf8?_eq_some {count : Nat} {text rest : Text}
    (dropped : dropUtf8? count text = some rest) :
    ∃ start, text = start ++ rest ∧ utf8Length start = count := by
  induction text generalizing count with
  | nil =>
      cases count with
      | zero => exact ⟨[], by simpa [dropUtf8?] using dropped⟩
      | succ count => simp [dropUtf8?] at dropped
  | cons head tail ih =>
      cases count with
      | zero => exact ⟨[], by simpa [dropUtf8?] using dropped⟩
      | succ count =>
          rw [dropUtf8?] at dropped
          split at dropped
          · next fits =>
              obtain ⟨start, tailEq, startLength⟩ := ih dropped
              refine ⟨head :: start, by rw [tailEq, List.cons_append], ?_⟩
              rw [utf8Length_cons, startLength]
              omega
          · contradiction

/-- The text with its ASCII letters in lower case and everything else kept. -/
def foldCase (text : Text) : Text :=
  text.map Char.toLower

@[simp] theorem foldCase_append (left right : Text) :
    foldCase (left ++ right) = foldCase left ++ foldCase right :=
  List.map_append

theorem eq_or_eq_of_toLower_eq {char lower upper : Char} (same : char.toLower = lower)
    (pair : upper.val + 32 = lower.val) : char = lower ∨ char = upper := by
  unfold Char.toLower at same
  split at same
  · right
    apply Char.ext
    have sum : char.val + 32 = lower.val := by rw [← same]; rfl
    exact (UInt32.add_left_inj 32).mp (sum.trans pair.symm)
  · exact Or.inl same

/-- What follows `word` at the start of the text, ASCII case ignored. -/
def afterWord? (word text : Text) : Option Text :=
  if foldCase (text.take word.length) = foldCase word then some (text.drop word.length) else none

theorem afterWord?_eq_some {word text rest : Text} (found : afterWord? word text = some rest) :
    ∃ spelling, text = spelling ++ rest ∧ foldCase spelling = foldCase word := by
  unfold afterWord? at found
  split at found
  · next same =>
      cases found
      exact ⟨text.take word.length, (List.take_append_drop _ _).symm, same⟩
  · contradiction

/-- The text without `mark` at its end; text that does not end in `mark` is kept. -/
def dropEnd (mark text : Text) : Text :=
  (mark.isSuffixOf? text).getD text

def occursIn (part : Text) : Text → Bool
  | [] => part.isEmpty
  | head :: tail => part.isPrefixOf (head :: tail) || occursIn part tail

theorem occursIn_iff {part text : Text} : occursIn part text = true ↔ part <:+: text := by
  induction text with
  | nil => cases part <;> simp [occursIn]
  | cons head tail ih =>
      rw [occursIn, Bool.or_eq_true, ih, List.isPrefixOf_iff_prefix, List.infix_cons_iff]

section Split

variable {α : Type} [DecidableEq α]

def splitAtFirst? (mark : α) : List α → Option (List α × List α)
  | [] => none
  | head :: tail =>
      if head = mark then some ([], tail)
      else (splitAtFirst? mark tail).map fun (before, behind) => (head :: before, behind)

theorem splitAtFirst?_eq_some_iff {mark : α} {text before behind : List α} :
    splitAtFirst? mark text = some (before, behind) ↔
      text = before ++ mark :: behind ∧ mark ∉ before := by
  induction text generalizing before with
  | nil => simp [splitAtFirst?]
  | cons head tail ih =>
      rw [splitAtFirst?]
      split
      · next same =>
          subst same
          cases before with
          | nil => simp [eq_comm]
          | cons first others =>
              simp only [Option.some.injEq, Prod.mk.injEq, List.nil_eq, reduceCtorEq, false_and,
                List.cons_append, List.cons.injEq, List.mem_cons, not_or, false_iff, not_and]
              rintro ⟨rfl, _⟩ distinct
              exact absurd rfl distinct
      · next differs =>
          cases before with
          | nil => simp [differs]
          | cons first others =>
              simp only [Option.map_eq_some_iff, Prod.mk.injEq, Prod.exists, List.cons.injEq,
                List.cons_append, List.mem_cons, not_or]
              constructor
              · rintro ⟨_, _, found, ⟨rfl, rfl⟩, rfl⟩
                obtain ⟨rfl, absent⟩ := ih.mp found
                exact ⟨⟨rfl, rfl⟩, fun same => differs same.symm, absent⟩
              · rintro ⟨⟨rfl, tailEq⟩, _, absent⟩
                exact ⟨others, behind, ih.mpr ⟨tailEq, absent⟩, ⟨rfl, rfl⟩, rfl⟩

theorem splitAtFirst?_eq_none_iff {mark : α} {text : List α} :
    splitAtFirst? mark text = none ↔ mark ∉ text := by
  induction text with
  | nil => simp [splitAtFirst?]
  | cons head tail ih =>
      rw [splitAtFirst?]
      split
      · next same => simp [same]
      · next differs => simp [ih, Ne.symm differs]

def splitAtLast? (mark : α) (text : List α) : Option (List α × List α) :=
  (splitAtFirst? mark text.reverse).map fun (behind, before) => (before.reverse, behind.reverse)

theorem splitAtLast?_eq_some_iff {mark : α} {text before behind : List α} :
    splitAtLast? mark text = some (before, behind) ↔
      text = before ++ mark :: behind ∧ mark ∉ behind := by
  simp only [splitAtLast?, Option.map_eq_some_iff, Prod.exists, Prod.mk.injEq,
    splitAtFirst?_eq_some_iff]
  constructor
  · rintro ⟨reversedBehind, reversedBefore, ⟨reversedEq, absent⟩, rfl, rfl⟩
    refine ⟨?_, by simpa using absent⟩
    rw [← List.reverse_reverse text, reversedEq]
    simp
  · rintro ⟨rfl, absent⟩
    exact ⟨behind.reverse, before.reverse, ⟨by simp, by simpa using absent⟩, by simp, by simp⟩

theorem splitAtLast?_eq_none_iff {mark : α} {text : List α} :
    splitAtLast? mark text = none ↔ mark ∉ text := by
  simp [splitAtLast?, splitAtFirst?_eq_none_iff]

end Split

/-- The property White_Space as inclusive ranges of code points. -/
def blankRanges : List (Nat × Nat) :=
  [(0x09, 0x0D), (0x20, 0x20), (0x85, 0x85), (0xA0, 0xA0), (0x1680, 0x1680), (0x2000, 0x200A),
    (0x2028, 0x2029), (0x202F, 0x202F), (0x205F, 0x205F), (0x3000, 0x3000)]

def isBlank (char : Char) : Bool :=
  blankRanges.any fun (first, last) => first ≤ char.toNat && char.toNat ≤ last

def trimStart (text : Text) : Text :=
  text.dropWhile isBlank

def trimEnd (text : Text) : Text :=
  (text.reverse.dropWhile isBlank).reverse

def trim (text : Text) : Text :=
  trimEnd (trimStart text)

theorem trimEnd_isPrefix (text : Text) : trimEnd text <+: text := by
  obtain ⟨blanks, reversed⟩ := List.dropWhile_suffix isBlank (l := text.reverse)
  exact ⟨blanks.reverse, by rw [trimEnd, ← List.reverse_append, reversed, List.reverse_reverse]⟩

theorem trim_isInfix (text : Text) : trim text <:+: text :=
  (trimEnd_isPrefix (trimStart text)).isInfix.trans (List.dropWhile_suffix isBlank).isInfix

end Text

end ConfigConstants
