import ConfigConstants.Lexeme.Basic

/-!
Where a block comment and a quoted text end, said without a search. A comment ends with the first
`*/`. A quoted text ends with the first mark that no backslash skips, where a backslash that is not
skipped itself skips the code point behind it. The main statements say that the two searches find
these ends and no others.
-/

set_option autoImplicit false

namespace ConfigConstants

/-- What can stand between the marks of a quote: code points other than the mark and the backslash,
and backslashes with the code point that each of them skips. -/
inductive QuotedBody (quote : Quote) : Text → Prop
  | nil : QuotedBody quote []
  | plain {char : Char} {later : Text} : char ≠ '\\' → char ≠ quote.mark →
      QuotedBody quote later → QuotedBody quote (char :: later)
  | skipped {char : Char} {later : Text} :
      QuotedBody quote later → QuotedBody quote ('\\' :: char :: later)

theorem QuotedBody.of_notMem {quote : Quote} {inner : Text} (noMark : quote.mark ∉ inner)
    (noBackslash : '\\' ∉ inner) : QuotedBody quote inner := by
  induction inner with
  | nil => exact .nil
  | cons head tail ih =>
      exact .plain (List.ne_of_not_mem_cons noBackslash).symm (List.ne_of_not_mem_cons noMark).symm
        (ih (List.not_mem_of_not_mem_cons noMark) (List.not_mem_of_not_mem_cons noBackslash))

namespace Lexeme

theorem throughCommentEnd?_cons {head : Char} {tail : Text}
    (noEnd : ¬ ['*', '/'] <+: head :: tail) :
    throughCommentEnd? (head :: tail) =
      (throughCommentEnd? tail).map fun (inside, rest) => (head :: inside, rest) := by
  rw [throughCommentEnd?]
  intro others isStar tailEq
  rw [isStar, tailEq] at noEnd
  exact noEnd ⟨others, rfl⟩

theorem not_prefix_cons {head : Char} {tail : Text}
    (notEnd : ∀ others, head = '*' → tail = '/' :: others → False) :
    ¬ ['*', '/'] <+: head :: tail := by
  rintro ⟨others, same⟩
  cases same
  exact notEnd others rfl rfl

theorem throughCommentEnd?_eq_none_iff {text : Text} :
    throughCommentEnd? text = none ↔ ¬ ['*', '/'] <:+: text := by
  fun_induction throughCommentEnd? text with
  | case1 => simp
  | case2 rest =>
      have hasEnd : ['*', '/'] <:+: '*' :: '/' :: rest := ⟨[], rest, rfl⟩
      exact iff_of_false (Option.some_ne_none _) (not_not_intro hasEnd)
  | case3 head tail notEnd ih =>
      rw [Option.map_eq_none_iff, ih, List.infix_cons_iff]
      simp only [not_prefix_cons notEnd, false_or]

/-- The `*/` that is found is the first one: none begins in front of it. -/
theorem throughCommentEnd?_eq_some_iff {text inside rest : Text} :
    throughCommentEnd? text = some (inside, rest) ↔
      ∃ body, inside = body ++ ['*', '/'] ∧ text = inside ++ rest ∧
        ¬ ['*', '/'] <:+: body ++ ['*'] := by
  have upToStar (body behind : Text) : body ++ ['*'] <+: body ++ ['*', '/'] ++ behind :=
    ⟨'/' :: behind, by simp⟩
  constructor
  · intro found
    fun_induction throughCommentEnd? text generalizing inside with
    | case1 => contradiction
    | case2 others =>
        cases found
        exact ⟨[], rfl, rfl, by decide⟩
    | case3 head tail notEnd ih =>
        obtain ⟨⟨tailInside, tailRest⟩, tailFound, same⟩ := Option.map_eq_some_iff.mp found
        cases same
        obtain ⟨body, rfl, rfl, noEnd⟩ := ih tailFound
        refine ⟨head :: body, rfl, rfl, ?_⟩
        rw [List.cons_append, List.infix_cons_iff, not_or]
        refine ⟨?_, noEnd⟩
        intro startsEnd
        exact not_prefix_cons notEnd
          (startsEnd.trans ((List.prefix_cons_inj head).mpr (upToStar body rest)))
  · rintro ⟨body, rfl, rfl, noEnd⟩
    induction body with
    | nil => rfl
    | cons head body ih =>
        rw [List.cons_append, List.infix_cons_iff, not_or] at noEnd
        have noEndHere : ¬ ['*', '/'] <+: head :: (body ++ ['*', '/'] ++ rest) := by
          intro startsEnd
          apply noEnd.1
          apply List.prefix_of_prefix_length_le startsEnd
            ((List.prefix_cons_inj head).mpr (upToStar body rest))
          simp
        rw [List.cons_append, List.cons_append, throughCommentEnd?_cons noEndHere, ih noEnd.2]
        rfl

theorem throughCommentEnd?_append_of_notMem {after : Text} (noSlash : '/' ∉ after) (line : Text) :
    throughCommentEnd? (line ++ after) =
      (throughCommentEnd? line).map fun (inside, rest) => (inside, rest ++ after) := by
  fun_induction throughCommentEnd? line with
  | case1 =>
      rw [List.nil_append, Option.map_none]
      induction after with
      | nil => rfl
      | cons head tail ih =>
          have tailNoSlash := List.not_mem_of_not_mem_cons noSlash
          rw [throughCommentEnd?, ih tailNoSlash, Option.map_none]
          intro rest _ startsSlash
          exact tailNoSlash (by rw [startsSlash]; exact List.mem_cons_self)
  | case2 rest => rfl
  | case3 head tail notEnd ih =>
      rw [List.cons_append, throughCommentEnd?, ih, Option.map_map, Option.map_map]
      · rfl
      · intro rest isStar startsSlash
        cases tail with
        | nil =>
            rw [List.nil_append] at startsSlash
            exact noSlash (by rw [startsSlash]; exact List.mem_cons_self)
        | cons next others =>
            rw [List.cons_append, List.cons.injEq] at startsSlash
            exact notEnd others isStar (by rw [startsSlash.1])

variable {quote : Quote}

theorem throughQuote?_cons {head : Char} (notBackslash : head ≠ '\\') (tail : Text) :
    throughQuote? quote (head :: tail) =
      if head = quote.mark then some ([head], tail)
      else (throughQuote? quote tail).map fun (inside, rest) => (head :: inside, rest) := by
  rw [throughQuote?]
  intro skipped others isBackslash
  contradiction

theorem throughQuote?_of_quotedBody {body : Text} (isBody : QuotedBody quote body) (rest : Text) :
    throughQuote? quote (body ++ rest) =
      (throughQuote? quote rest).map fun (inside, behind) => (body ++ inside, behind) := by
  induction isBody with
  | nil => exact Option.map_id'.symm
  | plain notBackslash notMark _ ih =>
      rw [List.cons_append, throughQuote?_cons notBackslash, if_neg notMark, ih, Option.map_map]
      rfl
  | skipped _ ih =>
      rw [List.cons_append, List.cons_append, throughQuote?, ih, Option.map_map]
      rfl

theorem throughQuote?_eq_none_iff {text : Text} :
    throughQuote? quote text = none ↔
      ∃ body dangling, text = body ++ dangling ∧ QuotedBody quote body ∧
        (dangling = [] ∨ dangling = ['\\']) := by
  constructor
  · intro absent
    fun_induction throughQuote? quote text with
    | case1 => exact ⟨[], [], rfl, .nil, Or.inl rfl⟩
    | case2 skipped tail ih =>
        obtain ⟨body, dangling, rfl, isBody, atEnd⟩ := ih (Option.map_eq_none_iff.mp absent)
        exact ⟨'\\' :: skipped :: body, dangling, rfl, .skipped isBody, atEnd⟩
    | case3 tail notSkipped => contradiction
    | case4 head tail notSkipped notMark ih =>
        obtain ⟨body, dangling, rfl, isBody, atEnd⟩ := ih (Option.map_eq_none_iff.mp absent)
        by_cases isBackslash : head = '\\'
        · cases nothingBehind : body ++ dangling with
          | nil => exact ⟨[], ['\\'], by rw [isBackslash]; rfl, .nil, Or.inr rfl⟩
          | cons next others => exact False.elim (notSkipped next others isBackslash nothingBehind)
        · exact ⟨head :: body, dangling, rfl, .plain isBackslash notMark isBody, atEnd⟩
  · rintro ⟨body, dangling, rfl, isBody, atEnd⟩
    rw [throughQuote?_of_quotedBody isBody, Option.map_eq_none_iff]
    rcases atEnd with rfl | rfl
    · rfl
    · cases quote <;> rfl

theorem throughQuote?_eq_some_iff {text inside rest : Text} :
    throughQuote? quote text = some (inside, rest) ↔
      ∃ body, inside = body ++ [quote.mark] ∧ text = inside ++ rest ∧ QuotedBody quote body := by
  constructor
  · intro found
    fun_induction throughQuote? quote text generalizing inside with
    | case1 => contradiction
    | case2 skipped tail ih =>
        obtain ⟨⟨tailInside, tailRest⟩, tailFound, same⟩ := Option.map_eq_some_iff.mp found
        cases same
        obtain ⟨body, rfl, rfl, isBody⟩ := ih tailFound
        exact ⟨'\\' :: skipped :: body, rfl, rfl, .skipped isBody⟩
    | case3 tail notSkipped =>
        cases found
        exact ⟨[], rfl, rfl, .nil⟩
    | case4 head tail notSkipped notMark ih =>
        obtain ⟨⟨tailInside, tailRest⟩, tailFound, same⟩ := Option.map_eq_some_iff.mp found
        cases same
        obtain ⟨body, rfl, rfl, isBody⟩ := ih tailFound
        have notBackslash : head ≠ '\\' := by
          intro isBackslash
          cases nonempty : body ++ [quote.mark] ++ rest with
          | nil => simp at nonempty
          | cons next others => exact notSkipped next others isBackslash nonempty
        exact ⟨head :: body, rfl, rfl, .plain notBackslash notMark isBody⟩
  · rintro ⟨body, rfl, rfl, isBody⟩
    have closes : throughQuote? quote (quote.mark :: rest) = some ([quote.mark], rest) := by
      cases quote <;> rfl
    rw [List.append_assoc, throughQuote?_of_quotedBody isBody]
    change (throughQuote? quote (quote.mark :: rest)).map _ = _
    rw [closes]
    rfl

theorem throughQuote?_append_eq_none {text other : Text}
    (unclosed : throughQuote? quote text = none)
    (noMark : quote.mark ∉ other) (noBackslash : '\\' ∉ other) :
    throughQuote? quote (text ++ other) = none := by
  have noneIn {part : Text} (partNoMark : quote.mark ∉ part) (partNoBackslash : '\\' ∉ part) :
      throughQuote? quote part = none :=
    throughQuote?_eq_none_iff.mpr
      ⟨part, [], (List.append_nil part).symm, .of_notMem partNoMark partNoBackslash, Or.inl rfl⟩
  obtain ⟨body, dangling, rfl, isBody, atEnd⟩ := throughQuote?_eq_none_iff.mp unclosed
  rw [List.append_assoc, throughQuote?_of_quotedBody isBody, Option.map_eq_none_iff]
  rcases atEnd with rfl | rfl
  · exact noneIn noMark noBackslash
  · cases other with
    | nil => cases quote <;> rfl
    | cons skipped later =>
        change throughQuote? quote ('\\' :: skipped :: later) = none
        rw [throughQuote?, Option.map_eq_none_iff]
        exact noneIn (List.not_mem_of_not_mem_cons noMark)
          (List.not_mem_of_not_mem_cons noBackslash)

end Lexeme

/-- A text that can stand in a block comment: it does not end one. -/
def CommentBody (body : Text) : Prop :=
  ¬ ['*', '/'] <:+: body

instance (body : Text) : Decidable (CommentBody body) :=
  inferInstanceAs (Decidable (¬ ['*', '/'] <:+: body))

namespace CommentBody

theorem of_isInfix {body part : Text} (isBody : CommentBody body) (isPart : part <:+: body) :
    CommentBody part :=
  fun hasEnd => isBody (hasEnd.trans isPart)

theorem throughCommentEnd?_eq_none {body : Text} (isBody : CommentBody body) :
    Lexeme.throughCommentEnd? body = none :=
  Lexeme.throughCommentEnd?_eq_none_iff.mpr isBody

theorem append_star {body : Text} (isBody : CommentBody body) : CommentBody (body ++ ['*']) := by
  intro hasEnd
  rcases List.infix_concat_iff.mp hasEnd with atEnd | inBody
  · obtain ⟨before, same⟩ := atEnd
    have lastSame := congrArg List.getLast? same
    simp at lastSame
  · exact isBody inBody

/-- A comment ends with the first mark behind its body. -/
theorem throughCommentEnd?_append {body : Text} (isBody : CommentBody body) (rest : Text) :
    Lexeme.throughCommentEnd? (body ++ ['*', '/'] ++ rest) = some (body ++ ['*', '/'], rest) :=
  Lexeme.throughCommentEnd?_eq_some_iff.mpr ⟨body, rfl, rfl, isBody.append_star⟩

end CommentBody

end ConfigConstants
