import ConfigConstants.Declaration.CallReader

/-!
Whole runs of the reader of define calls. A run over two lists one behind the other is a run over
the first and, from the call that is then open, a run over the second; spaces and comments drop out.
The lexemes that an open call has read are always the last ones of the run, and the step lemma says
what becomes of them with the next lexeme.
-/

set_option autoImplicit false

namespace ConfigConstants

namespace DefineCall

def significant (lexemes : List LocatedLexeme) : List LocatedLexeme :=
  lexemes.filter fun lexeme => !lexeme.kind.separates

def openAfter : Option OpenCall → List LocatedLexeme → Option OpenCall
  | call, [] => call
  | call, lexeme :: later =>
      if lexeme.kind.separates then openAfter call later
      else openAfter (read lexeme call).1 later

def Outcome.declaration? : Outcome → Option Declaration
  | .declared declaration => some declaration
  | .abandoned _ _ => none

theorem separates_of_mem_significant {lexemes : List LocatedLexeme} {lexeme : LocatedLexeme}
    (member : lexeme ∈ significant lexemes) : lexeme.kind.separates = false := by
  simpa [significant] using (List.mem_filter.mp member).2

theorem outcomesFrom_cons {lexeme : LocatedLexeme} (takesPart : lexeme.kind.separates = false)
    (call : Option OpenCall) (later : List LocatedLexeme) :
    outcomesFrom call (lexeme :: later) =
      (read lexeme call).2.toList ++ outcomesFrom (read lexeme call).1 later := by
  rw [outcomesFrom, takesPart]
  rfl

theorem openAfter_cons {lexeme : LocatedLexeme} (takesPart : lexeme.kind.separates = false)
    (call : Option OpenCall) (later : List LocatedLexeme) :
    openAfter call (lexeme :: later) = openAfter (read lexeme call).1 later := by
  rw [openAfter, takesPart]
  rfl

theorem outcomesFrom_significant (call : Option OpenCall) (lexemes : List LocatedLexeme) :
    outcomesFrom call (significant lexemes) = outcomesFrom call lexemes := by
  induction lexemes generalizing call with
  | nil => rfl
  | cons lexeme later ih =>
      unfold significant at *
      cases separates : lexeme.kind.separates with
      | true => simp [outcomesFrom, separates, ih]
      | false => simp [outcomesFrom, separates, ih]

theorem outcomesFrom_append (call : Option OpenCall) (front back : List LocatedLexeme) :
    outcomesFrom call (front ++ back) =
      outcomesFrom call front ++ outcomesFrom (openAfter call front) back := by
  induction front generalizing call with
  | nil => rfl
  | cons lexeme later ih =>
      rw [List.cons_append, outcomesFrom, outcomesFrom, openAfter]
      split
      · exact ih call
      · rw [ih, List.append_assoc]

theorem openAfter_append (call : Option OpenCall) (front back : List LocatedLexeme) :
    openAfter call (front ++ back) = openAfter (openAfter call front) back := by
  induction front generalizing call with
  | nil => rfl
  | cons lexeme later ih =>
      rw [List.cons_append, openAfter, openAfter]
      split
      · exact ih call
      · exact ih (read lexeme call).1

theorem declaration?_read_of_kind_ne {lexeme : LocatedLexeme}
    (notClosing : lexeme.kind ≠ .closeParenthesis) (call : Option OpenCall) :
    (read lexeme call).2.bind Outcome.declaration? = none := by
  cases call with
  | none => rfl
  | some openCall =>
      cases advanced : advance? lexeme openCall with
      | none =>
          simp only [read, advanced]
          rfl
      | some progress =>
          cases progress with
          | goesOn longer =>
              simp only [read, advanced]
              rfl
          | completes declaration =>
              cases openCall with
              | afterWord | afterParenthesis | afterKey | afterComma | afterValue =>
                  simp [advance?, notClosing] at advanced

/-- The lexemes of a complete call, each fit for its place. -/
structure Call where
  word : LocatedLexeme
  opening : LocatedLexeme
  key : LocatedLexeme
  comma : LocatedLexeme
  value : LocatedLexeme
  closing : LocatedLexeme
  isWord : isDefineWord word.toLexeme = true
  isOpening : opening.kind = .openParenthesis
  isKey : key.kind.isArgument = true
  isComma : comma.kind = .comma
  isValue : value.kind.isArgument = true
  isClosing : closing.kind = .closeParenthesis

namespace Call

def lexemes (call : Call) : List LocatedLexeme :=
  [call.word, call.opening, call.key, call.comma, call.value, call.closing]

/-- The name is the key's text less one layer of quotes, the literal is the value's text. -/
def declaration (call : Call) : Declaration :=
  ⟨Quote.bare call.key.text, call.value.text, call.key.position⟩

theorem eq_of_lexemes_eq {left right : Call} (same : left.lexemes = right.lexemes) :
    left = right := by
  cases left
  cases right
  simp only [lexemes, List.cons.injEq] at same
  simp [same]

end Call

/-- The lexemes that an open call has read, from its word on. No call has read none. -/
def HasRead : Option OpenCall → List LocatedLexeme → Prop
  | none, seen => seen = []
  | some .afterWord, seen => ∃ word, isDefineWord word.toLexeme = true ∧ seen = [word]
  | some .afterParenthesis, seen =>
      ∃ word opening, isDefineWord word.toLexeme = true ∧ opening.kind = .openParenthesis ∧
        seen = [word, opening]
  | some (.afterKey key), seen =>
      ∃ word opening, isDefineWord word.toLexeme = true ∧ opening.kind = .openParenthesis ∧
        key.kind.isArgument = true ∧ seen = [word, opening, key]
  | some (.afterComma key), seen =>
      ∃ word opening comma, isDefineWord word.toLexeme = true ∧
        opening.kind = .openParenthesis ∧ key.kind.isArgument = true ∧ comma.kind = .comma ∧
        seen = [word, opening, key, comma]
  | some (.afterValue key value), seen =>
      ∃ word opening comma, isDefineWord word.toLexeme = true ∧
        opening.kind = .openParenthesis ∧ key.kind.isArgument = true ∧ comma.kind = .comma ∧
        value.kind.isArgument = true ∧ seen = [word, opening, key, comma, value]

theorem hasRead_none : HasRead none [] :=
  rfl

theorem hasRead_begin? (lexeme : LocatedLexeme) (seen : List LocatedLexeme) :
    ∃ dropped fresh, seen ++ [lexeme] = dropped ++ fresh ∧ HasRead (begin? lexeme) fresh := by
  unfold begin?
  split
  · next isWord => exact ⟨seen, [lexeme], rfl, lexeme, isWord, rfl⟩
  · exact ⟨seen ++ [lexeme], [], by rw [List.append_nil], rfl⟩

theorem hasRead_of_goesOn {call longer : OpenCall} {seen : List LocatedLexeme}
    (hasRead : HasRead (some call) seen) {lexeme : LocatedLexeme}
    (fits : advance? lexeme call = some (.goesOn longer)) :
    HasRead (some longer) (seen ++ [lexeme]) := by
  cases call with
  | afterWord =>
      obtain ⟨word, isWord, rfl⟩ := hasRead
      simp only [advance?, Option.ite_none_right_eq_some, Option.some.injEq] at fits
      obtain ⟨isOpening, same⟩ := fits
      cases same
      exact ⟨word, lexeme, isWord, isOpening, rfl⟩
  | afterParenthesis =>
      obtain ⟨word, opening, isWord, isOpening, rfl⟩ := hasRead
      simp only [advance?, Option.ite_none_right_eq_some, Option.some.injEq] at fits
      obtain ⟨isKey, same⟩ := fits
      cases same
      exact ⟨word, opening, isWord, isOpening, isKey, rfl⟩
  | afterKey key =>
      obtain ⟨word, opening, isWord, isOpening, isKey, rfl⟩ := hasRead
      simp only [advance?, Option.ite_none_right_eq_some, Option.some.injEq] at fits
      obtain ⟨isComma, same⟩ := fits
      cases same
      exact ⟨word, opening, lexeme, isWord, isOpening, isKey, isComma, rfl⟩
  | afterComma key =>
      obtain ⟨word, opening, comma, isWord, isOpening, isKey, isComma, rfl⟩ := hasRead
      simp only [advance?, Option.ite_none_right_eq_some, Option.some.injEq] at fits
      obtain ⟨isValue, same⟩ := fits
      cases same
      exact ⟨word, opening, comma, isWord, isOpening, isKey, isComma, isValue, rfl⟩
  | afterValue key value => simp [advance?] at fits

theorem exists_call_of_completes {call : OpenCall} {seen : List LocatedLexeme}
    (hasRead : HasRead (some call) seen) {lexeme : LocatedLexeme} {declared : Declaration}
    (fits : advance? lexeme call = some (.completes declared)) :
    ∃ complete : Call, complete.lexemes = seen ++ [lexeme] ∧ complete.declaration = declared := by
  cases call with
  | afterValue key value =>
      obtain ⟨word, opening, comma, isWord, isOpening, isKey, isComma, isValue, rfl⟩ := hasRead
      simp only [advance?, Option.ite_none_right_eq_some, Option.some.injEq] at fits
      obtain ⟨isClosing, same⟩ := fits
      cases same
      exact ⟨⟨word, opening, key, comma, value, lexeme, isWord, isOpening, isKey, isComma, isValue,
        isClosing⟩, rfl, rfl⟩
  | afterWord | afterParenthesis | afterKey | afterComma => simp [advance?] at fits

/-- What one step does to the lexemes read so far: some at the front are dropped, the rest belong to
the call that is open next. A declaration comes only from six dropped lexemes that make a call. -/
theorem read_spec {call : Option OpenCall} {seen : List LocatedLexeme}
    (hasRead : HasRead call seen) (lexeme : LocatedLexeme) :
    ∃ dropped fresh, seen ++ [lexeme] = dropped ++ fresh ∧
      HasRead (read lexeme call).1 fresh ∧
      ((read lexeme call).2.bind Outcome.declaration? = none ∨
        ∃ complete : Call, dropped = complete.lexemes ∧ fresh = [] ∧
          (read lexeme call).2 = some (.declared complete.declaration)) := by
  cases call with
  | none =>
      obtain ⟨dropped, fresh, split, begun⟩ := hasRead_begin? lexeme seen
      exact ⟨dropped, fresh, split, begun, Or.inl rfl⟩
  | some openCall =>
      cases advanced : advance? lexeme openCall with
      | none =>
          obtain ⟨dropped, fresh, split, begun⟩ := hasRead_begin? lexeme seen
          simp only [read, advanced]
          exact ⟨dropped, fresh, split, begun, Or.inl rfl⟩
      | some progress =>
          simp only [read, advanced]
          cases progress with
          | goesOn longer =>
              exact ⟨[], seen ++ [lexeme], rfl, hasRead_of_goesOn hasRead advanced, Or.inl rfl⟩
          | completes declared =>
              obtain ⟨complete, lexemesEq, rfl⟩ := exists_call_of_completes hasRead advanced
              exact ⟨complete.lexemes, [], by rw [lexemesEq, List.append_nil], rfl,
                Or.inr ⟨complete, rfl, rfl, rfl⟩⟩

/-- The open call has read the last significant lexemes of the run. -/
theorem exists_hasRead_openAfter {call : Option OpenCall} {seen : List LocatedLexeme}
    (hasRead : HasRead call seen) (lexemes : List LocatedLexeme) :
    ∃ dropped fresh, seen ++ significant lexemes = dropped ++ fresh ∧
      HasRead (openAfter call lexemes) fresh := by
  induction lexemes generalizing call seen with
  | nil => exact ⟨[], seen, List.append_nil seen, hasRead⟩
  | cons lexeme later ih =>
      cases separates : lexeme.kind.separates with
      | true =>
          obtain ⟨dropped, fresh, split, laterRead⟩ := ih hasRead
          refine ⟨dropped, fresh, ?_, ?_⟩
          · simpa [significant, separates] using split
          · simpa [openAfter, separates] using laterRead
      | false =>
          obtain ⟨first, kept, firstSplit, keptRead, _⟩ := read_spec hasRead lexeme
          obtain ⟨dropped, fresh, split, laterRead⟩ := ih keptRead
          refine ⟨first ++ dropped, fresh, ?_, ?_⟩
          · rw [List.append_assoc, ← split, ← List.append_assoc, ← firstSplit, List.append_assoc]
            simp [significant, separates]
          · rw [openAfter_cons separates]
            exact laterRead

end DefineCall

end ConfigConstants
