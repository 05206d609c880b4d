import ConfigConstants.Proofs.Declaration.Drain
import ConfigConstants.Proofs.Declaration.Windows

/-!
Calls that were started. A started call has the lexemes that fit it, which are a beginning of a
complete call, and it is declared, abandoned at the first lexeme that does not fit, or still open
when the lexemes run out. The main statements tie the stages of an open call to what it has read:
that is a beginning, the stage is named by its length, and a lexeme that is turned away makes no
longer beginning of it.
-/

set_option autoImplicit false

namespace ConfigConstants

namespace DefineCall

/-- A call that was started: the index of its word among the significant lexemes, the lexemes that
fit it, and what was reported of it. Of a call that is still open at the end nothing is. -/
structure StartedCall where
  start : Nat
  fitting : List LocatedLexeme
  outcome? : Option Outcome

/-- The lexemes are the first ones of some complete call. -/
def IsBeginning (front : List LocatedLexeme) : Prop :=
  ∃ complete : Call, front <+: complete.lexemes

/-- The names of the stages, by how many lexemes have fitted. -/
def stageNames : List Text :=
  ["AfterDefine".toList, "ExpectKey".toList, "HaveKey".toList, "ExpectValue".toList,
    "HaveValue".toList]

namespace StartedCall

def finish (call : StartedCall) : Nat :=
  call.start + call.fitting.length

def Spans (call : StartedCall) (index : Nat) : Prop :=
  call.start ≤ index ∧ index < call.finish

def arguments (call : StartedCall) : List LocatedLexeme :=
  call.fitting[2]?.toList ++ call.fitting[4]?.toList

/-- How a started call stands among lexemes and what is reported of it. -/
inductive StandsIn (lexemes : List LocatedLexeme) : StartedCall → Prop
  | declared {start : Nat} (complete : Call) : complete.StandsAt lexemes start →
      StandsIn lexemes ⟨start, complete.lexemes, some (.declared complete.declaration)⟩
  | abandoned {start : Nat} {fitting : List LocatedLexeme} {call : OpenCall}
      {breaking : LocatedLexeme} : fitting ≠ [] → IsBeginning fitting →
      fitting ++ [breaking] <+: lexemes.drop start → ¬ IsBeginning (fitting ++ [breaking]) →
      stageNames[fitting.length - 1]? = some call.stageName →
      StandsIn lexemes ⟨start, fitting, some (.abandoned call breaking)⟩
  | unfinished {start : Nat} {fitting : List LocatedLexeme} : fitting ≠ [] → IsBeginning fitting →
      fitting.length < 6 → lexemes.drop start = fitting → StandsIn lexemes ⟨start, fitting, none⟩

theorem StandsIn.start_lt_finish {lexemes : List LocatedLexeme} {call : StartedCall}
    (stands : call.StandsIn lexemes) : call.start < call.finish := by
  have nonempty : call.fitting ≠ [] := by
    cases stands with
    | declared complete _ => exact List.cons_ne_nil _ _
    | abandoned nonempty => exact nonempty
    | unfinished nonempty => exact nonempty
  exact Nat.lt_add_of_pos_right (List.length_pos_iff.mpr nonempty)

end StartedCall

/-- What a define word is there for. -/
inductive WordRole where
  | starts (call : StartedCall)
  | takenBy (call : StartedCall)

def WordRole.call : WordRole → StartedCall
  | .starts call | .takenBy call => call

/-- Which role the lexeme at an index has: the first one of a call starts it, and the third and the
fifth are its key and its value. -/
def WordRole.At (calls : List StartedCall) (index : Nat) : WordRole → Prop
  | .starts call => call ∈ calls ∧ index = call.start
  | .takenBy call =>
      call ∈ calls ∧ index < call.finish ∧ (index = call.start + 2 ∨ index = call.start + 4)

def Outcome.isAbandoned : Outcome → Bool
  | .declared _ => false
  | .abandoned _ _ => true

/-! ## One call -/

def Call.ofWord (word : LocatedLexeme) (isWord : isDefineWord word.toLexeme = true) : Call where
  word := word
  opening := { word with kind := .openParenthesis }
  key := word
  comma := { word with kind := .comma }
  value := word
  closing := { word with kind := .closeParenthesis }
  isWord := isWord
  isOpening := rfl
  isKey := congrArg LexemeKind.isArgument (kind_of_isDefineWord isWord)
  isComma := rfl
  isValue := congrArg LexemeKind.isArgument (kind_of_isDefineWord isWord)
  isClosing := rfl

/-- What an open call has read is a beginning, and its stage is named by how much that is. -/
theorem isBeginning_of_hasRead {call : OpenCall} {seen : List LocatedLexeme}
    (hasRead : HasRead (some call) seen) :
    seen ≠ [] ∧ IsBeginning seen ∧ seen.length < 6 ∧
      stageNames[seen.length - 1]? = some call.stageName := by
  cases call with
  | afterWord =>
      obtain ⟨word, isWord, rfl⟩ := hasRead
      exact ⟨List.cons_ne_nil _ _, ⟨Call.ofWord word isWord, _, rfl⟩, by simp, rfl⟩
  | afterParenthesis =>
      obtain ⟨word, opening, isWord, isOpening, rfl⟩ := hasRead
      let complete : Call := { Call.ofWord word isWord with opening, isOpening }
      exact ⟨List.cons_ne_nil _ _, ⟨complete, _, rfl⟩, by simp, rfl⟩
  | afterKey key =>
      obtain ⟨word, opening, isWord, isOpening, isKey, rfl⟩ := hasRead
      let complete : Call := { Call.ofWord word isWord with opening, isOpening, key, isKey }
      exact ⟨List.cons_ne_nil _ _, ⟨complete, _, rfl⟩, by simp, rfl⟩
  | afterComma key =>
      obtain ⟨word, opening, comma, isWord, isOpening, isKey, isComma, rfl⟩ := hasRead
      let complete : Call :=
        { Call.ofWord word isWord with opening, isOpening, key, isKey, comma, isComma }
      exact ⟨List.cons_ne_nil _ _, ⟨complete, _, rfl⟩, by simp, rfl⟩
  | afterValue key value =>
      obtain ⟨word, opening, comma, isWord, isOpening, isKey, isComma, isValue, rfl⟩ := hasRead
      let complete : Call :=
        { Call.ofWord word isWord with
          opening, isOpening, key, isKey, comma, isComma, value, isValue }
      exact ⟨List.cons_ne_nil _ _, ⟨complete, _, rfl⟩, by simp, rfl⟩

theorem not_isBeginning_of_advance? {call : OpenCall} {seen : List LocatedLexeme}
    (hasRead : HasRead (some call) seen) {breaking : LocatedLexeme}
    (unfit : advance? breaking call = none) : ¬ IsBeginning (seen ++ [breaking]) := by
  intro isBeginning
  obtain ⟨complete, behind, whole⟩ := isBeginning
  have inPlace : complete.lexemes[seen.length]? = some breaking := by
    rw [← whole, List.append_assoc, List.getElem?_append_right (Nat.le_refl _), Nat.sub_self]
    rfl
  have fits : advance? breaking call ≠ none := by
    cases call with
    | afterWord =>
        obtain ⟨word, _, rfl⟩ := hasRead
        simp [advance?, ← Option.some.inj inPlace, complete.isOpening]
    | afterParenthesis =>
        obtain ⟨word, opening, _, _, rfl⟩ := hasRead
        simp [advance?, ← Option.some.inj inPlace, complete.isKey]
    | afterKey key =>
        obtain ⟨word, opening, _, _, _, rfl⟩ := hasRead
        simp [advance?, ← Option.some.inj inPlace, complete.isComma]
    | afterComma key =>
        obtain ⟨word, opening, comma, _, _, _, _, rfl⟩ := hasRead
        simp [advance?, ← Option.some.inj inPlace, complete.isValue]
    | afterValue key value =>
        obtain ⟨word, opening, comma, _, _, _, _, _, rfl⟩ := hasRead
        simp [advance?, ← Option.some.inj inPlace, complete.isClosing]
  exact fits unfit

theorem isDefineWord_of_kind_ne {lexeme : Lexeme} (noWord : lexeme.kind ≠ .word) :
    isDefineWord lexeme = false := by
  cases isWord : isDefineWord lexeme with
  | false => rfl
  | true => exact absurd (kind_of_isDefineWord isWord) noWord

/-- A define word among the lexemes of a call is its first, its third or its fifth. -/
theorem index_of_isDefineWord {front : List LocatedLexeme} (isBeginning : IsBeginning front)
    {index : Nat} {word : LocatedLexeme} (atIndex : front[index]? = some word)
    (isWord : isDefineWord word.toLexeme = true) : index = 0 ∨ index = 2 ∨ index = 4 := by
  obtain ⟨complete, behind, whole⟩ := isBeginning
  have inCall : complete.lexemes[index]? = some word := by
    rw [← whole, List.getElem?_append_left (List.getElem?_eq_some_iff.mp atIndex).1]
    exact atIndex
  have isWordKind := kind_of_isDefineWord isWord
  have noWord {lexeme : LocatedLexeme} (same : some lexeme = some word)
      (otherKind : lexeme.kind ≠ .word) : False := by
    rw [← Option.some.inj same] at isWordKind
    exact otherKind isWordKind
  match index with
  | 0 => exact Or.inl rfl
  | 1 => exact False.elim (noWord inCall (by simp [complete.isOpening]))
  | 2 => exact Or.inr (Or.inl rfl)
  | 3 => exact False.elim (noWord inCall (by simp [complete.isComma]))
  | 4 => exact Or.inr (Or.inr rfl)
  | 5 => exact False.elim (noWord inCall (by simp [complete.isClosing]))
  | _ + 6 => contradiction

end DefineCall

end ConfigConstants
