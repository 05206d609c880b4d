import ConfigConstants.Proofs.Declaration.Windows
import Mathlib.Data.List.Forall2

/-!
What a complete call is and what it declares, said without the reader of calls: by the letters of
the word `define`, the marks around a name, and the kinds of the six lexemes. The main statement
says which of the calls that stand in a list of lexemes are declared.
-/

set_option autoImplicit false

namespace ConfigConstants

def LexemeKind.IsLiteral (kind : LexemeKind) : Prop :=
  (∃ quote, kind = .quoted quote) ∨ kind = .word ∨ kind = .number

theorem LexemeKind.isArgument_iff {kind : LexemeKind} :
    kind.isArgument = true ↔ kind.IsLiteral := by
  cases kind <;> simp [isArgument, IsLiteral]

def LexemeKind.IsTrivia (kind : LexemeKind) : Prop :=
  kind = .space ∨ kind = .lineComment ∨ kind = .blockComment true ∨ kind = .blockComment false

instance : DecidablePred LexemeKind.IsTrivia :=
  fun _ => inferInstanceAs (Decidable (_ ∨ _ ∨ _ ∨ _))

theorem LexemeKind.separates_iff {kind : LexemeKind} :
    kind.separates = true ↔ kind.IsTrivia := by
  cases kind <;> simp [separates, IsTrivia]

namespace Text

/-- A letter in lower case with the same letter in upper case. -/
def AreCases (letter : Char × Char) : Prop :=
  letter.2.val + 32 = letter.1.val ∧ letter.1.toLower = letter.1 ∧ letter.2.toLower = letter.1

theorem toLower_eq_iff {letter : Char × Char} (areCases : AreCases letter) {char : Char} :
    char.toLower = letter.1 ↔ char = letter.1 ∨ char = letter.2 := by
  constructor
  · intro same
    exact eq_or_eq_of_toLower_eq same areCases.1
  · rintro (rfl | rfl)
    · exact areCases.2.1
    · exact areCases.2.2

theorem foldCase_eq_iff {letters : List (Char × Char)}
    (areCases : ∀ letter ∈ letters, AreCases letter) {text : Text} :
    foldCase text = letters.map Prod.fst ↔
      List.Forall₂ (fun char letter => char = letter.1 ∨ char = letter.2) text letters := by
  unfold foldCase
  induction letters generalizing text with
  | nil => simp
  | cons letter others ih =>
      obtain ⟨letterAreCases, othersAreCases⟩ := List.forall_mem_cons.mp areCases
      cases text with
      | nil => simp
      | cons head tail =>
          rw [List.map_cons, List.map_cons, List.cons.injEq, List.forall₂_cons,
            toLower_eq_iff letterAreCases, ih othersAreCases]

end Text

namespace DefineCall

def defineLetters : List (Char × Char) :=
  [('d', 'D'), ('e', 'E'), ('f', 'F'), ('i', 'I'), ('n', 'N'), ('e', 'E')]

/-- Any number of backslashes, and then the letters of `define`, each in either case. -/
def SpellsDefine (text : Text) : Prop :=
  ∃ slashes spelling : Text, text = slashes ++ spelling ∧ (∀ char ∈ slashes, char = '\\') ∧
    List.Forall₂ (fun char letter => char = letter.1 ∨ char = letter.2) spelling defineLetters

theorem foldCase_eq_defineWord_iff {spelling : Text} :
    Text.foldCase spelling = defineWord ↔
      List.Forall₂ (fun char letter => char = letter.1 ∨ char = letter.2) spelling
        defineLetters := by
  have areCases : ∀ letter ∈ defineLetters, Text.AreCases letter := by
    unfold defineLetters Text.AreCases
    decide
  exact Text.foldCase_eq_iff areCases

theorem isDefineWord_iff {lexeme : Lexeme} :
    isDefineWord lexeme = true ↔ lexeme.kind = .word ∧ SpellsDefine lexeme.text := by
  unfold isDefineWord SpellsDefine
  rw [Bool.and_eq_true, beq_iff_eq, beq_iff_eq, foldCase_eq_defineWord_iff, and_congr_right_iff]
  intro isWord
  constructor
  · intro spells
    refine ⟨lexeme.text.takeWhile (· == '\\'), lexeme.text.dropWhile (· == '\\'),
      List.takeWhile_append_dropWhile.symm, ?_, spells⟩
    intro char member
    exact eq_of_beq (List.all_eq_true.mp List.all_takeWhile char member)
  · rintro ⟨slashes, spelling, split, areSlashes, spells⟩
    have slashesDropped : ∀ char ∈ slashes, (char == '\\') = true :=
      fun char member => beq_iff_eq.mpr (areSlashes char member)
    -- no letter of the word is a backslash, so nothing of it is dropped
    have stopsThere : spelling.dropWhile (· == '\\') = spelling := by
      cases spells with
      | cons first others => rcases first with rfl | rfl <;> rfl
    rw [split, List.dropWhile_append_of_pos slashesDropped, stopsThere]
    exact spells

/-- The name that a key declares: the text between two equal marks, or else the whole key. -/
inductive Names : Text → Text → Prop
  | quoted {mark : Char} {inner : Text} : mark = '\x27' ∨ mark = '\x22' →
      Names (mark :: (inner ++ [mark])) inner
  | plain {key : Text} :
      (∀ mark inner, mark = '\x27' ∨ mark = '\x22' → key ≠ mark :: (inner ++ [mark])) →
      Names key key

theorem unwrap?_eq_some_iff_marks {key inner : Text} :
    Quote.unwrap? key = some inner ↔
      ∃ mark, (mark = '\x27' ∨ mark = '\x22') ∧ key = mark :: (inner ++ [mark]) := by
  rw [Quote.unwrap?_eq_some_iff]
  constructor
  · rintro ⟨quote, rfl⟩
    cases quote with
    | single => exact ⟨'\x27', Or.inl rfl, rfl⟩
    | double => exact ⟨'\x22', Or.inr rfl, rfl⟩
  · rintro ⟨mark, rfl | rfl, rfl⟩
    · exact ⟨.single, rfl⟩
    · exact ⟨.double, rfl⟩

theorem names_iff {key name : Text} : Names key name ↔ Quote.bare key = name := by
  unfold Quote.bare
  constructor
  · rintro (⟨isMark⟩ | ⟨noLayer⟩)
    · rw [unwrap?_eq_some_iff_marks.mpr ⟨_, isMark, rfl⟩]
      rfl
    · cases unwrapped : Quote.unwrap? key with
      | none => rfl
      | some inner =>
          obtain ⟨mark, isMark, layer⟩ := unwrap?_eq_some_iff_marks.mp unwrapped
          exact absurd layer (noLayer mark inner isMark)
  · rintro rfl
    cases unwrapped : Quote.unwrap? key with
    | none =>
        apply Names.plain
        intro mark inner isMark layer
        rw [unwrap?_eq_some_iff_marks.mpr ⟨mark, isMark, layer⟩] at unwrapped
        contradiction
    | some inner =>
        obtain ⟨mark, isMark, rfl⟩ := unwrap?_eq_some_iff_marks.mp unwrapped
        exact Names.quoted isMark

/-- Six lexemes that are a complete call, with its declaration. -/
inductive Declares : List LocatedLexeme → Declaration → Prop
  | call {word opening key comma value closing : LocatedLexeme} {name : Text} :
      word.kind = .word → SpellsDefine word.text → opening.kind = .openParenthesis →
      key.kind.IsLiteral → comma.kind = .comma → value.kind.IsLiteral →
      closing.kind = .closeParenthesis → Names key.text name →
      Declares [word, opening, key, comma, value, closing] ⟨name, value.text, key.position⟩

theorem declares_iff {window : List LocatedLexeme} {declared : Declaration} :
    Declares window declared ↔
      ∃ call : Call, call.lexemes = window ∧ call.declaration = declared := by
  constructor
  · rintro ⟨isWordKind, spells, isOpening, isKey, isComma, isValue, isClosing, names⟩
    refine ⟨⟨_, _, _, _, _, _, isDefineWord_iff.mpr ⟨isWordKind, spells⟩, isOpening,
      LexemeKind.isArgument_iff.mpr isKey, isComma, LexemeKind.isArgument_iff.mpr isValue,
      isClosing⟩, rfl, ?_⟩
    rw [← names_iff.mp names]
    rfl
  · rintro ⟨call, rfl, rfl⟩
    obtain ⟨isWordKind, spells⟩ := isDefineWord_iff.mp call.isWord
    exact Declares.call isWordKind spells call.isOpening (LexemeKind.isArgument_iff.mp call.isKey)
      call.isComma (LexemeKind.isArgument_iff.mp call.isValue) call.isClosing (names_iff.mpr rfl)

def withoutTrivia (lexemes : List LocatedLexeme) : List LocatedLexeme :=
  lexemes.filter fun lexeme => ¬lexeme.kind.IsTrivia

theorem withoutTrivia_eq_significant (lexemes : List LocatedLexeme) :
    withoutTrivia lexemes = significant lexemes := by
  unfold withoutTrivia significant
  apply List.filter_congr
  intro lexeme _
  rw [decide_not, Bool.not_inj_iff, Bool.eq_iff_iff, decide_eq_true_iff,
    LexemeKind.separates_iff]

/-- The six lexemes from an index on, or those that are left there. -/
def window (lexemes : List LocatedLexeme) (start : Nat) : List LocatedLexeme :=
  ((withoutTrivia lexemes).drop start).take 6

theorem window_eq_iff {lexemes : List LocatedLexeme} {start : Nat} {call : Call} :
    window lexemes start = call.lexemes ↔ call.StandsAt (significant lexemes) start := by
  unfold window Call.StandsAt
  rw [withoutTrivia_eq_significant, List.prefix_iff_eq_take, call.length_lexemes, eq_comm]

/-- Asking for declarations until there are none yields the declarations of complete calls, in
order and from disjoint places. Only a call whose word stands behind a parenthesis or a comma can
be missed, and then its word was taken for the key or the value of a call that breaks there. -/
theorem drain_yields_standing_calls (lexemes : List LocatedLexeme) :
    ∃ placed : List (Nat × Declaration),
      (Reader.ofLexemes lexemes).drain = placed.map Prod.snd ∧
      (∀ entry ∈ placed, Declares (window lexemes entry.1) entry.2) ∧
      (placed.Pairwise fun left right => left.1 + 6 ≤ right.1) ∧
      (∀ (start : Nat) (declared : Declaration), Declares (window lexemes start) declared →
        (∀ before ∈ ((withoutTrivia lexemes).take start).getLast?,
          before.kind ≠ .openParenthesis ∧ before.kind ≠ .comma) →
        (start, declared) ∈ placed) ∧
      ∀ (start : Nat) (declared : Declaration), Declares (window lexemes start) declared →
        (start, declared) ∉ placed →
        ∃ (word opening : LocatedLexeme) (later : List LocatedLexeme) (broken : OpenCall),
          window lexemes start = word :: opening :: later ∧
          Outcome.abandoned broken opening ∈ outcomes lexemes ∧
          (broken = .afterKey word ∨ ∃ key, broken = .afterValue key word) := by
  obtain ⟨calls, drained, stand, disjoint, complete, taken⟩ := exists_placed_drain lexemes
  refine ⟨calls.map fun entry => (entry.1, entry.2.declaration), ?drained, ?stand, ?disjoint,
    ?complete, ?taken⟩
  case drained =>
    rw [drained, List.map_map]
    rfl
  case stand =>
    intro entry member
    obtain ⟨call, isEntry, rfl⟩ := List.mem_map.mp member
    exact declares_iff.mpr ⟨call.2, (window_eq_iff.mpr (stand call isEntry)).symm, rfl⟩
  case disjoint =>
    rw [List.pairwise_map]
    exact disjoint
  case complete =>
    intro start declared declares unclaimed
    obtain ⟨call, isWindow, rfl⟩ := declares_iff.mp declares
    rw [withoutTrivia_eq_significant] at unclaimed
    have member := complete start call (window_eq_iff.mp isWindow.symm) unclaimed
    exact List.mem_map.mpr ⟨(start, call), member, rfl⟩
  case taken =>
    intro start declared declares missing
    obtain ⟨call, isWindow, rfl⟩ := declares_iff.mp declares
    have notPlaced : (start, call) ∉ calls :=
      fun member => missing (List.mem_map.mpr ⟨(start, call), member, rfl⟩)
    obtain ⟨broken, abandoned, tookWord⟩ :=
      taken start call (window_eq_iff.mp isWindow.symm) notPlaced
    exact ⟨call.word, call.opening, _, broken, isWindow.symm, abandoned, tookWord⟩

end DefineCall

end ConfigConstants
