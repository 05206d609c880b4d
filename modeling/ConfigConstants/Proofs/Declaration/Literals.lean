import ConfigConstants.Proofs.Declaration.Windows
import ConfigConstants.Proofs.Lexeme.Members
import ConfigConstants.Proofs.Lexeme.Numbers
import ConfigConstants.Proofs.Literal.Attempts

/-!
What the arguments of a call come to. The lexer and the reader of literals each have their own idea
of quotes, numbers and words; on the lexemes that can stand in a call they agree. The main statement
gives, for every declaration of a line, its name by the kind of the lexeme that is the key and its
value by the kind of the lexeme that is the value. Only with `2 ^ 31` points or more can a number be
counted wrongly, and then it is left as a text.
-/

set_option autoImplicit false

namespace ConfigConstants

open Grammar (Takes)

open Numeral (countedAccepts countedAccepts?)

/-- A text without its first and its last code point. -/
def Text.inside (text : Text) : Text :=
  text.tail.dropLast

theorem Text.inside_wrap (quote : Quote) (inner : Text) : (quote.wrap inner).inside = inner :=
  List.dropLast_concat

theorem Text.inside_ne_self {text : Text} (nonempty : text ≠ []) : text.inside ≠ text := by
  intro same
  have lengths := congrArg List.length same
  have positive := List.length_pos_of_ne_nil nonempty
  rw [Text.inside, List.length_dropLast, List.length_tail] at lengths
  omega

theorem Grammar.Takes.exists_wrap {production : Grammar.Production} {quote : Quote}
    {taken rest : Text} (takes : Takes production (.quoted quote) taken rest) :
    ∃ inner, taken = quote.wrap inner := by
  cases takes with
  | closedQuote _ => exact ⟨_, rfl⟩
  | punctuation member => simp [Grammar.marks] at member

namespace Lexeme

theorem kind_cut_mark (quote : Quote) (tail : Text) :
    (cut quote.mark tail).kind = .quoted quote ∨ (cut quote.mark tail).kind = .unclosedQuote := by
  have isRule : rule quote.mark tail = .quoted quote := by
    cases quote <;> rfl
  rw [cut, isRule, Rule.cut]
  cases throughQuote? quote tail with
  | none => exact Or.inr rfl
  | some parts => exact Or.inl rfl

variable {line : Text} {lexeme : Lexeme}

theorem unwrap?_of_quoted (member : lexeme ∈ lexemes line) {quote : Quote}
    (isQuoted : lexeme.kind = .quoted quote) :
    Quote.unwrap? lexeme.text = some lexeme.text.inside := by
  obtain ⟨production, rest, takes, _, _⟩ :=
    Grammar.exists_takes_of_cons (lexemes_text_of_mem member)
  rw [isQuoted] at takes
  obtain ⟨inner, textEq⟩ := takes.exists_wrap
  rw [textEq, Quote.unwrap?_wrap, Text.inside_wrap]

theorem unwrap?_of_not_quoted (member : lexeme ∈ lexemes line)
    (argument : lexeme.kind.isArgument = true)
    (notQuoted : ∀ quote : Quote, lexeme.kind ≠ .quoted quote) :
    Quote.unwrap? lexeme.text = none := by
  apply Option.eq_none_iff_forall_ne_some.mpr
  intro inner isWrapped
  obtain ⟨quote, textEq⟩ := Quote.unwrap?_eq_some_iff.mp isWrapped
  obtain ⟨head, tail, _, same⟩ := exists_cut_of_mem_lexemes member
  have isMark : head = quote.mark := by
    rw [same] at textEq
    exact (List.cons.inj textEq).1
  rw [isMark] at same
  rcases kind_cut_mark quote tail with isQuoted | isUnclosed
  · exact notQuoted quote (by rw [same]; exact isQuoted)
  · rw [same, isUnclosed] at argument
    contradiction

theorem ofLiteral_of_quoted (member : lexeme ∈ lexemes line) {quote : Quote}
    (isQuoted : lexeme.kind = .quoted quote) :
    Scalar.ofLiteral lexeme.text = .text lexeme.text.inside := by
  rw [Scalar.ofLiteral, unwrap?_of_quoted member isQuoted]

/-- A number is read as one, unless its points have wrapped around. -/
theorem ofLiteral_of_number (member : lexeme ∈ lexemes line) (isNumber : lexeme.kind = .number)
    {overflow : Overflow} (counted : (countedAccepts? overflow lexeme.text).isSome = true) :
    (∃ value, Scalar.ofLiteral lexeme.text = .integer value) ∨
      (∃ value, Scalar.ofLiteral lexeme.text = .float value) ∨
      (overflow = .wraps ∧ 0x80000000 ≤ Text.utf8Length lexeme.text ∧
        Scalar.ofLiteral lexeme.text = .text lexeme.text) := by
  have accepted := (kind_eq_number_iff_of_mem_lexemes member).mp isNumber
  by_cases exactly : Numeral.accepts lexeme.text = true
  · exact (Scalar.ofLiteral_number_of_accepts accepted exactly).imp_right Or.inl
  have notShort : ¬ Text.utf8Length lexeme.text < 0x80000000 :=
    fun short => exactly ((Numeral.countedAccepts_eq_accepts short).symm.trans accepted)
  -- counts that stop have found at most one point
  have wraps : overflow = .wraps := by
    cases overflow with
    | wraps => rfl
    | stops =>
        obtain ⟨answer, isAnswer⟩ := Option.isSome_iff_exists.mp counted
        have isTrue := Numeral.countedAccepts_of_countedAccepts? isAnswer
        rw [← isTrue, accepted] at isAnswer
        exact absurd (Numeral.accepts_of_countedAccepts?_stops isAnswer) exactly
  rw [Scalar.ofLiteral_of_countedAccepts accepted, Scalar.ofNumeral]
  split
  · exact Or.inl ⟨_, rfl⟩
  split
  · exact Or.inr (Or.inl ⟨_, rfl⟩)
  · exact Or.inr (Or.inr ⟨wraps, Nat.le_of_not_lt notShort, rfl⟩)

theorem ofLiteral_of_word (member : lexeme ∈ lexemes line) (isWord : lexeme.kind = .word) :
    Scalar.ofLiteral lexeme.text =
      if lexeme.text = Scalar.trueWord then .boolean true
      else if lexeme.text = Scalar.falseWord then .boolean false
      else .text lexeme.text := by
  have noLayer : Quote.unwrap? lexeme.text = none := by
    apply unwrap?_of_not_quoted member
    · rw [isWord]
      rfl
    · intro quote
      rw [isWord]
      exact nofun
  have rejected : Numeral.countedAccepts lexeme.text = false := by
    apply eq_false_of_ne_true
    rw [← kind_eq_number_iff_of_mem_lexemes member, isWord]
    exact nofun
  rw [Scalar.ofLiteral, noLayer]
  simp only [Scalar.ofBare, rejected, if_neg Bool.false_ne_true]

theorem bare_text (member : lexeme ∈ lexemes line) (argument : lexeme.kind.isArgument = true) :
    (Quote.bare lexeme.text = lexeme.text.inside ↔ ∃ quote : Quote, lexeme.kind = .quoted quote) ∧
      ((∀ quote : Quote, lexeme.kind ≠ .quoted quote) → Quote.bare lexeme.text = lexeme.text) := by
  have ofNotQuoted (notQuoted : ∀ quote : Quote, lexeme.kind ≠ .quoted quote) :
      Quote.bare lexeme.text = lexeme.text := by
    rw [Quote.bare, unwrap?_of_not_quoted member argument notQuoted, Option.getD_none]
  refine ⟨⟨?_, ?_⟩, ofNotQuoted⟩
  · intro isInside
    by_contra notQuoted
    rw [ofNotQuoted (not_exists.mp notQuoted)] at isInside
    exact Text.inside_ne_self (text_ne_nil_of_mem_lexemes member) isInside.symm
  · rintro ⟨quote, isQuoted⟩
    rw [Quote.bare, unwrap?_of_quoted member isQuoted, Option.getD_some]

end Lexeme

namespace DefineCall

/-- Every declaration that the calls of a line yield comes from a key and a value among the lexemes
of the line, and its value is read from the text of the lexeme. If that one is quoted, it is the
text between the quotes; if it is a number, it is an integer or a floating point number, or a text
if its points were too many to be counted; if it is a word, it is a boolean for the two boolean
words and the text as it stands for all others. The name is the key without its first and last code
point just when the key is quoted, and the key as it stands otherwise. -/
theorem declared_name_and_value_by_kind (overflow : Overflow) (number : Nat) (line : Text)
    {found : List LocatedLexeme} (read : ByteReader.lexemes? overflow number line = some found) :
    ∃ calls : List Call, (Reader.ofLexemes found).drain = calls.map Call.declaration ∧
      ∀ call ∈ calls,
        (call.key ∈ found ∧ call.value ∈ found ∧ call.declaration.literal = call.value.text) ∧
        (∃ value, Scalar.read? overflow call.declaration.literal = some value ∧
          (∀ quote, call.value.kind = .quoted quote → value = .text call.value.text.inside) ∧
          (call.value.kind = .number →
            (∃ integer, value = .integer integer) ∨ (∃ float, value = .float float) ∨
              (overflow = .wraps ∧ 0x80000000 ≤ Text.utf8Length call.value.text ∧
                value = .text call.value.text)) ∧
          (call.value.kind = .word →
            value = if call.value.text = Scalar.trueWord then .boolean true
              else if call.value.text = Scalar.falseWord then .boolean false
              else .text call.value.text)) ∧
        (call.declaration.name = call.key.text.inside ↔
          ∃ quote : Quote, call.key.kind = .quoted quote) ∧
        ((∀ quote : Quote, call.key.kind ≠ .quoted quote) →
          call.declaration.name = call.key.text) := by
  obtain ⟨rfl, counted⟩ := ByteReader.lexemes?_eq_some_iff.mp read
  obtain ⟨calls, drained, within⟩ := exists_calls_drain (locatedLexemes number line)
  refine ⟨calls, drained, ?_⟩
  intro call isCall
  have keyWithin := within call isCall call.key (by simp [Call.lexemes])
  have valueWithin := within call isCall call.value (by simp [Call.lexemes])
  have isKey := Lexeme.toLexeme_mem_of_mem_locate keyWithin
  have isValue := Lexeme.toLexeme_mem_of_mem_locate valueWithin
  have valueCounted := counted _ isValue
  obtain ⟨_, isAnswer⟩ := Option.isSome_iff_exists.mp valueCounted
  obtain ⟨nameInside, nameWhole⟩ := Lexeme.bare_text isKey call.isKey
  refine ⟨⟨keyWithin, valueWithin, rfl⟩,
    ⟨Scalar.ofLiteral call.value.text, Scalar.read?_of_countedAccepts? isAnswer, ?_, ?_, ?_⟩,
    nameInside, nameWhole⟩
  · exact fun quote => Lexeme.ofLiteral_of_quoted isValue
  · exact fun isNumber => Lexeme.ofLiteral_of_number isValue isNumber valueCounted
  · exact Lexeme.ofLiteral_of_word isValue

theorem declared_negative_fraction :
    ∃ found, ByteReader.lexemes? .stops 7 "define('A', -2.5);".toList = some found ∧
      ∃ declared ∈ (Reader.ofLexemes found).drain, declared.name = "A".toList ∧
        ∃ value, Scalar.read? .stops declared.literal = some value ∧
          ((∃ integer, value = .integer integer) ∨ ∃ float, value = .float float) := by
  have short : Text.utf8Length "define('A', -2.5);".toList < 0x80000000 := by decide
  have read : ByteReader.lexemes? .stops 7 "define('A', -2.5);".toList = some _ :=
    ByteReader.lexemes?_of_countable (Or.inr short) 7
  obtain ⟨calls, drained, eachCall⟩ := declared_name_and_value_by_kind .stops 7 _ read
  have only : (Reader.ofLexemes (locatedLexemes 7 "define('A', -2.5);".toList)).drain =
      [⟨"A".toList, "-2.5".toList, ⟨7, 8⟩⟩] := by
    rw [drain_ofLexemes]
    decide +kernel
  obtain ⟨call, rfl, isDeclared⟩ := List.map_eq_singleton_iff.mp (drained.symm.trans only)
  obtain ⟨⟨_, valueWithin, isLiteral⟩, ⟨value, isValue, _, ofNumber, _⟩, _⟩ :=
    eachCall call (List.mem_singleton_self call)
  have isNumber : call.value.kind = .number := by
    have numberAlone : ∀ lexeme ∈ locatedLexemes 7 "define('A', -2.5);".toList,
        lexeme.text = "-2.5".toList → lexeme.kind = .number := by decide +kernel
    apply numberAlone _ valueWithin
    rw [← isLiteral, isDeclared]
  refine ⟨_, read, call.declaration, ?_, ?_, value, isValue, ?_⟩
  · rw [drained]
    exact List.mem_singleton_self _
  · rw [isDeclared]
  · rcases ofNumber isNumber with isInteger | isFloat | ⟨wraps, _⟩
    · exact Or.inl isInteger
    · exact Or.inr isFloat
    · contradiction

/-! ## A number with too many points -/

def pointed (count : Nat) : Text :=
  '1' :: List.replicate count '.'

def pointedCall (count : Nat) : Text :=
  "define('A', ".toList ++ pointed count ++ [')']

theorem isDigitOrPoint_of_mem_pointed {count : Nat} {char : Char} (member : char ∈ pointed count) :
    Numeral.isDigitOrPoint char = true := by
  rcases List.mem_cons.mp member with rfl | isPoint
  · rfl
  · rw [List.eq_of_mem_replicate isPoint]
    rfl

theorem unsigned_pointed (count : Nat) : Numeral.unsigned (pointed count) = pointed count :=
  rfl

theorem count_point_pointed (count : Nat) : (pointed count).count '.' = count := by
  rw [pointed, List.count_cons_of_ne (by decide), List.count_replicate_self]

theorem countedAccepts_pointed {count : Nat} (wrapped : Int32.ofNat count ≤ 1) :
    countedAccepts (pointed count) = true := by
  have oneDigit : (pointed count).countP Char.isDigit = 1 := by
    rw [pointed, List.countP_cons_of_pos (by decide), List.countP_replicate]
    rfl
  have allFit : (pointed count).all Numeral.isDigitOrPoint = true :=
    List.all_eq_true.mpr fun _ => isDigitOrPoint_of_mem_pointed
  rw [Numeral.countedAccepts_eq, unsigned_pointed, oneDigit, count_point_pointed, allFit,
    decide_eq_true wrapped]
  rfl

theorem ofLiteral_pointed {count : Nat} (wrapped : Int32.ofNat count ≤ 1) (many : 2 ≤ count) :
    Scalar.ofLiteral (pointed count) = .text (pointed count) := by
  have accepted := countedAccepts_pointed wrapped
  have notInteger : Scalar.isInteger (pointed count) = false := by
    obtain ⟨more, rfl⟩ := Nat.exists_eq_add_of_le' (Nat.le_of_succ_le many)
    rfl
  have noNumber : Binary64.ofText? (pointed count) = none := by
    apply Option.eq_none_iff_forall_ne_some.mpr
    intro number read
    have decimal := ((Numeral.ofText?_eq_some_iff accepted).mp read).1
    have atMostOne := (Numeral.accepts_iff.mp (Numeral.accepts_of_isDecimal decimal)).2.2
    rw [unsigned_pointed, count_point_pointed] at atMostOne
    omega
  rw [Scalar.ofLiteral_of_countedAccepts accepted, Scalar.ofNumeral, notInteger, noNumber]
  rfl

theorem lexemes_closing : lexemes [')'] = [⟨.closeParenthesis, [')']⟩] := by
  have taken : (Lexeme.cut ')' []).rest = [] := rfl
  rw [lexemes_cons, taken, lexemes_nil]
  rfl

theorem lexemes_pointed {count : Nat} (wrapped : Int32.ofNat count ≤ 1) :
    lexemes (pointed count ++ [')']) =
      [⟨.number, pointed count⟩, ⟨.closeParenthesis, [')']⟩] := by
  have isNumberChar : ∀ char ∈ List.replicate count '.', Lexeme.isNumberChar char = true := by
    intro char member
    rw [List.eq_of_mem_replicate member]
    rfl
  have isRule : Lexeme.rule '1' (List.replicate count '.' ++ [')']) = .numeral :=
    Lexeme.rule_of_isWordChar rfl _
  have atClosing : Text.StartsOutside Lexeme.isNumberChar [')'] := by
    intro next isNext
    cases isNext
    rfl
  rw [pointed, List.cons_append, lexemes_cons, Lexeme.cut, isRule, Lexeme.Rule.cut,
    Lexeme.Cut.numeral, Lexeme.Cut.run,
    Text.takeWhile_append_of_startsOutside isNumberChar atClosing,
    Text.dropWhile_append_of_startsOutside isNumberChar atClosing, ← pointed,
    countedAccepts_pointed wrapped, lexemes_closing]
  rfl

theorem lexemes_pointedCall {count : Nat} (wrapped : Int32.ofNat count ≤ 1) :
    lexemes (pointedCall count) =
      [⟨.word, "define".toList⟩, ⟨.openParenthesis, ['(']⟩, ⟨.quoted .single, "'A'".toList⟩,
        ⟨.comma, [',']⟩, ⟨.space, [' ']⟩, ⟨.number, pointed count⟩,
        ⟨.closeParenthesis, [')']⟩] := by
  have atWord : lexemes (pointedCall count) = ⟨.word, "define".toList⟩ ::
      lexemes ("('A', ".toList ++ (pointed count ++ [')'])) := lexemes_cons _ _
  have atOpening : lexemes ("('A', ".toList ++ (pointed count ++ [')'])) =
      ⟨.openParenthesis, ['(']⟩ :: lexemes ("'A', ".toList ++ (pointed count ++ [')'])) :=
    lexemes_cons _ _
  have atKey : lexemes ("'A', ".toList ++ (pointed count ++ [')'])) =
      ⟨.quoted .single, "'A'".toList⟩ :: lexemes (", ".toList ++ (pointed count ++ [')'])) :=
    lexemes_cons _ _
  have atComma : lexemes (", ".toList ++ (pointed count ++ [')'])) =
      ⟨.comma, [',']⟩ :: lexemes (" ".toList ++ (pointed count ++ [')'])) := lexemes_cons _ _
  have atSpace : lexemes (" ".toList ++ (pointed count ++ [')'])) =
      ⟨.space, [' ']⟩ :: lexemes (pointed count ++ [')']) := lexemes_cons _ _
  rw [atWord, atOpening, atKey, atComma, atSpace, lexemes_pointed wrapped]

theorem drain_pointedCall {count : Nat} (wrapped : Int32.ofNat count ≤ 1) :
    (Reader.ofLexemes (locatedLexemes 1 (pointedCall count))).drain =
      [⟨"A".toList, pointed count, ⟨1, 8⟩⟩] := by
  rw [drain_ofLexemes, locatedLexemes, lexemes_pointedCall wrapped]
  rfl

theorem exists_number_pointedCall {count : Nat} (wrapped : Int32.ofNat count ≤ 1) :
    ∃ value ∈ locatedLexemes 1 (pointedCall count),
      value.kind = .number ∧ value.text = pointed count := by
  rw [locatedLexemes, lexemes_pointedCall wrapped]
  exact ⟨_, .tail _ (.tail _ (.tail _ (.tail _ (.tail _ (.head _))))), rfl, rfl⟩

/-- `2 ^ 31` points wrap around to a number below zero, which is at most one; what the lexer takes
for a number cannot be read as one then. -/
theorem number_of_uncounted_points_left_as_text :
    ∃ (found : List LocatedLexeme) (declared : Declaration),
      ByteReader.lexemes? .wraps 1 (pointedCall 0x80000000) = some found ∧
      (Reader.ofLexemes found).drain = [declared] ∧
      (∃ value ∈ found, value.kind = .number ∧ value.text = declared.literal) ∧
      Scalar.read? .wraps declared.literal = some (.text declared.literal) := by
  have wrapped : Int32.ofNat 0x80000000 ≤ 1 := by decide
  refine ⟨_, _, ByteReader.lexemes?_of_countable (Or.inl rfl) 1, drain_pointedCall wrapped,
    exists_number_pointedCall wrapped, ?_⟩
  rw [Scalar.read?_of_countable (Or.inl rfl), ofLiteral_pointed wrapped (by decide)]

end DefineCall

end ConfigConstants
