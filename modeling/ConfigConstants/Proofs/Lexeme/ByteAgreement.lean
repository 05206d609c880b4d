import ConfigConstants.Proofs.Lexeme.ByteReader
import ConfigConstants.Proofs.Lexeme.Rules
import ConfigConstants.Proofs.Literal.Tally

/-!
The byte reader and the lexer agree. Every class of bytes that the reader asks for tells apart the
bytes of two code points only where the lexer tells apart the code points, and so runs, marks and
the rules are found at the same places. The main statement is that the reader never misses a slice
and yields the lexemes of the line, unless there is one among them that cannot be counted.
-/

set_option autoImplicit false

namespace ConfigConstants

theorem utf8Length_le_of_mem_lexemes {text : Text} {lexeme : Lexeme}
    (member : lexeme ∈ lexemes text) : lexeme.text.utf8Length ≤ text.utf8Length := by
  obtain ⟨earlier, later, parts⟩ := List.append_of_mem member
  have whole := flatMap_text_lexemes text
  rw [parts, List.flatMap_append, List.flatMap_cons] at whole
  rw [← whole, Text.utf8Length_append, Text.utf8Length_append]
  omega

namespace ByteReader

open Text (utf8Length)
open Text.Utf8
open Numeral (isDigitByte isDigit_of_beyond agree_isDigitByte countedAccepts?)

theorem classes_of_beyond {byte : UInt8} (beyond : 0x80 ≤ byte.toNat) :
    isSpace byte = false ∧ isDigitByte byte = false ∧ isWordByte byte = true := by
  have onCodes : ∀ code < 0x100, 0x80 ≤ code →
      isSpace (UInt8.ofNat code) = false ∧ isDigitByte (UInt8.ofNat code) = false ∧
        isWordByte (UInt8.ofNat code) = true := by
    decide +kernel
  have onByte := onCodes byte.toNat byte.toNat_lt beyond
  rwa [UInt8.ofNat_toNat] at onByte

theorem isWordChar_of_beyond {char : Char} (beyond : 0x80 ≤ char.toNat) :
    Lexeme.isWordChar char = true := by
  rw [Lexeme.isWordChar, decide_eq_true beyond, Bool.or_true]

theorem agree_isSpace : Agree isSpace Lexeme.isSpace :=
  (((agree_mark (by decide)).or (agree_mark (by decide))).or (agree_mark (by decide))).or
    (agree_mark (by decide))

theorem agree_isWordByte : Agree isWordByte Lexeme.isWordChar :=
  agree_of_ascii true (by decide +kernel) (fun _ beyond => (classes_of_beyond beyond).2.2)
    fun _ beyond => isWordChar_of_beyond beyond

theorem agree_isNumberByte : Agree isNumberByte Lexeme.isNumberChar :=
  (agree_mark (by decide)).or agree_isWordByte

/-! ## Closing marks -/

theorem map_utf8Length_add (found : Option (Text × Text)) (before : Text) :
    (found.map fun (inside, _) => utf8Length inside).map (· + utf8Length before) =
      (found.map fun (inside, rest) => (before ++ inside, rest)).map
        fun (inside, _) => utf8Length inside := by
  rw [Option.map_map, Option.map_map]
  apply congrArg (Option.map · found)
  funext parts
  change utf8Length parts.1 + utf8Length before = utf8Length (before ++ parts.1)
  rw [Text.utf8Length_append, Nat.add_comm]

theorem throughCommentEnd?_cons (byte : UInt8) (later : List UInt8) :
    throughCommentEnd? (byte :: later) =
      if byte = '*'.toUInt8 ∧ later.head? = some '/'.toUInt8 then some 2
      else (throughCommentEnd? later).map (· + 1) :=
  rfl

theorem throughCommentEnd?_append {bytes : List UInt8} (noStar : '*'.toUInt8 ∉ bytes)
    (rest : List UInt8) :
    throughCommentEnd? (bytes ++ rest) = (throughCommentEnd? rest).map (· + bytes.length) := by
  induction bytes with
  | nil => exact Option.map_id'.symm
  | cons byte later ih =>
      have notStar : ¬ (byte = '*'.toUInt8 ∧ (later ++ rest).head? = some '/'.toUInt8) :=
        fun ends => List.ne_of_not_mem_cons noStar ends.1.symm
      rw [List.cons_append, throughCommentEnd?_cons, if_neg notStar,
        ih (List.not_mem_of_not_mem_cons noStar), Option.map_map]
      rfl

theorem throughCommentEnd?_encode (text : Text) :
    throughCommentEnd? (encode text) =
      (Lexeme.throughCommentEnd? text).map fun (inside, _) => utf8Length inside := by
  fun_induction Lexeme.throughCommentEnd? text with
  | case1 => rfl
  | case2 rest => rfl
  | case3 head tail notEnd ih =>
      have skipped : throughCommentEnd? (encode (head :: tail)) =
          (throughCommentEnd? (encode tail)).map (· + head.utf8Size) := by
        rw [encode_cons]
        by_cases isStar : head = '*'
        · subst isStar
          have notClosed : ¬ ('*'.toUInt8 = '*'.toUInt8 ∧
              (encode tail).head? = some '/'.toUInt8) := by
            rintro ⟨_, startsSlash⟩
            rw [head?_encode_eq_some_iff (by decide)] at startsSlash
            obtain ⟨others, tailEq⟩ := List.head?_eq_some_iff.mp startsSlash
            exact notEnd others rfl tailEq
          change throughCommentEnd? ('*'.toUInt8 :: encode tail) = _
          rw [throughCommentEnd?_cons, if_neg notClosed]
          rfl
        · rw [throughCommentEnd?_append (notMem_utf8EncodeChar (by decide) isStar),
            String.length_utf8EncodeChar]
      rw [skipped, ih]
      exact map_utf8Length_add _ [head]

theorem throughMark?_cons {mark byte : UInt8} (notBackslash : byte ≠ '\\'.toUInt8)
    (later : List UInt8) :
    throughMark? mark (byte :: later) =
      if byte = mark then some 1 else (throughMark? mark later).map (· + 1) := by
  rw [throughMark?.eq_def]
  exact if_neg notBackslash

theorem throughMark?_append {mark : UInt8} {bytes : List UInt8} (noMark : mark ∉ bytes)
    (noBackslash : '\\'.toUInt8 ∉ bytes) (rest : List UInt8) :
    throughMark? mark (bytes ++ rest) = (throughMark? mark rest).map (· + bytes.length) := by
  induction bytes with
  | nil => exact Option.map_id'.symm
  | cons byte later ih =>
      rw [List.cons_append, throughMark?_cons (List.ne_of_not_mem_cons noBackslash).symm,
        if_neg (List.ne_of_not_mem_cons noMark).symm,
        ih (List.not_mem_of_not_mem_cons noMark) (List.not_mem_of_not_mem_cons noBackslash),
        Option.map_map]
      rfl

theorem mark_toNat_lt (quote : Quote) : quote.mark.toNat < 0x80 := by
  cases quote <;> decide

/-- Skipping the first byte behind a backslash skips the whole code point, since no byte that is
left of it is a mark or a backslash. -/
theorem throughMark?_skipped (quote : Quote) (skipped : Char) (rest : List UInt8) :
    throughMark? quote.mark.toUInt8 ('\\'.toUInt8 :: (String.utf8EncodeChar skipped ++ rest)) =
      (throughMark? quote.mark.toUInt8 rest).map (· + (1 + skipped.utf8Size)) := by
  have sizeEq := String.length_utf8EncodeChar skipped
  cases bytes : String.utf8EncodeChar skipped with
  | nil => exact absurd bytes String.utf8EncodeChar_ne_nil
  | cons first others =>
      rw [bytes, List.length_cons] at sizeEq
      have noAscii : ∀ mark : Char, mark.toNat < 0x80 → mark.toUInt8 ∉ others := by
        intro mark markAscii member
        by_cases ascii : skipped.toNat < 0x80
        · rw [utf8EncodeChar_of_ascii ascii] at bytes
          rw [← (List.cons.inj bytes).2] at member
          contradiction
        · have beyond := toNat_ge_of_mem_utf8EncodeChar (Nat.le_of_not_lt ascii)
            (by rw [bytes]; exact List.mem_cons_of_mem first member)
          exact ne_toUInt8_of_beyond beyond markAscii rfl
      rw [List.cons_append, throughMark?.eq_def]
      change (throughMark? quote.mark.toUInt8 (others ++ rest)).map (· + 2) = _
      rw [throughMark?_append (noAscii _ (mark_toNat_lt quote)) (noAscii _ (by decide)),
        Option.map_map]
      apply congrArg (fun count => Option.map count (throughMark? quote.mark.toUInt8 rest))
      funext count
      change count + others.length + 2 = count + (1 + skipped.utf8Size)
      omega

theorem throughMark?_encode (quote : Quote) (text : Text) :
    throughMark? quote.mark.toUInt8 (encode text) =
      (Lexeme.throughQuote? quote text).map fun (inside, _) => utf8Length inside := by
  fun_induction Lexeme.throughQuote? quote text with
  | case1 => rfl
  | case2 skipped tail ih =>
      rw [encode_cons, encode_cons]
      change throughMark? quote.mark.toUInt8
        ('\\'.toUInt8 :: (String.utf8EncodeChar skipped ++ encode tail)) = _
      rw [throughMark?_skipped, ih]
      exact map_utf8Length_add _ ['\\', skipped]
  | case3 tail notSkipped =>
      have notBackslash : quote.mark.toUInt8 ≠ '\\'.toUInt8 := by cases quote <;> decide
      rw [encode_cons, utf8EncodeChar_of_ascii (mark_toNat_lt quote), List.singleton_append,
        throughMark?_cons notBackslash, if_pos rfl]
      cases quote <;> rfl
  | case4 head tail notSkipped notMark ih =>
      by_cases isBackslash : head = '\\'
      · cases tail with
        | nil =>
            rw [isBackslash]
            rfl
        | cons next others => exact False.elim (notSkipped next others isBackslash rfl)
      · rw [encode_cons, throughMark?_append (notMem_utf8EncodeChar (mark_toNat_lt quote) notMark)
          (notMem_utf8EncodeChar (by decide) isBackslash), ih, String.length_utf8EncodeChar]
        exact map_utf8Length_add _ [head]

/-! ## Rules -/

theorem beginsNumeral_iff {head : Char} (ascii : head.toNat < 0x80) (tail : Text) :
    Lexeme.beginsNumeral head tail = true ↔
      (head = '-' ∨ head = '+' ∨ head = '.') ∧
          startsNumber head.toUInt8 (encode tail) = true ∨ head.isDigit = true := by
  by_cases digit : head.isDigit = true
  · simp [Lexeme.beginsNumeral, digit]
  by_cases isPoint : head = '.'
  · subst isPoint
    simp [Lexeme.beginsNumeral, startsNumber, digit, any_head?_encode agree_isDigitByte]
  by_cases isSign : head = '-' ∨ head = '+'
  · have notPoint : head.toUInt8 ≠ '.'.toUInt8 := mt (toUInt8_eq_iff ascii (by decide)).mp isPoint
    have signOrPoint : head = '-' ∨ head = '+' ∨ head = '.' :=
      or_assoc.mp (Or.inl isSign)
    unfold Lexeme.beginsNumeral startsNumber
    rw [if_neg digit, if_neg isPoint, if_pos isSign, if_neg notPoint,
      any_head?_encode agree_isDigitByte]
    simp only [signOrPoint, digit, true_and, Bool.false_eq_true, or_false]
    cases tail with
    | nil => rfl
    | cons next others =>
        by_cases pointFirst : next = '.'
        · subst pointFirst
          have ahead : (encode ('.' :: others)).tail.head?.any isDigitByte =
              others.head?.any Char.isDigit := any_head?_encode agree_isDigitByte others
          have startsPoint : (encode ('.' :: others)).head? = some '.'.toUInt8 := rfl
          rw [ahead, startsPoint]
          rfl
        · have noPoint : ((encode (next :: others)).head? == some '.'.toUInt8) = false := by
            rw [beq_eq_false_iff_ne, Ne, head?_encode_eq_some_iff (by decide)]
            simpa using pointFirst
          rw [noPoint]
          simp [pointFirst]
  · rw [Lexeme.beginsNumeral_of_not_sign isPoint isSign]
    simp only [not_or] at isSign
    simp [digit, isPoint, isSign]

theorem rule_encode_of_ascii {head : Char} (ascii : head.toNat < 0x80) (tail : Text) :
    rule head.toUInt8 (encode tail) = Lexeme.rule head tail := by
  have agreeHead {ofByte : UInt8 → Bool} {ofChar : Char → Bool} (agree : Agree ofByte ofChar) :
      ofByte head.toUInt8 = ofChar head :=
    agree head _ (by rw [utf8EncodeChar_of_ascii ascii]; exact List.mem_cons_self)
  have isMark (mark : Char) (markAscii : mark.toNat < 0x80) :
      head.toUInt8 = mark.toUInt8 ↔ head = mark :=
    toUInt8_eq_iff ascii markAscii
  have startsWith (mark : Char) (markAscii : mark.toNat < 0x80) :
      (encode tail).head? = some mark.toUInt8 ↔ tail.head? = some mark :=
    head?_encode_eq_some_iff markAscii tail
  unfold rule Lexeme.rule
  simp only [agreeHead agree_isSpace, agreeHead agree_isDigitByte, agreeHead agree_isWordByte,
    isMark '/' (by decide), isMark '#' (by decide),
    isMark '\x27' (by decide), isMark '\x22' (by decide),
    isMark '(' (by decide), isMark ')' (by decide),
    isMark ',' (by decide), isMark ';' (by decide),
    isMark '$' (by decide), isMark '-' (by decide),
    isMark '+' (by decide), isMark '.' (by decide),
    startsWith '/' (by decide), startsWith '*' (by decide)]
  -- the two ask for the marks of line comments in different places, so these are told apart first
  by_cases space : Lexeme.isSpace head = true
  · rw [if_pos space, if_pos space]
  by_cases hash : head = '#'
  · subst hash
    rfl
  by_cases slashes : head = '/' ∧ tail.head? = some '/'
  · rw [if_neg space, if_neg space, if_pos slashes, if_neg hash, if_pos slashes]
  by_cases starred : head = '/' ∧ tail.head? = some '*'
  · rw [if_neg space, if_neg space, if_neg slashes, if_neg hash, if_neg hash, if_neg slashes,
      if_pos starred, if_pos starred]
  rw [if_neg space, if_neg space, if_neg slashes, if_neg hash, if_neg hash, if_neg slashes,
    if_neg starred, if_neg starred]
  cases isQuote : Quote.ofMark? head with
  | some quote =>
      have headEq := Quote.mark_eq_of_ofMark? isQuote
      subst headEq
      cases quote <;> rfl
  | none =>
      have notMark (quote : Quote) : head ≠ quote.mark := by
        rintro rfl
        rw [Quote.ofMark?_mark] at isQuote
        contradiction
      have notSingle : head ≠ '\x27' := notMark .single
      have notDouble : head ≠ '\x22' := notMark .double
      rw [if_neg notSingle, if_neg notDouble]
      simp only [← ite_or, ← beginsNumeral_iff ascii tail]
      rfl

theorem rule_of_beyond {byte : UInt8} (beyond : 0x80 ≤ byte.toNat) (later : List UInt8) :
    rule byte later = .word := by
  obtain ⟨notSpace, notDigit, isWord⟩ := classes_of_beyond beyond
  have isNot (mark : Char) (markAscii : mark.toNat < 0x80) : byte ≠ mark.toUInt8 :=
    ne_toUInt8_of_beyond beyond markAscii
  simp [rule, notSpace, notDigit, isWord, isNot '/' (by decide),
    isNot '#' (by decide), isNot '\x27' (by decide),
    isNot '\x22' (by decide), isNot '(' (by decide),
    isNot ')' (by decide), isNot ',' (by decide),
    isNot ';' (by decide), isNot '$' (by decide),
    isNot '-' (by decide), isNot '+' (by decide),
    isNot '.' (by decide)]

/-! ## Readings -/

theorem run_encode {ofByte : UInt8 → Bool} {ofChar : Char → Bool} (agree : Agree ofByte ofChar)
    (kind : LexemeKind) (tail : Text) :
    Reading.run kind ofByte (encode tail) = ⟨kind, utf8Length (tail.takeWhile ofChar)⟩ := by
  rw [Reading.run, takeWhile_encode agree, length_encode]

theorem countedAccepts?_of_rule_ne (overflow : Overflow) {head : Char} {tail : Text}
    (notNumeral : Lexeme.rule head tail ≠ .numeral) :
    countedAccepts? overflow (head :: (Lexeme.cut head tail).body) = some false := by
  have notDigit : head.isDigit = false := by
    apply eq_false_of_ne_true
    intro isDigit
    apply notNumeral
    have isWord : Lexeme.isWordChar head = true := by
      simp [Lexeme.isWordChar, Char.isAlphanum, isDigit]
    rw [Lexeme.rule_of_isWordChar isWord, if_pos isDigit]
  by_cases alone : head = '.' ∨ head = '-' ∨ head = '+'
  · -- a point or a sign that begins no number is a lexeme of its own
    have isOther : Lexeme.rule head tail = .single .other := by
      have chosen : Lexeme.rule head tail =
          if Lexeme.beginsNumeral head tail then .numeral else .single .other := by
        rcases alone with rfl | rfl | rfl <;> rfl
      rw [chosen] at notNumeral ⊢
      split at notNumeral
      · exact absurd rfl notNumeral
      · next begins => rw [if_neg begins]
    rw [Lexeme.cut, isOther, Lexeme.Rule.cut]
    cases overflow <;> rcases alone with rfl | rfl | rfl <;> rfl
  · obtain ⟨notPoint, notSign⟩ := not_or.mp alone
    have other : Numeral.isDigitOrPoint head = false := by
      simp [Numeral.isDigitOrPoint, notDigit, notPoint]
    have whole : Numeral.unsigned (head :: (Lexeme.cut head tail).body) =
        head :: (Lexeme.cut head tail).body := by
      apply Numeral.unsigned_append (Or.inl rfl)
      intro next isHead
      cases isHead
      exact not_or.mp notSign
    rw [countedAccepts?, whole, encode_cons]
    exact Numeral.Tally.decide?_of_other overflow _ other _

theorem readNumeral?_encode (overflow : Overflow) {head : Char} (ascii : head.toNat < 0x80)
    (before tail : Text) :
    readNumeral? overflow (before ++ head :: tail) (utf8Length before) (encode tail) =
      (countedAccepts? overflow (head :: (Lexeme.Cut.numeral head tail).body)).map fun _ =>
        ⟨(Lexeme.Cut.numeral head tail).kind, utf8Length (Lexeme.Cut.numeral head tail).body⟩ := by
  have sliced := Text.slice?_append before (head :: tail.takeWhile Lexeme.isNumberChar)
    (tail.dropWhile Lexeme.isNumberChar)
  have oneByte : head.utf8Size = 1 := by
    rw [← String.length_utf8EncodeChar, utf8EncodeChar_of_ascii ascii]
    rfl
  rw [List.append_assoc, List.cons_append, List.takeWhile_append_dropWhile,
    Text.utf8Length_cons, oneByte, ← Nat.add_assoc] at sliced
  simp only [readNumeral?, takeWhile_encode agree_isNumberByte, length_encode, sliced,
    run_encode agree_isNumberByte, Option.bind_eq_bind, Option.bind_some, Lexeme.Cut.numeral,
    Lexeme.Cut.run]
  cases counted : countedAccepts? overflow (head :: tail.takeWhile Lexeme.isNumberChar) with
  | none => rfl
  | some accepted =>
      rw [Numeral.countedAccepts_of_countedAccepts? counted]
      rfl

/-- Behind an ASCII code point a reading takes as many bytes as the lexer's stretch has, if that can
be counted. -/
theorem read?_encode (overflow : Overflow) {head : Char} (ascii : head.toNat < 0x80)
    (before tail : Text) :
    read? overflow (before ++ head :: tail) (utf8Length before) (encode tail)
        (Lexeme.rule head tail) =
      (countedAccepts? overflow (head :: (Lexeme.cut head tail).body)).map fun _ =>
        ⟨(Lexeme.cut head tail).kind, utf8Length (Lexeme.cut head tail).body⟩ := by
  by_cases isNumeral : Lexeme.rule head tail = .numeral
  · have isCut : Lexeme.cut head tail = Lexeme.Cut.numeral head tail := by
      rw [Lexeme.cut, isNumeral]
      rfl
    rw [isNumeral, isCut]
    exact readNumeral?_encode overflow ascii before tail
  · rw [countedAccepts?_of_rule_ne overflow isNumeral, Option.map_some]
    have applies := Lexeme.rule_applies head tail
    unfold Lexeme.cut
    generalize Lexeme.rule head tail = applied at applies isNumeral
    cases applied with
    | spaces => exact congrArg some (run_encode agree_isSpace _ tail)
    | lineComment => simp only [read?, Lexeme.Rule.cut, length_encode]
    | blockComment =>
        obtain ⟨inner, tailEq⟩ := List.head?_eq_some_iff.mp applies.2
        subst tailEq
        have starred : encode ('*' :: inner) = '*'.toUInt8 :: encode inner := rfl
        simp only [read?, Lexeme.Rule.cut, Lexeme.Cut.blockComment, starred, List.tail_cons,
          throughCommentEnd?_encode]
        cases Lexeme.throughCommentEnd? inner with
        | none =>
            simp only [Option.map_none, Reading.through, Lexeme.Cut.through, List.length_cons,
              length_encode, Text.utf8Length_cons]
            rw [Nat.add_comm]
            rfl
        | some found =>
            simp only [Option.map_some, Reading.through, Lexeme.Cut.through, Text.utf8Length_cons]
            rw [Nat.add_comm]
            rfl
    | quoted quote =>
        simp only [read?, Lexeme.Rule.cut, throughMark?_encode]
        cases Lexeme.throughQuote? quote tail with
        | none => simp only [Option.map_none, Reading.through, Lexeme.Cut.through, length_encode]
        | some found => rfl
    | single kind => rfl
    | variableName => exact congrArg some (run_encode agree_isWordByte _ tail)
    | numeral => exact absurd rfl isNumeral
    | word => exact congrArg some (run_encode agree_isWordByte _ tail)

theorem exists_read?_encode (overflow : Overflow) (before : Text) (head : Char) (tail : Text) :
    ∃ byte later more, encode (head :: tail) = byte :: later ∧
      read? overflow (before ++ head :: tail) (utf8Length before) later (rule byte later) =
        (countedAccepts? overflow (head :: (Lexeme.cut head tail).body)).map
          (fun _ => ⟨(Lexeme.cut head tail).kind, more⟩) ∧
      1 + more = utf8Length (head :: (Lexeme.cut head tail).body) := by
  by_cases ascii : head.toNat < 0x80
  · have oneByte := utf8EncodeChar_of_ascii ascii
    refine ⟨head.toUInt8, encode tail, utf8Length (Lexeme.cut head tail).body, ?_, ?_, ?_⟩
    · rw [encode_cons, oneByte]
      rfl
    · rw [rule_encode_of_ascii ascii, read?_encode overflow ascii]
    · rw [Text.utf8Length_cons, ← String.length_utf8EncodeChar, oneByte]
      rfl
  · have beyond : 0x80 ≤ head.toNat := Nat.le_of_not_lt ascii
    have isRule : Lexeme.rule head tail = .word := by
      rw [Lexeme.rule_of_isWordChar (isWordChar_of_beyond beyond), isDigit_of_beyond beyond]
      rfl
    have notNumeral : Lexeme.rule head tail ≠ .numeral := by
      rw [isRule]
      exact nofun
    have taken : (head :: tail).takeWhile Lexeme.isWordChar =
        head :: tail.takeWhile Lexeme.isWordChar :=
      List.takeWhile_cons_of_pos (isWordChar_of_beyond beyond)
    rw [countedAccepts?_of_rule_ne overflow notNumeral]
    cases bytes : String.utf8EncodeChar head with
    | nil => exact absurd bytes String.utf8EncodeChar_ne_nil
    | cons first others =>
        have firstBeyond := toNat_ge_of_mem_utf8EncodeChar beyond
          (by rw [bytes]; exact List.mem_cons_self)
        have encoded : encode (head :: tail) = first :: (others ++ encode tail) := by
          rw [encode_cons, bytes, List.cons_append]
        -- counted from the first byte on, the run is the encoding of a run of the line
        have length := congrArg List.length (takeWhile_encode agree_isWordByte (head :: tail))
        rw [encoded, taken, List.takeWhile_cons_of_pos (classes_of_beyond firstBeyond).2.2,
          List.length_cons, length_encode] at length
        refine ⟨first, others ++ encode tail,
          ((others ++ encode tail).takeWhile isWordByte).length, encoded, ?_, ?_⟩
        · rw [rule_of_beyond firstBeyond, Lexeme.cut, isRule]
          rfl
        · rw [Lexeme.cut, isRule, Nat.add_comm]
          exact length

/-- The invariant of the reading: what is read lies in front of the unread bytes, which are those of
a text, and the lexemes of that text are read as long as each of them can be counted. -/
theorem lexemesFrom?_encode_eq_some_iff (overflow : Overflow) (line : Nat) (before rest : Text)
    {found : List LocatedLexeme} :
    lexemesFrom? overflow line (before ++ rest) (utf8Length before) (encode rest) = some found ↔
      found = Lexeme.locate line (utf8Length before + 1) (lexemes rest) ∧
        ∀ lexeme ∈ lexemes rest, (countedAccepts? overflow lexeme.text).isSome = true := by
  fun_induction lexemes rest generalizing before found with
  | case1 =>
      rw [show encode [] = [] from rfl, lexemesFrom?, Lexeme.locate, Option.some_inj, eq_comm]
      simp
  | case2 head tail ih =>
      obtain ⟨byte, later, more, encoded, reading, count⟩ :=
        exists_read?_encode overflow before head tail
      have cutEq := Lexeme.cut_append head tail
      have textEq : before ++ head :: tail =
          before ++ head :: (Lexeme.cut head tail).body ++ (Lexeme.cut head tail).rest := by
        rw [List.append_assoc, List.cons_append, cutEq]
      have sliced := Text.slice?_append before (head :: (Lexeme.cut head tail).body)
        (Lexeme.cut head tail).rest
      -- the bytes of the stretch are the first unread ones, and those of the rest are left
      have left : later.drop more = encode (Lexeme.cut head tail).rest := by
        have encodedParts : byte :: later =
            encode (head :: (Lexeme.cut head tail).body) ++ encode (Lexeme.cut head tail).rest := by
          rw [← encode_append, List.cons_append, cutEq, encoded]
        rw [← List.drop_succ_cons (a := byte), encodedParts, Nat.add_comm, count, ← length_encode,
          List.drop_left]
      rw [encoded, lexemesFrom?, reading, List.forall_mem_cons, Lexeme.locate]
      cases countedAccepts? overflow (head :: (Lexeme.cut head tail).body) with
      | none => simp
      | some accepted =>
          have following := @ih (before ++ head :: (Lexeme.cut head tail).body)
          rw [Text.utf8Length_append] at following
          simp only [Option.map_some, Option.bind_eq_bind, Option.bind_some]
          rw [Nat.add_assoc, count, textEq, sliced, left]
          simp only [Option.bind_some, Option.bind_eq_some_iff, following, Option.some_inj,
            Option.isSome_some, true_and]
          rw [Nat.add_right_comm]
          constructor
          · rintro ⟨_, ⟨rfl, countable⟩, rfl⟩
            exact ⟨rfl, countable⟩
          · rintro ⟨rfl, countable⟩
            exact ⟨_, ⟨rfl, countable⟩, rfl⟩

/-- The reader yields the lexemes of the line and nothing else, and it does so just when the digits
and points of every lexeme can be counted. -/
theorem lexemes?_eq_some_iff {overflow : Overflow} {line : Nat} {text : Text}
    {found : List LocatedLexeme} :
    lexemes? overflow line text = some found ↔
      found = locatedLexemes line text ∧
        ∀ lexeme ∈ lexemes text, (countedAccepts? overflow lexeme.text).isSome = true := by
  have whole := @lexemesFrom?_encode_eq_some_iff overflow line [] text found
  rwa [List.nil_append, Text.utf8Length_nil, Nat.zero_add] at whole

theorem lexemes?_of_countable {overflow : Overflow} {text : Text}
    (countable : Numeral.Countable overflow text) (line : Nat) :
    lexemes? overflow line text = some (locatedLexemes line text) := by
  refine lexemes?_eq_some_iff.mpr ⟨rfl, ?_⟩
  intro lexeme member
  have lexemeCountable : Numeral.Countable overflow lexeme.text :=
    countable.imp_right (Nat.lt_of_le_of_lt (utf8Length_le_of_mem_lexemes member))
  rw [Numeral.countedAccepts?_of_countable lexemeCountable]
  rfl

end ByteReader

end ConfigConstants
