import ConfigConstants.Declaration.ConstLine
import ConfigConstants.Proofs.Lexeme.ByteReader
import ConfigConstants.Proofs.Text.ByteClasses

/-!
Reading a constant line by offsets in bytes. The reader looks for the first equals sign and for the
last semicolon of the whole line, compares their offsets, and then takes two slices out of the line.
The slice in front of the equals sign may begin inside a code point and is asked for with care; the
other one is taken without asking. The main statement is that this slice always exists, and that the
reader says of every line what is said by splitting it.
-/

set_option autoImplicit false

namespace ConfigConstants

namespace Text

open Utf8

theorem encode_append_cons {mark : Char} (ascii : mark.toNat < 0x80) (before behind : Text) :
    encode (before ++ mark :: behind) = encode before ++ mark.toUInt8 :: encode behind := by
  rw [encode_append, encode_cons, utf8EncodeChar_of_ascii ascii]
  rfl

theorem toUInt8_notMem_encode {mark : Char} (ascii : mark.toNat < 0x80) {text : Text}
    (absent : mark ∉ text) : mark.toUInt8 ∉ encode text := by
  intro member
  obtain ⟨char, inText, inChar⟩ := List.mem_flatMap.mp member
  have differs : char ≠ mark := by
    rintro rfl
    exact absent inText
  exact Text.Utf8.notMem_utf8EncodeChar ascii differs inChar

def firstOffset? (mark : Char) (text : Text) : Option Nat :=
  (encode text).idxOf? mark.toUInt8

/-- The number of bytes in front of the last mark, found from the end of the text. -/
def lastOffset? (mark : Char) (text : Text) : Option Nat :=
  ((encode text).reverse.idxOf? mark.toUInt8).map fun fromEnd => utf8Length text - 1 - fromEnd

theorem idxOf?_append_cons {mark : UInt8} {front : List UInt8} (absent : mark ∉ front)
    (back : List UInt8) : (front ++ mark :: back).idxOf? mark = some front.length := by
  have notInFront : front.findIdx? (· == mark) = none := List.idxOf?_eq_none_iff.mpr absent
  rw [List.idxOf?, List.findIdx?_append, notInFront, List.findIdx?_cons, beq_self_eq_true]
  simp

theorem firstOffset?_eq {mark : Char} (ascii : mark.toNat < 0x80) (text : Text) :
    firstOffset? mark text =
      (splitAtFirst? mark text).map fun parts => utf8Length parts.1 := by
  unfold firstOffset?
  cases found : splitAtFirst? mark text with
  | none =>
      have absent := splitAtFirst?_eq_none_iff.mp found
      exact List.idxOf?_eq_none_iff.mpr (toUInt8_notMem_encode ascii absent)
  | some parts =>
      obtain ⟨before, behind⟩ := parts
      obtain ⟨rfl, absent⟩ := splitAtFirst?_eq_some_iff.mp found
      rw [encode_append_cons ascii, idxOf?_append_cons (toUInt8_notMem_encode ascii absent),
        length_encode]
      rfl

theorem lastOffset?_eq {mark : Char} (ascii : mark.toNat < 0x80) (text : Text) :
    lastOffset? mark text =
      (splitAtLast? mark text).map fun parts => utf8Length parts.1 := by
  unfold lastOffset?
  cases found : splitAtLast? mark text with
  | none =>
      have absent := toUInt8_notMem_encode ascii (splitAtLast?_eq_none_iff.mp found)
      rw [List.idxOf?_eq_none_iff.mpr (by simpa using absent)]
      rfl
  | some parts =>
      obtain ⟨before, behind⟩ := parts
      obtain ⟨rfl, absent⟩ := splitAtLast?_eq_some_iff.mp found
      have absentBehind : mark.toUInt8 ∉ (encode behind).reverse := by
        simpa using toUInt8_notMem_encode ascii absent
      have oneByte : mark.utf8Size = 1 := by
        rw [← String.length_utf8EncodeChar, utf8EncodeChar_of_ascii ascii]
        rfl
      have reversed : (encode (before ++ mark :: behind)).reverse =
          (encode behind).reverse ++ mark.toUInt8 :: (encode before).reverse := by
        rw [encode_append_cons ascii]
        simp
      rw [reversed, idxOf?_append_cons absentBehind, List.length_reverse, length_encode,
        utf8Length_append, utf8Length_cons, oneByte, Option.map_some, Option.map_some]
      apply congrArg some
      change utf8Length before + (1 + utf8Length behind) - 1 - utf8Length behind = utf8Length before
      omega

theorem dropUtf8?_append_of_le {count : Nat} {front : Text} (within : count ≤ utf8Length front)
    (rest : Text) : dropUtf8? count (front ++ rest) = (dropUtf8? count front).map (· ++ rest) := by
  cases dropped : dropUtf8? count front with
  | some behind =>
      obtain ⟨start, rfl, rfl⟩ := dropUtf8?_eq_some dropped
      rw [List.append_assoc, dropUtf8?_append]
      rfl
  | none =>
      cases droppedWhole : dropUtf8? count (front ++ rest) with
      | none => rfl
      | some behind =>
          exfalso
          obtain ⟨start, whole, startLength⟩ := dropUtf8?_eq_some droppedWhole
          rcases List.append_eq_append_iff.mp whole with ⟨part, rfl, restEq⟩ | ⟨part, rfl, _⟩
          · have nothingMore : part = [] := by
              rw [← startLength, utf8Length_append] at within
              apply List.length_eq_zero_iff.mp
              have atMost := length_le_utf8Length part
              omega
            subst nothingMore
            rw [← startLength, List.append_nil] at dropped
            have usable := dropUtf8?_append front []
            rw [List.append_nil, dropped] at usable
            contradiction
          · rw [← startLength, dropUtf8?_append] at dropped
            contradiction

theorem slice?_append_right {start : Nat} {front : Text} (within : start ≤ utf8Length front)
    (rest : Text) :
    slice? start (utf8Length front) (front ++ rest) = dropUtf8? start front := by
  simp only [slice?, dropUtf8?_append_of_le within, dropUtf8?_append]
  cases dropUtf8? start front with
  | none => rfl
  | some behind => simp [within]

end Text

namespace ConstLine

open Text (utf8Length)

/-- Reads a line by offsets. The result is missing if a slice that is taken without asking does not
exist. -/
def readByOffsets? (line : Nat) (text : Text) : Option (Except MalformedConst Declaration) :=
  match (Text.firstOffset? '=' text).filter fun equals => decide (keyword.utf8Length ≤ equals) with
  | none => some (.error ⟨.missingEquals, ⟨line, 1⟩⟩)
  | some equals =>
      match (Text.lastOffset? ';' text).filter fun semicolon => decide (equals < semicolon) with
      | none => some (.error ⟨.missingSemicolon, ⟨line, 1⟩⟩)
      | some semicolon =>
          match ((text.slice? keyword.utf8Length equals).map Text.trim).filter
              fun name => !name.isEmpty with
          | none => some (.error ⟨.missingName, ⟨line, 1⟩⟩)
          | some name =>
              (text.slice? (equals + 1) semicolon).map fun value =>
                .ok ⟨name, value.trim, ⟨line, 1⟩⟩

/-- The last semicolon of a line counts exactly if it stands behind the equals sign, and it is the
last one there. -/
theorem lastOffset?_filter (before behind : Text) :
    ((Text.lastOffset? ';' (before ++ '=' :: behind)).filter fun semicolon =>
        decide (utf8Length before < semicolon)) =
      (Text.splitAtLast? ';' behind).map fun parts =>
        utf8Length before + 1 + utf8Length parts.1 := by
  rw [Text.lastOffset?_eq (by decide)]
  cases found : Text.splitAtLast? ';' behind with
  | some parts =>
      obtain ⟨literal, rest⟩ := parts
      obtain ⟨rfl, absent⟩ := Text.splitAtLast?_eq_some_iff.mp found
      have whole : Text.splitAtLast? ';' (before ++ '=' :: (literal ++ ';' :: rest)) =
          some (before ++ '=' :: literal, rest) :=
        Text.splitAtLast?_eq_some_iff.mpr ⟨by simp, absent⟩
      have bytes : utf8Length (before ++ '=' :: literal) =
          utf8Length before + 1 + utf8Length literal := by
        rw [Text.utf8Length_append, Text.utf8Length_cons, Nat.add_assoc]
        rfl
      have isBehind : utf8Length before < utf8Length before + 1 + utf8Length literal := by omega
      rw [whole, Option.map_some, Option.map_some, bytes, Option.filter_some,
        if_pos (decide_eq_true isBehind)]
  | none =>
      have absent := Text.splitAtLast?_eq_none_iff.mp found
      cases wholeFound : Text.splitAtLast? ';' (before ++ '=' :: behind) with
      | none => rfl
      | some parts =>
          -- the semicolon then stands in front of the equals sign
          obtain ⟨start, rest⟩ := parts
          obtain ⟨whole, _⟩ := Text.splitAtLast?_eq_some_iff.mp wholeFound
          have notBehind : utf8Length start ≤ utf8Length before := by
            rcases List.append_eq_append_iff.mp whole with ⟨part, startEq, tailEq⟩ | ⟨part, rfl, _⟩
            · cases part with
              | nil => simp [startEq]
              | cons first others =>
                  have inBehind : ';' ∈ behind := by
                    rw [List.cons_append, List.cons.injEq] at tailEq
                    rw [tailEq.2]
                    simp
                  exact absurd inBehind absent
            · rw [Text.utf8Length_append]
              exact Nat.le_add_right _ _
          rw [Option.map_some, Option.filter_some, if_neg (by simpa using notBehind)]
          rfl

theorem slice?_value (before literal rest : Text) :
    (before ++ '=' :: (literal ++ ';' :: rest)).slice? (utf8Length before + 1)
      (utf8Length before + 1 + utf8Length literal) = some literal := by
  have sliced := Text.slice?_append (before ++ ['=']) literal (';' :: rest)
  rw [Text.utf8Length_append, List.append_assoc, List.append_assoc] at sliced
  exact sliced

/-- Reading by offsets always finds its slices and gives what reading by splitting gives. -/
theorem readByOffsets?_eq (line : Nat) (text : Text) :
    readByOffsets? line text = some (read line text) := by
  unfold readByOffsets? read splitAtEquals?
  rw [Text.firstOffset?_eq (by decide)]
  cases found : Text.splitAtFirst? '=' text with
  | none => rfl
  | some parts =>
      obtain ⟨before, behind⟩ := parts
      obtain ⟨rfl, _⟩ := Text.splitAtFirst?_eq_some_iff.mp found
      rw [Option.map_some, Option.filter_some, Option.filter_some]
      by_cases fits : keyword.utf8Length ≤ utf8Length before
      · rw [if_pos (decide_eq_true fits), if_pos (decide_eq_true fits)]
        simp only [lastOffset?_filter]
        cases semicolon : Text.splitAtLast? ';' behind with
        | none => rfl
        | some valueParts =>
            obtain ⟨literal, rest⟩ := valueParts
            obtain ⟨rfl, _⟩ := Text.splitAtLast?_eq_some_iff.mp semicolon
            simp only [Option.map_some, Text.slice?_append_right fits, slice?_value, name?]
            cases ((Text.dropUtf8? keyword.utf8Length before).map Text.trim).filter
              fun name => !name.isEmpty <;> rfl
      · rw [if_neg (by simpa using fits), if_neg (by simpa using fits)]

end ConstLine

end ConfigConstants
