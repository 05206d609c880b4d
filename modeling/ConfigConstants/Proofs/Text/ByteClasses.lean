import ConfigConstants.Proofs.Text.Bytes

/-!
Classes of bytes against classes of code points. Where all bytes of a code point belong to a class
just when the code point belongs to another, asking for bytes in the encoding of a text comes to the
same as asking for code points in the text: for runs, for what comes next, and for where a text is
divided.
-/

set_option autoImplicit false

namespace ConfigConstants

namespace Text

namespace Utf8

/-- All bytes of a code point belong to the class of bytes or none does, as the code point belongs
to the class of code points. -/
def Agree (ofByte : UInt8 → Bool) (ofChar : Char → Bool) : Prop :=
  ∀ char : Char, ∀ byte ∈ String.utf8EncodeChar char, ofByte byte = ofChar char

theorem agree_of_ascii {ofByte : UInt8 → Bool} {ofChar : Char → Bool} (beyond : Bool)
    (onAscii : ∀ code < 0x80, ofByte (UInt8.ofNat code) = ofChar (Char.ofNat code))
    (onBytes : ∀ byte : UInt8, 0x80 ≤ byte.toNat → ofByte byte = beyond)
    (onChars : ∀ char : Char, 0x80 ≤ char.toNat → ofChar char = beyond) :
    Agree ofByte ofChar := by
  intro char byte member
  by_cases ascii : char.toNat < 0x80
  · rw [utf8EncodeChar_of_ascii ascii, List.mem_singleton] at member
    have onCode := onAscii char.toNat ascii
    rw [Char.ofNat_toNat] at onCode
    rw [member]
    exact onCode
  · have beyondAscii : 0x80 ≤ char.toNat := Nat.le_of_not_lt ascii
    rw [onBytes byte (toNat_ge_of_mem_utf8EncodeChar beyondAscii member),
      onChars char beyondAscii]

theorem Agree.or {ofByte otherByte : UInt8 → Bool} {ofChar otherChar : Char → Bool}
    (left : Agree ofByte ofChar) (right : Agree otherByte otherChar) :
    Agree (fun byte => ofByte byte || otherByte byte)
      fun char => ofChar char || otherChar char := by
  intro char byte member
  change (ofByte byte || otherByte byte) = (ofChar char || otherChar char)
  rw [left char byte member, right char byte member]

theorem toUInt8_eq_iff {char mark : Char} (charAscii : char.toNat < 0x80)
    (markAscii : mark.toNat < 0x80) : char.toUInt8 = mark.toUInt8 ↔ char = mark := by
  constructor
  · intro same
    have codes := congrArg UInt8.toNat same
    rw [Char.toUInt8, Char.toUInt8, UInt32.toNat_toUInt8, UInt32.toNat_toUInt8, Char.toNat_val,
      Char.toNat_val] at codes
    apply Char.toNat_inj.mp
    omega
  · intro same
    rw [same]

theorem ne_toUInt8_of_beyond {byte : UInt8} (beyond : 0x80 ≤ byte.toNat) {mark : Char}
    (markAscii : mark.toNat < 0x80) : byte ≠ mark.toUInt8 := by
  rintro rfl
  rw [Char.toUInt8, UInt32.toNat_toUInt8, Char.toNat_val] at beyond
  omega

theorem agree_mark {mark : Char} (markAscii : mark.toNat < 0x80) :
    Agree (· == mark.toUInt8) (· == mark) := by
  intro char byte member
  rw [Bool.eq_iff_iff, beq_iff_eq, beq_iff_eq]
  by_cases ascii : char.toNat < 0x80
  · rw [utf8EncodeChar_of_ascii ascii, List.mem_singleton] at member
    rw [member]
    exact toUInt8_eq_iff ascii markAscii
  · have beyond : 0x80 ≤ char.toNat := Nat.le_of_not_lt ascii
    have differs : char ≠ mark := by
      rintro rfl
      exact ascii markAscii
    exact iff_of_false
      (ne_toUInt8_of_beyond (toNat_ge_of_mem_utf8EncodeChar beyond member) markAscii) differs

theorem takeWhile_encode {ofByte : UInt8 → Bool} {ofChar : Char → Bool}
    (agree : Agree ofByte ofChar) (text : Text) :
    (encode text).takeWhile ofByte = encode (text.takeWhile ofChar) := by
  induction text with
  | nil => rfl
  | cons head tail ih =>
      rw [encode_cons, List.takeWhile_cons]
      cases belongs : ofChar head with
      | true =>
          have allBelong : ∀ byte ∈ String.utf8EncodeChar head, ofByte byte = true := by
            intro byte member
            rw [agree head byte member, belongs]
          rw [List.takeWhile_append_of_pos allBelong, ih]
          exact (encode_cons _ _).symm
      | false =>
          cases bytes : String.utf8EncodeChar head with
          | nil => exact absurd bytes String.utf8EncodeChar_ne_nil
          | cons first others =>
              have firstFails : ofByte first = false := by
                rw [agree head first (by rw [bytes]; exact List.mem_cons_self), belongs]
              rw [List.cons_append, List.takeWhile_cons, firstFails]
              rfl

theorem any_head?_encode {ofByte : UInt8 → Bool} {ofChar : Char → Bool}
    (agree : Agree ofByte ofChar) (text : Text) :
    (encode text).head?.any ofByte = text.head?.any ofChar := by
  cases text with
  | nil => rfl
  | cons head tail =>
      rw [encode_cons]
      cases bytes : String.utf8EncodeChar head with
      | nil => exact absurd bytes String.utf8EncodeChar_ne_nil
      | cons first others =>
          exact agree head first (by rw [bytes]; exact List.mem_cons_self)

theorem head?_encode_eq_some_iff {mark : Char} (ascii : mark.toNat < 0x80) (text : Text) :
    (encode text).head? = some mark.toUInt8 ↔ text.head? = some mark := by
  have same := any_head?_encode (agree_mark ascii) text
  rw [Bool.eq_iff_iff, Option.any_eq_true, Option.any_eq_true] at same
  simpa [beq_iff_eq] using same

/-- No byte of a code point is a mark unless the code point is. -/
theorem notMem_utf8EncodeChar {char mark : Char} (ascii : mark.toNat < 0x80)
    (differs : char ≠ mark) : mark.toUInt8 ∉ String.utf8EncodeChar char := by
  intro member
  have same : (mark.toUInt8 == mark.toUInt8) = (char == mark) :=
    agree_mark ascii char mark.toUInt8 member
  rw [beq_self_eq_true] at same
  exact differs (eq_of_beq same.symm)

end Utf8

end Text

end ConfigConstants
