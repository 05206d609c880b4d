import Mathlib.Tactic.SplitIfs
import ConfigConstants.Text.Order
import ConfigConstants.Text.Utf8

/-!
The UTF-8 bytes of a text. An ASCII code point is one byte, which is its code; all bytes of any
other code point are 0x80 or more, so no byte of it can be taken for an ASCII one. The order of
texts by code point is the order of their bytes.
-/

set_option autoImplicit false

namespace ConfigConstants

namespace Text

namespace Utf8

theorem encode_cons (head : Char) (tail : Text) :
    encode (head :: tail) = String.utf8EncodeChar head ++ encode tail :=
  List.flatMap_cons

theorem length_encode (text : Text) : (encode text).length = utf8Length text := by
  induction text with
  | nil => rfl
  | cons head tail ih =>
      rw [encode_cons, List.length_append, String.length_utf8EncodeChar, ih, utf8Length_cons]

theorem utf8EncodeChar_of_ascii {char : Char} (ascii : char.toNat < 0x80) :
    String.utf8EncodeChar char = [char.toUInt8] := by
  have fits : char.val.toNat ≤ 127 := Nat.le_of_lt_succ ascii
  unfold String.utf8EncodeChar
  rw [if_pos fits]
  rfl

theorem toNat_ge_of_mem_utf8EncodeChar {char : Char} (beyond : 0x80 ≤ char.toNat) {byte : UInt8}
    (member : byte ∈ String.utf8EncodeChar char) : 0x80 ≤ byte.toNat := by
  have notAscii : ¬ char.val.toNat ≤ 127 := Nat.not_le_of_lt beyond
  unfold String.utf8EncodeChar at member
  rw [if_neg notAscii] at member
  generalize char.val.toNat = code at member
  split_ifs at member <;>
    simp only [List.mem_cons, List.not_mem_nil, or_false] at member <;>
    rcases member with rfl | rfl | rfl | rfl <;>
    rw [UInt8.toNat_ofNat'] <;> omega

/-- Of two code points the one with the smaller code has the smaller bytes, whatever follows. -/
theorem utf8EncodeChar_append_lt {char other : Char} (below : char.toNat < other.toNat)
    (behind following : List UInt8) :
    String.utf8EncodeChar char ++ behind < String.utf8EncodeChar other ++ following := by
  have bound : other.toNat < 0x110000 := by
    cases other.valid with
    | inl low => exact Nat.lt_trans low (by decide)
    | inr high => exact high.2
  -- the last bytes of a code are its digits to the base 64, the first is what is left of it
  have thirdPlace (code : Nat) : code / 4096 = code / 64 / 64 := by omega
  have fourthPlace (code : Nat) : code / 262144 = code / 64 / 64 / 64 := by omega
  have digit (code : Nat) : (code % 64 + 128) % 2 ^ 8 = code % 64 + 128 := by omega
  have firstOfTwo (code : Nat) : (code % 32 + 192) % 2 ^ 8 = code % 32 + 192 := by omega
  have firstOfThree (code : Nat) : (code % 16 + 224) % 2 ^ 8 = code % 16 + 224 := by omega
  have firstOfFour (code : Nat) : (code % 8 + 240) % 2 ^ 8 = code % 8 + 240 := by omega
  unfold String.utf8EncodeChar
  simp only [Char.toNat_val]
  generalize char.toNat = first at *
  generalize other.toNat = second at *
  split_ifs <;>
    simp only [List.cons_append, List.nil_append, List.cons_lt_cons_iff, UInt8.lt_iff_toNat_lt,
      ← UInt8.toNat_inj, UInt8.toNat_ofNat', thirdPlace, fourthPlace, digit, firstOfTwo,
      firstOfThree, firstOfFour] <;>
    omega

theorem encode_lt_of_precedes {text other : Text} (before : precedes text other = true) :
    encode text < encode other := by
  induction text generalizing other with
  | nil =>
      cases other with
      | nil => contradiction
      | cons head tail =>
          rw [encode_cons]
          cases bytes : String.utf8EncodeChar head with
          | nil => exact absurd bytes String.utf8EncodeChar_ne_nil
          | cons first others => exact List.nil_lt_cons _ _
  | cons head tail ih =>
      cases other with
      | nil => contradiction
      | cons otherHead otherTail =>
          rw [encode_cons, encode_cons]
          rcases precedes_cons.mp before with below | ⟨rfl, tailBefore⟩
          · exact utf8EncodeChar_append_lt below _ _
          · exact List.append_left_lt (ih tailBefore)

end Utf8

end Text

end ConfigConstants
