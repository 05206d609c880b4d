import ConfigConstants.Proofs.Text.Decoding

/-!
ASCII bytes among any others. The decoder takes each for itself and begins anew behind it, so a text
can be decoded in the parts between them. The main statements say this of the lines of a text, and
that the ASCII code points of a text are the ASCII bytes that it is read from, in their order.
-/

set_option autoImplicit false

namespace ConfigConstants

namespace Text

namespace Utf8

theorem reads_encode (text : Text) : Reads (encode text) text := by
  induction text with
  | nil => exact .nothing
  | cons head tail ih =>
      rw [encode_cons]
      exact .codePoint head ih

theorem decode_encode (text : Text) : decode (encode text) = text :=
  (reads_iff _ _).mp (reads_encode text)

theorem toText?_eq_some_iff {bytes : List UInt8} {text : Text} :
    toText? bytes = some text ↔ encode text = bytes := by
  unfold toText?
  constructor
  · intro spelled
    split at spelled
    · next whole =>
        cases spelled
        exact whole
    · contradiction
  · rintro rfl
    rw [decode_encode, if_pos rfl]

theorem toUInt8_mem_encode {char : Char} (ascii : char.toNat < 0x80) {text : Text}
    (member : char ∈ text) : char.toUInt8 ∈ encode text := by
  apply List.mem_flatMap.mpr
  refine ⟨char, member, ?_⟩
  rw [utf8EncodeChar_of_ascii ascii]
  exact List.mem_singleton_self _

/-! ## Parts between ASCII bytes -/

theorem decodeFrom_append_ascii {byte : UInt8} (ascii : byte ≤ 0x7F) (pending : Option Pending)
    (front back : List UInt8) :
    decodeFrom pending (front ++ byte :: back) =
      decodeFrom pending front ++ Char.ofNat byte.toNat :: decode back := by
  induction front generalizing pending with
  | nil =>
      change (step pending byte).1 ++ decodeFrom (step pending byte).2 back =
        flush pending ++ Char.ofNat byte.toNat :: decode back
      rw [step_ascii pending ascii, List.append_assoc]
      rfl
  | cons head tail ih => rw [List.cons_append, decodeFrom, decodeFrom, ih, List.append_assoc]

theorem decode_append_ascii {byte : UInt8} (ascii : byte ≤ 0x7F) (front back : List UInt8) :
    decode (front ++ byte :: back) = decode front ++ Char.ofNat byte.toNat :: decode back :=
  decodeFrom_append_ascii ascii none front back

theorem decode_intercalate {byte : UInt8} (ascii : byte ≤ 0x7F) (parts : List (List UInt8)) :
    decode ([byte].intercalate parts) =
      [Char.ofNat byte.toNat].intercalate (parts.map decode) := by
  induction parts with
  | nil => rfl
  | cons first later ih =>
      cases later with
      | nil => rw [List.intercalate_singleton, List.map_singleton, List.intercalate_singleton]
      | cons second others =>
          rw [List.map_cons, List.map_cons, List.intercalate_cons_cons,
            List.intercalate_cons_cons, List.append_assoc, List.singleton_append,
            decode_append_ascii ascii, ih, List.map_cons, List.append_assoc]
          rfl

def newlineByte : UInt8 := 0x0A

/-- The text that the lines of a file make, each of them decoded by itself. -/
def decodeByLine (bytes : List UInt8) : Text :=
  ['\n'].intercalate ((bytes.splitOn newlineByte).map decode)

theorem decode_eq_decodeByLine (bytes : List UInt8) : decode bytes = decodeByLine bytes :=
  calc decode bytes
    _ = decode ([newlineByte].intercalate (bytes.splitOn newlineByte)) := by
        rw [List.intercalate_splitOn]
    _ = decodeByLine bytes := decode_intercalate (by decide) _

/-! ## The ASCII code points -/

theorem IsBroken.toNat_ge {front rest : List UInt8} (isBroken : IsBroken front rest) :
    ∀ byte ∈ front, 0x80 ≤ byte.toNat := by
  intro byte member
  apply Nat.le_of_not_lt
  intro ascii
  cases isBroken.begins with
  | inl single =>
      obtain ⟨only, rfl⟩ := List.length_eq_one_iff.mp single
      rw [List.mem_singleton.mp member] at ascii
      apply isBroken.notWhole (Char.ofNat only.toNat)
      exact utf8EncodeChar_ofNat (Nat.le_of_lt_succ ascii) ▸ List.prefix_refl _
  | inr begins =>
      obtain ⟨char, isPrefix⟩ := begins
      have charAscii : char.toNat < 0x80 := by
        apply Nat.lt_of_not_le
        intro beyond
        have large := toNat_ge_of_mem_utf8EncodeChar beyond (isPrefix.subset member)
        omega
      apply isBroken.notWhole char
      have positive := List.length_pos_iff.mpr isBroken.nonempty
      have length : (String.utf8EncodeChar char).length ≤ front.length := by
        rw [utf8EncodeChar_of_ascii charAscii]
        exact positive
      exact List.IsPrefix.eq_of_length_le isPrefix length ▸ List.prefix_refl _

theorem Reads.filter_ascii {bytes : List UInt8} {text : Text} (reads : Reads bytes text) :
    text.filter (·.toNat < 0x80) =
      (bytes.filter (·.toNat < 0x80)).map fun byte => Char.ofNat byte.toNat := by
  induction reads with
  | nothing => rfl
  | @codePoint char rest text _ ih =>
      rw [List.filter_append, List.map_append, ← ih]
      by_cases ascii : char.toNat < 0x80
      · have sameCode : char.toUInt8.toNat = char.toNat := by
          rw [Char.toUInt8, UInt32.toNat_toUInt8]
          exact Nat.mod_eq_of_lt (Nat.lt_trans ascii (by decide))
        rw [utf8EncodeChar_of_ascii ascii, List.filter_cons_of_pos (by simpa using ascii),
          List.filter_cons_of_pos (by simpa [sameCode] using ascii), List.map_cons, sameCode,
          Char.ofNat_toNat]
        rfl
      · have noAscii : (String.utf8EncodeChar char).filter (·.toNat < 0x80) = [] := by
          apply List.filter_eq_nil_iff.mpr
          intro byte member
          have large := toNat_ge_of_mem_utf8EncodeChar (Nat.le_of_not_lt ascii) member
          simpa using large
        rw [noAscii, List.filter_cons_of_neg (by simpa using ascii)]
        rfl
  | @broken front rest text isBroken _ ih =>
      have noAscii : front.filter (·.toNat < 0x80) = [] := by
        apply List.filter_eq_nil_iff.mpr
        intro byte member
        simpa using isBroken.toNat_ge byte member
      rw [List.filter_append, List.map_append, ← ih, noAscii,
        List.filter_cons_of_neg (by decide)]
      rfl

theorem filter_ascii_decode (bytes : List UInt8) :
    (decode bytes).filter (·.toNat < 0x80) =
      (bytes.filter (·.toNat < 0x80)).map fun byte => Char.ofNat byte.toNat :=
  ((reads_iff bytes _).mpr rfl).filter_ascii

theorem newline_notMem_decode {bytes : List UInt8} (noNewline : newlineByte ∉ bytes) :
    '\n' ∉ decode bytes := by
  intro member
  have isAscii : '\n' ∈ (decode bytes).filter (·.toNat < 0x80) :=
    List.mem_filter.mpr ⟨member, by decide⟩
  rw [filter_ascii_decode] at isAscii
  obtain ⟨byte, byteMember, isNewline⟩ := List.mem_map.mp isAscii
  obtain ⟨inBytes, ascii⟩ := List.mem_filter.mp byteMember
  have isSmall : byte.toNat ≤ 0x7F := Nat.le_of_lt_succ (by simpa using ascii)
  have whole := utf8EncodeChar_ofNat isSmall
  rw [isNewline] at whole
  have byteIs : byte = newlineByte := (List.cons.inj whole).1.symm
  exact noNewline (byteIs ▸ inBytes)

end Utf8

end Text

end ConfigConstants
