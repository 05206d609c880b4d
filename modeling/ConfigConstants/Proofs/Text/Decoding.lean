import Mathlib.Data.List.Basic
import ConfigConstants.Proofs.Text.Bytes

/-!
What any bytes are read as. Code points are read from their bytes; of other bytes the longest part
that begins a code point, or else the first byte alone, becomes one replacement character. The main
statement says that every byte sequence has exactly one such reading and that the decoder gives it.
The decoder is followed by what may come behind an unfinished code point.
-/

set_option autoImplicit false

namespace ConfigConstants

namespace Text

namespace Utf8

def BeginsCodePoint (bytes : List UInt8) : Prop :=
  ∃ char : Char, bytes <+: String.utf8EncodeChar char

/-- Bytes in front of others that are read as one replacement character. -/
structure IsBroken (front rest : List UInt8) : Prop where
  nonempty : front ≠ []
  begins : front.length = 1 ∨ BeginsCodePoint front
  notWhole : ∀ char : Char, ¬ String.utf8EncodeChar char <+: front
  longest : ∀ next ∈ rest.head?, ¬ BeginsCodePoint (front ++ [next])

/-- The bytes are read as the text. -/
inductive Reads : List UInt8 → Text → Prop
  | nothing : Reads [] []
  | codePoint (char : Char) {rest : List UInt8} {text : Text} : Reads rest text →
      Reads (String.utf8EncodeChar char ++ rest) (char :: text)
  | broken {front rest : List UInt8} {text : Text} : IsBroken front rest → Reads rest text →
      Reads (front ++ rest) (replacement :: text)

/-! ## The bytes of one code point -/

def IsLater (byte : UInt8) : Prop :=
  0x80 ≤ byte.toNat ∧ byte.toNat ≤ 0xBF

/-- The code that the bits of a first byte and the bytes behind it make. -/
def codeFrom (bits : Nat) (later : List UInt8) : Nat :=
  later.foldl (fun bits byte => bits * 64 + (byte.toNat - 0x80)) bits

theorem codeFrom_cons (bits : Nat) (next : UInt8) (later : List UInt8) :
    codeFrom bits (next :: later) = codeFrom (bits * 64 + (next.toNat - 0x80)) later :=
  List.foldl_cons

/-- The bytes of code points with their codes. The ranges of some second bytes rule out codes that
have shorter spellings, and codes that are no code points. -/
inductive WellFormed : List UInt8 → Nat → Prop
  | one (first : UInt8) : first.toNat ≤ 0x7F → WellFormed [first] first.toNat
  | two (first : UInt8) {second : UInt8} : 0xC2 ≤ first.toNat → first.toNat ≤ 0xDF →
      IsLater second → WellFormed [first, second] (codeFrom (first.toNat - 0xC0) [second])
  | three (first : UInt8) {second third : UInt8} : 0xE0 ≤ first.toNat → first.toNat ≤ 0xEF →
      IsLater second → (first.toNat = 0xE0 → 0xA0 ≤ second.toNat) →
      (first.toNat = 0xED → second.toNat ≤ 0x9F) → IsLater third →
      WellFormed [first, second, third] (codeFrom (first.toNat - 0xE0) [second, third])
  | four (first : UInt8) {second third fourth : UInt8} : 0xF0 ≤ first.toNat → first.toNat ≤ 0xF4 →
      IsLater second → (first.toNat = 0xF0 → 0x90 ≤ second.toNat) →
      (first.toNat = 0xF4 → second.toNat ≤ 0x8F) → IsLater third → IsLater fourth →
      WellFormed [first, second, third, fourth]
        (codeFrom (first.toNat - 0xF0) [second, third, fourth])

theorem toNat_laterByte (code : Nat) : (UInt8.ofNat (code % 64 + 128)).toNat = code % 64 + 128 := by
  rw [UInt8.toNat_ofNat']
  omega

theorem isLater_laterByte (code : Nat) : IsLater (UInt8.ofNat (code % 64 + 128)) := by
  rw [IsLater, toNat_laterByte]
  omega

theorem wellFormed_utf8EncodeChar (char : Char) :
    WellFormed (String.utf8EncodeChar char) char.toNat := by
  have valid : char.toNat < 0xD800 ∨ 0xDFFF < char.toNat ∧ char.toNat < 0x110000 := char.valid
  unfold String.utf8EncodeChar
  simp only [Char.toNat_val]
  generalize char.toNat = code at *
  split_ifs with isOne isTwo isThree
  · have firstIs : (UInt8.ofNat code).toNat = code := by
      rw [UInt8.toNat_ofNat']
      omega
    have spelled := WellFormed.one (UInt8.ofNat code) (by omega)
    rwa [firstIs] at spelled
  · have firstIs : (UInt8.ofNat (code / 64 % 32 + 192)).toNat = code / 64 + 192 := by
      rw [UInt8.toNat_ofNat']
      omega
    have spelled := WellFormed.two (UInt8.ofNat (code / 64 % 32 + 192)) (by omega)
      (by omega) (isLater_laterByte code)
    have codeIs : codeFrom (code / 64 + 192 - 0xC0) [UInt8.ofNat (code % 64 + 128)] = code := by
      simp only [codeFrom, List.foldl_cons, List.foldl_nil, toNat_laterByte]
      omega
    rwa [firstIs, codeIs] at spelled
  · have firstIs : (UInt8.ofNat (code / 4096 % 16 + 224)).toNat = code / 4096 + 224 := by
      rw [UInt8.toNat_ofNat']
      omega
    have spelled := WellFormed.three (UInt8.ofNat (code / 4096 % 16 + 224)) (by omega)
      (by omega) (isLater_laterByte (code / 64)) (by rw [firstIs, toNat_laterByte]; omega)
      (by rw [firstIs, toNat_laterByte]; omega) (isLater_laterByte code)
    have codeIs : codeFrom (code / 4096 + 224 - 0xE0)
        [UInt8.ofNat (code / 64 % 64 + 128), UInt8.ofNat (code % 64 + 128)] = code := by
      simp only [codeFrom, List.foldl_cons, List.foldl_nil, toNat_laterByte]
      omega
    rwa [firstIs, codeIs] at spelled
  · have firstIs : (UInt8.ofNat (code / 262144 % 8 + 240)).toNat = code / 262144 + 240 := by
      rw [UInt8.toNat_ofNat']
      omega
    have spelled := WellFormed.four (UInt8.ofNat (code / 262144 % 8 + 240)) (by omega)
      (by omega) (isLater_laterByte (code / 4096)) (by rw [firstIs, toNat_laterByte]; omega)
      (by rw [firstIs, toNat_laterByte]; omega) (isLater_laterByte (code / 64))
      (isLater_laterByte code)
    have codeIs : codeFrom (code / 262144 + 240 - 0xF0)
        [UInt8.ofNat (code / 4096 % 64 + 128), UInt8.ofNat (code / 64 % 64 + 128),
          UInt8.ofNat (code % 64 + 128)] = code := by
      simp only [codeFrom, List.foldl_cons, List.foldl_nil, toNat_laterByte]
      omega
    rwa [firstIs, codeIs] at spelled

/-- Well-formed bytes of one length are those of no code point but the one that they make. -/
theorem exists_char_of_wellFormed {bytes : List UInt8} {code : Nat}
    (wellFormed : WellFormed bytes code) :
    ∃ char : Char, char.toNat = code ∧ String.utf8EncodeChar char = bytes := by
  have byteIs {code : Nat} (byte : UInt8) (same : code % 2 ^ 8 = byte.toNat) :
      UInt8.ofNat code = byte := by
    rw [← UInt8.toNat_inj, UInt8.toNat_ofNat', same]
  have charIs {code : Nat} (valid : code.isValidChar) :
      (Char.ofNatAux code valid).val.toNat = code := rfl
  cases wellFormed with
  | one first small =>
      have valid : first.toNat.isValidChar := by unfold Nat.isValidChar; omega
      refine ⟨Char.ofNatAux _ valid, rfl, ?_⟩
      rw [String.utf8EncodeChar, charIs, if_pos small, UInt8.ofNat_toNat]
  | @two first second least greatest later =>
      unfold IsLater at later
      generalize codeIs : codeFrom (first.toNat - 0xC0) [second] = code
      simp only [codeFrom, List.foldl_cons, List.foldl_nil] at codeIs
      have valid : code.isValidChar := by unfold Nat.isValidChar; omega
      refine ⟨Char.ofNatAux _ valid, rfl, ?_⟩
      rw [String.utf8EncodeChar, charIs, if_neg (by omega), if_pos (by omega),
        byteIs first (by omega), byteIs second (by omega)]
  | @three first second third least greatest later notLonger noSurrogate last =>
      unfold IsLater at later last
      generalize codeIs : codeFrom (first.toNat - 0xE0) [second, third] = code
      simp only [codeFrom, List.foldl_cons, List.foldl_nil] at codeIs
      have valid : code.isValidChar := by unfold Nat.isValidChar; omega
      refine ⟨Char.ofNatAux _ valid, rfl, ?_⟩
      rw [String.utf8EncodeChar, charIs, if_neg (by omega), if_neg (by omega), if_pos (by omega),
        byteIs first (by omega), byteIs second (by omega), byteIs third (by omega)]
  | @four first second third fourth least greatest later notLonger notBeyond next last =>
      unfold IsLater at later next last
      generalize codeIs : codeFrom (first.toNat - 0xF0) [second, third, fourth] = code
      simp only [codeFrom, List.foldl_cons, List.foldl_nil] at codeIs
      have valid : code.isValidChar := by unfold Nat.isValidChar; omega
      refine ⟨Char.ofNatAux _ valid, rfl, ?_⟩
      rw [String.utf8EncodeChar, charIs, if_neg (by omega), if_neg (by omega), if_neg (by omega),
        byteIs first (by omega), byteIs second (by omega), byteIs third (by omega),
        byteIs fourth (by omega)]

/-! ## Unfinished code points -/

def Pending.Continues (pending : Pending) : List UInt8 → Prop
  | [] => False
  | next :: later =>
      (pending.least ≤ next ∧ next ≤ pending.greatest) ∧
        later.length = pending.laterBytes ∧ ∀ byte ∈ later, IsLater byte

/-- The bytes of an unfinished code point: the code points that begin with them are those that the
right bytes behind them complete. -/
structure Pending.HasRead (pending : Pending) (seen : List UInt8) : Prop where
  nonempty : seen ≠ []
  begins : seen.length = 1 ∨ BeginsCodePoint seen
  notWhole : ∀ char : Char, ¬ String.utf8EncodeChar char <+: seen
  completed : ∀ rest, pending.Continues rest →
    ∃ char : Char, char.toNat = codeFrom pending.bits rest ∧
      String.utf8EncodeChar char = seen ++ rest
  continued : ∀ (char : Char) (rest : List UInt8), String.utf8EncodeChar char = seen ++ rest →
    pending.Continues rest

theorem utf8EncodeChar_ofNat {byte : UInt8} (ascii : byte.toNat ≤ 0x7F) :
    String.utf8EncodeChar (Char.ofNat byte.toNat) = [byte] := by
  obtain ⟨char, charIs, whole⟩ := exists_char_of_wellFormed (.one byte ascii)
  rw [← charIs, Char.ofNat_toNat, whole]

theorem wellFormed_of_prefix_singleton {char : Char} {first : UInt8}
    (isPrefix : String.utf8EncodeChar char <+: [first]) : WellFormed [first] char.toNat := by
  have wellFormed := wellFormed_utf8EncodeChar char
  cases List.prefix_cons_iff.mp isPrefix with
  | inl isEmpty =>
      rw [isEmpty] at wellFormed
      contradiction
  | inr alone =>
      obtain ⟨rest, whole, isEmpty⟩ := alone
      rw [whole, List.prefix_nil.mp isEmpty] at wellFormed
      exact wellFormed

theorem isBroken_first {first : UInt8} (outside : ∀ rest code, ¬ WellFormed (first :: rest) code)
    (rest : List UInt8) : IsBroken [first] rest where
  nonempty := List.cons_ne_nil _ _
  begins := Or.inl rfl
  notWhole _ isPrefix := outside [] _ (wellFormed_of_prefix_singleton isPrefix)
  longest next _ begins := by
    obtain ⟨char, behind, whole⟩ := begins
    have wellFormed := wellFormed_utf8EncodeChar char
    rw [← whole] at wellFormed
    exact outside _ _ wellFormed

theorem hasRead_first {first : UInt8} {pending : Pending}
    (completed : ∀ rest, pending.Continues rest →
      WellFormed (first :: rest) (codeFrom pending.bits rest))
    (continued : ∀ rest code, WellFormed (first :: rest) code → pending.Continues rest) :
    pending.HasRead [first] where
  nonempty := List.cons_ne_nil _ _
  begins := Or.inl rfl
  notWhole char isPrefix := continued [] _ (wellFormed_of_prefix_singleton isPrefix)
  completed rest continues := exists_char_of_wellFormed (completed rest continues)
  continued char rest whole := by
    have wellFormed := wellFormed_utf8EncodeChar char
    rw [whole] at wellFormed
    exact continued rest _ wellFormed

theorem hasRead_two {first : UInt8} (least : 0xC2 ≤ first.toNat) (greatest : first.toNat ≤ 0xDF) :
    (continuing (first.toNat - 0xC0) 0).HasRead [first] := by
  apply hasRead_first
  · intro rest continues
    cases rest with
    | nil => exact continues.elim
    | cons second later =>
        obtain ⟨inRange, isEmpty, _⟩ := continues
        rw [List.length_eq_zero_iff.mp isEmpty]
        exact .two first least greatest inRange
  · intro rest code wellFormed
    cases wellFormed with
    | one | three | four => omega
    | two _ _ _ later => exact ⟨later, rfl, List.forall_mem_nil _⟩

theorem hasRead_three {first : UInt8} {pending : Pending} (bits : pending.bits = first.toNat - 0xE0)
    (laterBytes : pending.laterBytes = 1) (least : 0xE0 ≤ first.toNat)
    (greatest : first.toNat ≤ 0xEF)
    (range : ∀ second : UInt8, pending.least ≤ second ∧ second ≤ pending.greatest ↔
      IsLater second ∧ (first.toNat = 0xE0 → 0xA0 ≤ second.toNat) ∧
        (first.toNat = 0xED → second.toNat ≤ 0x9F)) :
    pending.HasRead [first] := by
  apply hasRead_first
  · intro rest continues
    rw [bits]
    cases rest with
    | nil => exact continues.elim
    | cons second later =>
        obtain ⟨inRange, isLong, allLater⟩ := continues
        obtain ⟨isLater, notLonger, noSurrogate⟩ := (range second).mp inRange
        obtain ⟨third, rfl⟩ := List.length_eq_one_iff.mp (isLong.trans laterBytes)
        exact .three first least greatest isLater notLonger noSurrogate
          (allLater third List.mem_cons_self)
  · intro rest code wellFormed
    cases wellFormed with
    | one | two | four => omega
    | three _ _ _ isLater notLonger noSurrogate last =>
        exact ⟨(range _).mpr ⟨isLater, notLonger, noSurrogate⟩, laterBytes.symm,
          List.forall_mem_singleton.mpr last⟩

theorem hasRead_four {first : UInt8} {pending : Pending} (bits : pending.bits = first.toNat - 0xF0)
    (laterBytes : pending.laterBytes = 2) (least : 0xF0 ≤ first.toNat)
    (greatest : first.toNat ≤ 0xF4)
    (range : ∀ second : UInt8, pending.least ≤ second ∧ second ≤ pending.greatest ↔
      IsLater second ∧ (first.toNat = 0xF0 → 0x90 ≤ second.toNat) ∧
        (first.toNat = 0xF4 → second.toNat ≤ 0x8F)) :
    pending.HasRead [first] := by
  apply hasRead_first
  · intro rest continues
    rw [bits]
    cases rest with
    | nil => exact continues.elim
    | cons second later =>
        obtain ⟨inRange, isLong, allLater⟩ := continues
        obtain ⟨isLater, notLonger, notBeyond⟩ := (range second).mp inRange
        obtain ⟨third, fourth, rfl⟩ := List.length_eq_two.mp (isLong.trans laterBytes)
        exact .four first least greatest isLater notLonger notBeyond
          (allLater third List.mem_cons_self)
          (allLater fourth (List.mem_cons_of_mem _ List.mem_cons_self))
  · intro rest code wellFormed
    cases wellFormed with
    | one | two | three => omega
    | four _ _ _ isLater notLonger notBeyond next last =>
        exact ⟨(range _).mpr ⟨isLater, notLonger, notBeyond⟩, laterBytes.symm,
          List.forall_mem_cons.mpr ⟨next, List.forall_mem_singleton.mpr last⟩⟩

theorem start_two {first : UInt8} (least : 0xC2 ≤ first.toNat) (greatest : first.toNat ≤ 0xDF) :
    ∃ pending, start first = ([], some pending) ∧ pending.HasRead [first] := by
  unfold start
  simp only [UInt8.le_iff_toNat_le, UInt8.lt_iff_toNat_lt, UInt8.reduceToNat]
  rw [if_neg (by omega), if_neg (by omega), if_pos greatest]
  exact ⟨_, rfl, hasRead_two least greatest⟩

theorem start_three {first : UInt8} (least : 0xE0 ≤ first.toNat) (greatest : first.toNat ≤ 0xEF) :
    ∃ pending, start first = ([], some pending) ∧ pending.HasRead [first] := by
  unfold start
  simp only [UInt8.le_iff_toNat_le, UInt8.lt_iff_toNat_lt, ← UInt8.toNat_inj, UInt8.reduceToNat]
  rw [if_neg (by omega), if_neg (by omega), if_neg (by omega)]
  by_cases isLeast : first.toNat = 0xE0
  · rw [if_pos isLeast]
    refine ⟨_, rfl, hasRead_three (by rw [isLeast]) rfl least greatest ?_⟩
    intro second
    simp only [UInt8.le_iff_toNat_le, UInt8.reduceToNat, IsLater]
    omega
  rw [if_neg isLeast]
  by_cases beforeSurrogates : first.toNat = 0xED
  · rw [if_pos beforeSurrogates]
    refine ⟨_, rfl, hasRead_three (by rw [beforeSurrogates]) rfl least greatest ?_⟩
    intro second
    simp only [UInt8.le_iff_toNat_le, UInt8.reduceToNat, IsLater]
    omega
  rw [if_neg beforeSurrogates, if_pos greatest]
  refine ⟨_, rfl, hasRead_three rfl rfl least greatest ?_⟩
  intro second
  simp only [continuing, UInt8.le_iff_toNat_le, UInt8.reduceToNat, IsLater]
  omega

theorem start_four {first : UInt8} (least : 0xF0 ≤ first.toNat) (greatest : first.toNat ≤ 0xF4) :
    ∃ pending, start first = ([], some pending) ∧ pending.HasRead [first] := by
  unfold start
  simp only [UInt8.le_iff_toNat_le, UInt8.lt_iff_toNat_lt, ← UInt8.toNat_inj, UInt8.reduceToNat]
  rw [if_neg (by omega), if_neg (by omega), if_neg (by omega), if_neg (by omega),
    if_neg (by omega), if_neg (by omega)]
  by_cases isLeast : first.toNat = 0xF0
  · rw [if_pos isLeast]
    refine ⟨_, rfl, hasRead_four (by rw [isLeast]) rfl least greatest ?_⟩
    intro second
    simp only [UInt8.le_iff_toNat_le, UInt8.reduceToNat, IsLater]
    omega
  rw [if_neg isLeast]
  by_cases isGreatest : first.toNat = 0xF4
  · rw [if_neg (by omega), if_pos isGreatest]
    refine ⟨_, rfl, hasRead_four (by rw [isGreatest]) rfl least greatest ?_⟩
    intro second
    simp only [UInt8.le_iff_toNat_le, UInt8.reduceToNat, IsLater]
    omega
  rw [if_pos (by omega)]
  refine ⟨_, rfl, hasRead_four rfl rfl least greatest ?_⟩
  intro second
  simp only [continuing, UInt8.le_iff_toNat_le, UInt8.reduceToNat, IsLater]
  omega

theorem start_of_ascii {first : UInt8} (ascii : first.toNat ≤ 0x7F) :
    start first = ([Char.ofNat first.toNat], none) :=
  if_pos (UInt8.le_iff_toNat_le.mpr ascii)

theorem start_of_outside {first : UInt8} (notAscii : ¬ first.toNat ≤ 0x7F)
    (outside : first.toNat < 0xC2 ∨ 0xF4 < first.toNat) : start first = ([replacement], none) := by
  unfold start
  simp only [UInt8.le_iff_toNat_le, UInt8.lt_iff_toNat_lt, ← UInt8.toNat_inj, UInt8.reduceToNat]
  rw [if_neg notAscii]
  cases outside with
  | inl below => rw [if_pos below]
  | inr above =>
      rw [if_neg (by omega), if_neg (by omega), if_neg (by omega), if_neg (by omega),
        if_neg (by omega), if_neg (by omega), if_neg (by omega), if_neg (by omega)]

/-- How a byte is read where a code point begins: as a code point, as broken whatever follows, or
as the first byte of an unfinished code point. -/
theorem start_spec (byte : UInt8) :
    (start byte = ([Char.ofNat byte.toNat], none) ∧
      String.utf8EncodeChar (Char.ofNat byte.toNat) = [byte]) ∨
    (start byte = ([replacement], none) ∧ ∀ rest, IsBroken [byte] rest) ∨
    ∃ pending, start byte = ([], some pending) ∧ pending.HasRead [byte] := by
  by_cases ascii : byte.toNat ≤ 0x7F
  · exact Or.inl ⟨start_of_ascii ascii, utf8EncodeChar_ofNat ascii⟩
  right
  by_cases outside : byte.toNat < 0xC2 ∨ 0xF4 < byte.toNat
  · refine Or.inl ⟨start_of_outside ascii outside, isBroken_first ?_⟩
    intro rest code wellFormed
    cases wellFormed <;> omega
  right
  by_cases two : byte.toNat ≤ 0xDF
  · exact start_two (by omega) two
  by_cases three : byte.toNat ≤ 0xEF
  · exact start_three (by omega) three
  · exact start_four (by omega) (by omega)

namespace Pending

variable {pending : Pending} {seen : List UInt8}

theorem HasRead.isBroken (hasRead : pending.HasRead seen) {rest : List UInt8}
    (outside : ∀ next ∈ rest.head?, ¬ (pending.least ≤ next ∧ next ≤ pending.greatest)) :
    IsBroken seen rest where
  nonempty := hasRead.nonempty
  begins := hasRead.begins
  notWhole := hasRead.notWhole
  longest next isNext begins := by
    obtain ⟨char, behind, whole⟩ := begins
    rw [List.append_assoc] at whole
    exact outside next isNext (hasRead.continued char _ whole.symm).1

theorem HasRead.completes (hasRead : pending.HasRead seen) (noLater : pending.laterBytes = 0)
    {next : UInt8} (inRange : pending.least ≤ next ∧ next ≤ pending.greatest) :
    String.utf8EncodeChar (Char.ofNat (pending.bits * 64 + (next.toNat - 0x80))) =
      seen ++ [next] := by
  obtain ⟨char, charIs, whole⟩ :=
    hasRead.completed [next] ⟨inRange, noLater.symm, List.forall_mem_nil _⟩
  have codeIs : codeFrom pending.bits [next] = pending.bits * 64 + (next.toNat - 0x80) := rfl
  rw [← codeIs, ← charIs, Char.ofNat_toNat, whole]

theorem HasRead.goesOn (hasRead : pending.HasRead seen) {later : Nat}
    (more : pending.laterBytes = later + 1) {next : UInt8}
    (inRange : pending.least ≤ next ∧ next ≤ pending.greatest) :
    (continuing (pending.bits * 64 + (next.toNat - 0x80)) later).HasRead (seen ++ [next]) := by
  have completed (rest : List UInt8) (isLong : rest.length = later + 1)
      (allLater : ∀ byte ∈ rest, IsLater byte) :=
    hasRead.completed (next :: rest) ⟨inRange, isLong.trans more.symm, allLater⟩
  have continued (char : Char) (rest : List UInt8)
      (whole : String.utf8EncodeChar char = seen ++ [next] ++ rest) :
      rest.length = later + 1 ∧ ∀ byte ∈ rest, IsLater byte := by
    rw [List.append_assoc] at whole
    have continues := (hasRead.continued char _ whole).2
    rw [more] at continues
    exact continues
  refine ⟨List.append_ne_nil_of_right_ne_nil _ (List.cons_ne_nil _ _), Or.inr ?_, ?_, ?_, ?_⟩
  · obtain ⟨char, _, whole⟩ := completed (List.replicate (later + 1) 0x80) List.length_replicate
      (fun byte member => by rw [List.eq_of_mem_replicate member]; exact ⟨by decide, by decide⟩)
    exact ⟨char, _, by rw [whole, List.append_assoc]; rfl⟩
  · intro char isPrefix
    cases List.prefix_concat_iff.mp isPrefix with
    | inl whole =>
        have tooShort := (continued char [] (by rw [whole, List.append_nil])).1
        contradiction
    | inr within => exact hasRead.notWhole char within
  · intro rest continues
    cases rest with
    | nil => exact continues.elim
    | cons first others =>
        obtain ⟨firstInRange, isLong, allLater⟩ := continues
        obtain ⟨char, charIs, whole⟩ := completed (first :: others) (congrArg Nat.succ isLong)
          (List.forall_mem_cons.mpr ⟨firstInRange, allLater⟩)
        rw [codeFrom_cons] at charIs
        exact ⟨char, charIs, by rw [whole, List.append_assoc]; rfl⟩
  · intro char rest whole
    obtain ⟨isLong, allLater⟩ := continued char rest whole
    cases rest with
    | nil => contradiction
    | cons first others =>
        obtain ⟨firstLater, othersLater⟩ := List.forall_mem_cons.mp allLater
        exact ⟨firstLater, Nat.succ.inj isLong, othersLater⟩

end Pending

theorem reads_decodeFrom_none (byte : UInt8) {rest : List UInt8}
    (further : Reads rest (decodeFrom none rest) ∧ ∀ pending seen, pending.HasRead seen →
      Reads (seen ++ rest) (decodeFrom (some pending) rest)) :
    Reads (byte :: rest) (decodeFrom none (byte :: rest)) := by
  rw [decodeFrom, step]
  rcases start_spec byte with ⟨started, whole⟩ | ⟨started, isBroken⟩ | ⟨pending, started, hasRead⟩
  · rw [started]
    have reads := Reads.codePoint (Char.ofNat byte.toNat) further.1
    rw [whole] at reads
    exact reads
  · rw [started]
    exact .broken (isBroken rest) further.1
  · rw [started]
    exact further.2 pending [byte] hasRead

theorem reads_decodeFrom (bytes : List UInt8) :
    Reads bytes (decodeFrom none bytes) ∧ ∀ pending seen, pending.HasRead seen →
      Reads (seen ++ bytes) (decodeFrom (some pending) bytes) := by
  -- a byte that breaks a code point off is read afresh, so both halves need each other
  induction bytes with
  | nil =>
      constructor
      · exact .nothing
      · intro pending seen hasRead
        exact .broken (hasRead.isBroken (by simp)) .nothing
  | cons byte rest ih =>
      have fresh := reads_decodeFrom_none byte ih
      refine ⟨fresh, ?_⟩
      intro pending seen hasRead
      by_cases inRange : pending.least ≤ byte ∧ byte ≤ pending.greatest
      · rw [decodeFrom, step, if_pos inRange]
        cases laterBytes : pending.laterBytes with
        | zero =>
            have reads := Reads.codePoint
              (Char.ofNat (pending.bits * 64 + (byte.toNat - 0x80))) ih.1
            rw [hasRead.completes laterBytes inRange, List.append_assoc] at reads
            exact reads
        | succ later =>
            have reads := ih.2 _ _ (hasRead.goesOn laterBytes inRange)
            rw [List.append_assoc] at reads
            exact reads
      · rw [decodeFrom, step, if_neg inRange]
        apply Reads.broken _ fresh
        apply hasRead.isBroken
        intro next isNext
        cases isNext
        exact inRange

/-! ## One reading -/

theorem eq_of_utf8EncodeChar_append {char other : Char} {rest otherRest : List UInt8}
    (same : String.utf8EncodeChar char ++ rest = String.utf8EncodeChar other ++ otherRest) :
    char = other ∧ rest = otherRest := by
  have charEq : char = other := by
    rcases Nat.lt_trichotomy char.toNat other.toNat with below | equal | above
    · have less := utf8EncodeChar_append_lt below rest otherRest
      rw [same] at less
      exact absurd less (List.lt_irrefl _)
    · exact Char.toNat_inj.mp equal
    · have less := utf8EncodeChar_append_lt above otherRest rest
      rw [same] at less
      exact absurd less (List.lt_irrefl _)
  subst charEq
  exact ⟨rfl, List.append_cancel_left same⟩

theorem IsBroken.not_prefix {front rest : List UInt8} (isBroken : IsBroken front rest)
    (char : Char) : ¬ String.utf8EncodeChar char <+: front ++ rest := by
  intro isPrefix
  cases rest with
  | nil =>
      rw [List.append_nil] at isPrefix
      exact isBroken.notWhole char isPrefix
  | cons next behind =>
      rw [List.append_cons] at isPrefix
      have onward := List.prefix_append (front ++ [next]) behind
      cases List.prefix_or_prefix_of_prefix isPrefix onward with
      | inl within =>
          cases List.prefix_concat_iff.mp within with
          | inl whole => exact isBroken.longest next rfl ⟨char, whole ▸ List.prefix_refl _⟩
          | inr inFront => exact isBroken.notWhole char inFront
      | inr beyond => exact isBroken.longest next rfl ⟨char, beyond⟩

theorem IsBroken.length_le {front rest other otherRest : List UInt8}
    (isBroken : IsBroken front rest) (otherBroken : IsBroken other otherRest)
    (same : front ++ rest = other ++ otherRest) : other.length ≤ front.length := by
  apply Nat.le_of_not_lt
  intro shorter
  have within : front <+: other := List.prefix_of_prefix_length_le
    (List.prefix_append front rest) (same ▸ List.prefix_append other otherRest)
    (Nat.le_of_lt shorter)
  obtain ⟨behind, otherEq⟩ := within
  have positive := List.length_pos_iff.mpr isBroken.nonempty
  cases behind with
  | nil =>
      rw [List.append_nil] at otherEq
      rw [otherEq] at shorter
      exact Nat.lt_irrefl _ shorter
  | cons next later =>
      rw [← otherEq, List.append_assoc, List.append_cancel_left_eq] at same
      have isNext : rest.head? = some next := by rw [same]; rfl
      cases otherBroken.begins with
      | inl single => omega
      | inr begins =>
          obtain ⟨char, isPrefix⟩ := begins
          apply isBroken.longest next isNext
          refine ⟨char, List.IsPrefix.trans ⟨later, ?_⟩ isPrefix⟩
          rw [← otherEq, List.append_assoc]
          rfl

theorem IsBroken.unique {front rest other otherRest : List UInt8} (isBroken : IsBroken front rest)
    (otherBroken : IsBroken other otherRest) (same : front ++ rest = other ++ otherRest) :
    rest = otherRest := by
  have sameLength := Nat.le_antisymm (otherBroken.length_le isBroken same.symm)
    (isBroken.length_le otherBroken same)
  exact (List.append_inj same sameLength).2

theorem Reads.unique {bytes : List UInt8} {text other : Text} (reads : Reads bytes text)
    (otherReads : Reads bytes other) : text = other := by
  induction reads generalizing other with
  | nothing =>
      generalize whole : ([] : List UInt8) = bytes at otherReads
      cases otherReads with
      | nothing => rfl
      | codePoint char _ =>
          exact absurd (List.append_eq_nil_iff.mp whole.symm).1 String.utf8EncodeChar_ne_nil
      | broken isBroken _ =>
          exact absurd (List.append_eq_nil_iff.mp whole.symm).1 isBroken.nonempty
  | @codePoint char rest text _ ih =>
      generalize whole : String.utf8EncodeChar char ++ rest = bytes at otherReads
      cases otherReads with
      | nothing => exact absurd (List.append_eq_nil_iff.mp whole).1 String.utf8EncodeChar_ne_nil
      | codePoint otherChar others =>
          obtain ⟨rfl, rfl⟩ := eq_of_utf8EncodeChar_append whole
          rw [ih others]
      | broken isBroken _ => exact absurd ⟨rest, whole⟩ (isBroken.not_prefix char)
  | @broken front rest text isBroken _ ih =>
      generalize whole : front ++ rest = bytes at otherReads
      cases otherReads with
      | nothing => exact absurd (List.append_eq_nil_iff.mp whole).1 isBroken.nonempty
      | codePoint otherChar _ =>
          exact absurd ⟨_, whole.symm⟩ (isBroken.not_prefix otherChar)
      | broken otherBroken others =>
          have sameRest := isBroken.unique otherBroken whole
          subst sameRest
          rw [ih others]

/-- Every byte sequence is read as one text, which the decoder gives. -/
theorem reads_iff (bytes : List UInt8) (text : Text) : Reads bytes text ↔ decode bytes = text := by
  constructor
  · intro reads
    exact (reads_decodeFrom bytes).1.unique reads
  · intro decoded
    rw [← decoded]
    exact (reads_decodeFrom bytes).1

end Utf8

end Text

end ConfigConstants
