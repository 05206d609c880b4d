import ConfigConstants.Text.Basic

/-!
UTF-8, read one byte at a time. Every byte sequence has a reading: a run of bytes that can begin a
code point but is not continued becomes one replacement character, and the byte that broke it is
read afresh. The main statement says that an ASCII byte therefore always stands for itself.
-/

set_option autoImplicit false

namespace ConfigConstants

namespace Text

namespace Utf8

/-- What stands in the text for bytes that are no code point, U+FFFD. -/
def replacement : Char := '\uFFFD'

/-- A code point of which some bytes have been read: its bits so far, how many bytes are still to
come behind the next one, and the range that the next one must lie in. No ASCII byte continues a
code point. -/
structure Pending where
  bits : Nat
  laterBytes : Nat
  least : UInt8
  greatest : UInt8
  least_ge : 0x80 ≤ least
  deriving DecidableEq

def continuing (bits laterBytes : Nat) : Pending :=
  ⟨bits, laterBytes, 0x80, 0xBF, by decide⟩

/-- Reads a byte where a code point begins. The narrower ranges of some second bytes rule out
spellings that are longer than needed, surrogates, and values beyond U+10FFFF. -/
def start (byte : UInt8) : Text × Option Pending :=
  if byte ≤ 0x7F then ([Char.ofNat byte.toNat], none)
  else if byte < 0xC2 then ([replacement], none)
  else if byte ≤ 0xDF then ([], some (continuing (byte.toNat - 0xC0) 0))
  else if byte = 0xE0 then ([], some ⟨0x0, 1, 0xA0, 0xBF, by decide⟩)
  else if byte = 0xED then ([], some ⟨0xD, 1, 0x80, 0x9F, by decide⟩)
  else if byte ≤ 0xEF then ([], some (continuing (byte.toNat - 0xE0) 1))
  else if byte = 0xF0 then ([], some ⟨0x0, 2, 0x90, 0xBF, by decide⟩)
  else if byte ≤ 0xF3 then ([], some (continuing (byte.toNat - 0xF0) 2))
  else if byte = 0xF4 then ([], some ⟨0x4, 2, 0x80, 0x8F, by decide⟩)
  else ([replacement], none)

/-- Reads one byte: the text that it completes, and the code point that it leaves unfinished. -/
def step : Option Pending → UInt8 → Text × Option Pending
  | none, byte => start byte
  | some pending, byte =>
      if pending.least ≤ byte ∧ byte ≤ pending.greatest then
        let bits := pending.bits * 64 + (byte.toNat - 0x80)
        match pending.laterBytes with
        | 0 => ([Char.ofNat bits], none)
        | later + 1 => ([], some (continuing bits later))
      else
        let (text, next) := start byte
        (replacement :: text, next)

def flush : Option Pending → Text
  | none => []
  | some _ => [replacement]

def decodeFrom : Option Pending → List UInt8 → Text
  | pending, [] => flush pending
  | pending, byte :: bytes => (step pending byte).1 ++ decodeFrom (step pending byte).2 bytes

def decode (bytes : List UInt8) : Text :=
  decodeFrom none bytes

def encode (text : Text) : List UInt8 :=
  text.flatMap String.utf8EncodeChar

/-- The text that the bytes spell, if they spell one. -/
def toText? (bytes : List UInt8) : Option Text :=
  if encode (decode bytes) = bytes then some (decode bytes) else none

theorem encode_append (left right : Text) : encode (left ++ right) = encode left ++ encode right :=
  List.flatMap_append

/-- An ASCII byte is read as itself, whatever came before it; what it breaks off is replaced. -/
theorem step_ascii (pending : Option Pending) {byte : UInt8} (ascii : byte ≤ 0x7F) :
    step pending byte = (flush pending ++ [Char.ofNat byte.toNat], none) := by
  cases pending with
  | none => simp [step, start, ascii, flush]
  | some pending =>
      have outside : ¬ (pending.least ≤ byte ∧ byte ≤ pending.greatest) := by
        rintro ⟨reaches, _⟩
        have contradictory := UInt8.le_trans (UInt8.le_trans pending.least_ge reaches) ascii
        exact absurd contradictory (by decide)
      simp [step, start, ascii, flush, outside]

end Utf8

end Text

end ConfigConstants
