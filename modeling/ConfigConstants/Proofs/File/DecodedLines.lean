import ConfigConstants.File.Loading
import ConfigConstants.File.Tree
import ConfigConstants.Proofs.Text.AsciiBytes
import ConfigConstants.Proofs.Text.Runs

/-!
Loading a file of any bytes. The main statement says that every admitted file that can be read gives
the constants of the text that its lines make when each is decoded by itself. Bytes that are no text
therefore reach no other line, whatever they would begin.
-/

set_option autoImplicit false

namespace ConfigConstants

namespace Loading

open Text.Utf8

theorem result_load {system : FileSystem} {extensions : Extensions} {path : Path}
    {bytes : List UInt8} (found : system.find? path = some (.regular (.ok bytes)))
    (admitted : extensions.admits path = true) :
    (load system extensions path).result = .ok (Source.constants (decode bytes)) := by
  have source : sourceAt system extensions path = .ok (decode bytes) := by
    unfold sourceAt
    rw [found]
    exact if_pos admitted
  rw [load, source]

/-- Loading gives the constants of the lines, each decoded by itself. A line that is text is decoded
to that, any other to its one reading, and neither makes a new line. Every ASCII byte divides what
is decoded and stands for itself, and no other byte is read as one. -/
theorem bad_bytes_stay_on_their_line {system : FileSystem} {extensions : Extensions} {path : Path}
    {bytes : List UInt8} (found : system.find? path = some (.regular (.ok bytes)))
    (admitted : extensions.admits path = true) :
    (load system extensions path).result = .ok (Source.constants (decodeByLine bytes)) ∧
    (∀ line ∈ bytes.splitOn newlineByte,
      (∀ text, Reads line text ↔ decode line = text) ∧ '\n' ∉ decode line ∧
        ∀ text, encode text = line → decode line = text) ∧
    (∀ front byte back, byte ≤ 0x7F → front ++ byte :: back = bytes →
      decodeByLine bytes = decode front ++ Char.ofNat byte.toNat :: decode back) ∧
    (decodeByLine bytes).filter (·.toNat < 0x80) =
      (bytes.filter (·.toNat < 0x80)).map (fun byte => Char.ofNat byte.toNat) ∧
    ∀ text, encode text = bytes →
      (load system extensions path).result = .ok (Source.constants text) := by
  have result := result_load found admitted
  rw [decode_eq_decodeByLine] at result
  refine ⟨result, ?lines, ?divided, ?ascii, ?text⟩
  case lines =>
    intro line member
    refine ⟨reads_iff line, ?_, ?_⟩
    · exact newline_notMem_decode (Text.notMem_of_mem_splitOn member)
    · intro text whole
      rw [← whole, decode_encode]
  case divided =>
    intro front byte back ascii whole
    rw [← decode_eq_decodeByLine, ← whole, decode_append_ascii ascii]
  case ascii =>
    rw [← decode_eq_decodeByLine]
    exact filter_ascii_decode bytes
  case text =>
    intro text whole
    rw [result, ← decode_eq_decodeByLine, ← whole, decode_encode]

theorem unfinished_code_point_before_newline :
    let system := ((FileTree.empty []).addFile "a.php".toList
      (.ok [0x41, 0xE2, 0x82, 0x0A, 0x42])).toSystem
    system.find? "a.php".toList = some (.regular (.ok [0x41, 0xE2, 0x82, 0x0A, 0x42])) ∧
    Extensions.standard.admits "a.php".toList = true ∧
    decodeByLine [0x41, 0xE2, 0x82, 0x0A, 0x42] = ['A', '\uFFFD', '\n', 'B'] ∧
    (load system Extensions.standard "a.php".toList).result =
      .ok (Source.constants ['A', '\uFFFD', '\n', 'B']) := by
  intro system
  have found : system.find? "a.php".toList =
      some (.regular (.ok [0x41, 0xE2, 0x82, 0x0A, 0x42])) := rfl
  have admitted : Extensions.standard.admits "a.php".toList = true := by decide
  have lines : decodeByLine [0x41, 0xE2, 0x82, 0x0A, 0x42] = ['A', '\uFFFD', '\n', 'B'] := by
    decide
  have loaded := (bad_bytes_stay_on_their_line found admitted).1
  rw [lines] at loaded
  exact ⟨found, admitted, lines, loaded⟩

end Loading

end ConfigConstants
