import ConfigConstants.Proofs.Lexeme.ByteAgreement

/-!
What the byte reader yields for a line, whatever the line holds. It never misses a slice, and its
lexemes stand side by side from the first byte of the line to the last, each at the column that the
bytes before it make. The one thing that can stop it is a number with more digits or points than can
be counted.
-/

set_option autoImplicit false

namespace ConfigConstants

open Text (utf8Length)

/-- Lexemes that lie side by side over a whole line, and know where they stand. -/
structure Tiles (line : Nat) (text : Text) (found : List LocatedLexeme) : Prop where
  nonempty : ∀ lexeme ∈ found, lexeme.text ≠ []
  concatenated : found.flatMap (·.text) = text
  onLine : ∀ lexeme ∈ found, lexeme.position.line = line
  column : ∀ index lexeme, found[index]? = some lexeme →
    lexeme.position.column = 1 + utf8Length ((found.take index).flatMap (·.text))

theorem length_le_utf8Length_flatMap {found : List LocatedLexeme}
    (nonempty : ∀ lexeme ∈ found, lexeme.text ≠ []) :
    found.length ≤ utf8Length (found.flatMap (·.text)) := by
  induction found with
  | nil => exact Nat.le_refl 0
  | cons lexeme later ih =>
      have laterAtMost := ih fun other member => nonempty other (List.mem_cons_of_mem _ member)
      have lexemeAtMost := Text.length_le_utf8Length lexeme.text
      have notEmpty := List.length_pos_iff.mpr (nonempty lexeme List.mem_cons_self)
      rw [List.flatMap_cons, Text.utf8Length_append, List.length_cons]
      omega

namespace Tiles

variable {line : Nat} {text : Text} {found : List LocatedLexeme}

theorem slice?_eq (tiles : Tiles line text found) {lexeme : LocatedLexeme}
    (member : lexeme ∈ found) :
    text.slice? (lexeme.position.column - 1)
      (lexeme.position.column - 1 + utf8Length lexeme.text) = some lexeme.text := by
  obtain ⟨index, atIndex⟩ := List.mem_iff_getElem?.mp member
  obtain ⟨inRange, isLexeme⟩ := List.getElem?_eq_some_iff.mp atIndex
  have textEq : text = (found.take index).flatMap (·.text) ++ lexeme.text ++
      (found.drop (index + 1)).flatMap (·.text) := by
    calc text
      _ = (found.take index ++ found.drop index).flatMap (·.text) := by
        rw [List.take_append_drop, tiles.concatenated]
      _ = _ := by
        rw [List.drop_eq_getElem_cons inRange, isLexeme, List.flatMap_append, List.flatMap_cons,
          List.append_assoc]
  have sliced := Text.slice?_append ((found.take index).flatMap (·.text)) lexeme.text
    ((found.drop (index + 1)).flatMap (·.text))
  rw [← textEq] at sliced
  rw [tiles.column index lexeme atIndex, Nat.add_sub_cancel_left]
  exact sliced

theorem length_le (tiles : Tiles line text found) : found.length ≤ utf8Length text := by
  have atMost := length_le_utf8Length_flatMap tiles.nonempty
  rwa [tiles.concatenated] at atMost

end Tiles

theorem tiles_locatedLexemes (line : Nat) (text : Text) :
    Tiles line text (locatedLexemes line text) := by
  have unlocated : (locatedLexemes line text).map LocatedLexeme.toLexeme = lexemes text :=
    Lexeme.map_toLexeme_locate line 1 (lexemes text)
  have flatMap_text (members : List LocatedLexeme) :
      members.flatMap (·.text) = (members.map LocatedLexeme.toLexeme).flatMap Lexeme.text := by
    rw [List.flatMap_map]
  constructor
  case nonempty =>
    intro lexeme member
    have isLexeme : lexeme.toLexeme ∈ lexemes text := by
      rw [← unlocated]
      exact List.mem_map_of_mem member
    exact text_ne_nil_of_mem_lexemes isLexeme
  case concatenated => rw [flatMap_text, unlocated, flatMap_text_lexemes]
  case onLine => exact fun lexeme member => Lexeme.line_of_mem_locate member
  case column =>
    intro index lexeme atIndex
    rw [flatMap_text, List.map_take, unlocated]
    rw [locatedLexemes, Lexeme.getElem?_locate] at atIndex
    obtain ⟨_, _, rfl⟩ := Option.map_eq_some_iff.mp atIndex
    rfl

theorem exists_lexemes_replicate_digit {count : Nat} (positive : 0 < count) :
    ∃ kind, lexemes (List.replicate count '1') = [⟨kind, List.replicate count '1'⟩] := by
  obtain ⟨others, rfl⟩ := Nat.exists_eq_succ_of_ne_zero (Nat.ne_of_gt positive)
  have allDigits : ∀ char ∈ List.replicate others '1', Lexeme.isNumberChar char = true := by
    intro char member
    rw [List.eq_of_mem_replicate member]
    decide
  have isCut : Lexeme.cut '1' (List.replicate others '1') =
      Lexeme.Cut.numeral '1' (List.replicate others '1') :=
    congrArg (Lexeme.Rule.cut '1' (List.replicate others '1')) (Lexeme.rule_of_isWordChar rfl _)
  rw [List.replicate_succ, lexemes_cons, isCut, Lexeme.Cut.numeral, Lexeme.Cut.run,
    List.takeWhile_eq_self_iff.mpr allDigits, List.dropWhile_eq_nil_iff.mpr allDigits, lexemes_nil]
  exact ⟨_, rfl⟩

/-- The reader stops at a number with more digits than a word can count. -/
theorem ByteReader.lexemes?_replicate_digit {count : Nat} (tooMany : 0x7FFFFFFF < count)
    (line : Nat) : ByteReader.lexemes? .stops line (List.replicate count '1') = none := by
  apply Option.eq_none_iff_forall_ne_some.mpr
  intro found read
  obtain ⟨kind, single⟩ := exists_lexemes_replicate_digit (Nat.zero_lt_of_lt tooMany)
  have counted := (ByteReader.lexemes?_eq_some_iff.mp read).2
  rw [single] at counted
  have isSome := counted _ (List.mem_singleton_self _)
  rw [Numeral.countedAccepts?_replicate_digit tooMany] at isSome
  contradiction

/-- Reading a line by its bytes comes to an end without missing a slice, unless counting the digits
and points of a number has to stop; it need not where counts wrap around, and cannot in a line of
less than `2 ^ 31` bytes. What the reader yields tiles the line. -/
theorem ByteReader.lexemes_tile_line (overflow : Overflow) (line : Nat) (text : Text) :
    (overflow = .wraps ∨ utf8Length text < 0x80000000 →
      (ByteReader.lexemes? overflow line text).isSome = true) ∧
    (ByteReader.lexemes? overflow line text = none ↔
      ∃ lexeme ∈ lexemes text, Numeral.countedAccepts? overflow lexeme.text = none) ∧
    ∀ found, ByteReader.lexemes? overflow line text = some found →
      found = locatedLexemes line text ∧ Tiles line text found ∧
      found.length ≤ utf8Length text ∧
      ∀ lexeme ∈ found, text.slice? (lexeme.position.column - 1)
        (lexeme.position.column - 1 + utf8Length lexeme.text) = some lexeme.text := by
  refine ⟨?ends, ?stops, ?tiles⟩
  case ends =>
    intro countable
    rw [ByteReader.lexemes?_of_countable countable]
    rfl
  case stops =>
    rw [Option.eq_none_iff_forall_ne_some]
    simp only [Ne, ByteReader.lexemes?_eq_some_iff, not_and, forall_eq, not_forall,
      Option.not_isSome_iff_eq_none, exists_prop]
  case tiles =>
    intro found read
    obtain ⟨rfl, _⟩ := ByteReader.lexemes?_eq_some_iff.mp read
    have tiles := tiles_locatedLexemes line text
    exact ⟨rfl, tiles, tiles.length_le, fun lexeme member => tiles.slice?_eq member⟩

theorem ByteReader.lexemes_tile_word_and_number :
    ∃ found, ByteReader.lexemes? .stops 3 "é=12".toList = some found ∧
      Tiles 3 "é=12".toList found ∧ found.map (·.position.column) = [1, 3, 4] := by
  have line := ByteReader.lexemes_tile_line .stops 3 "é=12".toList
  obtain ⟨found, read⟩ := Option.isSome_iff_exists.mp (line.1 (Or.inr (by decide)))
  obtain ⟨isLexer, tiles, _⟩ := line.2.2 found read
  refine ⟨found, read, tiles, ?_⟩
  rw [isLexer]
  decide +kernel

/-- `2 ^ 31` digits are one too many. -/
theorem ByteReader.lexemes?_too_many_digits :
    ByteReader.lexemes? .stops 1 (List.replicate 0x80000000 '1') = none :=
  ByteReader.lexemes?_replicate_digit (by decide) 1

end ConfigConstants
