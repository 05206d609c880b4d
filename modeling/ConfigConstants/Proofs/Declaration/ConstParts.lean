import ConfigConstants.Proofs.Declaration.ConstOffsets
import ConfigConstants.Proofs.Text.Runs
import ConfigConstants.Source.Line

/-!
The grammar of a constant line: six bytes for the keyword, a name, an equals sign, a value, a
semicolon, and anything behind it. The first equals sign and the last semicolon are the ones that
count, so a line has at most one such reading. The main statement says that a line is accepted
exactly when it has one, which flaw is reported otherwise, and what the flaws come to on a line that
begins with the keyword.
-/

set_option autoImplicit false

namespace ConfigConstants

namespace Text

theorem trimEnd_eq_nil_iff {text : Text} :
    trimEnd text = [] ↔ ∀ char ∈ text, isBlank char = true := by
  simp [trimEnd, List.dropWhile_eq_nil_iff]

theorem trim_eq_nil_iff {text : Text} : trim text = [] ↔ ∀ char ∈ text, isBlank char = true := by
  rw [trim, trimEnd_eq_nil_iff]
  constructor
  · intro restBlank char member
    rw [← List.takeWhile_append_dropWhile (p := isBlank) (l := text), List.mem_append] at member
    rcases member with inRun | inRest
    · exact forall_mem_takeWhile isBlank text char inRun
    · exact restBlank char inRest
  · intro allBlank char member
    exact allBlank char ((List.dropWhile_suffix isBlank).subset member)

theorem toNat_lt_of_toLower {char : Char} (ascii : char.toLower.toNat < 0x80) :
    char.toNat < 0x80 := by
  unfold Char.toLower at ascii
  split at ascii
  · next isUpper =>
      have atMost : char.toNat ≤ 90 := isUpper.2
      omega
  · exact ascii

theorem utf8Length_eq_length {text : Text} (ascii : ∀ char ∈ text, char.toNat < 0x80) :
    utf8Length text = text.length := by
  induction text with
  | nil => rfl
  | cons head tail ih =>
      have oneByte : head.utf8Size = 1 := by
        rw [← String.length_utf8EncodeChar,
          Utf8.utf8EncodeChar_of_ascii (ascii head List.mem_cons_self)]
        rfl
      rw [utf8Length_cons, oneByte, List.length_cons, Nat.add_comm,
        ih fun char member => ascii char (List.mem_cons_of_mem head member)]

theorem eq_of_split_at_first {mark : Char} {before behind other rest : Text}
    (same : before ++ mark :: behind = other ++ mark :: rest) (absent : mark ∉ before)
    (otherAbsent : mark ∉ other) : before = other ∧ behind = rest := by
  have split := splitAtFirst?_eq_some_iff.mpr ⟨same, otherAbsent⟩
  rw [splitAtFirst?_eq_some_iff.mpr ⟨rfl, absent⟩] at split
  exact Prod.mk.inj (Option.some.inj split)

end Text

/-- A constant line in its parts. What stands in the keyword's place is only counted. -/
@[ext]
structure ConstParts where
  place : Text
  name : Text
  value : Text
  behind : Text
  place_bytes : place.utf8Length = 6
  noEquals : '=' ∉ place ++ name
  noSemicolon : ';' ∉ behind
  named : ∃ char ∈ name, Text.isBlank char = false

namespace ConstParts

def text (parts : ConstParts) : Text :=
  parts.place ++ parts.name ++ '=' :: (parts.value ++ ';' :: parts.behind)

def declaration (line : Nat) (parts : ConstParts) : Declaration :=
  ⟨parts.name.trim, parts.value.trim, ⟨line, 1⟩⟩

/-- No text has two readings. -/
theorem eq_of_text_eq {parts other : ConstParts} (same : parts.text = other.text) :
    parts = other := by
  obtain ⟨sameBefore, sameBehind⟩ :=
    Text.eq_of_split_at_first same parts.noEquals other.noEquals
  have sameValue : some (parts.value, parts.behind) = some (other.value, other.behind) := by
    rw [← Text.splitAtLast?_eq_some_iff.mpr ⟨rfl, parts.noSemicolon⟩,
      ← Text.splitAtLast?_eq_some_iff.mpr ⟨rfl, other.noSemicolon⟩]
    exact congrArg (Text.splitAtLast? ';') sameBehind
  have sameName : some parts.name = some other.name := by
    rw [← Text.dropUtf8?_append parts.place, ← Text.dropUtf8?_append other.place, sameBefore,
      parts.place_bytes, other.place_bytes]
  have nameEq := Option.some.inj sameName
  obtain ⟨valueEq, behindEq⟩ := Prod.mk.inj (Option.some.inj sameValue)
  rw [nameEq] at sameBefore
  exact ConstParts.ext (List.append_cancel_right sameBefore) nameEq valueEq behindEq

end ConstParts

namespace ConstLine

open Text (utf8Length)

/-- There is no equals sign, or the first one leaves no room for the keyword. -/
def LacksEquals (text : Text) : Prop :=
  '=' ∉ text ∨
    ∃ before behind, text = before ++ '=' :: behind ∧ '=' ∉ before ∧ utf8Length before < 6

/-- There is no semicolon behind the first equals sign. -/
def LacksSemicolon (text : Text) : Prop :=
  ∃ before behind, text = before ++ '=' :: behind ∧ '=' ∉ before ∧ ';' ∉ behind

theorem splitAtEquals?_eq_some_iff {text before behind : Text} :
    splitAtEquals? text = some (before, behind) ↔
      text = before ++ '=' :: behind ∧ '=' ∉ before ∧ 6 ≤ utf8Length before := by
  rw [splitAtEquals?, Option.filter_eq_some_iff, Text.splitAtFirst?_eq_some_iff, and_assoc,
    decide_eq_true_iff]
  rfl

theorem splitAtEquals?_eq_none_iff {text : Text} :
    splitAtEquals? text = none ↔ LacksEquals text := by
  cases found : Text.splitAtFirst? '=' text with
  | none =>
      have absent := Text.splitAtFirst?_eq_none_iff.mp found
      rw [splitAtEquals?, found]
      exact iff_of_true rfl (Or.inl absent)
  | some parts =>
      obtain ⟨before, behind⟩ := parts
      obtain ⟨rfl, absent⟩ := Text.splitAtFirst?_eq_some_iff.mp found
      rw [splitAtEquals?, found, Option.filter_some]
      by_cases fits : keyword.utf8Length ≤ utf8Length before
      · rw [if_pos (decide_eq_true fits)]
        apply iff_of_false (Option.some_ne_none _)
        rintro (noEquals | ⟨other, rest, same, otherAbsent, short⟩)
        · exact noEquals (by simp)
        · obtain ⟨rfl, _⟩ := Text.eq_of_split_at_first same absent otherAbsent
          exact Nat.not_le_of_lt short fits
      · rw [if_neg (by simpa using fits)]
        exact iff_of_true rfl (Or.inr ⟨before, behind, rfl, absent, Nat.lt_of_not_le fits⟩)

theorem lacksSemicolon_iff {before behind : Text} (absent : '=' ∉ before) :
    LacksSemicolon (before ++ '=' :: behind) ↔ ';' ∉ behind := by
  constructor
  · rintro ⟨other, rest, same, otherAbsent, noSemicolon⟩
    obtain ⟨_, rfl⟩ := Text.eq_of_split_at_first same absent otherAbsent
    exact noSemicolon
  · intro noSemicolon
    exact ⟨before, behind, rfl, absent, noSemicolon⟩

theorem name?_eq_some_iff {before name : Text} :
    name? before = some name ↔
      ∃ place written, before = place ++ written ∧ utf8Length place = 6 ∧
        (∃ char ∈ written, Text.isBlank char = false) ∧ written.trim = name := by
  have notAllBlank (written : Text) : (!written.trim.isEmpty) = true ↔
      ∃ char ∈ written, Text.isBlank char = false := by
    rw [Bool.not_eq_true', List.isEmpty_eq_false_iff, Ne, Text.trim_eq_nil_iff]
    simp
  rw [name?, Option.filter_eq_some_iff, Option.map_eq_some_iff]
  constructor
  · rintro ⟨⟨written, dropped, rfl⟩, nonempty⟩
    obtain ⟨place, rfl, placeBytes⟩ := Text.dropUtf8?_eq_some dropped
    exact ⟨place, written, rfl, placeBytes, (notAllBlank written).mp nonempty, rfl⟩
  · rintro ⟨place, written, rfl, placeBytes, someChar, rfl⟩
    have dropped := Text.dropUtf8?_append place written
    rw [placeBytes] at dropped
    exact ⟨⟨written, dropped, rfl⟩, (notAllBlank written).mpr someChar⟩

/-- What a line can come to. The flaws are looked for in this order. -/
inductive Verdict (line : Nat) (text : Text) : Except MalformedConst Declaration → Prop
  | declares (parts : ConstParts) : parts.text = text →
      Verdict line text (.ok (parts.declaration line))
  | missingEquals : LacksEquals text → Verdict line text (.error ⟨.missingEquals, ⟨line, 1⟩⟩)
  | missingSemicolon : ¬ LacksEquals text → LacksSemicolon text →
      Verdict line text (.error ⟨.missingSemicolon, ⟨line, 1⟩⟩)
  | missingName : ¬ LacksEquals text → ¬ LacksSemicolon text →
      (∀ parts : ConstParts, parts.text ≠ text) →
      Verdict line text (.error ⟨.missingName, ⟨line, 1⟩⟩)

theorem verdict_read (line : Nat) (text : Text) : Verdict line text (read line text) := by
  cases equals : splitAtEquals? text with
  | none =>
      simp only [read, equals]
      exact .missingEquals (splitAtEquals?_eq_none_iff.mp equals)
  | some halves =>
      obtain ⟨before, behind⟩ := halves
      obtain ⟨rfl, absent, fits⟩ := splitAtEquals?_eq_some_iff.mp equals
      have hasEquals : ¬ LacksEquals (before ++ '=' :: behind) := by
        rw [← splitAtEquals?_eq_none_iff, equals]
        exact Option.some_ne_none _
      cases semicolon : Text.splitAtLast? ';' behind with
      | none =>
          have noSemicolon := Text.splitAtLast?_eq_none_iff.mp semicolon
          simp only [read, equals, semicolon]
          exact .missingSemicolon hasEquals ((lacksSemicolon_iff absent).mpr noSemicolon)
      | some pieces =>
          obtain ⟨value, rest⟩ := pieces
          obtain ⟨rfl, noSemicolon⟩ := Text.splitAtLast?_eq_some_iff.mp semicolon
          have hasSemicolon : ¬ LacksSemicolon (before ++ '=' :: (value ++ ';' :: rest)) := by
            rw [lacksSemicolon_iff absent]
            simp
          cases named : name? before with
          | some name =>
              obtain ⟨place, written, rfl, placeBytes, someChar, rfl⟩ := name?_eq_some_iff.mp named
              simp only [read, equals, semicolon, named]
              exact .declares ⟨place, written, value, rest, placeBytes, absent, noSemicolon,
                someChar⟩ rfl
          | none =>
              simp only [read, equals, semicolon, named]
              apply Verdict.missingName hasEquals hasSemicolon
              intro parts same
              obtain ⟨rfl, _⟩ := Text.eq_of_split_at_first same.symm absent parts.noEquals
              have isName := name?_eq_some_iff.mpr
                ⟨parts.place, parts.name, rfl, parts.place_bytes, parts.named, rfl⟩
              rw [named] at isName
              contradiction

theorem not_lacks_of_parts (parts : ConstParts) :
    ¬ LacksEquals parts.text ∧ ¬ LacksSemicolon parts.text := by
  constructor
  · have fits : 6 ≤ utf8Length (parts.place ++ parts.name) := by
      rw [Text.utf8Length_append, parts.place_bytes]
      exact Nat.le_add_right _ _
    have split : splitAtEquals? parts.text = some (parts.place ++ parts.name, _) :=
      splitAtEquals?_eq_some_iff.mpr ⟨rfl, parts.noEquals, fits⟩
    rw [← splitAtEquals?_eq_none_iff, split]
    exact Option.some_ne_none _
  · rw [ConstParts.text, lacksSemicolon_iff parts.noEquals]
    simp

theorem Verdict.unique {line : Nat} {text : Text} {result other : Except MalformedConst Declaration}
    (verdict : Verdict line text result) (otherVerdict : Verdict line text other) :
    result = other := by
  cases verdict with
  | declares parts same =>
      have lacksNothing := not_lacks_of_parts parts
      rw [same] at lacksNothing
      cases otherVerdict with
      | declares otherParts otherSame =>
          rw [ConstParts.eq_of_text_eq (same.trans otherSame.symm)]
      | missingEquals lacks => exact absurd lacks lacksNothing.1
      | missingSemicolon _ lacks => exact absurd lacks lacksNothing.2
      | missingName _ _ unsplit => exact absurd same (unsplit parts)
  | missingEquals lacks =>
      cases otherVerdict with
      | declares parts same => exact absurd (same ▸ lacks) (not_lacks_of_parts parts).1
      | missingEquals _ => rfl
      | missingSemicolon hasEquals _ => exact absurd lacks hasEquals
      | missingName hasEquals _ _ => exact absurd lacks hasEquals
  | missingSemicolon hasEquals lacks =>
      cases otherVerdict with
      | declares parts same => exact absurd (same ▸ lacks) (not_lacks_of_parts parts).2
      | missingEquals otherLacks => exact absurd otherLacks hasEquals
      | missingSemicolon _ _ => rfl
      | missingName _ hasSemicolon _ => exact absurd lacks hasSemicolon
  | missingName hasEquals hasSemicolon unsplit =>
      cases otherVerdict with
      | declares parts same => exact absurd same (unsplit parts)
      | missingEquals lacks => exact absurd lacks hasEquals
      | missingSemicolon _ lacks => exact absurd lacks hasSemicolon
      | missingName _ _ _ => rfl

theorem read_eq_iff {line : Nat} {text : Text} {result : Except MalformedConst Declaration} :
    read line text = result ↔ Verdict line text result := by
  constructor
  · rintro rfl
    exact verdict_read line text
  · exact (verdict_read line text).unique

/-- The line is refused for the given reason, and the error points at its beginning. -/
def Refuses (line : Nat) (text : Text) (reason : Text) : Prop :=
  ∃ error, read line text = .error error ∧ error.position = ⟨line, 1⟩ ∧
    error.flaw.reason = reason

theorem reason_injective {flaw other : ConstFlaw} (same : flaw.reason = other.reason) :
    flaw = other := by
  cases flaw <;> cases other <;> first | rfl | exact absurd same (by decide)

theorem refuses_iff {line : Nat} {text : Text} {flaw : ConstFlaw} :
    Refuses line text flaw.reason ↔ Verdict line text (.error ⟨flaw, ⟨line, 1⟩⟩) := by
  rw [← read_eq_iff]
  constructor
  · rintro ⟨error, isError, atStart, sameReason⟩
    rw [isError, ← atStart, ← reason_injective sameReason]
  · intro isError
    exact ⟨_, isError, rfl, rfl⟩

theorem refuses_missingEquals_iff (line : Nat) (text : Text) :
    Refuses line text "missing '='".toList ↔ LacksEquals text := by
  rw [show "missing '='".toList = ConstFlaw.missingEquals.reason from rfl, refuses_iff]
  constructor
  · rintro ⟨⟩
    assumption
  · exact .missingEquals

theorem refuses_missingSemicolon_iff (line : Nat) (text : Text) :
    Refuses line text "missing ';'".toList ↔ ¬ LacksEquals text ∧ LacksSemicolon text := by
  rw [show "missing ';'".toList = ConstFlaw.missingSemicolon.reason from rfl, refuses_iff]
  constructor
  · rintro ⟨⟩
    constructor <;> assumption
  · rintro ⟨hasEquals, lacks⟩
    exact .missingSemicolon hasEquals lacks

theorem refuses_missingName_iff (line : Nat) (text : Text) :
    Refuses line text "missing name".toList ↔
      ¬ LacksEquals text ∧ ¬ LacksSemicolon text ∧ ∀ parts : ConstParts, parts.text ≠ text := by
  rw [show "missing name".toList = ConstFlaw.missingName.reason from rfl, refuses_iff]
  constructor
  · rintro ⟨⟩
    refine ⟨?_, ?_, ?_⟩ <;> assumption
  · rintro ⟨hasEquals, hasSemicolon, unsplit⟩
    exact .missingName hasEquals hasSemicolon unsplit

def SpellsKeyword (spelling : Text) : Prop :=
  Text.foldCase spelling = keyword

theorem SpellsKeyword.utf8Length_eq {spelling : Text} (spells : SpellsKeyword spelling) :
    utf8Length spelling = 6 := by
  have ascii : ∀ char ∈ spelling, char.toNat < 0x80 := by
    intro char member
    have lowered : char.toLower ∈ keyword := spells ▸ List.mem_map_of_mem member
    have keywordAscii : (keyword.all fun mark => decide (mark.toNat < 0x80)) = true := by decide
    exact Text.toNat_lt_of_toLower (of_decide_eq_true (List.all_eq_true.mp keywordAscii _ lowered))
  have sameLength := congrArg List.length spells
  rw [Text.foldCase, List.length_map] at sameLength
  rw [Text.utf8Length_eq_length ascii, sameLength]
  rfl

theorem SpellsKeyword.notMem {spelling : Text} (spells : SpellsKeyword spelling) :
    '=' ∉ spelling := by
  intro member
  have lowered : '='.toLower ∈ keyword := spells ▸ List.mem_map_of_mem member
  exact absurd lowered (by decide)

theorem exists_spelling_of_constant {source text : Text}
    (isConstant : SourceLine.ofText source = .constant text) :
    ∃ spelling rest, text = spelling ++ rest ∧ SpellsKeyword spelling := by
  unfold SourceLine.ofText SourceLine.ofStripped at isConstant
  split at isConstant
  · next begins =>
      cases isConstant
      obtain ⟨rest, found⟩ := Option.isSome_iff_exists.mp begins
      obtain ⟨spelling, textEq, same⟩ := Text.afterWord?_eq_some found
      exact ⟨spelling, rest, textEq, same⟩
  · split at isConstant <;> cases isConstant

/-- Between the keyword and the first equals sign there are only blanks, and a semicolon stands
behind that. -/
def HasBlankName (text : Text) : Prop :=
  ∃ spelling blanks behind, text = spelling ++ blanks ++ '=' :: behind ∧ SpellsKeyword spelling ∧
    (∀ char ∈ blanks, Text.isBlank char = true) ∧ ';' ∈ behind

section Keyword

variable {spelling : Text} (spells : SpellsKeyword spelling) (rest : Text)

include spells

theorem lacksEquals_iff_of_keyword : LacksEquals (spelling ++ rest) ↔ '=' ∉ spelling ++ rest := by
  constructor
  · rintro (absent | ⟨before, behind, same, _, short⟩)
    · exact absent
    · exfalso
      rcases List.append_eq_append_iff.mp same with ⟨part, rfl, _⟩ | ⟨part, spellingEq, markEq⟩
      · rw [Text.utf8Length_append, spells.utf8Length_eq] at short
        omega
      · cases part with
        | nil =>
            rw [List.append_nil] at spellingEq
            rw [← spellingEq, spells.utf8Length_eq] at short
            omega
        | cons first others =>
            rw [List.cons_append, List.cons.injEq] at markEq
            apply spells.notMem
            rw [spellingEq, markEq.1]
            simp
  · exact Or.inl

theorem missingName_iff_of_keyword :
    (¬ LacksEquals (spelling ++ rest) ∧ ¬ LacksSemicolon (spelling ++ rest) ∧
      ∀ parts : ConstParts, parts.text ≠ spelling ++ rest) ↔ HasBlankName (spelling ++ rest) := by
  constructor
  · rintro ⟨hasEquals, hasSemicolon, unsplit⟩
    rw [lacksEquals_iff_of_keyword spells, Decidable.not_not] at hasEquals
    have inRest : '=' ∈ rest := (List.mem_append.mp hasEquals).resolve_left spells.notMem
    cases found : Text.splitAtFirst? '=' rest with
    | none => exact absurd inRest (Text.splitAtFirst?_eq_none_iff.mp found)
    | some halves =>
        obtain ⟨name, behind⟩ := halves
        obtain ⟨rfl, absent⟩ := Text.splitAtFirst?_eq_some_iff.mp found
        have noEquals : '=' ∉ spelling ++ name := by
          rw [List.mem_append]
          exact not_or.mpr ⟨spells.notMem, absent⟩
        rw [← List.append_assoc, lacksSemicolon_iff noEquals, Decidable.not_not] at hasSemicolon
        refine ⟨spelling, name, behind, (List.append_assoc _ _ _).symm, spells, ?_, hasSemicolon⟩
        intro char member
        cases blank : Text.isBlank char with
        | true => rfl
        | false =>
            -- with a code point that is no blank the text would have parts
            exfalso
            cases semicolon : Text.splitAtLast? ';' behind with
            | none => exact Text.splitAtLast?_eq_none_iff.mp semicolon hasSemicolon
            | some pieces =>
                obtain ⟨value, last⟩ := pieces
                obtain ⟨rfl, noSemicolon⟩ := Text.splitAtLast?_eq_some_iff.mp semicolon
                exact unsplit ⟨spelling, name, value, last, spells.utf8Length_eq, noEquals,
                  noSemicolon, char, member, blank⟩ (List.append_assoc _ _ _)
  · rintro ⟨written, blanks, behind, whole, writtenSpells, allBlank, hasSemicolon⟩
    have noEquals : '=' ∉ written ++ blanks := by
      rw [List.mem_append, not_or]
      refine ⟨writtenSpells.notMem, fun member => ?_⟩
      exact absurd (allBlank '=' member) (by decide)
    rw [whole]
    refine ⟨?_, ?_, ?_⟩
    · rw [List.append_assoc, lacksEquals_iff_of_keyword writtenSpells]
      simp
    · rw [lacksSemicolon_iff noEquals]
      exact not_not_intro hasSemicolon
    · intro parts same
      obtain ⟨sameBefore, _⟩ := Text.eq_of_split_at_first same.symm noEquals parts.noEquals
      have sameName := Text.dropUtf8?_append parts.place parts.name
      rw [← sameBefore, parts.place_bytes, ← writtenSpells.utf8Length_eq,
        Text.dropUtf8?_append] at sameName
      obtain ⟨char, member, notBlank⟩ := parts.named
      rw [← Option.some.inj sameName] at member
      rw [allBlank char member] at notBlank
      contradiction

end Keyword

/-- For every text and every line number: reading by offsets never takes a slice that does not
exist; the text is accepted exactly when it has parts, and then it has them in one way only; and if
not, the reason is the first of three that applies. On a line that begins with the keyword the
reasons are that there is no equals sign at all, no semicolon behind the first one, or nothing but
blanks in front of it. -/
theorem constant_line_read_in_its_one_way (line : Nat) (text : Text) :
    readByOffsets? line text = some (read line text) ∧
    (∀ declaration, read line text = .ok declaration ↔
      ∃ parts : ConstParts, parts.text = text ∧ parts.declaration line = declaration) ∧
    (∀ parts other : ConstParts, parts.text = text → other.text = text → parts = other) ∧
    (Refuses line text "missing '='".toList ↔ LacksEquals text) ∧
    (Refuses line text "missing ';'".toList ↔ ¬ LacksEquals text ∧ LacksSemicolon text) ∧
    (Refuses line text "missing name".toList ↔
      ¬ LacksEquals text ∧ ¬ LacksSemicolon text ∧ ∀ parts : ConstParts, parts.text ≠ text) ∧
    ∀ source, SourceLine.ofText source = .constant text →
      (Refuses line text "missing '='".toList ↔ '=' ∉ text) ∧
      (Refuses line text "missing ';'".toList ↔ LacksSemicolon text) ∧
      (Refuses line text "missing name".toList ↔ HasBlankName text) := by
  refine ⟨readByOffsets?_eq line text, ?accepted, ?oneWay, refuses_missingEquals_iff line text,
    refuses_missingSemicolon_iff line text, refuses_missingName_iff line text, ?keyword⟩
  case accepted =>
    intro declaration
    rw [read_eq_iff]
    constructor
    · rintro ⟨⟩
      next parts same => exact ⟨parts, same, rfl⟩
    · rintro ⟨parts, same, rfl⟩
      exact .declares parts same
  case oneWay =>
    intro parts other same otherSame
    exact ConstParts.eq_of_text_eq (same.trans otherSame.symm)
  case keyword =>
    intro source isConstant
    obtain ⟨spelling, rest, rfl, spells⟩ := exists_spelling_of_constant isConstant
    have noEquals := lacksEquals_iff_of_keyword spells rest
    rw [refuses_missingEquals_iff, refuses_missingSemicolon_iff, refuses_missingName_iff]
    refine ⟨noEquals, ?_, missingName_iff_of_keyword spells rest⟩
    rw [noEquals]
    constructor
    · exact And.right
    · intro lacks
      refine ⟨?_, lacks⟩
      obtain ⟨before, behind, whole, _⟩ := lacks
      rw [whole]
      simp

/-- The keyword's place ends inside a code point of two bytes. -/
example : read 3 "const\u00E9 = 1;".toList = .error ⟨.missingName, ⟨3, 1⟩⟩ := rfl

example : read 1 "const DSN = 'a=b;c'; // x;".toList =
    .ok ⟨"DSN".toList, "'a=b;c'; // x".toList, ⟨1, 1⟩⟩ := rfl

end ConstLine

end ConfigConstants
